import Mathlib.Algebra.BigOperators.Fin
import Mathlib.Data.List.GetD
import Pbc.Misc.Darray
import Pbc.Schemes.Ibces

/-!
# Identity based encryption with a vector of points

The test program draws a vector of points, and a key depends on the sum of those whose bit in the
identity is one. The vector holds pointers to the variable into which the points are drawn.
-/

open Pbc.Algebra Pbc.Misc

namespace Pbc.Schemes

section Operations

variable {n : ℕ} {G T : Type} [AddCommGroup G] [CommGroup T]

/-- The points of the program. -/
inductive WatersVar where
  | P
  | P1
  | P2
  | u
  | ui
  | sP2
  | temp
  | S1
  | S2
  | C2
  | C3
  deriving DecidableEq, Repr

/-- The points, and the pointers of the vector. -/
structure WatersState (G : Type) where
  point : WatersVar → G
  L : Darray WatersVar

/-- An assignment to a point. -/
def WatersState.assign (s : WatersState G) (v : WatersVar) (g : G) : WatersState G :=
  { s with point := Function.update s.point v g }

/-- The loop that draws the vector. -/
def watersDrawLoop : List G → WatersState G → Except DarrayFault (WatersState G)
  | [], s => .ok s
  | g :: drawn, s => do
    let s := s.assign .ui g
    let L ← darrayAppend s.L .ui
    watersDrawLoop drawn { s with L }

/-- Setup, with the random `s`, `P`, `P2`, `u` and the points of the vector. -/
def watersSetup (s : ZMod n) (P P2 u : G) (drawn : Fin 50 → G) :
    Except DarrayFault (WatersState G) := do
  let state : WatersState G := ⟨fun _ => 0, darrayInit⟩
  let state := state.assign .P P
  let state := state.assign .P1 (elementMulZn (state.point .P) s)
  let state := state.assign .P2 P2
  let state := state.assign .u u
  let state ← watersDrawLoop (List.ofFn drawn) state
  return state.assign .sP2 (elementMulZn (state.point .P2) s)

/-- The end of a string. -/
def nul : Char := Char.ofNat 0

/-- The string of an identity. -/
def watersString (bits : List Bool) : List Char :=
  bits.map (fun bit => if bit then '1' else '0') ++ [nul]

/-- The loop that looks for the first bit. Its condition is an assignment. -/
def watersFirstLoop (L : Darray WatersVar) :
    ℕ → ℕ → List Char → Except DarrayFault (Option WatersVar × ℕ × List Char)
  | 0, i, string => .ok (none, i, string)
  | steps + 1, i, string =>
    let c := '1'
    let string := string.set i c
    if c ≠ nul then do
      let ptr ← readSlot L.item i
      return (ptr, i, string)
    else watersFirstLoop L steps (i + 1) string

/-- The loop that adds the other points to the first one. -/
def watersAddLoop (string : List Char) (ptr : WatersVar) :
    ℕ → ℕ → WatersState G → Except DarrayFault (WatersState G)
  | 0, _, s => .ok s
  | steps + 1, i, s =>
    if string.getD i nul = 'i' then do
      let slot ← readSlot s.L.item i
      match slot with
      | none => .error .outOfBlock
      | some q => watersAddLoop string ptr steps (i + 1) (s.assign ptr (s.point ptr + s.point q))
    else watersAddLoop string ptr steps (i + 1) s

/-- Key extraction for an identity, with the coin `r`. -/
def watersExtract (s : WatersState G) (bits : List Bool) (r : ZMod n) :
    Except DarrayFault (WatersState G) := do
  let count := bits.length
  let (ptr, i, string) ← watersFirstLoop s.L (count + 1) 0 (watersString bits)
  match ptr with
  | none => .error .outOfBlock
  | some ptr =>
    let i := i + 1
    let s ← watersAddLoop string ptr (count + 1 - i) i s
    let s := s.assign .temp (s.point .u + s.point ptr)
    let s := s.assign .S1 (elementMulZn (s.point .temp) r)
    let s := s.assign .S1 (s.point .S1 + s.point .sP2)
    return s.assign .S2 (elementMulZn (s.point .P) r)

variable (e : SymmetricPairing n G T)

/-- Encryption with the coin `t`: `C1`, and the points `C2` and `C3`. -/
def watersEncrypt (s : WatersState G) (m : T) (t : ZMod n) : T × WatersState G :=
  let C1 := e.pair (s.point .P1) (s.point .P2)
  let C1 := elementPowZn C1 t
  let C1 := C1 * m
  let s := s.assign .C2 (elementMulZn (s.point .P) t)
  let s := s.assign .C3 (elementMulZn (s.point .temp) t)
  (C1, s)

/-- Decryption. -/
def watersDecrypt (s : WatersState G) (C1 : T) : T :=
  let T1 := e.pair (s.point .C3) (s.point .S2)
  let T2 := e.pair (s.point .C2) (s.point .S1)
  let T2 := T2⁻¹
  let T2 := T2 * T1
  C1 * T2

/-- The entries of the vector are the points drawn, and a key is made with `u` and the sum of the
entries whose bit is one, which all keep their values. -/
def WatersHash (s : ZMod n) (P P2 u : G) (drawn : Fin 50 → G) (bits : List Bool) (r : ZMod n) : Prop :=
  ∃ setup key, watersSetup s P P2 u drawn = .ok setup ∧ watersExtract setup bits r = .ok key ∧
    (∀ i : Fin 50, ∃ p, readSlot setup.L.item i = .ok (some p) ∧ setup.point p = drawn i ∧
      key.point p = setup.point p) ∧
    key.point .temp = u + ∑ i : Fin 50, if bits.getD i false then drawn i else 0

end Operations

section Setup

variable {n : ℕ} {G : Type} [AddCommGroup G]

omit [AddCommGroup G] in
/-- The vector gets one pointer for each point drawn, and the variable keeps the last point. -/
theorem watersDrawLoop_ok (drawn : List G) {L : Darray WatersVar} {l : List WatersVar}
    (holds : L.Holds l) (few : l.length + drawn.length ≤ 50) :
    ∃ L', L'.Holds (l ++ List.replicate drawn.length .ui) ∧ ∀ point,
      watersDrawLoop drawn ⟨point, L⟩ =
        .ok ⟨Function.update point .ui (drawn.getLastD (point .ui)), L'⟩ := by
  induction drawn generalizing L l with
  | nil =>
    refine ⟨L, by rwa [List.length_nil, List.replicate_zero, List.append_nil], ?_⟩
    intro point
    rw [watersDrawLoop, List.getLastD_nil, Function.update_eq_self]
  | cons g drawn ih =>
    rw [List.length_cons] at few
    have counted : L.count = L.max → L.max * 2 < 2 ^ 31 := by
      have count := holds.count
      omega
    obtain ⟨L', appended, holds'⟩ := darrayAppend_holds holds .ui counted
    obtain ⟨L'', holds'', run⟩ := ih holds' (by rw [List.length_append, List.length_singleton]; omega)
    refine ⟨L'', ?_, ?_⟩
    · rwa [List.append_assoc, ← List.replicate_one, List.replicate_append_replicate,
        Nat.add_comm 1] at holds''
    · intro point
      rw [watersDrawLoop, List.getLastD_cons]
      simp only [WatersState.assign, appended, bind, Except.bind, run, Function.update_self,
        Function.update_idem]

/-- The points after setup: the vector has fifty pointers to the last point drawn. -/
theorem watersSetup_ok (s : ZMod n) (P P2 u : G) (drawn : Fin 50 → G) :
    ∃ setup, watersSetup s P P2 u drawn = .ok setup ∧
      setup.L.Holds (List.replicate 50 .ui) ∧ setup.point .ui = drawn 49 ∧ setup.point .P = P ∧
      setup.point .P1 = elementMulZn P s ∧ setup.point .P2 = P2 ∧ setup.point .u = u ∧
      setup.point .sP2 = elementMulZn P2 s := by
  have length : (List.ofFn drawn).length = 50 := List.length_ofFn
  have last (g : G) : (List.ofFn drawn).getLastD g = drawn 49 := by
    rw [List.ofFn_succ', List.concat_eq_append, List.getLastD_concat]
    rfl
  obtain ⟨L, holds, run⟩ := watersDrawLoop_ok (List.ofFn drawn) darrayInit_holds
    (by rw [length]; decide)
  rw [length, List.nil_append] at holds
  simp only [last] at run
  refine ⟨_, congrArg (fun result => result >>= fun state : WatersState G =>
    Except.ok (state.assign .sP2 (elementMulZn (state.point .P2) s))) (run _), holds, ?_⟩
  simp only [WatersState.assign, Function.update_apply, reduceCtorEq, if_true, if_false, and_self]

end Setup

section Extraction

variable {n : ℕ} {G : Type} [AddCommGroup G]

/-- Every entry of the vector is the variable. -/
theorem readSlot_replicate {L : Darray WatersVar} (holds : L.Holds (List.replicate 50 .ui)) {i : ℕ}
    (inside : i < 50) : readSlot L.item i = .ok (some .ui) := by
  rw [holds.readSlot (by rwa [List.length_replicate]), List.getElem_replicate]

/-- No character of the string is the letter that the second loop looks for. -/
theorem watersString_ne (bits : List Bool) (i : ℕ) :
    ((watersString bits).set 0 '1').getD i nul ≠ 'i' := by
  have characters : ∀ c ∈ watersString bits, c ≠ 'i' := by
    intro c member
    rcases List.mem_append.mp member with digit | last
    · obtain ⟨bit, -, rfl⟩ := List.mem_map.mp digit
      cases bit <;> decide
    · rw [List.mem_singleton.mp last]
      decide
  by_cases inside : i < ((watersString bits).set 0 '1').length
  · rw [List.getD_eq_getElem _ _ inside]
    rcases List.mem_or_eq_of_mem_set (List.getElem_mem inside) with member | equal
    · exact characters _ member
    · rw [equal]
      decide
  · rw [List.getD_eq_default _ _ (Nat.not_lt.mp inside)]
    decide

/-- Nothing is added. -/
theorem watersAddLoop_none {string : List Char} (none : ∀ i, string.getD i nul ≠ 'i')
    (ptr : WatersVar) (steps i : ℕ) (s : WatersState G) :
    watersAddLoop string ptr steps i s = .ok s := by
  induction steps generalizing i with
  | zero => rfl
  | succ steps ih => rw [watersAddLoop, if_neg (none i), ih]

/-- The key is made with the last point drawn. -/
theorem watersExtract_ok {s : WatersState G} (holds : s.L.Holds (List.replicate 50 .ui))
    (bits : List Bool) (r : ZMod n) : ∃ key, watersExtract s bits r = .ok key ∧
      key.point .temp = s.point .u + s.point .ui ∧ key.point .ui = s.point .ui ∧
      key.point .S1 = elementMulZn (key.point .temp) r + s.point .sP2 ∧
      key.point .S2 = elementMulZn (s.point .P) r ∧ key.point .P = s.point .P ∧
      key.point .P1 = s.point .P1 ∧ key.point .P2 = s.point .P2 := by
  have first : watersFirstLoop s.L (bits.length + 1) 0 (watersString bits) =
      .ok (some .ui, 0, (watersString bits).set 0 '1') := by
    rw [watersFirstLoop, readSlot_replicate holds (by decide)]
    rfl
  simp only [watersExtract, first, bind, Except.bind, watersAddLoop_none (watersString_ne bits),
    WatersState.assign, pure, Except.pure]
  refine ⟨_, rfl, ?_, ?_, ?_, ?_, ?_, ?_, ?_⟩ <;> rfl

/-- The sum over the positions of the ones, of one point. -/
theorem sum_bits (g : G) (bits : List Bool) {size : ℕ} (short : bits.length ≤ size) :
    (∑ i : Fin size, if bits.getD i false then g else 0) = bits.count true • g := by
  induction bits generalizing size with
  | nil =>
    rw [List.count_nil, zero_nsmul]
    exact Finset.sum_eq_zero fun i _ => if_neg (by simp)
  | cons bit bits ih =>
    obtain ⟨size, rfl⟩ : ∃ k, size = k + 1 := ⟨size - 1, by rw [List.length_cons] at short; omega⟩
    rw [List.length_cons] at short
    have tail := ih (Nat.le_of_succ_le_succ short)
    rw [Fin.sum_univ_succ]
    simp only [Fin.val_zero, List.getD_cons_zero, Fin.val_succ, List.getD_cons_succ, tail]
    cases bit with
    | true => rw [if_pos rfl, List.count_cons_self, succ_nsmul, add_comm]
    | false =>
      rw [if_neg Bool.false_ne_true, zero_add, List.count_cons_of_ne Bool.false_ne_true]

/-- The vector and the key are as they should be exactly where all points drawn are equal and
the sum of as many as there are ones is one of them. -/
theorem watersHash_iff (s : ZMod n) (P P2 u : G) (drawn : Fin 50 → G) {bits : List Bool}
    (short : bits.length ≤ 50) (r : ZMod n) : WatersHash s P P2 u drawn bits r ↔
      (∀ i, drawn i = drawn 49) ∧ bits.count true • drawn 49 = drawn 49 := by
  obtain ⟨setup, made, holds, point, -, -, -, offset, -⟩ := watersSetup_ok s P P2 u drawn
  obtain ⟨key, extracted, temp, kept, -⟩ := watersExtract_ok holds bits r
  rw [point, offset] at temp
  have equal (all : ∀ i, drawn i = drawn 49) :
      (∑ i : Fin 50, if bits.getD i false then drawn i else 0) = bits.count true • drawn 49 := by
    simp only [all, sum_bits _ bits short]
  constructor
  · rintro ⟨setup', key', made', extracted', entries, sum⟩
    cases made.symm.trans made'
    cases extracted.symm.trans extracted'
    have all : ∀ i, drawn i = drawn 49 := by
      intro i
      obtain ⟨p, slot, value, -⟩ := entries i
      rw [readSlot_replicate holds i.isLt] at slot
      cases slot
      exact value.symm.trans point
    refine ⟨all, ?_⟩
    rw [temp, equal all] at sum
    exact (add_left_cancel sum).symm
  · rintro ⟨all, one⟩
    refine ⟨setup, key, made, extracted, ?_, ?_⟩
    · intro i
      exact ⟨.ui, readSlot_replicate holds i.isLt, point.trans (all i).symm, kept⟩
    · rw [temp, equal all, one]

end Extraction

section Decryption

variable {n : ℕ} {G T : Type} [AddCommGroup G] [CommGroup T]

/-- Every ciphertext is decrypted, whatever point the key and the ciphertext were made with. -/
theorem watersDecrypt_encrypt (e : SymmetricPairing n G T) (s : ZMod n) (P P2 u : G)
    (drawn : Fin 50 → G) (bits : List Bool) (r t : ZMod n) (m : T) :
    ∃ setup key, watersSetup s P P2 u drawn = .ok setup ∧ watersExtract setup bits r = .ok key ∧
      watersDecrypt e (watersEncrypt e key m t).2 (watersEncrypt e key m t).1 = m := by
  obtain ⟨setup, made, holds, -, base, first, second, -, master⟩ := watersSetup_ok s P P2 u drawn
  obtain ⟨key, extracted, -, -, S1, S2, generator, key1, key2⟩ :=
    watersExtract_ok holds bits r
  refine ⟨setup, key, made, extracted, ?_⟩
  have mask : e.pair (elementMulZn P s) P2 ^ t.val =
      e.pair (elementMulZn P t) (elementMulZn P2 s) := by
    rw [e.zmodMul_comm, ← e.zmodMul_left]
  have mixed : e.pair (elementMulZn (key.point .temp) t) (elementMulZn P r) =
      e.pair (elementMulZn P t) (elementMulZn (key.point .temp) r) := by
    rw [e.zmodMul_left, e.zmodMul_left, e.zmodMul_right, e.zmodMul_right, e.symm]
  simp only [watersDecrypt, watersEncrypt, WatersState.assign, elementPowZn, ne_eq, reduceCtorEq,
    not_false_eq_true, Function.update_of_ne, Function.update_self, S1, S2, generator, key1, key2,
    base, first, second, master]
  rw [mask, mixed, e.add_right, mul_inv_rev, inv_mul_cancel_right, mul_inv_cancel_comm]

end Decryption

section Values

private local instance primeFiveWaters : Fact (Nat.Prime 5) := ⟨by decide⟩

/-- All points drawn are one point of order five, and the identity has six ones. -/
theorem watersHash_six : WatersHash (1 : ZMod 5) (1 : ZMod 5) 2 3 (fun _ => 4)
      [true, true, false, true, true, true, true] (2 : ZMod 5) ↔
    (∀ _ : Fin 50, (4 : ZMod 5) = 4) ∧
      [true, true, false, true, true, true, true].count true • (4 : ZMod 5) = 4 :=
  watersHash_iff 1 1 2 3 (fun _ => 4) (by decide) 2

/-- The first point drawn is not in the vector. -/
theorem watersHash_fails : ¬WatersHash (1 : ZMod 5) (1 : ZMod 5) 2 3 (fun i => (i.val : ZMod 5))
    [true, true] (2 : ZMod 5) := by
  rintro ⟨setup, key, made, -, entries, -⟩
  obtain ⟨setup', made', holds, point, -⟩ :=
    watersSetup_ok (1 : ZMod 5) (1 : ZMod 5) 2 3 fun i => (i.val : ZMod 5)
  cases made'.symm.trans made
  obtain ⟨p, slot, value, -⟩ := entries 0
  rw [readSlot_replicate holds (by decide)] at slot
  cases slot
  exact absurd (value.symm.trans point) (by decide)

end Values

end Pbc.Schemes
