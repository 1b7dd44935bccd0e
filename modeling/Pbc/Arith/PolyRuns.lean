import Pbc.Arith.Multiples

/-!
# Runs of polynomial operations

Programs over polynomial elements. Most operations end with the removal of leading
zeroes; those that set one coefficient, multiply every coefficient by an integer or read
bytes do not, and keep the normal form only under a condition on their data.
-/

open Polynomial Pbc.Algebra

namespace Pbc.Arith

section Operations

variable {F : Type} [Field F] [DecidableEq F]

/-- `poly_set_coeff`. -/
def polySetCoeff (e : List F) (a : F) (n : ℕ) : List F :=
  (e ++ List.replicate (n + 1 - e.length) 0).set n a

/-- `poly_setx`. -/
def polySetx : List F := [0, 1]

/-- `poly_add`. -/
def polyAdd (f g : List F) : List F :=
  let sum := List.zipWithAll
    (fun
      | some x, some y => x + y
      | some x, none | none, some x => x
      | none, none => 0) f g
  polyRemoveLeadingZeroes sum

/-- `poly_neg`. -/
def polyNeg (g : List F) : List F := g.map (- ·)

/-- The number of terms that `poly_from_bytes` reads from the first two bytes. -/
def termCount (buf : ℕ → UInt8) : ℕ := (buf 0).toNat + (buf 1).toNat * 256

/-- The variable `result` of `poly_from_bytes` after some terms; `read` is the
`element_from_bytes` of the base field. -/
def termOffset (read : (ℕ → UInt8) → F × ℕ) (buf : ℕ → UInt8) : ℕ → ℕ
  | 0 => 2
  | i + 1 => termOffset read buf i + (read fun j => buf (termOffset read buf i + j)).2

/-- A term that `poly_from_bytes` reads. -/
def term (read : (ℕ → UInt8) → F × ℕ) (buf : ℕ → UInt8) (i : ℕ) : F :=
  (read fun j => buf (termOffset read buf i + j)).1

/-- `poly_from_bytes`. -/
def polyFromBytes (read : (ℕ → UInt8) → F × ℕ) (buf : ℕ → UInt8) : List F :=
  (List.range (termCount buf)).map (term read buf)

/-- `poly_degree`. -/
def polyDegree (e : List F) : ℤ := e.length - 1

/-- `poly_is0`. -/
def polyIs0 (e : List F) : Bool := e.length = 0

/-- `poly_is1`. -/
def polyIs1 (e : List F) : Bool := if e.length = 1 then e.getD 0 0 = 1 else false

/-- `poly_cmp`. -/
def polyCmp (f g : List F) : ℤ :=
  if f.length ≠ g.length then 1
  else if (List.range f.length).any fun i => f.getD i 0 ≠ g.getD i 0 then 1 else 0

variable [FieldMethods F]

/-- `poly_double`. -/
def polyDouble (g : List F) : List F := g.map FieldMethods.double

/-- The loop of `poly_gcd`. The fuel bounds the length of `b`, so that none of it means a
division by the zero polynomial. -/
def polyGcdLoop : ℕ → List F → List F → Except Exit (List F)
  | 0, _, _ => .error .divisionByZero
  | fuel + 1, a, b => do
      let (_, r) ← polyDiv a b
      if r.length = 0 then return b
      polyGcdLoop fuel b r

/-- `poly_gcd`. -/
def polyGcd (f g : List F) : Except Exit (List F) := polyGcdLoop g.length f g

/-- `poly_make_monic`. -/
def polyMakeMonic (g : List F) : Except Exit (List F) :=
  if g.length = 0 then .ok []
  else do
    let e0 ← FieldMethods.invert (g.getD (g.length - 1) 0)
    return (g.take (g.length - 1)).map (· * e0) ++ [1]

end Operations

section Programs

/-- The operations on polynomial elements, their destinations first. Coefficients and the
elements of a polynomial extension are given by what they hold. -/
inductive PolyOp (F ι : Type) where
  | init (n : ι)
  | set0 (n : ι)
  | set1 (n : ι)
  | setSi (n : ι) (op : ℤ)
  | setMpz (n : ι) (op : ℤ)
  | setCoeff (n : ι) (a : F) (k : ℕ)
  | setx (n : ι)
  | set (n a : ι)
  | add (n a b : ι)
  | sub (n a b : ι)
  | neg (n a : ι)
  | double (n a : ι)
  | mul (n a b : ι)
  | mulSi (n a : ι) (z : ℤ)
  | mulMpz (n a : ι) (z : ℤ)
  | constMul (n : ι) (x : F) (a : ι)
  | div (quot rem a b : ι)
  | gcd (n a b : ι)
  | makeMonic (n a : ι)
  | invert (n a m : ι)
  | fromBytes (n : ι) (buf : ℕ → UInt8)
  | polymodToPoly (n : ι) (coeff : List F)
  | fieldToPoly (n : ι) (x : F)
  | randomMonic (n : ι) (coeff : List F)

variable {F ι : Type} [Field F] [DecidableEq F] [FieldMethods F] (read : (ℕ → UInt8) → F × ℕ)

/-- What an operation writes, in its order. -/
def PolyOp.writes (s : ι → List F) : PolyOp F ι → Except Exit (List (ι × List F))
  | init n | set0 n => .ok [(n, [])]
  | set1 n => .ok [(n, [1])]
  | setSi n op | setMpz n op => .ok [(n, polyRemoveLeadingZeroes [(op : F)])]
  | setCoeff n a k => .ok [(n, polySetCoeff (s n) a k)]
  | setx n => .ok [(n, polySetx)]
  | set n a => .ok [(n, s a)]
  | add n a b => .ok [(n, polyAdd (s a) (s b))]
  | sub n a b => .ok [(n, polySub (s a) (s b))]
  | neg n a => .ok [(n, polyNeg (s a))]
  | double n a => .ok [(n, polyDouble (s a))]
  | mul n a b => .ok [(n, polyMul (s a) (s b))]
  | mulSi n a z | mulMpz n a z => .ok [(n, polyMulInt (fun x z => z • x) (s a) z)]
  | constMul n x a => .ok [(n, polyConstMul x (s a))]
  | div quot rem a b => do
      let (q, r) ← polyDiv (s a) (s b)
      return if (s b).length > (s a).length then [(rem, r), (quot, q)] else [(quot, q), (rem, r)]
  | gcd n a b => do return [(n, ← polyGcd (s a) (s b))]
  | makeMonic n a => do return [(n, ← polyMakeMonic (s a))]
  | invert n a m => do return [(n, ← polyInvert (s a) (s m))]
  | fromBytes n buf => .ok [(n, polyFromBytes read buf)]
  | polymodToPoly n coeff => .ok [(n, polyRemoveLeadingZeroes coeff)]
  | fieldToPoly n x => .ok [(n, polyRemoveLeadingZeroes [x])]
  | randomMonic n coeff => .ok [(n, coeff ++ [1])]

/-- The condition on an operation, on its data and on the state before it. -/
def PolyOp.Meets (s : ι → List F) : PolyOp F ι → Prop
  | setCoeff n a k => a ≠ 0 ∨ k + 1 < (s n).length
  | double _ a => s a = [] ∨ (2 : F) ≠ 0
  | mulSi _ a z | mulMpz _ a z => s a = [] ∨ (z : F) ≠ 0
  | fromBytes _ buf => termCount buf = 0 ∨ term read buf (termCount buf - 1) ≠ 0
  | _ => True

variable [DecidableEq ι]

/-- One operation on the elements of a program. -/
def polyStep (s : ι → List F) (op : PolyOp F ι) : Except Exit (ι → List F) := do
  let written ← op.writes read s
  return written.foldl (fun s w => Function.update s w.1 w.2) s

/-- A sequence of operations each of which meets its condition. -/
inductive PolyRun : (ι → List F) → List (PolyOp F ι) → (ι → List F) → Prop where
  | nil (s : ι → List F) : PolyRun s [] s
  | cons {s s' s'' : ι → List F} {op : PolyOp F ι} {ops : List (PolyOp F ι)}
      (meets : op.Meets read s) (step : polyStep read s op = .ok s') (rest : PolyRun s' ops s'') :
      PolyRun s (op :: ops) s''

end Programs

section Values

variable {F : Type} [Field F] [DecidableEq F]

/-- A list of mapped coefficients is normal if the last one is not mapped to zero. -/
private theorem normal_map_iff {α : Type} (g : List α) (times : α → F) :
    Normal (g.map times) ↔ ∀ a, g.getLast? = some a → times a ≠ 0 := by
  rw [normal_iff, List.getLast?_map]
  simp only [Option.map_eq_some_iff, forall_exists_index, and_imp, forall_apply_eq_imp_iff₂]

/-- Coefficients multiplied by a constant. -/
private theorem normal_map_mul_iff {g : List F} (normal : Normal g) {times : F → F} {c : F}
    (product : ∀ a, times a = c * a) : Normal (g.map times) ↔ g = [] ∨ c ≠ 0 := by
  rw [normal_map_iff]
  rcases g.eq_nil_or_concat with rfl | ⟨front, a, rfl⟩
  · simp
  · have nonzero : a ≠ 0 := (normal_iff _).mp normal a (by simp)
    simp [product, nonzero]

theorem polySetCoeff_normal_iff {e : List F} (normal : Normal e) (a : F) (n : ℕ) :
    Normal (polySetCoeff e a n) ↔ a ≠ 0 ∨ n + 1 < e.length := by
  rw [normal_iff] at normal ⊢
  rw [List.getLast?_eq_getElem?] at normal
  rw [polySetCoeff, List.getLast?_eq_getElem?, List.length_set, List.length_append,
    List.length_replicate, List.getElem?_set]
  by_cases inside : n + 1 < e.length
  · have last : e.length + (n + 1 - e.length) - 1 = e.length - 1 := by omega
    rw [last, if_neg (by omega), List.getElem?_append_left (by omega)]
    exact iff_of_true normal (Or.inr inside)
  · rw [if_pos (by omega), if_pos (by simp; omega)]
    simp [inside]

theorem polyFromBytes_normal_iff (read : (ℕ → UInt8) → F × ℕ) (buf : ℕ → UInt8) :
    Normal (polyFromBytes read buf) ↔
      termCount buf = 0 ∨ term read buf (termCount buf - 1) ≠ 0 := by
  rw [polyFromBytes, normal_map_iff]
  cases termCount buf with
  | zero => simp
  | succ count => simp [List.range_succ]

/-- A normal list is given by its polynomial. -/
theorem Normal.eq_of_ofCoeffs_eq {f g : List F} (left : Normal f) (right : Normal g)
    (same : ofCoeffs f = ofCoeffs g) : f = g := by
  have coeff (i : ℕ) : f.getD i 0 = g.getD i 0 := by
    rw [← coeff_ofCoeffs, same, coeff_ofCoeffs]
  have upper := length_le_of_getD left fun i above => (coeff i).trans (List.getD_eq_default _ _ above)
  have lower := length_le_of_getD right fun i above =>
    (coeff i).symm.trans (List.getD_eq_default _ _ above)
  refine List.ext_getElem (by omega) fun i inside inside' => ?_
  rw [← List.getD_eq_getElem f 0 inside, ← List.getD_eq_getElem g 0 inside', coeff]

section Tests

variable {f g : List F}

omit [DecidableEq F] in
private theorem ofCoeffs_nil : ofCoeffs ([] : List F) = 0 := by
  ext i
  rw [coeff_ofCoeffs, List.getD_nil, coeff_zero]

omit [DecidableEq F] in
private theorem ofCoeffs_one : ofCoeffs [(1 : F)] = 1 := by
  ext i
  rw [coeff_ofCoeffs, coeff_one]
  cases i with
  | zero => simp
  | succ i => simp

private theorem normal_nil : Normal ([] : List F) := rfl

private theorem normal_concat (front : List F) {a : F} (nonzero : a ≠ 0) : Normal (front ++ [a]) := by
  rw [normal_iff]
  intro last same
  rw [List.getLast?_concat, Option.some.injEq] at same
  exact same ▸ nonzero

private theorem normal_one : Normal [(1 : F)] := normal_concat [] one_ne_zero

/-- The degree of a normal list is that of its polynomial, `-1` for zero. -/
theorem polyDegree_eq (normal : Normal f) :
    polyDegree f = if ofCoeffs f = 0 then -1 else ((ofCoeffs f).natDegree : ℤ) := by
  by_cases empty : f.length = 0
  · obtain rfl := List.length_eq_zero_iff.mp empty
    rw [if_pos ofCoeffs_nil, polyDegree, List.length_nil, Nat.cast_zero, zero_sub]
  · have top : (ofCoeffs f).coeff (f.length - 1) ≠ 0 := by
      rw [coeff_ofCoeffs]
      exact normal.leading empty
    have nonzero : ofCoeffs f ≠ 0 := by
      intro zero
      rw [zero, coeff_zero] at top
      exact top rfl
    have lower := le_natDegree_of_ne_zero top
    have upper : (ofCoeffs f).natDegree ≤ f.length - 1 := by
      refine natDegree_le_iff_coeff_eq_zero.mpr fun i above => ?_
      rw [coeff_ofCoeffs, List.getD_eq_default _ _ (by omega)]
    rw [if_neg nonzero, polyDegree]
    omega

theorem polyIs0_iff (normal : Normal f) : polyIs0 f = true ↔ ofCoeffs f = 0 := by
  rw [polyIs0, decide_eq_true_iff, List.length_eq_zero_iff]
  constructor
  · rintro rfl
    exact ofCoeffs_nil
  · intro zero
    exact normal.eq_of_ofCoeffs_eq normal_nil (zero.trans ofCoeffs_nil.symm)

theorem polyIs1_iff (normal : Normal f) : polyIs1 f = true ↔ ofCoeffs f = 1 := by
  have list : polyIs1 f = true ↔ f = [1] := by
    rcases f with _ | ⟨a, _ | ⟨b, f⟩⟩ <;> simp [polyIs1]
  rw [list]
  constructor
  · rintro rfl
    exact ofCoeffs_one
  · intro one
    exact normal.eq_of_ofCoeffs_eq normal_one (one.trans ofCoeffs_one.symm)

theorem polyCmp_eq_zero_iff (left : Normal f) (right : Normal g) :
    polyCmp f g = 0 ↔ ofCoeffs f = ofCoeffs g := by
  have list : polyCmp f g = 0 ↔ f = g := by
    rw [polyCmp]
    split
    · next longer =>
      refine iff_of_false one_ne_zero fun same => longer ?_
      rw [same]
    · next length =>
      rw [not_not] at length
      split
      · next differ =>
        refine iff_of_false one_ne_zero fun same => ?_
        simp [same] at differ
      · next agree =>
        refine iff_of_true rfl (List.ext_getElem length fun i inside inside' => ?_)
        simp only [List.any_eq_true, List.mem_range, decide_eq_true_iff, not_exists, not_and,
          not_not] at agree
        have coeff := agree i inside
        rwa [List.getD_eq_getElem _ _ inside, List.getD_eq_getElem _ _ inside'] at coeff
  rw [list]
  exact ⟨congrArg ofCoeffs, left.eq_of_ofCoeffs_eq right⟩

end Tests

section Steps

variable [FieldMethods F] [InvertsNonzero F] {a b : List F}

/-- The leading coefficient of a quotient is not zero, since that of the dividend is not. -/
theorem polyDiv_normal (left : Normal a) (right : Normal b) {q r : List F}
    (run : polyDiv a b = .ok (q, r)) : Normal q ∧ Normal r := by
  by_cases empty : b.length = 0
  · rw [polyDiv, if_pos empty] at run
    cases run
  by_cases degree : b.length ≤ a.length
  · obtain ⟨q', r', run', sum, normal, shorter, length⟩ := polyDiv_spec right empty degree
    obtain ⟨rfl, rfl⟩ := Prod.mk.inj (Except.ok.inj (run'.symm.trans run))
    refine ⟨?_, normal⟩
    by_contra stripped
    have fewer : (polyRemoveLeadingZeroes q').length < q'.length := by
      refine lt_of_le_of_ne (length_removeLeadingZeroes_le q') fun same => stripped ?_
      exact (List.rdropWhile_prefix _ q').eq_of_length same
    have top := left.leading (by omega)
    rw [← coeff_ofCoeffs, sum, coeff_add, ← ofCoeffs_removeLeadingZeroes q', ← ofCoeffs_polyMul,
      coeff_ofCoeffs, coeff_ofCoeffs, List.getD_eq_default r' _ (by omega), add_zero] at top
    refine top (List.getD_eq_default _ _ ?_)
    have bound := length_polyMul_le (polyRemoveLeadingZeroes q') b
    omega
  · rw [polyDiv, if_neg empty, if_pos (by omega)] at run
    obtain ⟨rfl, rfl⟩ := Prod.mk.inj (Except.ok.inj run)
    exact ⟨normal_nil, left⟩

theorem polyGcdLoop_normal (fuel : ℕ) (left : Normal a) (right : Normal b) {d : List F}
    (run : polyGcdLoop fuel a b = .ok d) : Normal d := by
  induction fuel generalizing a b with
  | zero => cases run
  | succ fuel ih =>
    rw [polyGcdLoop] at run
    cases division : polyDiv a b with
    | error e =>
      rw [division] at run
      cases run
    | ok qr =>
      obtain ⟨q, r⟩ := qr
      rw [division] at run
      simp only [bind, Except.bind] at run
      split at run
      · obtain rfl := Except.ok.inj run
        exact right
      · exact ih right (polyDiv_normal left right division).2 run

omit [InvertsNonzero F] in
theorem polyMakeMonic_normal {g f : List F} (run : polyMakeMonic g = .ok f) : Normal f := by
  rw [polyMakeMonic] at run
  split at run
  · obtain rfl := Except.ok.inj run
    exact normal_nil
  · cases inverse : FieldMethods.invert (g.getD (g.length - 1) 0) with
    | error e =>
      rw [inverse] at run
      cases run
    | ok e0 =>
      rw [inverse] at run
      obtain rfl := Except.ok.inj run
      exact normal_concat _ one_ne_zero

omit [InvertsNonzero F] in
theorem polyInvert_normal {f m r : List F} (run : polyInvert f m = .ok r) : Normal r := by
  rw [polyInvert] at run
  cases loop : polyInvertLoop f.length [] [1] m f with
  | error e =>
    rw [loop] at run
    cases run
  | ok br =>
    rw [loop] at run
    simp only [bind, Except.bind] at run
    split at run
    · cases run
    · obtain rfl := Except.ok.inj run
      exact normal_removeLeadingZeroes _

/-- A computed result that is written to one element. -/
private theorem written_of_bind {α ι : Type} {n : ι} {result : Except Exit α} {w : List (ι × α)}
    (run : (do return [(n, ← result)] : Except Exit (List (ι × α))) = .ok w) :
    ∃ f, result = .ok f ∧ w = [(n, f)] := by
  cases result with
  | error e => cases run
  | ok f => exact ⟨f, rfl, (Except.ok.inj run).symm⟩

variable {ι : Type} {read : (ℕ → UInt8) → F × ℕ} {s s' : ι → List F} {op : PolyOp F ι}

/-- What an operation writes is normal exactly when its condition is met, and an
operation with a condition writes one element. -/
theorem PolyOp.writes_normal (normal : ∀ i, Normal (s i)) {w : List (ι × List F)}
    (run : op.writes read s = .ok w) :
    (op.Meets read s → ∀ x ∈ w, Normal x.2) ∧
      (¬op.Meets read s → ∃ n f, w = [(n, f)] ∧ ¬Normal f) := by
  have always (good : ∀ x ∈ w, Normal x.2) (meets : op.Meets read s) :
      (op.Meets read s → ∀ x ∈ w, Normal x.2) ∧
        (¬op.Meets read s → ∃ n f, w = [(n, f)] ∧ ¬Normal f) :=
    ⟨fun _ => good, fun fails => absurd meets fails⟩
  have one {n : ι} {f : List F} (single : w = [(n, f)]) (good : Normal f) : ∀ x ∈ w, Normal x.2 := by
    rw [single]
    simpa using good
  have exactly {n : ι} {f : List F} (single : w = [(n, f)]) (iff : Normal f ↔ op.Meets read s) :
      (op.Meets read s → ∀ x ∈ w, Normal x.2) ∧
        (¬op.Meets read s → ∃ n f, w = [(n, f)] ∧ ¬Normal f) :=
    ⟨fun meets => one single (iff.mpr meets), fun fails => ⟨n, f, single, fails ∘ iff.mp⟩⟩
  cases op with
  | init n | set0 n => exact always (one (Except.ok.inj run).symm normal_nil) trivial
  | set1 n => exact always (one (Except.ok.inj run).symm normal_one) trivial
  | setSi n op | setMpz n op | polymodToPoly n coeff | fieldToPoly n x =>
    exact always (one (Except.ok.inj run).symm (normal_removeLeadingZeroes _)) trivial
  | setCoeff n a k =>
    exact exactly (Except.ok.inj run).symm (polySetCoeff_normal_iff (normal n) a k)
  | setx n => exact always (one (Except.ok.inj run).symm (normal_concat [0] one_ne_zero)) trivial
  | set n a => exact always (one (Except.ok.inj run).symm (normal a)) trivial
  | add n a b | sub n a b =>
    exact always (one (Except.ok.inj run).symm (normal_removeLeadingZeroes _)) trivial
  | neg n a =>
    have opposite : Normal (polyNeg (s a)) :=
      (normal_map_mul_iff (normal a) fun x => (neg_one_mul x).symm).mpr
        (Or.inr (neg_ne_zero.mpr one_ne_zero))
    exact always (one (Except.ok.inj run).symm opposite) trivial
  | double n a =>
    exact exactly (Except.ok.inj run).symm (normal_map_mul_iff (normal a) fun x => by
      rw [FieldMethods.double_eq, two_mul])
  | mul n a b =>
    have product : Normal (polyMul (s a) (s b)) := by
      rw [polyMul]
      split
      · exact normal_nil
      · exact normal_removeLeadingZeroes _
    exact always (one (Except.ok.inj run).symm product) trivial
  | mulSi n a z | mulMpz n a z =>
    exact exactly (Except.ok.inj run).symm (normal_map_mul_iff (normal a) fun x =>
      zsmul_eq_mul x z)
  | constMul n x a =>
    exact always (one (Except.ok.inj run).symm (normal_removeLeadingZeroes _)) trivial
  | div quot rem a b =>
    refine always ?_ trivial
    cases division : polyDiv (s a) (s b) with
    | error e =>
      simp only [PolyOp.writes, division] at run
      cases run
    | ok qr =>
      obtain ⟨q, r⟩ := qr
      obtain ⟨quotient, remainder⟩ := polyDiv_normal (normal a) (normal b) division
      simp only [PolyOp.writes, division] at run
      obtain rfl := Except.ok.inj run
      split <;> simp [quotient, remainder]
  | gcd n a b =>
    obtain ⟨d, loop, single⟩ := written_of_bind run
    exact always (one single (polyGcdLoop_normal _ (normal a) (normal b) loop)) trivial
  | makeMonic n a =>
    obtain ⟨f, monic, single⟩ := written_of_bind run
    exact always (one single (polyMakeMonic_normal monic)) trivial
  | invert n a m =>
    obtain ⟨f, inverse, single⟩ := written_of_bind run
    exact always (one single (polyInvert_normal inverse)) trivial
  | fromBytes n buf =>
    exact exactly (Except.ok.inj run).symm (polyFromBytes_normal_iff read buf)
  | randomMonic n coeff =>
    exact always (one (Except.ok.inj run).symm (normal_concat coeff one_ne_zero)) trivial

variable [DecidableEq ι]

omit [FieldMethods F] [InvertsNonzero F] in
/-- Normal writes leave a normal state. -/
private theorem normal_foldl (w : List (ι × List F)) (good : ∀ x ∈ w, Normal x.2)
    (normal : ∀ i, Normal (s i)) (i : ι) :
    Normal (w.foldl (fun s x => Function.update s x.1 x.2) s i) := by
  induction w generalizing s with
  | nil => exact normal i
  | cons x w ih =>
    refine ih (fun y member => good y (List.mem_cons_of_mem x member)) fun j => ?_
    rcases eq_or_ne j x.1 with rfl | other
    · simp only [Function.update_self]
      exact good x List.mem_cons_self
    · simp only [Function.update_of_ne other]
      exact normal j

/-- An operation keeps the normal form of all elements exactly when it meets its condition. -/
theorem polyStep_normal_iff (normal : ∀ i, Normal (s i)) (step : polyStep read s op = .ok s') :
    (∀ i, Normal (s' i)) ↔ op.Meets read s := by
  cases writes : op.writes read s with
  | error e =>
    rw [polyStep, writes] at step
    cases step
  | ok w =>
    rw [polyStep, writes] at step
    obtain rfl := Except.ok.inj step
    obtain ⟨good, bad⟩ := PolyOp.writes_normal normal writes
    constructor
    · intro kept
      by_contra fails
      obtain ⟨n, f, rfl, stripped⟩ := bad fails
      have written := kept n
      rw [List.foldl_cons, List.foldl_nil, Function.update_self] at written
      exact stripped written
    · exact fun meets => normal_foldl w (good meets) normal

theorem PolyRun.normal {ops : List (PolyOp F ι)} (run : PolyRun read s ops s')
    (start : ∀ i, Normal (s i)) : ∀ i, Normal (s' i) := by
  induction run with
  | nil s => exact start
  | cons meets step rest ih => exact ih ((polyStep_normal_iff start step).mpr meets)

end Steps

end Values

section Small

/-- The bytes of an element of `F_5`, which is reduced. -/
private def smallRead (buf : ℕ → UInt8) : ZMod 5 × ℕ := ((buf 0).toNat, 1)

end Small

end Pbc.Arith
