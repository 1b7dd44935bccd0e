import Pbc.Arith.Fp
import Pbc.Arith.FpPow

/-!
# Square roots on objects

`fp_tonelli` on the objects of a program, through the method table of the field and with
the nonresidue that the field keeps. The operand is read for the last time before the
result is written, so that they may be one object. Every implementation whose products
are right finds a root; the default one is always among them.
-/

open Pbc.Gmp Pbc.Number

namespace Pbc.Arith

section Operations

/-- The methods that `fp_tonelli` calls on its objects, the old content of the destination
first, and what a fresh object holds. -/
structure RootMethods (O : Type) where
  init : O
  mul : O → O → O → Option O
  invert : O → O → Option O
  powMpz : O → O → ℕ → Option O
  is1 : O → Bool

variable {O : Type}

/-- `field_gen_nqr`, from the elements that `element_random` draws. -/
def fieldGenNqr (isSqr : O → Bool) (draws : List O) : Option O := draws.find? fun e => !isSqr e

/-- `field_get_nqr`, with the nonresidue that was stored before. -/
def fieldGetNqr (isSqr : O → Bool) (draws : List O) (nqr : Option O) : Option O :=
  match nqr with
  | some nqr => some nqr
  | none => fieldGenNqr isSqr draws

variable (field : RootMethods O)

/-- One turn of the loop of `fp_tonelli`: the object `e0` and the exponent. -/
def rootTurn (order : ℕ) (ginv a : O) (state : O × ℕ) (i : ℕ) : Option (O × ℕ) := do
  let (e0, e) := state
  let t0 := (order - 1) / 2 ^ i
  let e0 ← field.powMpz e0 ginv e
  let e0 ← field.mul e0 e0 a
  let e0 ← field.powMpz e0 e0 t0
  return (e0, if !field.is1 e0 then e ||| 2 ^ (i - 1) else e)

variable {ι : Type} [DecidableEq ι]

/-- `fp_tonelli(x, a)` on the objects of a program. -/
def fpTonelliAt (order : ℕ) (isSqr : O → Bool) (draws : List O) (stored : Option O) (x a : ι)
    (objects : ι → O) : Option (ι → O) := do
  let nqr ← fieldGetNqr isSqr draws stored
  let ginv ← field.invert field.init nqr
  let t := order - 1
  let s := mpzScan1 t
  let t := t / 2 ^ s
  let (e0, e) ← (List.range' 2 (s - 1)).foldlM (rootTurn field order ginv (objects a))
    (field.init, 0)
  let e0 ← field.powMpz e0 ginv e
  let e0 ← field.mul e0 e0 (objects a)
  let t := t + 1
  let t := t / 2
  let e := e / 2
  let e0 ← field.powMpz e0 e0 t
  let power ← field.powMpz (objects x) nqr e
  let objects := Function.update objects x power
  let root ← field.mul (objects x) (objects x) e0
  return Function.update objects x root

end Operations

section Values

/-- The methods compute with the residues that objects hold. -/
structure RootMethods.Computes {O : Type} {p : ℕ} (field : RootMethods O)
    (holds : O → ZMod p → Prop) : Prop where
  mul : ∀ c {a b x y}, holds a x → holds b y → ∃ r, field.mul c a b = some r ∧ holds r (x * y)
  invert : ∀ c {a x}, holds a x → x ≠ 0 → ∃ r, field.invert c a = some r ∧ holds r x⁻¹
  powMpz : ∀ c {a x} n, holds a x → (x = 0 → n ≠ 0) →
    ∃ r, field.powMpz c a n = some r ∧ holds r (x ^ n) ∧ (field.is1 r = true ↔ x ^ n = 1)

/-- The residues themselves. -/
def residueTable (p : ℕ) : FpTable (ZMod p) where
  mul x y := x * y
  invert x := some x⁻¹
  powMpz x n := x ^ n
  is1 x := x = 1

theorem residueTable_implements (p : ℕ) [Fact p.Prime] :
    (residueTable p).Implements fun x : ZMod p => x where
  mul _ _ := rfl
  invert _ _ := ⟨_, rfl, rfl⟩
  powMpz _ _ _ := rfl
  is1 _ _ _ := decide_eq_true_iff

variable {O : Type} {p : ℕ} [prime : Fact p.Prime] {field : RootMethods O}
  {holds : O → ZMod p → Prop}

/-- A turn on objects finds the bit that a turn on their residues finds. -/
theorem rootTurn_refines (computes : field.Computes holds) {ginv a : O} {h y : ZMod p}
    (inverse : holds ginv h) (unit : h ≠ 0) (operand : holds a y) (e0 : O) (e i : ℕ)
    (proper : (p - 1) / 2 ^ i ≠ 0) :
    ∃ r, rootTurn field p ginv a (e0, e) i = some (r, tonelliStep (residueTable p) p h y e i) := by
  obtain ⟨r, power, held, -⟩ := computes.powMpz e0 e inverse fun zero => absurd zero unit
  obtain ⟨r', product, held'⟩ := computes.mul r held operand
  obtain ⟨r'', power', -, one⟩ := computes.powMpz r' ((p - 1) / 2 ^ i) held' fun _ => proper
  refine ⟨r'', ?_⟩
  simp only [rootTurn, power, product, power', Option.bind_eq_bind, Option.bind_some, Option.pure_def]
  by_cases found : (h ^ e * y) ^ ((p - 1) / 2 ^ i) = 1
  · simp [tonelliStep, residueTable, found, one.mpr found]
  · have other : field.is1 r'' = false := Bool.eq_false_iff.mpr fun set => found (one.mp set)
    simp [tonelliStep, residueTable, found, other]

/-- The loop on objects builds the exponent of the loop on their residues. -/
theorem rootTurns_refines (computes : field.Computes holds) {ginv a : O} {h y : ZMod p}
    (inverse : holds ginv h) (unit : h ≠ 0) (operand : holds a y) (turns : List ℕ)
    (proper : ∀ i ∈ turns, (p - 1) / 2 ^ i ≠ 0) (e0 : O) (e : ℕ) :
    ∃ r, turns.foldlM (rootTurn field p ginv a) (e0, e) =
      some (r, turns.foldl (tonelliStep (residueTable p) p h y) e) := by
  induction turns generalizing e0 e with
  | nil => exact ⟨e0, rfl⟩
  | cons i turns ih =>
    obtain ⟨r, turn⟩ := rootTurn_refines computes inverse unit operand e0 e i
      (proper i List.mem_cons_self)
    obtain ⟨r', rest⟩ := ih (fun j later => proper j (List.mem_cons_of_mem i later)) r
      (tonelliStep (residueTable p) p h y e i)
    refine ⟨r', ?_⟩
    rw [List.foldlM_cons, turn, List.foldl_cons]
    exact rest

/-- The routine returns, and leaves in its result alone what it computes from the residues. -/
theorem fpTonelliAt_refines {ι : Type} [DecidableEq ι] (computes : field.Computes holds)
    (isSqr : O → Bool) (draws : List O) {nqr : O} {g : ZMod p} (kept : holds nqr g) (unit : g ≠ 0)
    (odd : p ≠ 2) (x : ι) {a : ι} {objects : ι → O} {y : ZMod p} (operand : holds (objects a) y) :
    ∃ root w, fpTonelliAt field p isSqr draws (some nqr) x a objects =
        some (Function.update objects x root) ∧
      holds root w ∧ fpTonelli (residueTable p) p g y = some w := by
  have parity := prime.out.eq_two_or_odd.resolve_left odd
  have positive : p - 1 ≠ 0 := Nat.sub_ne_zero_of_lt prime.out.one_lt
  obtain ⟨split, oddPart⟩ := mpzScan1_spec positive
  -- Every turn raises to a proper power of two's cofactor.
  have proper : ∀ i ∈ List.range' 2 (mpzScan1 (p - 1) - 1), (p - 1) / 2 ^ i ≠ 0 := by
    intro i member
    rw [List.mem_range'_1] at member
    have divides : 2 ^ i ∣ p - 1 :=
      (pow_dvd_pow 2 (by omega)).trans (Dvd.intro _ split)
    exact (Nat.div_pos (Nat.le_of_dvd (Nat.pos_of_ne_zero positive) divides) (by positivity)).ne'
  have last : ((p - 1) / 2 ^ mpzScan1 (p - 1) + 1) / 2 ≠ 0 := by
    generalize (p - 1) / 2 ^ mpzScan1 (p - 1) = t at oddPart
    omega
  obtain ⟨ginv, inverted, inverse⟩ := computes.invert field.init kept unit
  have unit' : g⁻¹ ≠ 0 := inv_ne_zero unit
  obtain ⟨e0, loop⟩ := rootTurns_refines computes inverse unit' operand _ proper field.init 0
  generalize found : (List.range' 2 (mpzScan1 (p - 1) - 1)).foldl
    (tonelliStep (residueTable p) p g⁻¹ y) 0 = e at loop
  obtain ⟨e1, power, held, -⟩ := computes.powMpz e0 e inverse fun zero => absurd zero unit'
  obtain ⟨e2, product, held⟩ := computes.mul e1 held operand
  obtain ⟨e3, power', held, -⟩ := computes.powMpz e2
    (((p - 1) / 2 ^ mpzScan1 (p - 1) + 1) / 2) held fun _ => last
  obtain ⟨e4, power'', held', -⟩ := computes.powMpz (objects x) (e / 2) kept
    fun zero => absurd zero unit
  obtain ⟨root, product', rooted⟩ := computes.mul e4 held' held
  refine ⟨root, _, ?_, rooted, ?_⟩
  · simp only [fpTonelliAt, fieldGetNqr, inverted, loop, power, product, power', power'',
      product', Function.update_self, Function.update_idem, Option.bind_eq_bind,
      Option.bind_some, Option.pure_def]
  · simp only [fpTonelli, residueTable, Option.bind_eq_bind, Option.bind_some, Option.pure_def,
      ← found]

/-- A generated nonresidue passes the test of squares. -/
theorem fieldGenNqr_spec {isSqr : O → Bool} {draws : List O} {nqr : O}
    (generated : fieldGenNqr isSqr draws = some nqr) : isSqr nqr = false := by
  have passed := List.find?_some generated
  rwa [Bool.not_eq_true'] at passed

end Values

section Fields

/-- What `fp_tonelli` calls in the fields of `F_p`. -/
def FpField.rootMethods (garbage : ℕ) : (k : FpField) → RootMethods k.Object
  | naive p =>
    { init := (0 : ℤ)
      mul := fun _ a b => some (zpMul p a b)
      invert := fun _ a => mpzInvert p a
      powMpz := fun _ a n => some (zpPowMpz p a n)
      is1 := zpIs1 }
  | tiny f =>
    { init := (0 : ℕ)
      mul := fun _ a b => some (tinyMul f a b)
      invert := fun _ a => tinyInvert f a
      powMpz := fun _ a n => some (tinyPowMpz f a n)
      is1 := fun a : ℕ => a = 1 }
  | fast f =>
    { init := (0 : ℕ)
      mul := fun _ a b => (f.arrays true).map fun _ => fastMul f a b
      invert := fun _ (a : ℕ) => (mpzInvert f.order a).map Int.toNat
      powMpz := fun _ a n => some (fastPowMpz f a n)
      is1 := fun a : ℕ => a = 1 }
  | flagged impl f =>
    { init := fpInit garbage
      mul := (impl.methods f).mul
      invert := (impl.methods f).invert
      powMpz := (impl.methods f).powMpz
      is1 := (impl.methods f).is1 }

variable {p : ℕ} [prime : Fact p.Prime]

theorem reduced_eq_one {d : ℕ} {x : ZMod p} (holds : Reduced p d x) : d = 1 ↔ x = 1 := by
  have same := ZMod.natCast_eq_natCast_iff' d 1 p
  rw [Nat.mod_eq_of_lt holds.small, Nat.mod_eq_of_lt prime.out.one_lt, Nat.cast_one,
    holds.value] at same
  exact same.symm

/-- The inverse of a reduced integer. -/
theorem reduced_invert {d : ℕ} {x : ZMod p} (holds : Reduced p d x) (nonzero : x ≠ 0) :
    ∃ r, (mpzInvert p d).map Int.toNat = some r ∧ Reduced p r x⁻¹ := by
  have nonzero' : ((d : ℤ) : ZMod p) ≠ 0 := by
    rw [Int.cast_natCast, holds.value]
    exact nonzero
  obtain ⟨b, inverted, value⟩ := mpzInvert_cast nonzero'
  obtain ⟨lower, upper⟩ := mpzInvert_range prime.out.pos inverted
  refine ⟨b.toNat, by rw [inverted, Option.map_some], by omega, ?_⟩
  rw [← Int.cast_natCast, Int.toNat_of_nonneg lower, value, Int.cast_natCast, holds.value]

/-- The inverse of a flagged element. -/
theorem LimbImpl.invert_holds {impl : LimbImpl} {f : LimbField} (prime : f.order.Prime)
    (sound : (FpField.flagged impl f).Sound) (fit : impl.CarriesFit f) (c : DataS) {a : DataS}
    {x : ZMod f.order} (holds : impl.Holds f a x) (nonzero : x ≠ 0) :
    ∃ e y, (impl.methods f).invert c a = some e ∧ impl.Holds f e y ∧ y * x = 1 := by
  obtain ⟨room, accepts, constant⟩ := sound
  have flag : a.flag = true := by
    by_contra clear
    exact nonzero ((LimbImpl.flag_iff accepts holds).mp (Bool.eq_false_of_not_eq_true clear))
  obtain ⟨positive, reduced⟩ := LimbImpl.limbs_reduced holds flag
  have coprime : Nat.gcd a.d f.order = 1 :=
    (Nat.coprime_of_lt_prime positive.ne' reduced prime).symm
  cases impl with
  | faster => exact fasterInvert_holds c holds flag coprime
  | mont =>
    have fits : ∀ z, mpzInvert f.order a.d = some z →
        MontFits f.base f.order (montNegpinv f) f.limbs z.toNat (montR3 f) := by
      intro z inverted
      obtain ⟨lower, upper⟩ := mpzInvert_range f.order_pos inverted
      exact fit _ _ (by omega) (Nat.mod_lt _ f.order_pos)
    obtain ⟨e, y, run, held⟩ := montInvert_holds accepts constant c holds flag coprime fits
    refine ⟨e, y, ?_, held⟩
    show (f.arrays true).bind (fun _ => montInvert f c a) = some e
    rw [f.arrays_of_fits fun _ => room]
    exact run

/-- The methods compute where the products fit. -/
theorem FpField.rootMethods_computes (garbage : ℕ) (k : FpField) [prime : Fact k.order.Prime]
    (sound : k.Sound) (fit : k.ProductsFit) : (k.rootMethods garbage).Computes k.Holds := by
  cases k with
  | naive p =>
    have field : Fact p.Prime := prime
    constructor
    · rintro c a b x y rfl rfl
      exact ⟨_, rfl, zpMul_cast a b⟩
    · rintro c a x rfl nonzero
      exact mpzInvert_cast nonzero
    · rintro c a x n rfl -
      exact ⟨_, rfl, zpPowMpz_cast a n, zpIs1_powMpz a n⟩
  | tiny f =>
    have field : Fact f.order.Prime := prime
    have product {a b : ℕ} (left : a < f.order) (right : b < f.order) : a * b < f.word :=
      (Nat.mul_le_mul (Nat.le_sub_one_of_lt left) (Nat.le_sub_one_of_lt right)).trans_lt fit
    constructor
    · intro c a b x y left right
      exact ⟨_, rfl, tinyMul_holds left right (product left.small right.small)⟩
    · intro c a x holds nonzero
      exact reduced_invert holds nonzero
    · intro c a x n holds _
      have power := tinyPowMpz_holds holds n
      exact ⟨_, rfl, power, decide_eq_true_iff.trans (reduced_eq_one power)⟩
  | fast f =>
    have field : Fact f.order.Prime := prime
    constructor
    · intro c a b x y left right
      refine ⟨fastMul f a b, ?_, fastMul_holds left right⟩
      exact congrArg (Option.map _) (f.arrays_of_fits fun _ => sound)
    · intro c a x holds nonzero
      exact reduced_invert holds nonzero
    · intro c a x n holds _
      have power := fastPowMpz_holds holds n
      exact ⟨_, rfl, power, decide_eq_true_iff.trans (reduced_eq_one power)⟩
  | flagged impl f =>
    have field : Fact f.order.Prime := prime
    obtain ⟨room, accepts, constant⟩ := sound
    constructor
    · intro c a b x y left right
      apply LimbImpl.mul_holds accepts constant c left right
      intro flag flag'
      have left' := LimbImpl.limbs_reduced left flag
      have right' := LimbImpl.limbs_reduced right flag'
      refine ⟨room, not_dvd_mul_of_reduced field.out left' right', ?_⟩
      rintro rfl
      exact fit _ _ left'.2 right'.2
    · intro c a x holds nonzero
      obtain ⟨e, y, run, held, product⟩ :=
        LimbImpl.invert_holds field.out ⟨room, accepts, constant⟩ fit c holds nonzero
      obtain rfl := eq_inv_of_mul_eq_one_left product
      exact ⟨e, run, held⟩
    · intro c a x n holds proper
      obtain ⟨r, run, held⟩ :=
        flaggedPow_agrees field.out ⟨room, accepts, constant⟩ proper c a holds
      exact ⟨r, run, held, LimbImpl.is1_iff accepts held⟩

/-- In every field of odd order whose products fit, with a nonresidue kept, the routine
leaves a root of every square in its result, which may be the operand, and changes no
other object. In the default implementation the products always fit. -/
theorem fpTonelliAt_sq {ι : Type} [DecidableEq ι] (k : FpField) [prime : Fact k.order.Prime]
    (odd : k.order ≠ 2) (sound : k.Sound) (fit : k.ProductsFit) (garbage : ℕ)
    (isSqr : k.Object → Bool) (draws : List k.Object) {nqr : k.Object} {g : ZMod k.order}
    (kept : k.Holds nqr g) (nonresidue : ¬IsSquare g) (x a : ι) (objects : ι → k.Object)
    {y : ZMod k.order} (operand : k.Holds (objects a) y) (square : IsSquare y) :
    ∃ root w, fpTonelliAt (k.rootMethods garbage) k.order isSqr draws (some nqr) x a objects =
        some (Function.update objects x root) ∧ k.Holds root w ∧ w ^ 2 = y := by
  have computes := k.rootMethods_computes garbage sound fit
  have unit : g ≠ 0 := by
    rintro rfl
    exact nonresidue IsSquare.zero
  obtain ⟨root, w, run, held, value⟩ :=
    fpTonelliAt_refines computes isSqr draws kept unit odd x operand
  obtain ⟨w', value', right⟩ :=
    fpTonelli_sq (residueTable_implements k.order) odd nonresidue square
  obtain rfl := Option.some.inj (value.symm.trans value')
  exact ⟨root, w, run, held, right⟩

/-- The root of 2 modulo 17 in place, with 3 for the nonresidue. -/
theorem fpTonelliAt_sq_seventeen :
    ∃ root : ℤ, fpTonelliAt ((FpField.naive 17).rootMethods 0) 17 (fun _ => false) []
        (some (3 : ℤ)) () () (fun _ => (2 : ℤ)) =
          some (Function.update (fun _ => (2 : ℤ)) () root) ∧ (root : ZMod 17) ^ 2 = 2 := by
  have prime : Fact (FpField.naive 17).order.Prime := ⟨by decide⟩
  have nonresidue : ¬IsSquare (3 : ZMod 17) := by decide
  have square : IsSquare (2 : ZMod 17) := ⟨6, by decide⟩
  have kept : (FpField.naive 17).Holds (3 : ℤ) (3 : ZMod 17) := rfl
  have operand : (FpField.naive 17).Holds (2 : ℤ) (2 : ZMod 17) := rfl
  obtain ⟨root, w, run, held, right⟩ := fpTonelliAt_sq (.naive 17) (by decide) trivial trivial 0
    (fun _ => false) [] kept nonresidue () () (fun _ => (2 : ℤ)) operand square
  obtain rfl := held
  exact ⟨root, run, right⟩

end Fields

end Pbc.Arith
