import Pbc.Arith.FastLimbs
import Pbc.Arith.FpBytes
import Pbc.Arith.Multiples

/-!
# The fast implementation refines the default one

The same operations, with the same aliasing of outputs and inputs, run over the arrays of
the fast implementation and over the integers of the default one. Each array stays the one
of its integer until a product needs a longer temporary array than the routine has.
-/

open Pbc.Gmp

namespace Pbc.Arith

section Operations

variable {ι : Type} (f : LimbField)

/-- What an operation of the fast implementation leaves in its destination. Strings and
products with long integers are the generic routines. -/
def ZpOp.limbs (s : ι → List ℕ) : ZpOp ι → Option (List ℕ)
  | init _ => some (limbsSet0 f)
  | set0 _ => some (limbsSet0 f)
  | set1 _ => some (limbsSet1 f)
  | setSi _ op => some (limbsSetSi f op)
  | setMpz _ z => some (limbsSetMpz f z)
  | setStr _ _ _ => some (limbsSet0 f)
  | fromBytes _ data => some (limbsFromBytes f data).1
  | fromHash _ data => limbsFromHash f data
  | set _ a => some (limbsSet f (s a))
  | add _ a b => some (limbsAdd f (s a) (s b))
  | sub _ a b => some (limbsSub f (s a) (s b))
  | mul _ a b => limbsMul f (s a) (s b)
  | mulMpz _ a z => limbsMul f (s a) (limbsSetMpz f z)
  | mulSi _ a op => limbsMulSi f (s a) op
  | square _ a => some (limbsSquare f (s a))
  | double _ a => some (limbsDouble f (s a))
  | halve _ a => some (limbsHalve f (s a))
  | neg _ a => some (limbsNeg f (s a))
  | invert _ a => limbsInvert f (s a)
  | powMpz _ a op => some (limbsPowMpz f (s a) op)

/-- The operations that the two implementations share: outside data is reduced, and machine
integers are of the type `signed long`. -/
def ZpOp.Shared : ZpOp ι → Prop
  | setSi _ op | mulSi _ _ op => f.IsLong op
  | setStr _ _ _ => False
  | fromBytes n data => (fromBytes n data : ZpOp ι).Reduced f.order
  | fromHash n data => (fromHash n data : ZpOp ι).Reduced f.order
  | _ => True

/-- The temporary arrays of a product hold its limbs. -/
def ZpOp.Fits : ZpOp ι → Prop
  | mul _ _ _ | mulMpz _ _ _ => f.limbs ≤ maxLimbs
  | mulSi _ _ _ => f.limbs < maxLimbs
  | _ => True

variable [DecidableEq ι]

/-- One operation on the objects of a program. -/
def limbsStep (s : ι → List ℕ) (op : ZpOp ι) : Option (ι → List ℕ) :=
  (op.limbs f s).map (Function.update s op.destination)

/-- A sequence of operations. -/
def limbsRun (ops : List (ZpOp ι)) (s : ι → List ℕ) : Option (ι → List ℕ) :=
  ops.foldlM (limbsStep f) s

end Operations

section Simulation

variable {ι : Type} (f : LimbField)

/-- Every array is the one of a reduced integer. -/
def Simulates (s : ι → List ℕ) (n : ι → ℤ) : Prop :=
  ∀ i, (0 ≤ n i ∧ n i < f.order) ∧ s i = f.store (n i).toNat

/-- What a program can observe of corresponding elements is the same. -/
structure Agrees (s : ι → List ℕ) (n : ι → ℤ) : Prop where
  bytes : ∀ i, ∃ data, limbsToBytes f (s i) = some data ∧ zpToBytes f.order (n i) = some data
  is0 : ∀ i, limbsIs0 (s i) = zpIs0 (n i)
  is1 : ∀ i, limbsIs1 (s i) = zpIs1 (n i)
  sign : ∀ i, limbsSgnOdd (s i) = zpSgnOdd (n i)
  cmp : ∀ i j, limbsCmp f (s i) (s j) = 0 ↔ zpCmp (n i) (n j) = 0

variable {f}

/-- A prime that is wider than a limb is odd. -/
theorem LimbField.odd_of_prime (f : LimbField) (prime : f.order.Prime) : f.order % 2 = 1 := by
  refine prime.eq_two_or_odd.resolve_left fun two => ?_
  have enough := f.base_le_order
  have byte : 256 ^ 1 ≤ f.base := Nat.pow_le_pow_right (by decide) f.positive
  omega

/-- A reduced number of the residue of a reduced integer is that integer. -/
theorem Reduced.eq_toNat {p d : ℕ} {x : ZMod p} (holds : Reduced p d x) {z : ℤ}
    (range : 0 ≤ z ∧ z < p) (value : (z : ZMod p) = x) : d = z.toNat := by
  have small := holds.small
  have same : (d : ℤ) = z := by
    refine eq_of_cast_eq (p := p) ⟨by omega, by omega⟩ range ?_
    rw [Int.cast_natCast, holds.value, value]
  omega

/-- A reduced integer holds its residue. -/
theorem reduced_toNat {p : ℕ} {z : ℤ} (range : 0 ≤ z ∧ z < p) : Reduced p z.toNat (z : ZMod p) := by
  refine ⟨by omega, ?_⟩
  rw [← Int.cast_natCast, Int.toNat_of_nonneg range.1]

theorem Simulates.agrees {s : ι → List ℕ} {n : ι → ℤ} (simulates : Simulates f s n) :
    Agrees f s n := by
  have reading (i : ι) : ((f.load (s i) : ℕ) : ℤ) = n i := by
    obtain ⟨range, array⟩ := simulates i
    rw [array, load_store, Int.toNat_of_nonneg range.1]
  constructor
  · intro i
    obtain ⟨range, array⟩ := simulates i
    have wide := lt_pow_byteCount f.order
    have fits : (n i).natAbs < 256 ^ fixedLengthInBytes f.order := by
      rw [fixedLengthInBytes]
      omega
    obtain ⟨data, written, -⟩ := (zpToBytes_eq f.order (n i)).1 fits
    refine ⟨_, ?_, written⟩
    rw [limbsToBytes, limbsToMpz, reading]
    exact written
  · intro i
    obtain ⟨range, array⟩ := simulates i
    rw [array, limbsIs0_store, zpIs0]
    exact decide_eq_decide.mpr (by omega)
  · intro i
    obtain ⟨range, array⟩ := simulates i
    rw [array, limbsIs1_store, zpIs1]
    exact decide_eq_decide.mpr (by omega)
  · intro i
    obtain ⟨range, array⟩ := simulates i
    have zero : (n i).toNat = 0 ↔ n i = 0 := by omega
    have odd : (n i).toNat % 2 = 1 ↔ n i % 2 = 1 := by omega
    rw [array, limbsSgnOdd_store, zpSgnOdd]
    simp only [zero, odd]
  · intro i j
    rw [limbsCmp, mpnCmp_eq_zero, zpCmp_eq_zero, ← reading i, ← reading j]
    omega

theorem zpSetSi_cast {p : ℕ} (op : ℤ) : (zpSetSi p op : ZMod p) = op := ZMod.intCast_mod op p

theorem zpMulSi_cast {p : ℕ} (a op : ℤ) : (zpMulSi p a op : ZMod p) = a * op := by
  rw [zpMulSi, ZMod.intCast_mod, Int.cast_mul]

/-- The two halvings of one integer. -/
theorem fastHalve_eq_toNat {a : ℤ} (range : 0 ≤ a ∧ a < f.order) :
    fastHalve f a.toNat = (zpHalveRaw f.order a).toNat := by
  have odd : a.toNat % 2 = 1 ↔ a % 2 = 1 := by omega
  have positive : 0 ≤ a + f.order := by omega
  rw [fastHalve_eq (by omega), zpHalveRaw]
  simp only [odd, Int.tdiv_eq_ediv_of_nonneg range.1, Int.tdiv_eq_ediv_of_nonneg positive]
  split <;> omega

/-- An operation whose arrays are too short does not return. -/
theorem ZpOp.limbs_overrun (s : ι → List ℕ) {op : ZpOp ι} (long : ¬op.Fits f) :
    op.limbs f s = none := by
  have overrun (a b : List ℕ) (more : ¬f.limbs ≤ maxLimbs) : limbsMul f a b = none := by
    have used : f.arrays true = none := if_pos (decide_eq_true (not_le.mp more))
    rw [limbsMul, used]
    rfl
  cases op with
  | mul m a b => exact overrun _ _ long
  | mulMpz m a z => exact overrun _ _ long
  | mulSi m a op => exact if_pos (Nat.lt_succ_of_le (not_lt.mp long))
  | _ => exact absurd trivial long

/-- An operation whose arrays are long enough leaves the array of the integer that the
default implementation leaves. -/
theorem ZpOp.limbs_eq {s : ι → List ℕ} {n : ι → ℤ} (simulates : Simulates f s n) {op : ZpOp ι}
    (shared : op.Shared f) (fits : op.Fits f) {z : ℤ} (value : op.value f.order n = some z)
    (range : 0 ≤ z ∧ z < f.order) : op.limbs f s = some (f.store z.toNat) := by
  have array (i : ι) : s i = f.store (n i).toNat := (simulates i).2
  have holds (i : ι) : Arith.Reduced f.order (n i).toNat (n i : ZMod f.order) :=
    reduced_toNat (simulates i).1
  have product {a b : ℕ} (room : f.limbs ≤ maxLimbs) :
      limbsMul f (f.store a) (f.store b) = some (f.store (fastMul f a b)) := by
    rw [limbsMul_store, f.arrays_of_fits fun _ => room]
    rfl
  cases op with
  | init m =>
    obtain rfl := Option.some.inj value
    exact congrArg some limbsSet0_eq
  | set0 m =>
    obtain rfl := Option.some.inj value
    exact congrArg some limbsSet0_eq
  | set1 m =>
    obtain rfl := Option.some.inj value
    exact congrArg some limbsSet1_eq
  | setSi m op =>
    obtain rfl := Option.some.inj value
    have word : op.natAbs < f.base := LimbField.IsLong.natAbs_lt shared
    rw [ZpOp.limbs, limbsSetSi_eq word, (fastSetSi_holds word).eq_toNat range (zpSetSi_cast op)]
  | setMpz m z =>
    obtain rfl := Option.some.inj value
    rfl
  | setStr m str base => exact shared.elim
  | fromBytes m data =>
    obtain rfl := Option.some.inj value
    have number := (fastSetMpz_holds _).eq_toNat range rfl
    exact congrArg (fun number => some (f.store number)) number
  | fromHash m data =>
    obtain ⟨hash, run, rfl⟩ := Option.map_eq_some_iff.mp value
    have number := (fastSetMpz_holds (hash : ℤ)).eq_toNat range rfl
    rw [ZpOp.limbs, limbsFromHash, run, Option.map_some, limbsSetMpz_eq, number]
  | set m a =>
    obtain rfl := Option.some.inj value
    rw [ZpOp.limbs, array a, limbsSet_store]
  | add m a b =>
    obtain rfl := Option.some.inj value
    have number := (fastAdd_holds (holds a) (holds b)).eq_toNat range (zpAdd_cast _ _)
    rw [ZpOp.limbs, array a, array b, limbsAdd_store, number]
  | sub m a b =>
    obtain rfl := Option.some.inj value
    have number := (fastSub_holds (holds a) (holds b)).eq_toNat range (zpSub_cast _ _)
    rw [ZpOp.limbs, array a, array b, limbsSub_store, number]
  | mul m a b =>
    obtain rfl := Option.some.inj value
    have number := (fastMul_holds (holds a) (holds b)).eq_toNat range (zpMul_cast _ _)
    rw [ZpOp.limbs, array a, array b, product fits, number]
  | mulMpz m a z =>
    obtain rfl := Option.some.inj value
    have number := (fastMul_holds (holds a) (fastSetMpz_holds z)).eq_toNat range (zpMulSi_cast _ _)
    rw [ZpOp.limbs, array a, limbsSetMpz_eq, product fits, number]
  | mulSi m a op =>
    obtain rfl := Option.some.inj value
    have number := (fastMulSi_holds (holds a) op).eq_toNat range (zpMulSi_cast _ _)
    have room : ¬maxLimbs < f.limbs + 1 := not_lt.mpr fits
    rw [ZpOp.limbs, array a, limbsMulSi_store, if_neg room, number]
  | square m a =>
    obtain rfl := Option.some.inj value
    have cast : (zpSquare f.order (n a) : ZMod f.order) = n a * n a := by rw [zpSquare_cast, sq]
    have number := (fastMul_holds (holds a) (holds a)).eq_toNat range cast
    rw [ZpOp.limbs, array a, limbsSquare_store, fastSquare_eq, number]
  | double m a =>
    obtain rfl := Option.some.inj value
    have number := (fastDouble_holds (holds a)).eq_toNat range (zpDouble_cast _)
    rw [ZpOp.limbs, array a, limbsDouble_store, number]
  | halve m a =>
    obtain rfl := Option.some.inj value
    rw [ZpOp.limbs, array a, limbsHalve_store (holds a).small, fastHalve_eq_toNat (simulates a).1]
  | neg m a =>
    obtain rfl := Option.some.inj value
    have number := (fastNeg_holds (holds a)).eq_toNat range (zpNeg_cast _)
    rw [ZpOp.limbs, array a, limbsNeg_store, number]
  | invert m a =>
    have inverted : mpzInvert f.order (n a) = some z := value
    rw [ZpOp.limbs, limbsInvert, limbsToMpz, array a, load_store,
      Int.toNat_of_nonneg (simulates a).1.1, inverted]
    rfl
  | powMpz m a op =>
    obtain rfl := Option.some.inj value
    have number := (fastPowMpz_holds (holds a) op).eq_toNat range (zpPowMpz_cast _ _)
    rw [ZpOp.limbs, array a, limbsPowMpz_store, number]

end Simulation

section Runs

variable {ι : Type} [DecidableEq ι] {f : LimbField}

omit [DecidableEq ι] in
theorem ZpOp.Shared.reduced {op : ZpOp ι} (shared : op.Shared f) : op.Reduced f.order := by
  cases op with
  | fromBytes m data => exact shared
  | fromHash m data => exact shared
  | _ => trivial

/-- A step whose arrays are long enough keeps the simulation; any other does not return. -/
theorem limbsStep_simulates (large : 2 < f.order) {s : ι → List ℕ} {n n' : ι → ℤ}
    (simulates : Simulates f s n) {op : ZpOp ι} (shared : op.Shared f)
    (step : zpStep f.order n op = some n') :
    (op.Fits f → ∃ s', limbsStep f s op = some s' ∧ Simulates f s' n') ∧
      (¬op.Fits f → limbsStep f s op = none) := by
  obtain ⟨z, value, rfl⟩ := Option.map_eq_some_iff.mp step
  have range : 0 ≤ z ∧ z < f.order :=
    op.value_canonical large (fun i => (simulates i).1) shared.reduced value
  constructor
  · intro fits
    refine ⟨_, by rw [limbsStep, op.limbs_eq simulates shared fits value range]; rfl, ?_⟩
    intro i
    by_cases same : i = op.destination
    · rw [same, Function.update_self, Function.update_self]
      exact ⟨range, rfl⟩
    · rw [Function.update_of_ne same, Function.update_of_ne same]
      exact simulates i
  · intro long
    rw [limbsStep, op.limbs_overrun s long]
    rfl

/-- A run over the arrays returns, and keeps the simulation, exactly when the arrays of all
its steps are long enough. -/
theorem limbsRun_simulates (large : 2 < f.order) (ops : List (ZpOp ι))
    (shared : ∀ op ∈ ops, op.Shared f) {s : ι → List ℕ} {n n' : ι → ℤ}
    (simulates : Simulates f s n) (run : zpRun f.order ops n = some n') :
    ((∀ op ∈ ops, op.Fits f) → ∃ s', limbsRun f ops s = some s' ∧ Simulates f s' n') ∧
      ((∃ op ∈ ops, ¬op.Fits f) → limbsRun f ops s = none) := by
  induction ops generalizing s n with
  | nil =>
    obtain rfl := Option.some.inj run
    refine ⟨fun _ => ⟨s, rfl, simulates⟩, ?_⟩
    rintro ⟨op, member, -⟩
    exact absurd member List.not_mem_nil
  | cons op ops ih =>
    rw [zpRun, List.foldlM_cons] at run
    obtain ⟨middle, step, rest⟩ := Option.bind_eq_some_iff.mp run
    obtain ⟨returns, overruns⟩ := limbsStep_simulates large simulates (shared op (by simp)) step
    rw [limbsRun, List.foldlM_cons]
    by_cases fits : op.Fits f
    · obtain ⟨s', made, simulates⟩ := returns fits
      obtain ⟨returns, overruns⟩ := ih (fun op member => shared op (by simp [member])) simulates rest
      rw [made]
      constructor
      · intro all
        exact returns fun op member => all op (by simp [member])
      · rintro ⟨long, member, unfit⟩
        rcases List.mem_cons.mp member with rfl | member
        · exact absurd fits unfit
        · exact overruns ⟨long, member, unfit⟩
    · rw [overruns fits]
      refine ⟨fun all => absurd (all op (by simp)) fits, fun _ => rfl⟩

omit [DecidableEq ι] in
theorem simulates_init : Simulates f (fun _ : ι => limbsSet0 f) fun _ => 0 := by
  intro i
  have positive : (0 : ℤ) < f.order := Int.natCast_pos.mpr f.order_pos
  exact ⟨⟨le_refl 0, positive⟩, limbsSet0_eq⟩

/-- A program of the shared operations, run over both implementations of a prime field wider than
a limb, leaves elements of the same bytes, tests, signs and comparisons exactly when the modulus has
at most `MAX_LIMBS` limbs if there are products in it, and fewer if there are products with a
machine integer. An inverse of zero has no value in either. -/
theorem limbsRun_refines_iff (prime : f.order.Prime) (ops : List (ZpOp ι))
    (shared : ∀ op ∈ ops, op.Shared f) {n : ι → ℤ}
    (run : zpRun f.order ops (fun _ => 0) = some n) :
    (∃ s, limbsRun f ops (fun _ => limbsSet0 f) = some s ∧ Agrees f s n) ↔
      ∀ op ∈ ops, op.Fits f := by
  have large : 2 < f.order := by
    have odd := f.odd_of_prime prime
    have two := f.one_lt_order
    omega
  obtain ⟨returns, overruns⟩ := limbsRun_simulates large ops shared simulates_init run
  constructor
  · rintro ⟨s, made, -⟩ op member
    by_contra long
    rw [overruns ⟨op, member, long⟩] at made
    cases made
  · intro fits
    obtain ⟨s, made, simulates⟩ := returns fits
    exact ⟨s, made, simulates.agrees⟩

end Runs

section Small

private theorem shared_small : ∀ op ∈ [ZpOp.setSi (0 : Fin 2) (-1), .mulSi 1 0 3, .halve 1 1],
    op.Shared smallLimbField := by
  have minus : smallLimbField.IsLong (-1) := ⟨by decide, by decide⟩
  have three : smallLimbField.IsLong 3 := ⟨by decide, by decide⟩
  rintro op (_ | ⟨_, _ | ⟨_, _ | ⟨_, member⟩⟩⟩)
  · exact minus
  · exact three
  · trivial
  · cases member

/-- Half of three times minus one, modulo a prime of two limbs. -/
theorem limbsRun_refines_small : ∃ (s : Fin 2 → List ℕ) (n : Fin 2 → ℤ),
    zpRun smallLimbField.order [.setSi 0 (-1), .mulSi 1 0 3, .halve 1 1] (fun _ => 0) = some n ∧
      limbsRun smallLimbField [.setSi 0 (-1), .mulSi 1 0 3, .halve 1 1]
        (fun _ => limbsSet0 smallLimbField) = some s ∧ Agrees smallLimbField s n := by
  have room : smallLimbField.limbs < maxLimbs := by
    rw [smallLimbField_limbs]
    decide
  have fits : ∀ op ∈ [ZpOp.setSi (0 : Fin 2) (-1), .mulSi 1 0 3, .halve 1 1],
      op.Fits smallLimbField := by
    rintro op (_ | ⟨_, _ | ⟨_, _ | ⟨_, member⟩⟩⟩)
    · trivial
    · exact room
    · trivial
    · cases member
  obtain ⟨s, made, agrees⟩ :=
    (limbsRun_refines_iff smallLimbField_prime _ shared_small rfl).mpr fits
  exact ⟨s, _, rfl, made, agrees⟩

end Small

section Large

private theorem overrun_of_product {f : LimbField} (large : f.base ^ maxLimbs ≤ f.order) :
    (∃ n, zpRun f.order [.set1 (0 : Fin 2), .mul 1 0 0] (fun _ => 0) = some n) ∧
      limbsRun f [.set1 (0 : Fin 2), .mul 1 0 0] (fun _ => limbsSet0 f) = none := by
  have limbs : maxLimbs < f.limbs :=
    Nat.lt_succ_of_le (Nat.le_log_of_pow_le f.one_lt_base large)
  have overrun : f.arrays true = none := if_pos (decide_eq_true limbs)
  refine ⟨⟨_, rfl⟩, ?_⟩
  simp [limbsRun, limbsStep, ZpOp.limbs, limbsMul, overrun]

/-- The square of one modulo the least prime of more than 1024 limbs, which only the default
implementation computes. -/
theorem limbsRun_refines_overrun : largeLimbField.order.Prime ∧
    (∀ op ∈ [ZpOp.set1 (0 : Fin 2), .mul 1 0 0], op.Shared largeLimbField) ∧
    (∃ n, zpRun largeLimbField.order [.set1 (0 : Fin 2), .mul 1 0 0] (fun _ => 0) = some n) ∧
    limbsRun largeLimbField [.set1 (0 : Fin 2), .mul 1 0 0]
      (fun _ => limbsSet0 largeLimbField) = none := by
  obtain ⟨large, prime⟩ := Nat.find_spec exists_large_prime
  have bound : largeBound = largeLimbField.base ^ maxLimbs := largeBound_eq rfl
  refine ⟨prime, ?_, overrun_of_product (bound.ge.trans large)⟩
  rintro op (_ | ⟨_, _ | ⟨_, member⟩⟩)
  · trivial
  · trivial
  · cases member

end Large

end Pbc.Arith
