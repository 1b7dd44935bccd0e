import Mathlib.FieldTheory.Finite.Basic
import Pbc.Arith.FieldQuadratic
import Pbc.Arith.FpPow
import Pbc.Arith.Poly
import Pbc.Ecc.Curve

/-!
# Powers in the calculator

`pow` takes its exponent from `Z`, so it may be negative. The residues of a prime pass it to
`mpz_powm`, which inverts. All other structures run the window method on the bits of the two's
complement, which is the power by another exponent.
-/

open Pbc.Algebra Pbc.Arith Pbc.Ecc Pbc.Elliptic Pbc.Gmp WeierstrassCurve.Affine

namespace Pbc.Calc

/-- A structure whose elements the calculator multiplies and raises to powers. -/
structure PowerStructure where
  Object : Type
  Value : Type
  monoid : Monoid Value
  represents : Object → Value → Prop
  methods : ElementMethods Object
  powMpz : Object → Object → ℤ → Except Exit Object

instance PowerStructure.instMonoidValue (s : PowerStructure) : Monoid s.Value := s.monoid

section Operations

/-- `zp_pow_mpz`, which is `mpz_powm`: a negative exponent inverts the base. -/
def zpPowMpzInt (p : ℕ) (a : ℤ) : ℤ → Except Exit ℤ
  | .ofNat z => .ok (zpPowMpz p a z)
  | .negSucc z =>
      match mpzInvert p a with
      | some b => .ok (zpPowMpz p b (z + 1))
      | none => .error .divisionByZero

/-- The residues of a prime, as `field_init_fp` builds them. -/
def fpStructure (p : ℕ) : PowerStructure where
  Object := ℤ
  Value := ZMod p
  monoid := inferInstance
  represents a x := (a : ZMod p) = x
  methods := zpMethods p
  powMpz _ a z := zpPowMpzInt p a z

/-- A structure with the powers that `field_init` sets. -/
def genericStructure {O M : Type} [Monoid M] (represents : O → M → Prop)
    (methods : ElementMethods O) : PowerStructure where
  Object := O
  Value := M
  monoid := inferInstance
  represents
  methods
  powMpz := genericPowMpzInt methods

/-- The methods of a quadratic extension by a square root of minus one. -/
def fiMethods (F : Type) [Field F] : ElementMethods (FiData F) where
  init := 0
  set1 _ := 1
  set _ a := a
  square _ a := .ok (fiSquare a)
  mul _ a b := .ok (fiMul a b)

/-- A quadratic extension by a square root of minus one. -/
def fiStructure (F : Type) [Field F] : PowerStructure := genericStructure Eq (fiMethods F)

/-- A quadratic extension. -/
def fqStructure {K : Type} [CommRing K] [FieldMethods K] (nqr : K) : PowerStructure :=
  genericStructure Eq (coefficientMethods (FqData nqr))

/-- A polynomial extension. -/
def polymodStructure {F : Type} [CommRing F] [DecidableEq F] [FieldMethods F] {n : ℕ}
    (poly : Fin n → F) : PowerStructure :=
  genericStructure Eq (coefficientMethods (Polymod poly))

/-- The points of a curve, whose product is their sum. -/
def curveStructure {K : Type} [Field K] [FieldMethods K] [DecidableEq K] (a b : K) :
    PowerStructure :=
  genericStructure (fun (p : PointS K) (P : Multiplicative (short a b).Point) =>
    p.Represents P.toAdd) (curveMethods a)

/-- The residues of a prime. -/
inductive PowerStructure.Prime : PowerStructure → Prop where
  | fp (p : ℕ) [Fact p.Prime] : Prime (fpStructure p)

/-- The structures with generic powers. -/
inductive PowerStructure.Generic : PowerStructure → Prop where
  | fi (F : Type) [Field F] : Generic (fiStructure F)
  | fq {K : Type} [CommRing K] [FieldMethods K] (nqr : K) : Generic (fqStructure nqr)
  | polymod {F : Type} [CommRing F] [DecidableEq F] [FieldMethods F] {n : ℕ} (poly : Fin n → F) :
      Generic (polymodStructure poly)
  | curve {K : Type} [Field K] [FieldMethods K] [InvertsNonzero K] [DecidableEq K]
      (two : (2 : K) ≠ 0) (a b : K) : Generic (curveStructure a b)

namespace PowerStructure

variable (s : PowerStructure)

/-- `f_pow`, for an exponent from `Z`. -/
def fPow (a : s.Object) (z : ℤ) : Except Exit s.Object := s.powMpz s.methods.init a z

/-- `f_mul`. -/
def fMul (a b : s.Object) : Except Exit s.Object := s.methods.mul s.methods.init a b

/-- The product of two powers is the power by the sum. -/
def PowersAdd (a : s.Object) (m n : ℤ) : Prop :=
  ∃ x y w z v, s.fPow a m = .ok x ∧ s.fPow a n = .ok y ∧ s.fMul x y = .ok w ∧
    s.fPow a (m + n) = .ok z ∧ s.represents w v ∧ s.represents z v

end PowerStructure

/-- What the bits of the two's complement add to an integer. -/
def complementExcess (n : ℤ) : ℤ := if n < 0 then 2 ^ mpzSizeinbase2 n.natAbs else 0

end Operations

section Exponents

theorem exponentBits_eq (n : ℤ) : (exponentBits n : ℤ) = n + complementExcess n := by
  rw [complementExcess]
  split
  · next negative => rw [exponentBits_neg negative, add_comm]
  · next other =>
    obtain ⟨n, rfl⟩ := Int.eq_ofNat_of_zero_le (not_lt.mp other)
    rw [exponentBits_natCast, add_zero]

/-- Powers of a unit by two exponents are equal modulo its order. -/
theorem pow_mul_pow_eq_iff {M : Type*} [Monoid M] {g : M} (unit : IsUnit g) (x y z : ℕ) :
    g ^ x * g ^ y = g ^ z ↔ (orderOf g : ℤ) ∣ x + y - z := by
  obtain ⟨u, rfl⟩ := unit
  rw [← pow_add, ← Units.val_pow_eq_pow_val, ← Units.val_pow_eq_pow_val, Units.val_inj, orderOf_units,
    pow_eq_pow_iff_modEq, Nat.ModEq.comm, Nat.modEq_iff_dvd, Nat.cast_add]

end Exponents

section Laws

/-- Every object has one value, and assignment keeps it. -/
structure Represents {O M : Type} [Monoid M] (represents : O → M → Prop)
    (methods : ElementMethods O) : Prop where
  implements : methods.Implements represents
  keeps : ∀ c {a g}, represents a g → represents (methods.set c a) g
  unique : ∀ {a g h}, represents a g → represents a h → g = h

section Generic

variable {O M : Type} [Monoid M] {represents : O → M → Prop} {methods : ElementMethods O}

/-- Generic powers are powers by the bits that are read. -/
theorem genericStructure_fPow (holds : Represents represents methods) {a : O} {g : M}
    (base : represents a g) (n : ℤ) :
    ∃ x, (genericStructure represents methods).fPow a n = .ok x ∧
      represents x (g ^ exponentBits n) := by
  obtain ⟨result, value, run⟩ := genericPowMpzInt_ok holds.implements methods.init base n
  refine ⟨_, run, ?_⟩
  split
  · next zero =>
    rw [zero, show exponentBits 0 = 0 from exponentBits_natCast 0, pow_zero]
    exact holds.implements.set1 _
  · exact holds.keeps _ value

theorem genericStructure_powersAdd_iff (holds : Represents represents methods) {a : O} {g : M}
    (base : represents a g) (unit : IsUnit g) (m n : ℤ) :
    (genericStructure represents methods).PowersAdd a m n ↔
      (orderOf g : ℤ) ∣ complementExcess m + complementExcess n - complementExcess (m + n) := by
  obtain ⟨x, left, valueX⟩ := genericStructure_fPow holds base m
  obtain ⟨y, right, valueY⟩ := genericStructure_fPow holds base n
  obtain ⟨z, sum, valueZ⟩ := genericStructure_fPow holds base (m + n)
  obtain ⟨w, product, valueW⟩ := holds.implements.mul methods.init valueX valueY
  have exponents : complementExcess m + complementExcess n - complementExcess (m + n) =
      exponentBits m + exponentBits n - exponentBits (m + n) := by
    rw [exponentBits_eq, exponentBits_eq, exponentBits_eq]
    ring
  rw [exponents, ← pow_mul_pow_eq_iff unit]
  constructor
  · rintro ⟨x', y', w', z', v, left', right', product', sum', first, second⟩
    obtain rfl := Except.ok.inj (left.symm.trans left')
    obtain rfl := Except.ok.inj (right.symm.trans right')
    obtain rfl := Except.ok.inj (sum.symm.trans sum')
    obtain rfl := Except.ok.inj (product.symm.trans product')
    rw [holds.unique valueW first, holds.unique valueZ second]
  · intro same
    exact ⟨x, y, w, z, _, left, right, product, sum, valueW, same ▸ valueZ⟩

end Generic

/-- The powers of a nonzero residue are its powers by exponents of either sign. -/
theorem zpPowMpzInt_ok {p : ℕ} [Fact p.Prime] {a : ℤ} (nonzero : (a : ZMod p) ≠ 0) (n : ℤ) :
    ∃ x, zpPowMpzInt p a n = .ok x ∧ (x : ZMod p) = (a : ZMod p) ^ n := by
  cases n with
  | ofNat n =>
    refine ⟨_, rfl, ?_⟩
    rw [zpPowMpz_cast, Int.ofNat_eq_natCast, zpow_natCast]
  | negSucc n =>
    obtain ⟨b, inverted, inverse⟩ := mpzInvert_cast nonzero
    refine ⟨zpPowMpz p b (n + 1), by rw [zpPowMpzInt, inverted], ?_⟩
    rw [zpPowMpz_cast, inverse, zpow_negSucc, inv_pow]

/-- The residues of a prime add exponents of every sign. -/
theorem fpStructure_powersAdd {p : ℕ} [Fact p.Prime] {a : ℤ} {g : ZMod p}
    (base : (a : ZMod p) = g) (unit : IsUnit g) (m n : ℤ) : (fpStructure p).PowersAdd a m n := by
  subst base
  have nonzero := unit.ne_zero
  obtain ⟨x, left, valueX⟩ := zpPowMpzInt_ok nonzero m
  obtain ⟨y, right, valueY⟩ := zpPowMpzInt_ok nonzero n
  obtain ⟨z, sum, valueZ⟩ := zpPowMpzInt_ok nonzero (m + n)
  refine ⟨x, y, zpMul p x y, z, _, left, right, rfl, sum, zpMul_cast x y, ?_⟩
  rw [zpow_add₀ nonzero, ← valueX, ← valueY] at valueZ
  exact valueZ

theorem coefficientMethods_represents (K : Type) [CommRing K] [FieldMethods K] :
    Represents Eq (coefficientMethods K) :=
  ⟨coefficientMethods_implements K, fun _ _ _ same => same, fun left right => left ▸ right⟩

theorem fiMethods_represents (F : Type) [Field F] : Represents Eq (fiMethods F) where
  implements :=
    { set1 := fun _ => rfl
      square := fun _ _ _ same => ⟨_, rfl, by rw [fiSquare_eq, same]⟩
      mul := fun _ _ _ _ _ left right => ⟨_, rfl, by rw [fiMul_eq, left, right]⟩ }
  keeps _ _ _ same := same
  unique left right := left ▸ right

theorem curveMethods_represents {K : Type} [Field K] [FieldMethods K] [InvertsNonzero K]
    [DecidableEq K] (two : (2 : K) ≠ 0) (a b : K) :
    Represents (fun (p : PointS K) (P : Multiplicative (short a b).Point) => p.Represents P.toAdd)
      (curveMethods a) where
  implements := curveMethods_implements two
  keeps c _ P represents := by
    have same : (curveMethods a).set c _ = c.assign P.toAdd := curveSet_eq c represents
    rw [same]
    exact c.assign_represents P.toAdd
  unique left right := left.unique right

variable {s : PowerStructure} {a : s.Object} {g : s.Value}

/-- In the structures with generic powers the exponents of two powers add up exactly where the
two's complements do so modulo the order of the element. -/
theorem PowerStructure.Generic.exponents_add_iff (generic : s.Generic) (base : s.represents a g)
    (unit : IsUnit g) (m n : ℤ) :
    s.PowersAdd a m n ↔
      (orderOf g : ℤ) ∣ complementExcess m + complementExcess n - complementExcess (m + n) := by
  cases generic with
  | fi F => exact genericStructure_powersAdd_iff (fiMethods_represents F) base unit m n
  | fq nqr =>
    exact genericStructure_powersAdd_iff (coefficientMethods_represents (FqData nqr)) base unit m n
  | polymod poly =>
    exact genericStructure_powersAdd_iff (coefficientMethods_represents (Polymod poly)) base unit m n
  | curve two c d =>
    exact genericStructure_powersAdd_iff (curveMethods_represents two c d) base unit m n

/-- The product of two powers of an invertible element is the power by the sum of the exponents
for residues of a prime, and elsewhere where the powers of two above the negative exponents, less
that above a negative sum, are a multiple of the order of the element. -/
theorem powersAdd_iff (held : s.Prime ∨ s.Generic) (base : s.represents a g) (unit : IsUnit g)
    (m n : ℤ) :
    s.PowersAdd a m n ↔ s.Prime ∨
      (orderOf g : ℤ) ∣ complementExcess m + complementExcess n - complementExcess (m + n) := by
  have prime (residues : s.Prime) : s.PowersAdd a m n := by
    cases residues with
    | fp p => exact fpStructure_powersAdd base unit m n
  constructor
  · intro add
    rcases held with residues | generic
    · exact Or.inl residues
    · exact Or.inr ((generic.exponents_add_iff base unit m n).mp add)
  · rintro (residues | multiple)
    · exact prime residues
    · rcases held with residues | generic
      · exact prime residues
      · exact (generic.exponents_add_iff base unit m n).mpr multiple

end Laws

section Small

private theorem isUnit_root : IsUnit (⟨0, 1⟩ : FiData (ZMod 3)) :=
  IsUnit.of_mul_eq_one ⟨0, 2⟩ (by ext <;> decide)

/-- In `F_9` the square root of minus one, whose order is four, and the exponents `-2` and `2`. -/
theorem powersAdd_root :
    (fiStructure (ZMod 3)).PowersAdd (⟨0, 1⟩ : FiData (ZMod 3)) (-2) 2 ↔
      (fiStructure (ZMod 3)).Prime ∨ (orderOf (⟨0, 1⟩ : FiData (ZMod 3)) : ℤ) ∣
        complementExcess (-2) + complementExcess 2 - complementExcess (-2 + 2) :=
  @powersAdd_iff (fiStructure (ZMod 3)) (⟨0, 1⟩ : FiData (ZMod 3)) (⟨0, 1⟩ : FiData (ZMod 3))
    (Or.inr (.fi (ZMod 3))) rfl isUnit_root (-2) 2

/-- Powers do not add for the square root of minus one in `F_9` and the exponents `-1` and `1`:
`pow(i, -1)` is `i`. -/
theorem not_powersAdd : ¬∀ (s : PowerStructure), s.Prime ∨ s.Generic → ∀ (a : s.Object)
    (g : s.Value), s.represents a g → IsUnit g → ∀ m n : ℤ, s.PowersAdd a m n := by
  intro adds
  have generic : (fiStructure (ZMod 3)).Generic := .fi (ZMod 3)
  have base : (fiStructure (ZMod 3)).represents (⟨0, 1⟩ : FiData (ZMod 3))
      (⟨0, 1⟩ : FiData (ZMod 3)) := rfl
  have multiple := (generic.exponents_add_iff base isUnit_root (-1) 1).mp
    (adds _ (Or.inr generic) _ _ base isUnit_root (-1) 1)
  have excess : complementExcess (-1) + complementExcess 1 - complementExcess (-1 + 1) = (2 : ℕ) := by
    decide
  rw [excess, Int.natCast_dvd_natCast] at multiple
  have square : (⟨0, 1⟩ : FiData (ZMod 3)) ^ 2 = 1 := orderOf_dvd_iff_pow_eq_one.mp multiple
  rw [sq, QuadraticAlgebra.ext_iff] at square
  exact absurd square.1 (by decide)

end Small

end Pbc.Calc
