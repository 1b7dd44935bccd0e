import Pbc.Arith.Multiples
import Pbc.Ecc.CurveStore

/-!
# Integer multiples on curves and elsewhere

A curve takes its products with machine integers and its halving from generic routines,
which read every integer as `O`. Its products with long integers are powers. The last
theorem collects the conditions of all structures.
-/

open Pbc.Algebra Pbc.Arith Pbc.Elliptic Pbc.Gmp WeierstrassCurve.Affine

namespace Pbc.Ecc

section Operations

variable {K : Type*} [CommRing K] [FieldMethods K] [DecidableEq K]

omit [FieldMethods K] [DecidableEq K] in
/-- `generic_set_si`, through `zero_set_mpz` and the `set0` of a curve. -/
def curveSetSi (e : PointS K) (_si : ℤ) : PointS K := curveSet1 e

/-- `generic_mul_si` on a curve. -/
def curveMulSi (cca : K) (r a : PointS K) (n : ℤ) : Except Exit (PointS K) :=
  let e0 := curveSetSi curveInit n
  curveMul cca r a e0

/-- `element_mul_mpz` on a curve, which is `element_pow_mpz`. -/
def curveMulMpz (cca : K) (r a : PointS K) (z : ℤ) : Except Exit (PointS K) :=
  genericPowMpzInt (curveMethods cca) r a z

/-- `generic_halve` on a curve. -/
def curveHalve (cca : K) (r a : PointS K) : Except Exit (PointS K) :=
  let e0 := curveSetSi curveInit 2
  let e0 := curveInvert e0 e0
  curveMul cca r a e0

/-- The methods of a curve. -/
def curveMultiples (cca : K) : MultipleMethods (PointS K) where
  mulSi r a n := (curveMulSi cca r a n).toOption
  mulMpz r a z := (curveMulMpz cca r a z).toOption
  double r a := (curveDouble cca r a).toOption
  halve r a := (curveHalve cca r a).toOption

end Operations

section Values

variable {K : Type*} [Field K] [FieldMethods K] [InvertsNonzero K] [DecidableEq K] {a b : K}

/-- The product with a machine integer is the point itself. -/
theorem curveMulSi_ok (two : (2 : K) ≠ 0) (c : PointS K) {p : PointS K} {P : (short a b).Point}
    (represents : p.Represents P) (n : ℤ) : curveMulSi a c p n = .ok (c.assign P) := by
  have zero : (curveSetSi curveInit n : PointS K).Represents (0 : (short a b).Point) := rfl
  rw [curveMulSi, curveMul_ok two c represents zero, add_zero]

/-- So is the half. -/
theorem curveHalve_ok (two : (2 : K) ≠ 0) (c : PointS K) {p : PointS K} {P : (short a b).Point}
    (represents : p.Represents P) : curveHalve a c p = .ok (c.assign P) := by
  have zero : (curveInvert (curveSetSi curveInit 2) (curveSetSi curveInit 2) : PointS K).Represents
      (0 : (short a b).Point) := rfl
  rw [curveHalve, curveMul_ok two c represents zero, add_zero]

/-- The product with a long integer is the multiple by the bits that are read. -/
theorem curveMulMpz_ok (two : (2 : K) ≠ 0) (c : PointS K) {p : PointS K} {P : (short a b).Point}
    (represents : p.Represents P) (z : ℤ) :
    curveMulMpz a c p z = .ok (c.assign (exponentBits z • P)) := by
  obtain ⟨result, value, power⟩ :=
    genericPowMpzInt_ok (g := Multiplicative.ofAdd P) (curveMethods_implements two) c represents z
  rw [curveMulMpz, power]
  split
  · next zero =>
    rw [zero, show exponentBits 0 = 0 from exponentBits_natCast 0, zero_nsmul]
    rfl
  · exact congrArg Except.ok (curveSet_eq c (P := exponentBits z • P) value)

/-- The bits read are the multiple for nonnegative integers, and for negative ones when
the power of two above them annihilates the point. -/
theorem exponentBits_nsmul_iff {A : Type*} [AddCommGroup A] (P : A) (z : ℤ) :
    exponentBits z • P = z • P ↔ 0 ≤ z ∨ 2 ^ mpzSizeinbase2 z.natAbs • P = 0 := by
  by_cases negative : z < 0
  · have bits : exponentBits z • P = 2 ^ mpzSizeinbase2 z.natAbs • P + z • P := by
      rw [← natCast_zsmul, exponentBits_neg negative, add_zsmul, ← natCast_zsmul _ (2 ^ _)]
      push_cast
      rfl
    rw [bits, add_eq_right, or_iff_right (not_le.mpr negative)]
  · obtain ⟨n, rfl⟩ := Int.eq_ofNat_of_zero_le (not_lt.mp negative)
    rw [exponentBits_natCast, natCast_zsmul]
    exact iff_of_true rfl (Or.inl (Int.natCast_nonneg n))

/-- A curve multiplies only by integers that fix the point, and halves only `O`. -/
theorem curveMultiples_exact (two : (2 : K) ≠ 0) :
    (curveMultiples a).Exact (fun _ => True) (fun (p : PointS K) (P : (short a b).Point) =>
        p.Represents P)
      (fun _ P n => n • P = P ∧ (0 ≤ n ∨ 2 ^ mpzSizeinbase2 n.natAbs • P = 0))
      (fun _ _ P => P = 0) where
  multiplies_iff c p P n _ represents := by
    have single : (curveMultiples a).mulSi c p n = some (c.assign P) :=
      congrArg Except.toOption (curveMulSi_ok two c represents n)
    have long : (curveMultiples a).mulMpz c p n = some (c.assign (exponentBits n • P)) :=
      congrArg Except.toOption (curveMulMpz_ok two c represents n)
    rw [← exponentBits_nsmul_iff]
    constructor
    · rintro ⟨⟨r, run, value⟩, r', run', value'⟩
      obtain rfl := Option.some.inj (single.symm.trans run)
      obtain rfl := Option.some.inj (long.symm.trans run')
      exact ⟨value.unique (c.assign_represents P), (c.assign_represents _).unique value'⟩
    · rintro ⟨fixed, bits⟩
      exact ⟨⟨_, single, fixed.symm ▸ c.assign_represents P⟩, _, long,
        bits ▸ c.assign_represents _⟩
  inverts_iff c c' p P represents := by
    have half := congrArg Except.toOption (curveHalve_ok two c represents)
    have double := congrArg Except.toOption (curveDouble_ok two c' represents)
    have first := congrArg Except.toOption
      (curveDouble_ok two c' (c.assign_represents (P : (short a b).Point)))
    have second := congrArg Except.toOption (curveHalve_ok two c (c'.assign_represents (P + P)))
    constructor
    · rintro ⟨⟨h, r, halved, doubled, value⟩, -⟩
      obtain rfl := Option.some.inj (half.symm.trans halved)
      obtain rfl := Option.some.inj (first.symm.trans doubled)
      exact add_eq_right.mp ((c'.assign_represents (P + P)).unique value)
    · rintro rfl
      rw [add_zero] at double first second
      exact ⟨⟨_, _, half, first, c'.assign_represents 0⟩, _, _, double, second,
        c.assign_represents 0⟩

end Values

section Small

end Small

end Pbc.Ecc
