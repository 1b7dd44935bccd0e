import Mathlib.Algebra.Group.Basic
import Mathlib.Algebra.Group.Nat.Defs
import Mathlib.Algebra.Module.NatInt
import Mathlib.Tactic.Abel
import Mathlib.Tactic.Ring
import Pbc.Algebra.Numerals

/-!
# Products along the multiples of one element

A symmetric cocycle on an additive group assigns to two elements a value of a
commutative group, and the two ways of adding three elements give the same
product of values. `Cocycle.power` multiplies the values met while adding one
element to itself. It does not depend on the addition chain, by `power_add`, and
at a multiple of the order of the element it is linear, by `power_nsmul`.
-/

namespace Pbc.Elliptic

/-- A normalised symmetric two-cocycle with values in a commutative group. -/
structure Cocycle (G M : Type*) [AddCommGroup G] [CommGroup M] where
  value : G → G → M
  zero_left : ∀ a, value 0 a = 1
  comm : ∀ a b, value a b = value b a
  assoc : ∀ a b c, value a b * value (a + b) c = value b c * value a (b + c)

namespace Cocycle

variable {G M : Type*} [AddCommGroup G] [CommGroup M] (cocycle : Cocycle G M)

@[simp] theorem value_zero_left (a : G) : cocycle.value 0 a = 1 := cocycle.zero_left a

@[simp] theorem value_zero_right (a : G) : cocycle.value a 0 = 1 := by
  rw [cocycle.comm, cocycle.zero_left]

/-- The product of the values met on the chain `0, a, 2a, ..., na`. -/
def power (a : G) : ℕ → M
  | 0 => 1
  | n + 1 => power a n * cocycle.value (n • a) a

@[simp] theorem power_zero (a : G) : cocycle.power a 0 = 1 := rfl

theorem power_succ (a : G) (n : ℕ) :
    cocycle.power a (n + 1) = cocycle.power a n * cocycle.value (n • a) a := rfl

@[simp] theorem power_one (a : G) : cocycle.power a 1 = 1 := by
  simp [power_succ]

@[simp] theorem zero_power (n : ℕ) : cocycle.power 0 n = 1 := by
  induction n with
  | zero => rfl
  | succ n ih => simp [power_succ, ih]

/-- The product over a sum of counts only adds the value at the two multiples,
so every addition chain for a count gives the same product. -/
theorem power_add (a : G) (m n : ℕ) :
    cocycle.power a (m + n) =
      cocycle.power a m * cocycle.power a n * cocycle.value (m • a) (n • a) := by
  induction n with
  | zero => simp
  | succ n ih =>
      have split := cocycle.assoc (m • a) (n • a) a
      have sums : n • a + a = (n + 1) • a := (succ_nsmul a n).symm
      have index : m • a + n • a = (m + n) • a := (add_nsmul a m n).symm
      rw [sums, index] at split
      calc cocycle.power a (m + (n + 1))
          = cocycle.power a (m + n) * cocycle.value ((m + n) • a) a := rfl
        _ = cocycle.power a m * cocycle.power a n *
              (cocycle.value (m • a) (n • a) * cocycle.value ((m + n) • a) a) := by
            rw [ih, mul_assoc]
        _ = cocycle.power a m * (cocycle.power a n * cocycle.value (n • a) a) *
              cocycle.value (m • a) ((n + 1) • a) := by
            rw [split]
            simp only [mul_assoc]
        _ = _ := by rw [← power_succ]

/-- The value at two elements does not change when the three elements with sum zero are
rotated, for a cocycle that is trivial on opposite elements. -/
theorem value_rotate (trivial : ∀ b, cocycle.value b (-b) = 1) {a b c : G} (sum : a + b + c = 0) :
    cocycle.value a b = cocycle.value b c := by
  obtain rfl := neg_eq_of_add_eq_zero_right sum
  have split := cocycle.assoc a b (-(a + b))
  rwa [trivial, mul_one, show b + -(a + b) = -a by abel, trivial, mul_one] at split

/-- The value at the opposites is the inverse. -/
theorem value_neg_neg (trivial : ∀ b, cocycle.value b (-b) = 1) (a b : G) :
    cocycle.value (-a) (-b) * cocycle.value a b = 1 := by
  have split := cocycle.assoc a b (-b)
  rw [trivial, one_mul, add_neg_cancel, value_zero_right] at split
  have rotated : cocycle.value (a + b) (-b) = cocycle.value (-b) (-a) :=
    cocycle.value_rotate trivial (by abel)
  rw [← split, rotated, cocycle.comm (-a), mul_comm]

/-- The two values that lead from `k a` to `(2 k + i) a`. -/
theorem value_mul_value_neg (trivial : ∀ b, cocycle.value b (-b) = 1) (a : G) (k i : ℕ) :
    cocycle.power a k ^ 2 * (cocycle.value (k • a) ((k + i) • a) *
        cocycle.value (k • a) (-((k + i) • a))) * cocycle.power a i =
      cocycle.power a (2 * k + i) := by
  have rotated : cocycle.value (i • a) (k • a) = cocycle.value (k • a) (-((k + i) • a)) :=
    cocycle.value_rotate trivial (by rw [add_comm k, add_nsmul, add_neg_cancel])
  have inner := cocycle.power_add a i k
  rw [rotated, add_comm i] at inner
  rw [two_mul, add_assoc, cocycle.power_add a k (k + i), inner, sq]
  ac_rfl

/-- Subtraction of counts, with the value at a multiple and its opposite. -/
theorem power_sub_mul (a : G) {m n : ℕ} (ordered : n ≤ m) :
    cocycle.power a (m - n) * cocycle.value (n • a) (-(n • a)) =
      cocycle.power a m * (cocycle.power a n)⁻¹ * cocycle.value (m • a) (-(n • a)) := by
  have whole := cocycle.power_add a (m - n) n
  rw [Nat.sub_add_cancel ordered] at whole
  have split := cocycle.assoc ((m - n) • a) (n • a) (-(n • a))
  have index : (m - n) • a + n • a = m • a := by
    rw [← add_nsmul, Nat.sub_add_cancel ordered]
  rw [index, add_neg_cancel, value_zero_right, mul_one] at split
  calc cocycle.power a (m - n) * cocycle.value (n • a) (-(n • a))
      = cocycle.power a (m - n) * (cocycle.power a n * (cocycle.power a n)⁻¹) *
          (cocycle.value ((m - n) • a) (n • a) * cocycle.value (m • a) (-(n • a))) := by
        rw [split, mul_inv_cancel, mul_one]
    _ = _ := by
        rw [whole]
        ac_rfl

/-- Subtraction of counts, for a cocycle that is trivial on opposite elements. -/
theorem power_sub (trivial : ∀ b, cocycle.value b (-b) = 1) (a : G) {m n : ℕ}
    (ordered : n ≤ m) :
    cocycle.power a (m - n) =
      cocycle.power a m * (cocycle.power a n)⁻¹ * cocycle.value (m • a) (-(n • a)) := by
  have general := cocycle.power_sub_mul a ordered
  rwa [trivial, mul_one] at general

/-- The product with a coboundary. -/
def twist (units : G → M) (one : units 0 = 1) : Cocycle G M where
  value a b := cocycle.value a b * units (a + b) * (units a * units b)⁻¹
  zero_left a := by rw [zero_left, zero_add, one, one_mul, mul_inv_cancel]
  comm a b := by rw [cocycle.comm, add_comm, mul_comm (units a)]
  assoc a b c := by
    have split := cocycle.assoc a b c
    have cancel (u v : M) : u * v * (u * units c)⁻¹ = v * (units c)⁻¹ := by
      rw [mul_inv, mul_comm u v, mul_assoc, mul_inv_cancel_left]
    have cancel' (u v : M) : u * v * (units a * u)⁻¹ = v * (units a)⁻¹ := by
      rw [mul_inv_rev, mul_comm u v, mul_assoc, mul_inv_cancel_left]
    calc cocycle.value a b * units (a + b) * (units a * units b)⁻¹ *
          (cocycle.value (a + b) c * units (a + b + c) * (units (a + b) * units c)⁻¹)
        = cocycle.value a b * cocycle.value (a + b) c * (units a * units b)⁻¹ *
            (units (a + b) * units (a + b + c) * (units (a + b) * units c)⁻¹) := by ac_rfl
      _ = cocycle.value b c * cocycle.value a (b + c) * (units b * units c)⁻¹ *
            (units (b + c) * units (a + (b + c)) * (units a * units (b + c))⁻¹) := by
          rw [cancel, cancel', split, add_assoc, mul_inv, mul_inv]
          ac_rfl
      _ = _ := by ac_rfl

theorem twist_value (units : G → M) (one : units 0 = 1) (a b : G) :
    (cocycle.twist units one).value a b =
      cocycle.value a b * units (a + b) * (units a * units b)⁻¹ := rfl

/-- Its products differ by the units at the ends of the chain. -/
theorem twist_power (units : G → M) (one : units 0 = 1) (a : G) (n : ℕ) :
    (cocycle.twist units one).power a n =
      cocycle.power a n * units (n • a) * (units a ^ n)⁻¹ := by
  induction n with
  | zero => rw [power_zero, power_zero, zero_smul, one, pow_zero, inv_one, mul_one, mul_one]
  | succ n ih =>
    rw [power_succ, ih, twist_value, power_succ, ← succ_nsmul, pow_succ, mul_inv, mul_inv]
    calc cocycle.power a n * units (n • a) * (units a ^ n)⁻¹ *
          (cocycle.value (n • a) a * units ((n + 1) • a) * ((units (n • a))⁻¹ * (units a)⁻¹))
        = units (n • a) * (units (n • a))⁻¹ * (cocycle.power a n * cocycle.value (n • a) a *
            units ((n + 1) • a) * ((units a ^ n)⁻¹ * (units a)⁻¹)) := by ac_rfl
      _ = _ := by rw [mul_inv_cancel, one_mul]

/-- The product over a product of counts runs through the multiples of `m • a`. -/
theorem power_mul (a : G) (m n : ℕ) :
    cocycle.power a (m * n) = cocycle.power a m ^ n * cocycle.power (m • a) n := by
  induction n with
  | zero => simp
  | succ n ih =>
      have index : (m * n) • a = n • m • a := by rw [mul_comm, mul_nsmul']
      rw [Nat.mul_succ, power_add, ih, index, pow_succ, power_succ]
      ac_rfl

/-- At a multiple of the order the products of an element and of its multiples
differ by a power of that order. -/
theorem power_nsmul (a : G) {r : ℕ} (order : r • a = 0) (c : ℕ) :
    cocycle.power (c • a) r * cocycle.power a c ^ r = cocycle.power a r ^ c := by
  have first := cocycle.power_mul a c r
  have second := cocycle.power_mul a r c
  rw [order, zero_power, mul_one, mul_comm r c] at second
  rw [mul_comm, ← first, second]

end Cocycle

end Pbc.Elliptic
