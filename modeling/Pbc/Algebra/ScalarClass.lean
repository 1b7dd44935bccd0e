import Mathlib.Algebra.Algebra.Basic
import Mathlib.Algebra.Field.Basic
import Mathlib.Algebra.GroupWithZero.Units.Lemmas
import Mathlib.GroupTheory.QuotientGroup.Defs
import Pbc.Algebra.Numerals

/-!
# Values up to scalars of a subfield

A final power whose exponent is a multiple of the order of the units of a
subfield sends those units to one. Two values that differ by such a unit have
the same power. `ScalarClass` is the group of nonzero values up to those units,
and `ScalarClass.powHom` is the power on it.
-/

namespace Pbc.Algebra

variable (K₀ K : Type*) [Field K₀] [Field K] [Algebra K₀ K]

/-- The nonzero elements of the subfield, as units of the large field. -/
def scalarUnits : Subgroup Kˣ :=
  (Units.map (algebraMap K₀ K : K₀ →* K)).range

/-- Nonzero values of the large field up to nonzero scalars. -/
def ScalarClass := Kˣ ⧸ scalarUnits K₀ K

noncomputable instance : CommGroup (ScalarClass K₀ K) :=
  inferInstanceAs (CommGroup (Kˣ ⧸ scalarUnits K₀ K))

namespace ScalarClass

/-- The class of a unit. -/
noncomputable def mk : Kˣ →* ScalarClass K₀ K where
  toFun := QuotientGroup.mk
  map_one' := rfl
  map_mul' _ _ := rfl

variable {K₀ K}

theorem mk_surjective : Function.Surjective (mk K₀ K) := QuotientGroup.mk_surjective

theorem mk_eq_mk {u v : Kˣ} :
    mk K₀ K u = mk K₀ K v ↔ ∃ c : K₀ˣ, Units.map (algebraMap K₀ K : K₀ →* K) c = u⁻¹ * v :=
  QuotientGroup.eq

theorem mk_scalar (c : K₀ˣ) : mk K₀ K (Units.map (algebraMap K₀ K : K₀ →* K) c) = 1 := by
  rw [← map_one (mk K₀ K), mk_eq_mk]
  exact ⟨c⁻¹, by simp⟩

variable (K₀) in
open Classical in
/-- The class of a value, with the class of zero being that of one. -/
noncomputable def of (x : K) : ScalarClass K₀ K :=
  if zero : x = 0 then 1 else mk K₀ K (Units.mk0 x zero)

theorem of_eq_mk {x : K} (nonzero : x ≠ 0) : of K₀ x = mk K₀ K (Units.mk0 x nonzero) :=
  dif_neg nonzero

@[simp] theorem of_zero : of K₀ (0 : K) = 1 := dif_pos rfl

@[simp] theorem of_algebraMap (c : K₀) : of K₀ (algebraMap K₀ K c) = 1 := by
  by_cases zero : c = 0
  · rw [zero, map_zero, of_zero]
  · rw [of_eq_mk ((map_ne_zero _).mpr zero), ← mk_scalar (Units.mk0 c zero)]
    congr 1
    exact Units.ext rfl

@[simp] theorem of_one : of K₀ (1 : K) = 1 := by
  simpa using of_algebraMap (K := K) (1 : K₀)

theorem of_mul {x y : K} (xNonzero : x ≠ 0) (yNonzero : y ≠ 0) :
    of K₀ (x * y) = of K₀ x * of K₀ y := by
  rw [of_eq_mk xNonzero, of_eq_mk yNonzero, of_eq_mk (mul_ne_zero xNonzero yNonzero), ← map_mul]
  congr 1
  exact Units.ext rfl

theorem of_inv (x : K) : of K₀ x⁻¹ = (of K₀ x)⁻¹ := by
  by_cases zero : x = 0
  · simp [zero]
  · rw [of_eq_mk zero, of_eq_mk (inv_ne_zero zero), ← map_inv]
    congr 1
    exact Units.ext rfl

theorem of_scalar_mul {c : K₀} (nonzero : c ≠ 0) (x : K) :
    of K₀ (algebraMap K₀ K c * x) = of K₀ x := by
  by_cases zero : x = 0
  · simp [zero]
  · rw [of_mul ((map_ne_zero _).mpr nonzero) zero, of_algebraMap, one_mul]

theorem of_neg (x : K) : of K₀ (-x) = of K₀ x := by
  simpa using of_scalar_mul (neg_ne_zero.mpr (one_ne_zero (α := K₀))) x

/-- Values of one class differ by a nonzero scalar. -/
theorem exists_scalar_of_eq {x y : K} (xNonzero : x ≠ 0) (yNonzero : y ≠ 0)
    (same : of K₀ x = of K₀ y) : ∃ c : K₀, c ≠ 0 ∧ x = algebraMap K₀ K c * y := by
  rw [of_eq_mk xNonzero, of_eq_mk yNonzero, eq_comm, mk_eq_mk] at same
  obtain ⟨c, equal⟩ := same
  refine ⟨c, c.ne_zero, ?_⟩
  have values := congrArg Units.val equal
  simp only [Units.coe_map, MonoidHom.coe_coe, Units.val_mul, Units.val_inv_eq_inv_val,
    Units.val_mk0] at values
  rw [values, mul_comm, mul_inv_cancel_left₀ yNonzero]

/-- A power that sends every nonzero scalar to one, on classes. -/
noncomputable def powHom (e : ℕ) (kills : ∀ c : K₀, c ≠ 0 → c ^ e = 1) :
    ScalarClass K₀ K →* Kˣ :=
  QuotientGroup.lift (scalarUnits K₀ K) (powMonoidHom e) (by
    rintro _ ⟨c, rfl⟩
    apply Units.ext
    simpa using congrArg (algebraMap K₀ K) (kills c c.ne_zero))

theorem powHom_mk {e : ℕ} (kills : ∀ c : K₀, c ≠ 0 → c ^ e = 1) (u : Kˣ) :
    powHom e kills (mk K₀ K u) = u ^ e := rfl

theorem powHom_of {e : ℕ} (kills : ∀ c : K₀, c ≠ 0 → c ^ e = 1) {x : K} (nonzero : x ≠ 0) :
    (powHom e kills (of K₀ x) : K) = x ^ e := by
  rw [of_eq_mk nonzero, powHom_mk]
  rfl

/-- When the exponent times `r` kills every unit, the power of a class is an
`r`-th root of unity. -/
theorem powHom_pow_eq_one {e r : ℕ} (kills : ∀ c : K₀, c ≠ 0 → c ^ e = 1)
    (order : ∀ x : K, x ≠ 0 → x ^ (e * r) = 1) (z : ScalarClass K₀ K) :
    powHom e kills z ^ r = 1 := by
  obtain ⟨u, rfl⟩ := mk_surjective z
  apply Units.ext
  have value := order u u.ne_zero
  rw [pow_mul] at value
  simpa [powHom_mk] using value

end ScalarClass

end Pbc.Algebra
