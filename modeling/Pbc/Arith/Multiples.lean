import Pbc.Arith.FieldQuadratic
import Pbc.Arith.FpPow
import Pbc.Arith.Poly

/-!
# Integer multiples and halves

Each structure reaches `element_mul_si`, `element_mul_mpz`, `element_double` and
`element_halve` through its method table, which mixes its own routines with generic
ones. A multiple is compared with the repeated sum of the value that an object holds,
and a half with the inverse of doubling.
-/

open Pbc.Algebra Pbc.Gmp Pbc.Number

namespace Pbc.Arith

/-- The methods by which a structure multiplies by integers, doubles and halves; the
destination comes first, and there is no result where a run is undefined. -/
structure MultipleMethods (O : Type*) where
  mulSi : O → O → ℤ → Option O
  mulMpz : O → O → ℤ → Option O
  double : O → O → Option O
  halve : O → O → Option O

namespace MultipleMethods

variable {O M : Type*} [AddCommGroup M]

/-- Both products with an integer hold the multiple. -/
def Multiplies (m : MultipleMethods O) (holds : O → M → Prop) (c a : O) (x : M) (n : ℤ) : Prop :=
  (∃ r, m.mulSi c a n = some r ∧ holds r (n • x)) ∧ ∃ r, m.mulMpz c a n = some r ∧ holds r (n • x)

/-- Halving, with its result in `c`, and doubling, in `c'`, undo each other. -/
def Inverts (m : MultipleMethods O) (holds : O → M → Prop) (c c' a : O) (x : M) : Prop :=
  (∃ h r, m.halve c a = some h ∧ m.double c' h = some r ∧ holds r x) ∧
    ∃ d r, m.double c' a = some d ∧ m.halve c d = some r ∧ holds r x

/-- The structure multiplies by the integers of a machine exactly under one condition,
and halves exactly under another. -/
structure Exact (m : MultipleMethods O) (long : ℤ → Prop) (holds : O → M → Prop)
    (times : O → M → ℤ → Prop) (halves : O → O → M → Prop) : Prop where
  multiplies_iff : ∀ c {a x n}, long n → holds a x → (m.Multiplies holds c a x n ↔ times a x n)
  inverts_iff : ∀ c c' {a x}, holds a x → (m.Inverts holds c c' a x ↔ halves c a x)

/-- Halves of an element and of its double, in a group without elements of order two. -/
theorem inverts_of_halves {m : MultipleMethods O} {holds : O → M → Prop}
    (cancel : ∀ {y z : M}, y + y = z + z → y = z) {c c' : O}
    (double : ∀ {a x}, holds a x → ∃ d, m.double c' a = some d ∧ holds d (x + x)) {a : O} {x : M}
    (held : holds a x) (half : ∃ h y, m.halve c a = some h ∧ holds h y ∧ y + y = x)
    (half' : ∀ d, m.double c' a = some d → holds d (x + x) →
      ∃ h y, m.halve c d = some h ∧ holds h y ∧ y + y = x + x) :
    m.Inverts holds c c' a x := by
  obtain ⟨h, y, halved, value, rfl⟩ := half
  obtain ⟨r, doubled, value⟩ := double value
  obtain ⟨d, first, held⟩ := double held
  obtain ⟨k, z, second, value', same⟩ := half' d first held
  exact ⟨⟨h, r, halved, doubled, value⟩, d, k, first, second, cancel same ▸ value'⟩

end MultipleMethods

/-- Two is cancelled modulo an odd integer. -/
theorem add_self_cancel {p : ℕ} (odd : p % 2 = 1) {y z : ZMod p} (same : y + y = z + z) : y = z := by
  have unit : IsUnit ((2 : ℕ) : ZMod p) :=
    (ZMod.isUnit_iff_coprime 2 p).mpr (Nat.coprime_two_left.mpr (Nat.odd_iff.mpr odd))
  refine unit.mul_left_cancel ?_
  rw [Nat.cast_ofNat, two_mul, two_mul, same]

section Naive

/-- The methods of the naive implementation. -/
def zpMultiples (p : ℕ) : MultipleMethods ℤ where
  mulSi _ a n := some (zpMulSi p a n)
  mulMpz _ a z := some (zpMulMpz p a z)
  double _ a := some (zpDouble p a)
  halve _ a := some (zpHalveRaw p a)

variable {p : ℕ}

theorem zpDouble_cast (a : ℤ) : (zpDouble p a : ZMod p) = a + a := by
  simp only [zpDouble]
  split
  · rw [Int.cast_sub, Int.cast_natCast, ZMod.natCast_self, sub_zero, mul_two, Int.cast_add]
  · rw [mul_two, Int.cast_add]

theorem zpHalveRaw_cast (odd : p % 2 = 1) (a : ℤ) :
    (zpHalveRaw p a : ZMod p) + zpHalveRaw p a = a := by
  rw [← Int.cast_add]
  simp only [zpHalveRaw]
  split
  · next bit =>
    have whole : (a + p).tdiv 2 + (a + p).tdiv 2 = a + p := by
      have := Int.mul_tdiv_cancel' (a := 2) (b := a + p) (by omega)
      omega
    rw [whole, Int.cast_add, Int.cast_natCast, ZMod.natCast_self, add_zero]
  · next even =>
    have whole : a.tdiv 2 + a.tdiv 2 = a := by
      have := Int.mul_tdiv_cancel' (a := 2) (b := a) (by omega)
      omega
    rw [whole]

/-- The naive implementation multiplies and halves every element. -/
theorem zpMultiples_exact (odd : p % 2 = 1) :
    (zpMultiples p).Exact (fun _ => True) (fun a (x : ZMod p) => (a : ZMod p) = x)
      (fun _ _ _ => True) (fun _ _ _ => True) where
  multiplies_iff c a x n _ holds := by
    have product : ((a * n % p : ℤ) : ZMod p) = n • x := by
      rw [ZMod.intCast_mod, Int.cast_mul, holds, zsmul_eq_mul, mul_comm]
    exact iff_of_true ⟨⟨_, rfl, product⟩, _, rfl, product⟩ trivial
  inverts_iff c c' a x holds := by
    have half (b : ℤ) (y : ZMod p) (held : (b : ZMod p) = y) :
        ∃ h z, (zpMultiples p).halve c b = some h ∧ (h : ZMod p) = z ∧ z + z = y :=
      ⟨_, _, rfl, rfl, held ▸ zpHalveRaw_cast odd b⟩
    refine iff_of_true (MultipleMethods.inverts_of_halves (add_self_cancel odd)
      (fun held => ⟨_, rfl, held ▸ zpDouble_cast _⟩) holds (half a x holds) fun d _ => half d _) trivial

end Naive

section Fast

variable {f : LimbField}

/-- The methods of the fast implementation. Its products with machine integers keep one
limb more than the modulus in an array of `MAX_LIMBS`. -/
def fastMultiples (f : LimbField) : MultipleMethods ℕ where
  mulSi _ a n := if f.limbs < maxLimbs then some (fastMulSi f a n) else none
  mulMpz _ a z := if f.limbs ≤ maxLimbs then some (fastMul f a (fastSetMpz f z)) else none
  double _ a := some (fastDouble f a)
  halve _ a := some (fastHalve f a)

/-- The fast implementation multiplies as far as its arrays reach, and halves. -/
theorem fastMultiples_exact (odd : f.order % 2 = 1) :
    (fastMultiples f).Exact f.IsLong (Reduced f.order) (fun _ _ _ => f.limbs < maxLimbs)
      (fun _ _ _ => True) where
  multiplies_iff c a x n _ holds := by
    constructor
    · rintro ⟨⟨r, run, -⟩, -⟩
      by_contra room
      exact absurd ((if_neg room).symm.trans run) nofun
    · intro room
      have product := fastMulSi_holds holds n
      have product' := fastMul_holds holds (fastSetMpz_holds n)
      rw [mul_comm, ← zsmul_eq_mul] at product product'
      exact ⟨⟨_, if_pos room, product⟩, _, if_pos room.le, product'⟩
  inverts_iff c c' a x holds := by
    have half (b : ℕ) (y : ZMod f.order) (held : Reduced f.order b y) :
        ∃ h z, (fastMultiples f).halve c b = some h ∧ Reduced f.order h z ∧ z + z = y := by
      obtain ⟨z, value, double⟩ := fastHalve_holds held odd
      exact ⟨_, z, rfl, value, double⟩
    exact iff_of_true (MultipleMethods.inverts_of_halves (add_self_cancel odd)
      (fun held => ⟨_, rfl, fastDouble_holds held⟩) holds (half a x holds) fun d _ => half d _) trivial

end Fast

section Flagged

variable {f : LimbField} {impl : LimbImpl}

/-- The methods of a flagged implementation. -/
def LimbImpl.multiples (f : LimbField) (impl : LimbImpl) : MultipleMethods DataS where
  mulSi := (impl.methods f).mulSi
  mulMpz c a z := (impl.methods f).mul c a ((impl.methods f).setMpz (fpInit 0) z)
  double c a := some (fpDouble f c a)
  halve c a := some (fpHalve f c a)

/-- The limbs of a double, by an odd modulus. -/
theorem fpDouble_eq (odd : f.order % 2 = 1) (c : DataS) {a : DataS} (flag : a.flag = true)
    (reduced : a.d < f.order) :
    fpDouble f c a = ⟨true, if f.order < 2 * a.d then 2 * a.d - f.order else 2 * a.d⟩ := by
  have area := f.order_lt
  rw [fpDouble, if_neg (by rw [flag]; decide), mpnLshift1_eq, two_mul]
  by_cases fits : a.d + a.d < f.base ^ f.limbs
  · simp only [mpnAddN_of_lt fits, ne_eq, not_true_eq_false, if_false, mpnCmp_eq_zero, mpnCmp_pos]
    rw [if_neg (by omega)]
    split
    · next above => rw [mpnSubN_of_le above.le]
    · rfl
  · simp only [mpnAddN_of_le (not_lt.mp fits) (by omega), ne_eq, one_ne_zero, not_false_eq_true,
      if_true]
    rw [mpnSubN_of_lt (by omega), if_pos (by omega)]
    congr 1
    omega

/-- Halving odd limbs leaves a clear flag as it was. -/
theorem fpHalve_clear {c a : DataS} (clear : c.flag = false) (flag : a.flag = true)
    (bit : a.d % 2 = 1) : (fpHalve f c a).flag = false := by
  rw [fpHalve, if_neg (by rw [flag]; decide), if_pos bit]
  exact clear

/-- What is stored under a clear flag is not a nonzero residue, nor is its double. -/
theorem LimbImpl.not_holds_of_clear (accepts : impl.Accepts f) {a b : DataS} {x : ZMod f.order}
    (holds : impl.Holds f a x) (flag : a.flag = true) (clear : b.flag = false) :
    ¬impl.Holds f b x := by
  intro held
  rw [flag_iff accepts held, ← flag_iff accepts holds, flag] at clear
  cases clear

theorem LimbImpl.multiplies (prime : f.order.Prime) (room : f.limbs ≤ maxLimbs)
    (accepts : impl.Accepts f) (constant : impl.Constant f) (fit : impl.CarriesFit f) (c : DataS)
    {a : DataS} {x : ZMod f.order} {n : ℤ} (long : f.IsLong n) (holds : impl.Holds f a x) :
    (impl.multiples f).Multiplies (impl.Holds f) c a x n := by
  have fits {b : DataS} {y : ZMod f.order} (held : impl.Holds f b y) : impl.ProductFits f a b := by
    intro flag flag'
    have first := limbs_reduced holds flag
    have second := limbs_reduced held flag'
    refine ⟨room, not_dvd_mul_of_reduced prime first second, fun mont => ?_⟩
    subst mont
    exact fit _ _ first.2 second.2
  have small : n = 0 ∨ ¬(f.order : ℤ) ∣ n := by
    by_cases zero : n = 0
    · exact Or.inl zero
    · refine Or.inr fun multiple => ?_
      have large := Nat.le_of_dvd (Int.natAbs_pos.mpr zero) (Int.natCast_dvd.mp multiple)
      exact absurd (f.base_le_order.trans large) (not_le.mpr long.natAbs_lt)
  have factor := setMpz_holds accepts (fpInit 0) small
  rw [MultipleMethods.Multiplies, zsmul_eq_mul, mul_comm]
  refine ⟨?_, mul_holds accepts constant c holds factor (fits factor)⟩
  cases impl with
  | faster =>
    refine ⟨fasterMulSi f c a n, ?_, fasterMulSi_holds c holds fun flag nonzero => ?_⟩
    · show (f.arrays (a.flag && n ≠ 0)).bind (fun _ => some (fasterMulSi f c a n)) = _
      rw [f.arrays_of_fits fun _ => room]
      rfl
    · exact not_dvd_mul_of_reduced prime (@limbs_reduced .faster f a x holds flag)
        ⟨Int.natAbs_pos.mpr nonzero, long.natAbs_lt.trans_le f.base_le_order⟩
  | mont =>
    have factor := montSetSi_holds accepts (fpInit 0) long.natAbs_lt
    exact @mul_holds .mont f _ _ _ _ accepts constant c holds factor (fits factor)

/-- The flagged implementations multiply, up to the size of their arrays and to carries,
and halve what is odd, or has an odd double, only into elements whose flag is set. -/
theorem LimbImpl.multiples_exact (prime : f.order.Prime) (odd : f.order % 2 = 1)
    (room : f.limbs ≤ maxLimbs) (accepts : impl.Accepts f) (constant : impl.Constant f)
    (fit : impl.CarriesFit f) :
    (impl.multiples f).Exact f.IsLong (impl.Holds f) (fun _ _ _ => True)
      (fun c a _ => a.flag = true → a.d % 2 = 1 ∨ f.order < 2 * a.d → c.flag = true) where
  multiplies_iff c a x n long holds :=
    iff_of_true (multiplies prime room accepts constant fit c long holds) trivial
  inverts_iff c c' a x holds := by
    constructor
    · rintro ⟨⟨h, r, halved, doubled, value⟩, d, r', doubled', halved', value'⟩ flag reason
      by_contra clear
      rw [Bool.not_eq_true] at clear
      obtain rfl := Option.some.inj halved
      obtain rfl := Option.some.inj doubled
      obtain rfl := Option.some.inj doubled'
      obtain rfl := Option.some.inj halved'
      by_cases bit : a.d % 2 = 1
      · refine not_holds_of_clear accepts holds flag ?_ value
        rw [fpDouble, fpHalve_clear clear flag bit]
        rfl
      · have large := reason.resolve_left bit
        refine not_holds_of_clear accepts holds flag ?_ value'
        rw [fpDouble_eq odd c' flag (limbs_reduced holds flag).2, if_pos large]
        refine fpHalve_clear clear rfl ?_
        show (2 * a.d - f.order) % 2 = 1
        omega
    · intro ready
      have half (b : DataS) (y : ZMod f.order) (held : impl.Holds f b y)
          (set : b.flag = true → b.d % 2 = 1 → c.flag = true) :
          ∃ h z, (impl.multiples f).halve c b = some h ∧ impl.Holds f h z ∧ z + z = y := by
        obtain ⟨z, value, double⟩ := halve_holds accepts held fun flag bit => ⟨set flag bit, odd⟩
        exact ⟨_, z, rfl, value, double⟩
      refine MultipleMethods.inverts_of_halves (add_self_cancel odd)
        (fun held => ⟨_, rfl, double_holds c' held⟩) holds
        (half a x holds fun flag bit => ready flag (Or.inl bit)) fun d doubled held => ?_
      refine half d _ held fun flag bit => ?_
      obtain rfl := Option.some.inj doubled
      cases set : a.flag with
      | false =>
        rw [fpDouble, set] at flag
        cases flag
      | true =>
        rw [fpDouble_eq odd c' set (limbs_reduced holds set).2] at bit
        refine ready set (Or.inr ?_)
        by_contra small
        rw [if_neg small] at bit
        have impossible : 2 * a.d % 2 = 1 := bit
        omega

end Flagged

section Tiny

variable {f : TinyField}

/-- The methods of the tiny implementation; doubling is into another object. -/
def tinyMultiples (f : TinyField) : MultipleMethods ℕ where
  mulSi _ a n := some (tinyMulSi f a n)
  mulMpz _ a z := some (tinyMul f a (tinySetMpz f z))
  double _ a := some (tinyDouble f false a)
  halve _ a := tinyHalve f a

theorem tinyDouble_eq {a : ℕ} (small : a < f.order) : tinyDouble f false a = 2 * a % f.order := by
  have word := f.order_lt_word
  rw [tinyDouble]
  by_cases fits : 2 * a < f.word
  · simp only [Nat.mod_eq_of_lt fits, Bool.false_eq_true, if_false]
    rw [if_neg (by omega)]
  · have wrapped : 2 * a % f.word = 2 * a - f.word := by
      rw [Nat.mod_eq_sub_mod (not_lt.mp fits), Nat.mod_eq_of_lt (by omega)]
    simp only [wrapped, Bool.false_eq_true, if_false]
    rw [if_pos (by omega), show 2 * a - f.word + f.word - f.order = 2 * a - f.order by omega,
      Nat.mod_eq_of_lt (show 2 * a - f.order < f.word by omega),
      Nat.mod_eq_sub_mod (show f.order ≤ 2 * a by omega)]

theorem tinyDouble_holds {a : ℕ} {x : ZMod f.order} (holds : Reduced f.order a x) :
    Reduced f.order (tinyDouble f false a) (x + x) := by
  rw [tinyDouble_eq holds.small, ← holds.value, ← Nat.cast_add, ← two_mul]
  exact reduced_mod f.order_pos (2 * a)

/-- The inverse of two. -/
theorem tinyInvert_two (odd : f.order % 2 = 1) :
    tinyInvert f (tinySetSi f 2) = some ((f.order + 1) / 2) := by
  have large := f.proper
  have two : tinySetSi f 2 = 2 := by
    rw [tinySetSi, if_neg (by decide)]
    exact Nat.mod_eq_of_lt (by omega)
  have coprime : Int.gcd (2 : ℕ) f.order = 1 :=
    Nat.coprime_two_left.mpr (Nat.odd_iff.mpr odd)
  obtain ⟨b, inverted, ⟨lower, upper⟩, product⟩ := mpzInvert_mul f.order_pos coprime
  have half : ((f.order + 1) / 2) + ((f.order + 1) / 2) = f.order + 1 := by omega
  have same : ((b.toNat : ℕ) : ZMod f.order) = ((f.order + 1) / 2 : ℕ) := by
    refine add_self_cancel odd ?_
    rw [← Nat.cast_add ((f.order + 1) / 2), half, Nat.cast_add, ZMod.natCast_self, zero_add,
      Nat.cast_one, ← product, ← Int.cast_natCast b.toNat, Int.toNat_of_nonneg lower,
      Int.cast_natCast, Nat.cast_ofNat, mul_two]
  rw [two, tinyInvert, inverted, Option.map_some,
    (natCast_eq_iff (by omega) (by omega)).mp same]

/-- What the generic halving leaves for a reduced element. -/
theorem tinyHalve_eq (odd : f.order % 2 = 1) (a : ℕ) :
    tinyHalve f a = some (tinyRemainder f (a * ((f.order + 1) / 2 : ℕ))) := by
  rw [tinyHalve, tinyInvert_two odd]
  rfl

/-- The half is right exactly when its product loses a multiple of the modulus. -/
theorem tinyHalf_iff (odd : f.order % 2 = 1) {a : ℕ} {x y : ZMod f.order}
    (holds : Reduced f.order a x) (double : y + y = x) :
    Reduced f.order (tinyRemainder f (a * ((f.order + 1) / 2 : ℕ))) y ↔
      (f.order : ℤ) ∣ a * ((f.order + 1) / 2 : ℕ) / f.word := by
  have half : ((f.order + 1) / 2) + ((f.order + 1) / 2) = f.order + 1 := by omega
  have value : ((a * ((f.order + 1) / 2 : ℕ) : ℤ) : ZMod f.order) = y := by
    refine add_self_cancel odd ?_
    rw [Int.cast_mul, Int.cast_natCast, Int.cast_natCast, ← mul_add, ← Nat.cast_add, half,
      Nat.cast_add, ZMod.natCast_self, zero_add, Nat.cast_one, mul_one, holds.value, double]
  rw [← tinyRemainder_odd_iff odd, value]

/-- The tiny implementation multiplies and halves exactly where the products lose a
multiple of the modulus of words. -/
theorem tinyMultiples_exact (odd : f.order % 2 = 1) :
    (tinyMultiples f).Exact (fun _ => True) (Reduced f.order)
      (fun a _ n => (f.order : ℤ) ∣ a * n / f.word ∧ (f.order : ℤ) ∣ a * (n % f.order) / f.word)
      (fun _ a _ => (f.order : ℤ) ∣ a * ((f.order + 1) / 2 : ℕ) / f.word ∧
        (f.order : ℤ) ∣ (2 * a % f.order : ℕ) * ((f.order + 1) / 2 : ℕ) / f.word) where
  multiplies_iff c a x n _ holds := by
    have order : (0 : ℤ) < f.order := by exact_mod_cast f.order_pos
    have first : ((a * n : ℤ) : ZMod f.order) = n • x := by
      rw [Int.cast_mul, Int.cast_natCast, holds.value, zsmul_eq_mul, mul_comm]
    have second : ((a * (n % f.order) : ℤ) : ZMod f.order) = n • x := by
      rw [Int.cast_mul, Int.cast_natCast, holds.value, ZMod.intCast_mod, zsmul_eq_mul, mul_comm]
    rw [← tinyRemainder_odd_iff odd, ← tinyRemainder_odd_iff odd, first, second]
    have factor : ((tinySetMpz f n : ℕ) : ℤ) = n % f.order :=
      Int.toNat_of_nonneg (Int.emod_nonneg n order.ne')
    rw [← factor]
    constructor
    · rintro ⟨⟨r, run, value⟩, r', run', value'⟩
      obtain rfl := Option.some.inj run
      obtain rfl := Option.some.inj run'
      exact ⟨value, value'⟩
    · rintro ⟨value, value'⟩
      exact ⟨⟨_, rfl, value⟩, _, rfl, value'⟩
  inverts_iff c c' a x holds := by
    have cancel {y z : ZMod f.order} := add_self_cancel (p := f.order) odd (y := y) (z := z)
    obtain ⟨y, rfl⟩ : ∃ y, y + y = x := by
      refine ⟨x * ((f.order + 1) / 2 : ℕ), ?_⟩
      have half : ((f.order + 1) / 2) + ((f.order + 1) / 2) = f.order + 1 := by omega
      rw [← mul_add, ← Nat.cast_add, half, Nat.cast_add, ZMod.natCast_self, zero_add, Nat.cast_one,
        mul_one]
    have doubled := tinyDouble_holds holds
    rw [← tinyHalf_iff odd holds rfl, ← tinyDouble_eq holds.small, ← tinyHalf_iff odd doubled rfl]
    constructor
    · rintro ⟨⟨h, r, halved, run, value⟩, d, r', run', halved', value'⟩
      rw [show (tinyMultiples f).halve c a = _ from tinyHalve_eq odd a] at halved
      obtain rfl := Option.some.inj halved
      obtain rfl := Option.some.inj run
      obtain rfl := Option.some.inj run'
      rw [show (tinyMultiples f).halve c _ = _ from tinyHalve_eq odd _] at halved'
      obtain rfl := Option.some.inj halved'
      refine ⟨⟨Nat.mod_lt _ f.order_pos, cancel ?_⟩, value'⟩
      have small : tinyRemainder f (a * ((f.order + 1) / 2 : ℕ)) < f.order :=
        Nat.mod_lt _ f.order_pos
      exact (tinyDouble_holds ⟨small, rfl⟩).value.symm.trans value.value
    · rintro ⟨value, value'⟩
      exact ⟨⟨_, _, tinyHalve_eq odd a, rfl, tinyDouble_holds value⟩, _, _, rfl,
        tinyHalve_eq odd _, value'⟩

end Tiny

section Integers

/-- `z_halve`, whose shift count is the greatest unsigned long. -/
def zHalve (longBytes : ℕ) (a : ℤ) : ℤ := a.tdiv (2 ^ (256 ^ longBytes - 1))

/-- The methods of the ring of integers. -/
def zMultiples (longBytes : ℕ) : MultipleMethods ℤ where
  mulSi _ a n := some (a * n)
  mulMpz _ a z := some (a * z)
  double _ a := some (a * 2)
  halve _ a := some (zHalve longBytes a)

theorem zMultiples_multiplies (longBytes : ℕ) (c a n : ℤ) :
    (zMultiples longBytes).Multiplies (fun a x => a = x) c a a n := by
  have product : a * n = n • a := by rw [smul_eq_mul, mul_comm]
  exact ⟨⟨_, rfl, product⟩, _, rfl, product⟩

end Integers

section Extensions

/-- The methods of an extension, from its own products and halving. -/
def extensionMultiples {E : Type*} [CommRing E] [FieldMethods E] (si mpz : E → ℤ → E)
    (halve : E → Option E) : MultipleMethods E where
  mulSi _ a n := some (si a n)
  mulMpz _ a z := some (mpz a z)
  double _ a := some (FieldMethods.double a)
  halve _ a := halve a

theorem extensionMultiples_exact {E : Type*} [Field E] [FieldMethods E] (two : (2 : E) ≠ 0)
    (si mpz : E → ℤ → E) {halve : E → Option E} (half : ∀ a, halve a = some (a / 2)) :
    (extensionMultiples si mpz halve).Exact (fun _ => True) (fun a x => a = x)
      (fun a _ n => si a n = n • a ∧ mpz a n = n • a) (fun _ _ _ => True) where
  multiplies_iff c a x n _ holds := by
    subst holds
    constructor
    · rintro ⟨⟨r, run, value⟩, r', run', value'⟩
      exact ⟨(Option.some.inj run).trans value, (Option.some.inj run').trans value'⟩
    · rintro ⟨value, value'⟩
      exact ⟨⟨_, rfl, value⟩, _, rfl, value'⟩
  inverts_iff c c' a x holds := by
    have cancel {y z : E} (same : y + y = z + z) : y = z := by
      rw [← two_mul, ← two_mul] at same
      exact mul_left_cancel₀ two same
    have halves (b : E) : ∃ h y, (extensionMultiples si mpz halve).halve c b = some h ∧ h = y ∧
        y + y = b := ⟨b / 2, b / 2, half b, rfl, by rw [← two_mul, mul_div_cancel₀ b two]⟩
    refine iff_of_true (MultipleMethods.inverts_of_halves cancel (fun {b y} held => ?_) holds
      (holds ▸ halves a) fun d _ held => held ▸ halves d) trivial
    exact ⟨_, rfl, by rw [FieldMethods.double_eq, held]⟩

section Quadratic

variable {K : Type*} [Field K] [FieldMethods K] [InvertsNonzero K] {nqr : K}

/-- `fq_mul_si` and `fq_mul_mpz`, over a base that multiplies by integers as given. -/
def fqMulInt (times : K → ℤ → K) (a : FqData nqr) (z : ℤ) : FqData nqr :=
  ⟨times a.re z, times a.im z⟩

omit [FieldMethods K] [InvertsNonzero K] in
theorem fqMulInt_eq_iff (times : K → ℤ → K) (a : FqData nqr) (z : ℤ) :
    fqMulInt times a z = z • a ↔ times a.re z = z • a.re ∧ times a.im z = z • a.im :=
  QuadraticAlgebra.ext_iff

/-- The methods of a quadratic extension. -/
def fqMultiples (nqr : K) (si mpz : K → ℤ → K) : MultipleMethods (FqData nqr) :=
  extensionMultiples (fqMulInt si) (fqMulInt mpz) fun a => (genericHalve a).toOption

/-- A quadratic extension multiplies exactly where its base multiplies the coordinates. -/
theorem fqMultiples_exact [Fact (∀ r : K, r ^ 2 ≠ nqr + 0 * r)] (two : (2 : FqData nqr) ≠ 0)
    (si mpz : K → ℤ → K) :
    (fqMultiples nqr si mpz).Exact (fun _ => True) (fun a x => a = x)
      (fun a _ n => (si a.re n = n • a.re ∧ si a.im n = n • a.im) ∧
        (mpz a.re n = n • a.re ∧ mpz a.im n = n • a.im)) (fun _ _ _ => True) := by
  have half (a : FqData nqr) : (genericHalve a).toOption = some (a / 2) := by
    rw [genericHalve_ok two]
    rfl
  have exact := extensionMultiples_exact two (fqMulInt si) (fqMulInt mpz) half
  simp only [fqMulInt_eq_iff] at exact
  exact exact

variable {F : Type*} [Field F] [FpMethods F]

/-- `generic_halve` with the product and the inversion of the extension by `i`. -/
def fiHalve (a : FiData F) : FiData F := fiMul a (fiInvert 2)

/-- The methods of the extension by `i`. -/
def fiMultiples (si mpz : F → ℤ → F) : MultipleMethods (FiData F) :=
  extensionMultiples (fqMulInt si) (fqMulInt mpz) fun a => some (fiHalve a)

theorem fiMultiples_exact [Fact (∀ r : F, r ^ 2 ≠ -1 + 0 * r)] (two : (2 : FiData F) ≠ 0)
    (si mpz : F → ℤ → F) :
    (fiMultiples si mpz).Exact (fun _ => True) (fun a x => a = x)
      (fun a _ n => (si a.re n = n • a.re ∧ si a.im n = n • a.im) ∧
        (mpz a.re n = n • a.re ∧ mpz a.im n = n • a.im)) (fun _ _ _ => True) := by
  have half (a : FiData F) : some (fiHalve a) = some (a / 2) := by
    rw [fiHalve, fiMul_eq, fiInvert_eq two, div_eq_mul_inv]
  have exact := extensionMultiples_exact two (fqMulInt si) (fqMulInt mpz) half
  simp only [fqMulInt_eq_iff] at exact
  exact exact

end Quadratic

section Polymod

variable {F : Type*} [Field F] [DecidableEq F] [FieldMethods F] [InvertsNonzero F] {n : ℕ}
  {poly : Fin n → F}

/-- `polymod_mul_si` and `polymod_mul_mpz`. -/
def polymodMulInt (times : F → ℤ → F) (f : Polymod poly) (z : ℤ) : Polymod poly :=
  ⟨fun i => times (f.coeff i) z⟩

omit [DecidableEq F] [FieldMethods F] [InvertsNonzero F] in
theorem polymodMulInt_eq_iff (times : F → ℤ → F) (f : Polymod poly) (z : ℤ) :
    polymodMulInt times f z = z • f ↔ ∀ i, times (f.coeff i) z = z • f.coeff i := by
  rw [Polymod.ext_iff, funext_iff]
  exact Iff.rfl

/-- The methods of a polynomial extension. -/
def polymodMultiples (poly : Fin n → F) (si mpz : F → ℤ → F) : MultipleMethods (Polymod poly) :=
  extensionMultiples (polymodMulInt si) (polymodMulInt mpz) fun a => (genericHalve a).toOption

theorem polymodMultiples_exact [Fact (Irreducible (monicPoly poly))] (two : (2 : Polymod poly) ≠ 0)
    (si mpz : F → ℤ → F) :
    (polymodMultiples poly si mpz).Exact (fun _ => True) (fun a x => a = x)
      (fun f _ z => (∀ i, si (f.coeff i) z = z • f.coeff i) ∧
        ∀ i, mpz (f.coeff i) z = z • f.coeff i) (fun _ _ _ => True) := by
  have half (a : Polymod poly) : (genericHalve a).toOption = some (a / 2) := by
    rw [genericHalve_ok two]
    rfl
  have exact := extensionMultiples_exact two (polymodMulInt si) (polymodMulInt mpz) half
  simp only [polymodMulInt_eq_iff] at exact
  exact exact

end Polymod

end Extensions

section Poly

open Polynomial

variable {F : Type*} [Field F] [DecidableEq F]

/-- `poly_mul_si` and `poly_mul_mpz`, which keep the number of coefficients. -/
def polyMulInt (times : F → ℤ → F) (g : List F) (z : ℤ) : List F := g.map (times · z)

/-- The methods of a polynomial ring, which has no method for inversion. -/
def polyMultiples [FieldMethods F] (si mpz : F → ℤ → F) : MultipleMethods (List F) where
  mulSi _ g n := some (polyMulInt si g n)
  mulMpz _ g z := some (polyMulInt mpz g z)
  double _ g := some (g.map FieldMethods.double)
  halve _ _ := none

/-- A list without leading zeroes holds the polynomial of its coefficients. -/
def PolyHolds (g : List F) (P : F[X]) : Prop := Normal g ∧ ofCoeffs g = P

theorem normal_iff (g : List F) : Normal g ↔ ∀ a, g.getLast? = some a → a ≠ 0 := by
  rw [Normal, polyRemoveLeadingZeroes, List.rdropWhile_eq_self_iff]
  constructor
  · intro last a same
    obtain ⟨nonempty, rfl⟩ := List.mem_getLast?_eq_getLast same
    simpa using last nonempty
  · intro last nonempty
    simpa using last _ (List.getLast?_eq_getLast_of_ne_nil nonempty)

/-- The product keeps the form of an element exactly where the base multiplies every
coefficient, the leading one not to zero. -/
theorem polyMulInt_holds_iff (times : F → ℤ → F) (g : List F) (z : ℤ) :
    PolyHolds (polyMulInt times g z) (z • ofCoeffs g) ↔
      (∀ a ∈ g, times a z = z • a) ∧ ∀ a, g.getLast? = some a → z • a ≠ 0 := by
  have exact : ofCoeffs (polyMulInt times g z) = z • ofCoeffs g ↔ ∀ a ∈ g, times a z = z • a := by
    constructor
    · intro same a member
      obtain ⟨i, inside, rfl⟩ := List.getElem_of_mem member
      have coeff := congrArg (Polynomial.coeff · i) same
      simp only [coeff_smul, coeff_ofCoeffs, polyMulInt] at coeff
      rw [List.getD_eq_getElem _ _ (by simpa using inside), List.getElem_map,
        List.getD_eq_getElem _ _ inside] at coeff
      exact coeff
    · intro right
      ext i
      rw [polyMulInt, List.map_congr_left right, coeff_smul, coeff_ofCoeffs, coeff_ofCoeffs,
        ← List.getD_map (f := (z • · : F → F)), smul_zero]
  rw [PolyHolds, exact, and_comm]
  refine and_congr_right fun right => ?_
  have same : polyMulInt times g z = g.map (z • ·) := List.map_congr_left right
  rw [normal_iff, same, List.getLast?_map]
  simp only [Option.map_eq_some_iff, forall_exists_index, and_imp, forall_apply_eq_imp_iff₂]

/-- A polynomial ring multiplies where its base does and the leading coefficient is kept,
and never halves. -/
theorem polyMultiples_exact [FieldMethods F] (si mpz : F → ℤ → F) :
    (polyMultiples si mpz).Exact (fun _ => True) PolyHolds
      (fun g _ n => (∀ a ∈ g, si a n = n • a ∧ mpz a n = n • a) ∧
        ∀ a, g.getLast? = some a → n • a ≠ 0) (fun _ _ _ => False) where
  multiplies_iff c g P n _ holds := by
    obtain ⟨-, rfl⟩ := holds
    have first := polyMulInt_holds_iff si g n
    have second := polyMulInt_holds_iff mpz g n
    constructor
    · rintro ⟨⟨r, run, value⟩, r', run', value'⟩
      obtain rfl := Option.some.inj run
      obtain rfl := Option.some.inj run'
      obtain ⟨left, leading⟩ := first.mp value
      obtain ⟨right, -⟩ := second.mp value'
      exact ⟨fun a member => ⟨left a member, right a member⟩, leading⟩
    · rintro ⟨base, leading⟩
      exact ⟨⟨_, rfl, first.mpr ⟨fun a member => (base a member).1, leading⟩⟩, _, rfl,
        second.mpr ⟨fun a member => (base a member).2, leading⟩⟩
  inverts_iff c c' g P holds := by
    refine iff_of_false ?_ id
    rintro ⟨⟨h, r, run, -⟩, -⟩
    cases run

end Poly

end Pbc.Arith
