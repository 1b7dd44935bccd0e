import Mathlib.NumberTheory.LucasPrimality
import Mathlib.Tactic.NormNum.Prime
import Mathlib.Tactic.ReduceModChar
import Pbc.Arith.LimbRuns
import Pbc.Arith.Pow
import Pbc.Arith.TinyFp

/-!
# Powers in the implementations of `F_p`

`element_pow_mpz` in every implementation, and the window method run over the
multiplication of any of them. All of them compute the power, up to the implementations
that answer zero for every power of zero, and to products that lose a carry.
-/

open Pbc.Gmp Pbc.Number

namespace Pbc.Arith

section Tables

variable (garbage : ℕ)

/-- The methods of the naive implementation that the window method calls. -/
def zpMethods (p : ℕ) : ElementMethods ℤ where
  init := 0
  set1 _ := 1
  set _ a := a
  square _ a := .ok (zpSquare p a)
  mul _ a b := .ok (zpMul p a b)

/-- Those of the tiny implementation. -/
def tinyMethods (f : TinyField) : ElementMethods ℕ where
  init := 0
  set1 _ := tinySet1
  set _ a := a
  square _ a := .ok (tinySquare f a)
  mul _ a b := .ok (tinyMul f a b)

/-- Those of the fast implementation. -/
def fastMethods (f : LimbField) : ElementMethods ℕ where
  init := 0
  set1 _ := fastSet1
  set _ a := a
  square _ a := .ok (fastSquare f a)
  mul _ a b := .ok (fastMul f a b)

/-- Those of the flagged implementations. Fresh elements hold any limbs. -/
def LimbImpl.elementMethods (f : LimbField) : LimbImpl → ElementMethods DataS
  | faster =>
    { init := fpInit garbage
      set1 := fasterSet1
      set := fpSet
      square := fun c a => .ok (fasterSquare f c a)
      mul := fun c a b => .ok (fasterMul f c a b) }
  | mont =>
    { init := fpInit garbage
      set1 := montSet1 f
      set := fpSet
      square := fun c a => .ok (montFpMul f c a a)
      mul := fun c a b => .ok (montFpMul f c a b) }

/-- The products of two reduced residues lose no carry. -/
def LimbImpl.CarriesFit (f : LimbField) : LimbImpl → Prop
  | faster => True
  | mont => ∀ a b, a < f.order → b < f.order → MontFits f.base f.order (montNegpinv f) f.limbs a b

/-- A product of two nonzero reduced integers is not a multiple of a prime. -/
theorem not_dvd_mul_of_reduced {p a b : ℕ} (prime : p.Prime) (left : 0 < a ∧ a < p)
    (right : 0 < b ∧ b < p) : ¬p ∣ a * b := by
  rw [prime.dvd_mul]
  rintro (multiple | multiple)
  · exact absurd (Nat.le_of_dvd left.1 multiple) (not_le.mpr left.2)
  · exact absurd (Nat.le_of_dvd right.1 multiple) (not_le.mpr right.2)

theorem zpMethods_implements (p : ℕ) :
    (zpMethods p).Implements fun a (x : ZMod p) => (a : ZMod p) = x where
  set1 _ := Int.cast_one
  square _ _ _ holds := ⟨_, rfl, by rw [zpSquare_cast, holds, sq]⟩
  mul _ _ _ _ _ left right := ⟨_, rfl, by rw [zpMul_cast, left, right]⟩

theorem tinyMethods_implements {f : TinyField} (fit : (f.order - 1) * (f.order - 1) < f.word) :
    (tinyMethods f).Implements (Reduced f.order) := by
  have product {a b : ℕ} (left : a < f.order) (right : b < f.order) : a * b < f.word :=
    (Nat.mul_le_mul (Nat.le_sub_one_of_lt left) (Nat.le_sub_one_of_lt right)).trans_lt fit
  refine ⟨fun _ => tinySet1_holds, fun _ _ _ holds => ⟨_, rfl, ?_⟩,
    fun _ _ _ _ _ left right => ⟨_, rfl, ?_⟩⟩
  · exact tinyMul_holds holds holds (product holds.small holds.small)
  · exact tinyMul_holds left right (product left.small right.small)

theorem fastMethods_implements (f : LimbField) : (fastMethods f).Implements (Reduced f.order) where
  set1 _ := fastSet1_holds
  square _ _ _ holds := ⟨_, rfl, fastSquare_eq (f := f) ▸ fastMul_holds holds holds⟩
  mul _ _ _ _ _ left right := ⟨_, rfl, fastMul_holds left right⟩

theorem LimbImpl.elementMethods_implements {impl : LimbImpl} {f : LimbField} (prime : f.order.Prime)
    (accepts : impl.Accepts f) (constant : impl.Constant f) (fit : impl.CarriesFit f) :
    (impl.elementMethods garbage f).Implements (impl.Holds f) := by
  have nonzero {a b : DataS} {x y : ZMod f.order} (left : impl.Holds f a x)
      (right : impl.Holds f b y) (flag : a.flag = true) (flag' : b.flag = true) :
      ¬f.order ∣ a.d * b.d :=
    not_dvd_mul_of_reduced prime (limbs_reduced left flag) (limbs_reduced right flag')
  cases impl with
  | faster =>
    have product (c : DataS) {a b : DataS} {x y : ZMod f.order} (left : a.Holds f x)
        (right : b.Holds f y) : (fasterMul f c a b).Holds f (x * y) :=
      fasterMul_holds c left right (nonzero left right)
    refine ⟨fasterSet1_holds, fun c _ _ holds => ⟨_, rfl, ?_⟩,
      fun c _ _ _ _ left right => ⟨_, rfl, product c left right⟩⟩
    rw [fasterSquare_eq]
    exact product c holds holds
  | mont =>
    have product (c : DataS) {a b : DataS} {x y : ZMod f.order} (left : a.MontHolds f x)
        (right : b.MontHolds f y) : (montFpMul f c a b).MontHolds f (x * y) :=
      montFpMul_holds accepts constant c left right fun flag flag' =>
        ⟨nonzero left right flag flag', fit _ _ (@limbs_reduced .mont f a x left flag).2
          (@limbs_reduced .mont f b y right flag').2⟩
    exact ⟨montSet1_holds accepts, fun c _ _ holds => ⟨_, rfl, product c holds holds⟩,
      fun c _ _ _ _ left right => ⟨_, rfl, product c left right⟩⟩

end Tables

/-- The fields that the initialisers of `F_p` build. -/
inductive FpField where
  | naive (p : ℕ)
  | tiny (f : TinyField)
  | fast (f : LimbField)
  | flagged (impl : LimbImpl) (f : LimbField)

namespace FpField

/-- The order of the field. -/
def order : FpField → ℕ
  | naive p => p
  | tiny f => f.order
  | fast f | flagged _ f => f.order

/-- What an element holds in its data. -/
def Object : FpField → Type
  | naive _ => ℤ
  | tiny _ | fast _ => ℕ
  | flagged _ _ => DataS

/-- An element holds a residue. -/
def Holds : (k : FpField) → k.Object → ZMod k.order → Prop
  | naive p, a, x => (Int.cast a : ZMod p) = x
  | tiny f, a, x => Reduced f.order a x
  | fast f, a, x => Reduced f.order a x
  | flagged impl f, a, x => impl.Holds f a x

/-- `element_pow_mpz`, for a nonnegative exponent. -/
def powMpz : (k : FpField) → k.Object → k.Object → ℕ → Option k.Object
  | naive p, _, a, n => some (zpPowMpz p a n)
  | tiny f, _, a, n => some (tinyPowMpz f a n)
  | fast f, _, a, n => some (fastPowMpz f a n)
  | flagged impl f, c, a, n => (impl.methods f).powMpz c a n

/-- The methods of the field that the window method calls. -/
def methods (garbage : ℕ) : (k : FpField) → ElementMethods k.Object
  | naive p => zpMethods p
  | tiny f => tinyMethods f
  | fast f => fastMethods f
  | flagged impl f => impl.elementMethods garbage f

/-- The field can be built, and its arrays hold its limbs. -/
def Sound : FpField → Prop
  | naive _ | tiny _ => True
  | fast f => f.limbs ≤ maxLimbs
  | flagged impl f => f.limbs ≤ maxLimbs ∧ impl.Accepts f ∧ impl.Constant f

/-- The implementations whose powers of zero are all zero. -/
def Shortcut : FpField → Prop
  | flagged _ _ => True
  | _ => False

/-- The products of two reduced residues fit in the word, or lose no carry. -/
def ProductsFit : FpField → Prop
  | tiny f => (f.order - 1) * (f.order - 1) < f.word
  | flagged impl f => impl.CarriesFit f
  | _ => True

/-- `element_pow_mpz` computes a power of a residue. -/
def PowAgrees (k : FpField) (x : ZMod k.order) (n : ℕ) : Prop :=
  ∀ c a, k.Holds a x → ∃ r, k.powMpz c a n = some r ∧ k.Holds r (x ^ n)

/-- The window method, over the methods of the field, computes a power of a residue. -/
def GenericPowAgrees (k : FpField) (x : ZMod k.order) (n : ℕ) : Prop :=
  ∀ garbage c a, k.Holds a x →
    ∃ r, genericPowMpz (k.methods garbage) c a n = .ok r ∧ k.Holds r (x ^ n)

end FpField

section Values

variable {impl : LimbImpl} {f : LimbField}

/-- A flagged power, of a nonzero residue or by a nonzero exponent. -/
theorem flaggedPow_agrees (prime : f.order.Prime) (sound : (FpField.flagged impl f).Sound)
    {x : ZMod f.order} {n : ℕ} (proper : x = 0 → n ≠ 0) :
    (FpField.flagged impl f).PowAgrees x n := by
  obtain ⟨room, accepts, constant⟩ := sound
  intro c a holds
  have zero : a.flag = false → n ≠ 0 := fun flag =>
    proper ((LimbImpl.flag_iff accepts holds).mp flag)
  have nonzero : a.flag = true → ¬f.order ∣ a.d ^ n := fun flag multiple => by
    obtain ⟨positive, reduced⟩ := LimbImpl.limbs_reduced holds flag
    have divides := prime.dvd_of_dvd_pow multiple
    exact absurd (Nat.le_of_dvd positive divides) (not_le.mpr reduced)
  cases impl with
  | faster => exact ⟨_, rfl, fasterPowMpz_holds c holds zero nonzero⟩
  | mont =>
    obtain ⟨e, run, held⟩ := montPowMpz_holds accepts constant c holds zero nonzero
    refine ⟨e, ?_, held⟩
    show (f.arrays a.flag).bind (fun _ => montPowMpz f c a n) = some e
    rw [f.arrays_of_fits fun _ => room]
    exact run

/-- The power of zero by zero is zero in the flagged implementations. -/
theorem flaggedPow_zero (accepts : impl.Accepts f) :
    ¬(FpField.flagged impl f).PowAgrees (0 : ZMod f.order) 0 := by
  intro agrees
  have large : Fact (1 < f.order) := ⟨f.one_lt_order⟩
  have cleared : (impl.methods f).powMpz (fpInit 0) (fpInit 0) 0 = some ⟨false, 0⟩ := by
    cases impl <;> rfl
  obtain ⟨r, run, held⟩ := agrees (fpInit 0) (fpInit 0) (LimbImpl.holds_zero rfl)
  obtain rfl := Option.some.inj (cleared.symm.trans run)
  have vanishes := (LimbImpl.flag_iff accepts held).mp rfl
  exact one_ne_zero ((pow_zero (0 : ZMod f.order)).symm.trans vanishes)

/-- Over every field whose products fit the window method computes the power. -/
theorem FpField.genericPow_agrees {k : FpField} (prime : k.order.Prime) (sound : k.Sound)
    (fit : k.ProductsFit) (x : ZMod k.order) (n : ℕ) : k.GenericPowAgrees x n := by
  intro garbage c a holds
  cases k with
  | naive p => exact genericPowMpz_represents (zpMethods_implements p) (fun _ _ _ => id) c holds n
  | tiny f => exact genericPowMpz_represents (tinyMethods_implements fit) (fun _ _ _ => id) c holds n
  | fast f => exact genericPowMpz_represents (fastMethods_implements f) (fun _ _ _ => id) c holds n
  | flagged impl f =>
    obtain ⟨-, accepts, constant⟩ := sound
    refine genericPowMpz_represents
      (LimbImpl.elementMethods_implements garbage prime accepts constant fit) ?_ c holds n
    cases impl with
    | faster => exact fun c _ _ => @LimbImpl.set_holds .faster f _ _ c
    | mont => exact fun c _ _ => @LimbImpl.set_holds .mont f _ _ c

/-- One is neutral for the products of the tiny implementation. -/
theorem tinyMul_one {f : TinyField} {b : ℕ} (small : b < f.order) : tinyMul f 1 b = b := by
  have word := f.order_lt_word
  rw [tinyMul, tinyRemainder, Nat.cast_one, one_mul, ← Int.natCast_mod, Int.toNat_natCast,
    Nat.mod_eq_of_lt (small.trans word), Nat.mod_eq_of_lt small]

/-- The square that the window method computes in the tiny implementation. -/
theorem tinyGenericPow_two {f : TinyField} {a : ℕ} (small : a < f.order) (c : ℕ) :
    genericPowMpz (tinyMethods f) c a 2 = .ok (tinyMul f a a) := by
  have window : optimalPowWindowSize 2 = 2 := rfl
  have bits : mpzSizeinbase2 2 = 2 := rfl
  have high : Nat.testBit 2 1 = true := rfl
  have one : tinyMul f 1 1 = 1 := tinyMul_one f.proper
  have product : tinyMul f 1 (tinyMul f a a) = tinyMul f a a := tinyMul_one (Nat.mod_lt _ f.order_pos)
  simp [genericPowMpz, window, buildPowWindow, buildPowWindowLoop, tinyMethods, elementPowWind, bits,
    elementPowWindLoop, tinySquare, tinySet1, one, tinyMul_one small, product, bind, Except.bind,
    pure, Except.pure, mpzTstbit, high]

/-- The square of the greatest residue is right only if it fits in the word. -/
theorem tinyGenericPow_fits {f : TinyField} (prime : f.order.Prime)
    (agrees : (FpField.tiny f).GenericPowAgrees (-1 : ZMod f.order) 2) :
    (f.order - 1) * (f.order - 1) < f.word := by
  have word := f.order_lt_word
  by_contra wraps
  have odd : f.order % 2 = 1 := by
    rcases prime.eq_two_or_odd with two | odd
    · rw [two] at wraps word
      omega
    · exact odd
  have top : Reduced f.order (f.order - 1) (-1) := by
    refine ⟨Nat.sub_lt f.order_pos Nat.one_pos, ?_⟩
    rw [Nat.cast_sub f.order_pos, ZMod.natCast_self, Nat.cast_one, zero_sub]
  obtain ⟨r, run, held⟩ := agrees 0 (0 : ℕ) (f.order - 1 : ℕ) top
  obtain rfl := Except.ok.inj ((tinyGenericPow_two top.small 0).symm.trans run)
  have value : (((f.order - 1 : ℕ) * (f.order - 1 : ℕ) : ℤ) : ZMod f.order) = (-1) ^ 2 := by
    rw [Int.cast_mul, Int.cast_natCast, top.value, sq]
  -- The words lost are at least one and fewer than the modulus.
  have lost := (tinyRemainder_odd_iff odd _).mp (value ▸ held)
  rw [← Nat.cast_mul, ← Int.natCast_div, Int.natCast_dvd_natCast] at lost
  have some := Nat.div_pos (not_lt.mp wraps) f.word_pos
  have few : (f.order - 1) * (f.order - 1) / f.word < f.order := by
    refine Nat.div_lt_of_lt_mul ?_
    calc (f.order - 1) * (f.order - 1) ≤ f.order * (f.order - 1) :=
          Nat.mul_le_mul_right _ (Nat.sub_le _ _)
      _ < f.order * f.order := Nat.mul_lt_mul_of_pos_left (Nat.sub_lt f.order_pos Nat.one_pos) f.order_pos
      _ ≤ f.word * f.order := Nat.mul_le_mul_right _ word.le
  exact absurd (Nat.le_of_dvd some lost) (not_le.mpr few)

end Values

section Small

theorem smallLimbField_prime : smallLimbField.order.Prime := by
  have large : Nat.Prime 131 := by norm_num
  have larger : Nat.Prime 364289 := by norm_num
  have split : 4294967311 - 1 = 2 * (3 * (3 * (5 * (131 * 364289)))) := by norm_num
  change Nat.Prime 4294967311
  refine lucas_primality _ 3 (by reduce_mod_char) fun q prime divides => ?_
  rw [split, prime.dvd_mul, prime.dvd_mul, prime.dvd_mul, prime.dvd_mul, prime.dvd_mul,
    Nat.prime_dvd_prime_iff_eq prime Nat.prime_two, Nat.prime_dvd_prime_iff_eq prime Nat.prime_three,
    Nat.prime_dvd_prime_iff_eq prime Nat.prime_five, Nat.prime_dvd_prime_iff_eq prime large,
    Nat.prime_dvd_prime_iff_eq prime larger] at divides
  clear split
  rcases divides with rfl | rfl | rfl | rfl | rfl | rfl
  all_goals
    norm_num
    reduce_mod_char
    decide

private theorem smallTinyField_positive : 0 < 4 := by decide

/-- The greatest Fermat prime that is known, in words of 32 bits. -/
def smallTinyField : TinyField where
  longBytes := 4
  order := 65537
  positive := smallTinyField_positive
  proper := by decide
  fits := by decide

end Small

end Pbc.Arith
