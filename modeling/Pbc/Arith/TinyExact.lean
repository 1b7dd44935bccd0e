import Pbc.Arith.Multiples

/-!
# What the routines of one machine word compute

Sums, differences, negatives and powers in the tiny implementation are right by every prime that
fits in an unsigned long. A product is right exactly when it does not leave the word, by any
modulus but two; so is a double that is written over its operand. A negative multiple of the
modulus is stored as the modulus.
-/

open Pbc.Gmp

namespace Pbc.Arith

section Operations

variable (f : TinyField)

/-- `fp_add`. -/
def tinyAdd (a b : ℕ) : ℕ :=
  let l0 := (a + b) % f.word
  let l0 := if l0 < a then (l0 + f.word - f.order) % f.word else l0
  l0 % f.order

/-- `fp_sub`. -/
def tinySub (a b : ℕ) : ℕ := if a ≥ b then a - b else (f.order + f.word - b + a) % f.word

/-- `fp_neg`. -/
def tinyNeg (a : ℕ) : ℕ := if a ≠ 0 then (f.order + f.word - a) % f.word else 0

variable {ι : Type} [DecidableEq ι]

/-- `fp_double`, which writes the double to its destination before it reduces it there. -/
def tinyDoubleAt (s : ι → ℕ) (c a : ι) : ι → ℕ :=
  let s := Function.update s c (2 * s a % f.word)
  let s := if s c < s a then Function.update s c ((s c + f.word - f.order) % f.word) else s
  Function.update s c (s c % f.order)

/-- `fp_pow_mpz`, which is `mpz_powm`: a negative exponent inverts the base. -/
def tinyPowMpzAt (s : ι → ℕ) (c a : ι) (op : ℤ) : Option (ι → ℕ) :=
  if 0 ≤ op then some (Function.update s c (tinyPowMpz f (s a) op.toNat))
  else (tinyInvert f (s a)).map fun z => Function.update s c (tinyPowMpz f z (-op).toNat)

/-- The operations on objects, the destination first. -/
inductive TinyOp (ι : Type) where
  | setSi (n : ι) (op : ℤ)
  | add (n a b : ι)
  | double (n a : ι)
  | sub (n a b : ι)
  | mul (n a b : ι)
  | neg (n a : ι)
  | mulSi (n a : ι) (op : ℤ)
  | powMpz (n a : ι) (op : ℤ)

/-- The destination of an operation. -/
def TinyOp.destination : TinyOp ι → ι
  | setSi n _ | add n _ _ | double n _ | sub n _ _ | mul n _ _ | neg n _ | mulSi n _ _
  | powMpz n _ _ => n

/-- The operands of an operation. -/
def TinyOp.operands : TinyOp ι → List ι
  | setSi _ _ => []
  | double _ a | neg _ a | mulSi _ a _ | powMpz _ a _ => [a]
  | add _ a b | sub _ a b | mul _ a b => [a, b]

/-- What an operation leaves in the objects. -/
def TinyOp.run (s : ι → ℕ) : TinyOp ι → Option (ι → ℕ)
  | setSi n op => some (Function.update s n (tinySetSi f op))
  | add n a b => some (Function.update s n (tinyAdd f (s a) (s b)))
  | double n a => some (tinyDoubleAt f s n a)
  | sub n a b => some (Function.update s n (tinySub f (s a) (s b)))
  | mul n a b => some (Function.update s n (tinyMul f (s a) (s b)))
  | neg n a => some (Function.update s n (tinyNeg f (s a)))
  | mulSi n a op => some (Function.update s n (tinyMulSi f (s a) op))
  | powMpz n a op => tinyPowMpzAt f s n a op

/-- The residue that an operation stands for. -/
def TinyOp.value [Fact f.order.Prime] (v : ι → ZMod f.order) : TinyOp ι → ZMod f.order
  | setSi _ op => op
  | add _ a b => v a + v b
  | double _ a => 2 * v a
  | sub _ a b => v a - v b
  | mul _ a b => v a * v b
  | neg _ a => -v a
  | mulSi _ a op => v a * op
  | powMpz _ a op => v a ^ op

/-- A signed long has as many bits as an unsigned one. -/
def TinyField.IsLong (op : ℤ) : Prop := -(f.word / 2 : ℕ) ≤ op ∧ op < (f.word / 2 : ℕ)

/-- Integers are signed longs, and zero is not raised to a negative power. -/
def TinyOp.Defined (s : ι → ℕ) : TinyOp ι → Prop
  | setSi _ op | mulSi _ _ op => f.IsLong op
  | powMpz _ a op => 0 ≤ op ∨ s a ≠ 0
  | _ => True

/-- No negative multiple of the modulus is set, and products stay in the word, as do doubles that
are written over their operand. -/
def TinyOp.Fits (s : ι → ℕ) : TinyOp ι → Prop
  | setSi _ op => ¬(op < 0 ∧ (f.order : ℤ) ∣ op)
  | double n a => n = a → 2 * s a < f.word
  | mul _ a b => s a * s b < f.word
  | mulSi _ a op => f.order = 2 ∨ 0 ≤ s a * op ∧ s a * op < f.word
  | _ => True

end Operations

section Values

variable {f : TinyField} {a b : ℕ}

theorem TinyField.two_lt_word (f : TinyField) : 2 < f.word := by
  have base : 256 ^ 1 ≤ f.word := Nat.pow_le_pow_right (by decide) f.positive
  omega

theorem TinyField.two_dvd_word (f : TinyField) : 2 ∣ f.word := dvd_pow (by decide) f.positive.ne'

/-- A sum that leaves the word is above the modulus. -/
theorem tinyAdd_eq (left : a < f.order) (right : b < f.order) :
    tinyAdd f a b = (a + b) % f.order := by
  have word := f.order_lt_word
  rw [tinyAdd]
  by_cases fits : a + b < f.word
  · simp only [Nat.mod_eq_of_lt fits]
    rw [if_neg (by omega)]
  · have wrapped : (a + b) % f.word = a + b - f.word := by
      rw [Nat.mod_eq_sub_mod (not_lt.mp fits), Nat.mod_eq_of_lt (by omega)]
    have rest : a + b - f.word + f.word - f.order = a + b - f.order := by omega
    simp only [wrapped]
    rw [if_pos (by omega), rest, Nat.mod_eq_of_lt (show a + b - f.order < f.word by omega),
      Nat.mod_eq_sub_mod (show f.order ≤ a + b by omega)]

theorem tinyAdd_holds (left : a < f.order) (right : b < f.order) :
    Reduced f.order (tinyAdd f a b) (a + b) := by
  rw [tinyAdd_eq left right, ← Nat.cast_add]
  exact reduced_mod f.order_pos (a + b)

theorem tinySub_holds (left : a < f.order) (right : b < f.order) :
    Reduced f.order (tinySub f a b) (a - b) := by
  have word := f.order_lt_word
  rw [tinySub]
  by_cases order : a ≥ b
  · rw [if_pos order]
    exact ⟨by omega, Nat.cast_sub order⟩
  · have wrapped : (f.order + f.word - b + a) % f.word = f.order - b + a := by
      have whole : f.order + f.word - b + a = f.order - b + a + f.word := by omega
      rw [whole, Nat.add_mod_right, Nat.mod_eq_of_lt (by omega)]
    rw [if_neg order, wrapped]
    refine ⟨by omega, ?_⟩
    rw [Nat.cast_add, Nat.cast_sub right.le, ZMod.natCast_self, zero_sub, neg_add_eq_sub]

theorem tinyNeg_holds (small : a < f.order) : Reduced f.order (tinyNeg f a) (-a) := by
  have word := f.order_lt_word
  rw [tinyNeg]
  by_cases zero : a = 0
  · rw [if_neg (not_not.mpr zero), zero, Nat.cast_zero, neg_zero]
    exact ⟨f.order_pos, Nat.cast_zero⟩
  · have wrapped : (f.order + f.word - a) % f.word = f.order - a := by
      have whole : f.order + f.word - a = f.order - a + f.word := by omega
      rw [whole, Nat.add_mod_right, Nat.mod_eq_of_lt (by omega)]
    rw [if_pos zero, wrapped]
    refine ⟨by omega, ?_⟩
    rw [Nat.cast_sub small.le, ZMod.natCast_self, zero_sub]

/-- An integer of fewer words than the modulus keeps its residue exactly when it fits in one, by
any prime but two. -/
theorem tinyRemainder_exact_iff (prime : f.order.Prime) (ll : ℤ) (few : |ll / f.word| < f.order) :
    Reduced f.order (tinyRemainder f ll) ll ↔ f.order = 2 ∨ 0 ≤ ll ∧ ll < f.word := by
  have word : (0 : ℤ) < f.word := by exact_mod_cast f.word_pos
  rcases prime.eq_two_or_odd with two | odd
  · refine iff_of_true ((tinyRemainder_holds_iff ll).mpr ?_) (Or.inl two)
    rw [two]
    exact Dvd.dvd.mul_right (by exact_mod_cast f.two_dvd_word) _
  · have proper : f.order ≠ 2 := by omega
    rw [tinyRemainder_odd_iff odd, or_iff_right proper]
    constructor
    · intro multiple
      have none := Int.eq_zero_of_abs_lt_dvd multiple few
      rw [Int.ediv_eq_iff_of_pos word] at none
      omega
    · rintro ⟨lower, upper⟩
      rw [Int.ediv_eq_zero_of_lt lower upper]
      exact dvd_zero _

/-- A product of residues is right exactly when it stays in the word. -/
theorem tinyMul_exact_iff (prime : f.order.Prime) (left : a < f.order) (right : b < f.order) :
    Reduced f.order (tinyMul f a b) (a * b) ↔ a * b < f.word := by
  have word := f.order_lt_word
  have wide := f.two_lt_word
  have few : a * b / f.word < f.order := by
    refine Nat.div_lt_of_lt_mul ?_
    calc a * b ≤ a * f.order := Nat.mul_le_mul_left a right.le
      _ < f.word * f.order := Nat.mul_lt_mul_of_pos_right (left.trans word) f.order_pos
  have exact := tinyRemainder_exact_iff prime (a * b) (by
    rw [← Nat.cast_mul, ← Int.natCast_div, Nat.abs_cast]
    exact_mod_cast few)
  rw [Int.cast_mul, Int.cast_natCast, Int.cast_natCast] at exact
  rw [tinyMul, exact]
  constructor
  · rintro (two | ⟨-, fits⟩)
    · have product : a * b ≤ 1 * 1 := Nat.mul_le_mul (by omega) (by omega)
      omega
    · exact_mod_cast fits
  · intro fits
    exact Or.inr ⟨by positivity, by exact_mod_cast fits⟩

/-- A product with a signed long is right exactly when it is no less than zero and stays in the
word, by any modulus but two. -/
theorem tinyMulSi_exact_iff (prime : f.order.Prime) (small : a < f.order) {op : ℤ}
    (long : f.IsLong op) : Reduced f.order (tinyMulSi f a op) (a * op) ↔
      f.order = 2 ∨ 0 ≤ a * op ∧ a * op < f.word := by
  have word : (0 : ℤ) < f.word := by exact_mod_cast f.word_pos
  obtain ⟨lower, upper⟩ := long
  have half : 2 * ((f.word / 2 : ℕ) : ℤ) ≤ f.word := by exact_mod_cast Nat.mul_div_le f.word 2
  have few : |(a : ℤ) * op / f.word| < f.order := by
    have least : -((a : ℤ) * f.word) ≤ a * op := by nlinarith
    have most : (a : ℤ) * op ≤ a * f.word := by nlinarith
    rw [abs_lt]
    constructor
    · have bound : -(a : ℤ) ≤ a * op / f.word := (Int.le_ediv_iff_mul_le word).mpr (by linarith)
      omega
    · have bound : (a : ℤ) * op / f.word ≤ a := by
        refine (Int.ediv_le_ediv word most).trans ?_
        rw [Int.mul_ediv_cancel _ word.ne']
      omega
  have exact := tinyRemainder_exact_iff prime (a * op) few
  rw [Int.cast_mul, Int.cast_natCast] at exact
  rw [tinyMulSi, exact]

/-- A signed long is stored reduced unless it is a negative multiple of the modulus. -/
theorem tinySetSi_exact_iff (op : ℤ) :
    Reduced f.order (tinySetSi f op) op ↔ ¬(op < 0 ∧ (f.order : ℤ) ∣ op) := by
  have positive := f.order_pos
  rw [tinySetSi]
  by_cases negative : op < 0
  · have rest := Nat.mod_lt (-op).toNat positive
    have multiple : (f.order : ℤ) ∣ op ↔ (-op).toNat % f.order = 0 := by
      rw [← Nat.dvd_iff_mod_eq_zero, ← Int.natCast_dvd_natCast, Int.toNat_of_nonneg (by omega),
        dvd_neg]
    rw [if_pos negative, multiple]
    constructor
    · rintro ⟨small, -⟩ ⟨-, none⟩
      omega
    · intro proper
      refine ⟨by omega, ?_⟩
      rw [Nat.cast_sub rest.le, ZMod.natCast_self, zero_sub, ZMod.natCast_mod, ← Int.cast_natCast,
        Int.toNat_of_nonneg (by omega), Int.cast_neg, neg_neg]
  · rw [if_neg negative]
    refine iff_of_true ⟨Nat.mod_lt _ positive, ?_⟩ fun wrong => negative wrong.1
    rw [ZMod.natCast_mod, ← Int.cast_natCast, Int.toNat_of_nonneg (not_lt.mp negative)]

/-- A double over its operand is right exactly when it stays in the word. -/
theorem tinyDouble_exact_iff (prime : f.order.Prime) (small : a < f.order) :
    Reduced f.order (tinyDouble f true a) (2 * a) ↔ 2 * a < f.word := by
  have word := f.order_lt_word
  have wide := f.two_lt_word
  have few : 2 * a / f.word < f.order := by
    have most : 2 * a / f.word < 2 := Nat.div_lt_of_lt_mul (by omega)
    have large := f.proper
    omega
  have exact := tinyRemainder_exact_iff prime (2 * a) (by
    rw [← Nat.cast_two, ← Nat.cast_mul, ← Int.natCast_div, Nat.abs_cast]
    exact_mod_cast few)
  have same : tinyDouble f true a = tinyRemainder f (2 * a) := by
    have rest : 2 * (a : ℤ) % f.word = (2 * a % f.word : ℕ) := by push_cast; rfl
    rw [tinyDouble, tinyRemainder, rest, Int.toNat_natCast]
    simp
  rw [Int.cast_mul, Int.cast_ofNat, Int.cast_natCast] at exact
  rw [same, exact]
  constructor
  · rintro (two | ⟨-, fits⟩)
    · omega
    · exact_mod_cast fits
  · intro fits
    exact Or.inr ⟨by positivity, by exact_mod_cast fits⟩

variable {ι : Type} [DecidableEq ι]

/-- With one object for both arguments the test for a carry reads the sum. -/
theorem tinyDoubleAt_eq (s : ι → ℕ) (c a : ι) :
    tinyDoubleAt f s c a = Function.update s c (tinyDouble f (decide (c = a)) (s a)) := by
  rw [tinyDoubleAt, tinyDouble]
  by_cases same : c = a
  · subst same
    simp
  · have apart : a ≠ c := Ne.symm same
    simp only [Function.update_self, Function.update_of_ne apart, decide_eq_false same,
      Bool.false_eq_true, if_false]
    split
    · rw [Function.update_idem, Function.update_idem, Function.update_self]
    · rw [Function.update_idem, Function.update_self]

end Values

section Runs

variable {ι : Type} [DecidableEq ι] {f : TinyField}

/-- What a power leaves in the objects. -/
theorem tinyPowMpzAt_holds [prime : Fact f.order.Prime] (s : ι → ℕ) (c a : ι) {op : ℤ}
    (small : s a < f.order) (defined : 0 ≤ op ∨ s a ≠ 0) :
    ∃ r, tinyPowMpzAt f s c a op = some (Function.update s c r) ∧
      Reduced f.order r ((s a : ZMod f.order) ^ op) := by
  by_cases sign : 0 ≤ op
  · refine ⟨_, if_pos sign, ?_⟩
    obtain ⟨n, rfl⟩ := Int.eq_ofNat_of_zero_le sign
    rw [Int.toNat_natCast, zpow_natCast]
    exact tinyPowMpz_holds ⟨small, rfl⟩ n
  · have nonzero := defined.resolve_left sign
    have coprime : Int.gcd (s a) f.order = 1 :=
      (Nat.Coprime.symm ((Nat.Prime.coprime_iff_not_dvd prime.out).mpr fun multiple =>
        absurd (Nat.le_of_dvd (Nat.pos_of_ne_zero nonzero) multiple) (not_le.mpr small)))
    obtain ⟨z, inverted, ⟨lower, upper⟩, product⟩ := mpzInvert_mul f.order_pos coprime
    have inverse : Reduced f.order z.toNat (s a : ZMod f.order)⁻¹ := by
      refine ⟨by omega, ?_⟩
      rw [← Int.cast_natCast, Int.toNat_of_nonneg lower]
      rw [Int.cast_natCast] at product
      exact eq_inv_of_mul_eq_one_left product
    refine ⟨tinyPowMpz f z.toNat (-op).toNat, ?_, ?_⟩
    · rw [tinyPowMpzAt, if_neg sign, tinyInvert, inverted]
      rfl
    · have power := tinyPowMpz_holds inverse (-op).toNat
      rwa [← zpow_natCast, Int.toNat_of_nonneg (by omega), inv_zpow', neg_neg] at power

/-- What an operation writes to its destination. -/
private theorem exact_update {s : ι → ℕ} {c : ι} {r : ℕ} {x : ZMod f.order} {p : Prop}
    (value : Reduced f.order r x ↔ p) :
    (∃ s', some (Function.update s c r) = some s' ∧ Reduced f.order (s' c) x ∧
      ∀ i, i ≠ c → s' i = s i) ↔ p := by
  rw [← value]
  constructor
  · rintro ⟨s', run, held, -⟩
    rw [← Option.some.inj run, Function.update_self] at held
    exact held
  · intro held
    refine ⟨_, rfl, ?_, fun i apart => Function.update_of_ne apart _ _⟩
    rw [Function.update_self]
    exact held

variable [prime : Fact f.order.Prime]

/-- By every prime of one word and whatever objects the operands and the destination share, an
operation on residues writes the reduced residue to its destination and nothing else, exactly when
it fits. -/
theorem tinyOp_exact_iff (s : ι → ℕ) (op : TinyOp ι) (reduced : ∀ i ∈ op.operands, s i < f.order)
    (defined : op.Defined f s) :
    (∃ s', op.run f s = some s' ∧
      Reduced f.order (s' op.destination) (op.value f fun i => (s i : ZMod f.order)) ∧
      ∀ i, i ≠ op.destination → s' i = s i) ↔ op.Fits f s := by
  cases op with
  | setSi n op => exact exact_update (tinySetSi_exact_iff op)
  | add n a b =>
    exact exact_update (iff_true_intro (tinyAdd_holds (reduced a (by simp [TinyOp.operands]))
      (reduced b (by simp [TinyOp.operands]))))
  | double n a =>
    have small := reduced a (by simp [TinyOp.operands])
    rw [TinyOp.run, tinyDoubleAt_eq]
    refine exact_update ?_
    by_cases same : n = a
    · rw [decide_eq_true same]
      exact (tinyDouble_exact_iff prime.out small).trans ⟨fun fits _ => fits, fun fits => fits same⟩
    · rw [decide_eq_false same]
      have held := tinyDouble_holds (f := f) ⟨small, rfl⟩
      rw [← two_mul] at held
      exact iff_of_true held fun equal => absurd equal same
  | sub n a b =>
    exact exact_update (iff_true_intro (tinySub_holds (reduced a (by simp [TinyOp.operands]))
      (reduced b (by simp [TinyOp.operands]))))
  | mul n a b =>
    exact exact_update (tinyMul_exact_iff prime.out (reduced a (by simp [TinyOp.operands]))
      (reduced b (by simp [TinyOp.operands])))
  | neg n a =>
    exact exact_update (iff_true_intro (tinyNeg_holds (reduced a (by simp [TinyOp.operands]))))
  | mulSi n a op =>
    exact exact_update (tinyMulSi_exact_iff prime.out (reduced a (by simp [TinyOp.operands])) defined)
  | powMpz n a op =>
    obtain ⟨r, run, held⟩ := tinyPowMpzAt_holds s n a (reduced a (by simp [TinyOp.operands])) defined
    rw [TinyOp.run, run]
    exact exact_update (iff_true_intro held)

end Runs

section Small

private theorem smallTinyField_prime : smallTinyField.order.Prime := by
  change Nat.Prime 65537
  norm_num

theorem tinyOp_exact_small : ∃ _ : Fact smallTinyField.order.Prime,
    ∃ s', (TinyOp.mul 0 0 1).run smallTinyField ![300, 500] = some s' ∧
      Reduced smallTinyField.order (s' (0 : Fin 2))
        ((TinyOp.mul 0 0 1).value smallTinyField fun i : Fin 2 => ((![300, 500] i : ℕ) : ZMod _)) ∧
      ∀ i, i ≠ 0 → s' i = ![300, 500] i :=
  have prime : Fact smallTinyField.order.Prime := ⟨smallTinyField_prime⟩
  have fits : (TinyOp.mul (0 : Fin 2) 0 1).Fits smallTinyField ![300, 500] :=
    (by decide : 300 * 500 < smallTinyField.word)
  ⟨prime, (tinyOp_exact_iff ![300, 500] (.mul 0 0 1) (by decide) trivial).mpr fits⟩

/-- The product of `-1` with itself is zero. -/
theorem tinyOp_wrong : ∃ _ : Fact smallTinyField.order.Prime,
    ¬∀ (s : Fin 1 → ℕ) (op : TinyOp (Fin 1)), (∀ i ∈ op.operands, s i < smallTinyField.order) →
      op.Defined smallTinyField s →
      ∃ s', op.run smallTinyField s = some s' ∧
        Reduced smallTinyField.order (s' op.destination)
          (op.value smallTinyField fun i => (s i : ZMod smallTinyField.order)) ∧
        ∀ i, i ≠ op.destination → s' i = s i := by
  refine ⟨⟨smallTinyField_prime⟩, fun right => ?_⟩
  obtain ⟨s', run, held, -⟩ := right (fun _ => 65536) (.mul 0 0 0) (by decide) trivial
  rw [← Option.some.inj run] at held
  have small : 65536 < smallTinyField.order := by decide
  have fits : 65536 * 65536 < smallTinyField.word :=
    (tinyMul_exact_iff smallTinyField_prime small small).mp held
  exact absurd fits (by decide)

end Small

end Pbc.Arith
