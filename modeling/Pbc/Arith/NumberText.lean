import Mathlib.Data.Nat.Digits.Defs
import Pbc.Arith.NaiveFp

/-!
# Numbers in every base

`pbc_mpz_set_str` counts its letters from zero: `A` is read as the digit 0, not as the digit
10. So the number it reads, and the place where it stops, are right exactly when no letter
follows the decimal digits that it could take for one.
-/

namespace Pbc.Arith

section Numerals

/-- The decimal digit of a character. -/
def decimalDigit (c : Char) : Option ℕ :=
  if '0' ≤ c ∧ c ≤ '9' then some (c.toNat - '0'.toNat) else none

/-- The place of a letter in the alphabet, `A` and `a` at zero. -/
def letterIndex (c : Char) : Option ℕ :=
  if 'A' ≤ c ∧ c ≤ 'Z' then some (c.toNat - 'A'.toNat)
  else if 'a' ≤ c ∧ c ≤ 'z' then some (c.toNat - 'a'.toNat)
  else none

/-- The digit of a character in bases above ten: letters stand for 10 to 35. -/
def digitOf (c : Char) : Option ℕ :=
  (decimalDigit c).or ((letterIndex c).map (· + 10))

/-- The characters of a number: white space, and what stands for a digit below the base. -/
def inNumber (digit : Char → Option ℕ) (b : ℕ) (c : Char) : Bool :=
  isSpace c || (digit c).any (· < b)

/-- The positional value of digits. -/
def positional (b : ℕ) (digits : List ℕ) (z : ℕ) : ℕ := digits.foldl (fun z j => z * b + j) z

/-- The longest prefix of white space and digits: its positional value, with the digits that
`z` stands for in front, and its length. -/
def numberAt (digit : Char → Option ℕ) (b : ℕ) (s : List Char) (z : ℕ) : ℕ × ℕ :=
  let text := s.takeWhile (inNumber digit b)
  (positional b (text.filterMap digit) z, text.length)

/-- The digits of a number, the most significant one first. -/
def numeral (b z : ℕ) : List ℕ := if z = 0 then [0] else (Nat.digits b z).reverse

/-- The character that stands for a digit. -/
def digitChar (d : ℕ) : Char :=
  if d < 10 then Char.ofNat ('0'.toNat + d) else Char.ofNat ('a'.toNat + (d - 10))

/-- `mpz_get_str` of a nonnegative integer. -/
def mpzGetStr (b z : ℕ) : List Char := (numeral b z).map digitChar

/-- `pbc_mpz_set_str`, whose count is an `int`. -/
def pbcMpzSetStrInt (s : List Char) (base : ℤ) : Option (ℕ × ℕ) :=
  let (z, i) := pbcMpzSetStr s base
  if i < 2 ^ 31 then some (z, i) else none

/-- The first character behind the white space and the decimal digits is no letter whose place
in the alphabet is below the base. -/
def NoLetter (b : ℕ) (s : List Char) : Prop :=
  ∀ c ∈ (s.dropWhile (inNumber decimalDigit b)).head?, ∀ k ∈ letterIndex c, b ≤ k

end Numerals

section Values

theorem strDigit_eq (c : Char) : strDigit c = (decimalDigit c).or (letterIndex c) := by
  rw [strDigit, decimalDigit, letterIndex]
  split_ifs
  all_goals rfl

theorem isSpace_eq_false {c : Char} (large : 48 ≤ c.toNat) : isSpace c = false := by
  have apart (d : Char) (small : d.toNat < 48) : c ≠ d := by
    rintro rfl
    omega
  simp [isSpace, apart ' ' (by decide), apart '\t' (by decide), apart '\n' (by decide),
    apart '\r' (by decide)]
  omega

/-- What a character can be: white space, a decimal digit, a letter, or none of them. -/
theorem digit_kinds (c : Char) :
    (isSpace c = true ∧ decimalDigit c = none ∧ letterIndex c = none) ∨
      isSpace c = false ∧ ((∃ j < 10, decimalDigit c = some j ∧ letterIndex c = none) ∨
        (∃ k, decimalDigit c = none ∧ letterIndex c = some k) ∨
        decimalDigit c = none ∧ letterIndex c = none) := by
  have order (a d : Char) : a ≤ d ↔ a.toNat ≤ d.toNat := by
    rw [Char.le_def, UInt32.le_iff_toNat_le]
    rfl
  have constants : '0'.toNat = 48 ∧ '9'.toNat = 57 ∧ 'A'.toNat = 65 ∧ 'Z'.toNat = 90 ∧
      'a'.toNat = 97 ∧ 'z'.toNat = 122 := by decide
  obtain ⟨zero, nine, upperA, upperZ, lowerA, lowerZ⟩ := constants
  simp only [decimalDigit, letterIndex, order, zero, nine, upperA, upperZ, lowerA, lowerZ]
  cases space : isSpace c with
  | true =>
    have small : c.toNat < 48 := by
      by_contra large
      rw [isSpace_eq_false (by omega)] at space
      cases space
    rw [if_neg (by omega), if_neg (by omega), if_neg (by omega)]
    exact Or.inl ⟨rfl, rfl, rfl⟩
  | false =>
    refine Or.inr ⟨rfl, ?_⟩
    by_cases digit : 48 ≤ c.toNat ∧ c.toNat ≤ 57
    · rw [if_pos digit, if_neg (by omega), if_neg (by omega)]
      exact Or.inl ⟨_, by omega, rfl, rfl⟩
    · rw [if_neg digit]
      split_ifs
      · exact Or.inr (Or.inl ⟨_, rfl, rfl⟩)
      · exact Or.inr (Or.inl ⟨_, rfl, rfl⟩)
      · exact Or.inr (Or.inr ⟨rfl, rfl⟩)

section Reading

variable {digit : Char → Option ℕ} {b : ℕ} {c : Char}

theorem numberAt_space (space : isSpace c = true) (none : digit c = none) (s : List Char) (z : ℕ) :
    numberAt digit b (c :: s) z = ((numberAt digit b s z).1, (numberAt digit b s z).2 + 1) := by
  simp [numberAt, inNumber, space, none]

theorem numberAt_digit {j : ℕ} (solid : isSpace c = false) (value : digit c = some j) (below : j < b)
    (s : List Char) (z : ℕ) : numberAt digit b (c :: s) z =
      ((numberAt digit b s (z * b + j)).1, (numberAt digit b s (z * b + j)).2 + 1) := by
  simp [numberAt, inNumber, solid, value, below, positional]

theorem numberAt_stop (solid : isSpace c = false) (other : ∀ j ∈ digit c, b ≤ j) (s : List Char)
    (z : ℕ) : numberAt digit b (c :: s) z = (z, 0) := by
  have stops : inNumber digit b c = false := by
    cases value : digit c with
    | none => simp [inNumber, solid, value]
    | some j => simp [inNumber, solid, value, other j value]
  simp [numberAt, stops, positional]

end Reading

/-- The loop reads a number with letters that count from zero. -/
theorem pbcMpzSetStrLoop_eq (b : ℕ) (s : List Char) (z i : ℕ) : pbcMpzSetStrLoop b s z i =
    ((numberAt strDigit b s z).1, i + (numberAt strDigit b s z).2) := by
  induction s generalizing z i with
  | nil => rfl
  | cons c s ih =>
    rw [pbcMpzSetStrLoop]
    rcases digit_kinds c with ⟨space, decimal, letter⟩ | ⟨solid, -⟩
    · have none : strDigit c = none := by rw [strDigit_eq, decimal, letter, Option.or_none]
      rw [if_pos space, ih, numberAt_space space none]
      congr 1
      omega
    · rw [if_neg (by rw [solid]; decide)]
      cases value : strDigit c with
      | none => rw [numberAt_stop solid (by simp [value]), add_zero]
      | some j =>
        by_cases below : j < b
        · rw [numberAt_digit solid value below]
          simp only [ge_iff_le, not_le.mpr below, if_false, ih]
          congr 1
          omega
        · have above : ∀ k ∈ strDigit c, b ≤ k := by
            intro k member
            rw [value, Option.mem_some_iff] at member
            omega
          rw [numberAt_stop solid above, add_zero]
          exact if_pos (not_lt.mp below)

/-- One more character read. -/
theorem succ_count_inj {p q : ℕ × ℕ} : (p.1, p.2 + 1) = (q.1, q.2 + 1) ↔ p = q := by
  rw [Prod.mk.injEq, Nat.succ_inj, ← Prod.ext_iff]

section Compare

variable {b : ℕ}

theorem strDigit_letter {c : Char} {k : ℕ} (decimal : decimalDigit c = none)
    (letter : letterIndex c = some k) : strDigit c = some k ∧ digitOf c = some (k + 10) := by
  rw [strDigit_eq, digitOf, decimal, letter]
  exact ⟨rfl, rfl⟩

theorem strDigit_decimal {c : Char} {j : ℕ} (decimal : decimalDigit c = some j) :
    strDigit c = some j ∧ digitOf c = some j := by
  rw [strDigit_eq, digitOf, decimal]
  exact ⟨rfl, rfl⟩

theorem strDigit_none {c : Char} (decimal : decimalDigit c = none) (letter : letterIndex c = none) :
    strDigit c = none ∧ digitOf c = none := by
  rw [strDigit_eq, digitOf, decimal, letter]
  exact ⟨rfl, rfl⟩

/-- A number that has fallen behind stays behind, unless it ends at another place. -/
theorem numberAt_ne (positive : 0 < b) (s : List Char) {z z' : ℕ} (less : z < z') :
    numberAt strDigit b s z ≠ numberAt digitOf b s z' := by
  induction s generalizing z z' with
  | nil =>
    intro equal
    exact less.ne (congrArg Prod.fst equal)
  | cons c s ih =>
    have scaled : z * b < z' * b := Nat.mul_lt_mul_of_pos_right less positive
    rcases digit_kinds c with ⟨space, decimal, letter⟩ | ⟨solid, ⟨j, -, decimal, -⟩ |
      ⟨k, decimal, letter⟩ | ⟨decimal, letter⟩⟩
    · obtain ⟨left, right⟩ := strDigit_none decimal letter
      rw [numberAt_space space left, numberAt_space space right, ne_eq, succ_count_inj]
      exact ih less
    · obtain ⟨left, right⟩ := strDigit_decimal decimal
      by_cases below : j < b
      · rw [numberAt_digit solid left below, numberAt_digit solid right below, ne_eq, succ_count_inj]
        exact ih (by omega)
      · rw [numberAt_stop solid (by simpa [left] using below),
          numberAt_stop solid (by simpa [right] using below)]
        intro equal
        exact less.ne (congrArg Prod.fst equal)
    · obtain ⟨left, right⟩ := strDigit_letter decimal letter
      by_cases below : k + 10 < b
      · rw [numberAt_digit solid left (by omega), numberAt_digit solid right below, ne_eq,
          succ_count_inj]
        exact ih (by omega)
      · have stop : ∀ j ∈ digitOf c, b ≤ j := by simpa [right] using below
        rw [numberAt_stop solid stop]
        by_cases taken : k < b
        · rw [numberAt_digit solid left taken]
          intro equal
          exact Nat.succ_ne_zero _ (congrArg Prod.snd equal)
        · rw [numberAt_stop solid (by simpa [left] using taken)]
          intro equal
          exact less.ne (congrArg Prod.fst equal)
    · obtain ⟨left, right⟩ := strDigit_none decimal letter
      rw [numberAt_stop solid (by simp [left]), numberAt_stop solid (by simp [right])]
      intro equal
      exact less.ne (congrArg Prod.fst equal)

theorem noLetter_skip {c : Char} (skipped : inNumber decimalDigit b c = true) (s : List Char) :
    NoLetter b (c :: s) ↔ NoLetter b s := by
  rw [NoLetter, NoLetter, List.dropWhile_cons_of_pos skipped]

theorem noLetter_stop {c : Char} (stops : inNumber decimalDigit b c = false) (s : List Char) :
    NoLetter b (c :: s) ↔ ∀ k ∈ letterIndex c, b ≤ k := by
  rw [NoLetter, List.dropWhile_cons_of_neg (by rw [stops]; decide)]
  simp

/-- The numbers agree exactly when no letter is met that could be a digit. -/
theorem numberAt_eq_iff (positive : 0 < b) (s : List Char) (z : ℕ) :
    numberAt strDigit b s z = numberAt digitOf b s z ↔ NoLetter b s := by
  induction s generalizing z with
  | nil => simp [numberAt, NoLetter]
  | cons c s ih =>
    rcases digit_kinds c with ⟨space, decimal, letter⟩ | ⟨solid, ⟨j, -, decimal, letter⟩ |
      ⟨k, decimal, letter⟩ | ⟨decimal, letter⟩⟩
    · obtain ⟨left, right⟩ := strDigit_none decimal letter
      rw [numberAt_space space left, numberAt_space space right, succ_count_inj,
        noLetter_skip (by simp [inNumber, space])]
      exact ih z
    · obtain ⟨left, right⟩ := strDigit_decimal decimal
      by_cases below : j < b
      · rw [numberAt_digit solid left below, numberAt_digit solid right below, succ_count_inj,
          noLetter_skip (by simp [inNumber, decimal, below])]
        exact ih _
      · rw [numberAt_stop solid (by simpa [left] using below),
          numberAt_stop solid (by simpa [right] using below),
          noLetter_stop (by simpa [inNumber, solid, decimal] using below)]
        simp [letter]
    · obtain ⟨left, right⟩ := strDigit_letter decimal letter
      rw [noLetter_stop (by simp [inNumber, solid, decimal])]
      by_cases below : k + 10 < b
      · rw [numberAt_digit solid left (by omega), numberAt_digit solid right below, succ_count_inj]
        refine iff_of_false (numberAt_ne positive s (by omega)) ?_
        intro above
        have := above k letter
        omega
      · have stop : ∀ j ∈ digitOf c, b ≤ j := by simpa [right] using below
        rw [numberAt_stop solid stop]
        by_cases taken : k < b
        · rw [numberAt_digit solid left taken]
          refine iff_of_false (fun equal => Nat.succ_ne_zero _ (congrArg Prod.snd equal)) ?_
          intro above
          have := above k letter
          omega
        · rw [numberAt_stop solid (by simpa [left] using taken)]
          refine iff_of_true rfl ?_
          intro k' member
          rw [letter, Option.mem_some_iff] at member
          omega
    · obtain ⟨left, right⟩ := strDigit_none decimal letter
      rw [numberAt_stop solid (by simp [left]), numberAt_stop solid (by simp [right]),
        noLetter_stop (by simp [inNumber, solid, decimal])]
      simp [letter]

end Compare

section Printed

variable {b : ℕ}

/-- What the character of a digit is read as. -/
theorem digitChar_spec {d : ℕ} (digit : d < 36) : isSpace (digitChar d) = false ∧
    digitOf (digitChar d) = some d ∧
    decimalDigit (digitChar d) = (if d < 10 then some d else none) ∧
    letterIndex (digitChar d) = if d < 10 then none else some (d - 10) := by
  have all : ∀ d < 36, isSpace (digitChar d) = false ∧ digitOf (digitChar d) = some d ∧
      decimalDigit (digitChar d) = (if d < 10 then some d else none) ∧
      letterIndex (digitChar d) = if d < 10 then none else some (d - 10) := by
    decide
  exact all d digit

theorem numberAt_digitChar (upper : b ≤ 36) {digits : List ℕ} (small : ∀ d ∈ digits, d < b)
    (z : ℕ) :
    numberAt digitOf b (digits.map digitChar) z = (positional b digits z, digits.length) := by
  induction digits generalizing z with
  | nil => rfl
  | cons d digits ih =>
    have below := small d List.mem_cons_self
    obtain ⟨solid, value, -⟩ := digitChar_spec (below.trans_le upper)
    rw [List.map_cons, numberAt_digit solid value below,
      ih fun d member => small d (List.mem_cons_of_mem _ member)]
    rfl

theorem noLetter_digitChar (upper : b ≤ 36) {digits : List ℕ} (small : ∀ d ∈ digits, d < b) :
    NoLetter b (digits.map digitChar) ↔ ∀ d ∈ digits, d < 10 := by
  induction digits with
  | nil => simp [NoLetter]
  | cons d digits ih =>
    have below := small d List.mem_cons_self
    obtain ⟨solid, -, decimal, letter⟩ := digitChar_spec (below.trans_le upper)
    rw [List.map_cons, List.forall_mem_cons]
    by_cases ten : d < 10
    · rw [if_pos ten] at decimal
      rw [noLetter_skip (by simp [inNumber, decimal, below]),
        ih fun d member => small d (List.mem_cons_of_mem _ member)]
      simp only [ten, true_and]
    · rw [if_neg ten] at decimal letter
      rw [noLetter_stop (by simp [inNumber, solid, decimal])]
      refine iff_of_false ?_ fun both => ten both.1
      intro above
      have := above (d - 10) letter
      omega

theorem numeral_lt (lower : 2 ≤ b) (z : ℕ) : ∀ d ∈ numeral b z, d < b := by
  intro d member
  rw [numeral] at member
  split at member
  · rw [List.mem_singleton.mp member]
    omega
  · exact Nat.digits_lt_base lower (List.mem_reverse.mp member)

theorem positional_numeral (b z : ℕ) : positional b (numeral b z) 0 = z := by
  rw [numeral]
  split
  · next zero =>
    rw [zero]
    simp [positional]
  · rw [positional, List.foldl_reverse]
    conv_rhs => rw [← Nat.ofDigits_digits b z, Nat.ofDigits_eq_foldr]
    congr 1
    funext j z
    rw [mul_comm, add_comm]
    rfl

end Printed

section Bases

variable {b : ℕ} (lower : 2 ≤ b) (upper : b ≤ 36)

include lower upper

/-- The reader in a base that it takes. -/
theorem pbcMpzSetStr_eq (s : List Char) : pbcMpzSetStr s b = numberAt strDigit b s 0 := by
  rw [pbcMpzSetStr, if_neg (by omega), if_neg (by omega), if_neg (by omega), Int.toNat_natCast,
    pbcMpzSetStrLoop_eq, Nat.zero_add]

theorem pbcMpzSetStrInt_eq_iff (s : List Char) :
    pbcMpzSetStrInt s b = some (numberAt digitOf b s 0) ↔
      NoLetter b s ∧ (numberAt digitOf b s 0).2 < 2 ^ 31 := by
  rw [← numberAt_eq_iff (by omega) s 0, pbcMpzSetStrInt, pbcMpzSetStr_eq lower upper]
  simp only [Prod.mk.eta]
  constructor
  · intro read
    split at read
    · next fits =>
      have same := Option.some.inj read
      exact ⟨same, same ▸ fits⟩
    · cases read
  · rintro ⟨same, fits⟩
    rw [same, if_pos fits]

/-- In the bases 2 to 36 the text is read as claimed, and what `mpz_get_str` prints is read back,
exactly when no letter stands where a digit could, and the count fits into an `int`. -/
theorem pbcMpzSetStr_reads_iff :
    (∀ s, (let text := s.takeWhile (inNumber digitOf b)
      pbcMpzSetStrInt s b = some (positional b (text.filterMap digitOf) 0, text.length) ↔
        NoLetter b s ∧ text.length < 2 ^ 31)) ∧
    ∀ z, pbcMpzSetStrInt (mpzGetStr b z) b = some (z, (mpzGetStr b z).length) ↔
      (∀ d ∈ Nat.digits b z, d < 10) ∧ (mpzGetStr b z).length < 2 ^ 31 := by
  constructor
  · intro s
    exact pbcMpzSetStrInt_eq_iff lower upper s
  · intro z
    have small := numeral_lt lower z
    have printed : numberAt digitOf b (mpzGetStr b z) 0 = (z, (mpzGetStr b z).length) := by
      rw [mpzGetStr, numberAt_digitChar upper small, positional_numeral, List.length_map]
    have digits : (∀ d ∈ numeral b z, d < 10) ↔ ∀ d ∈ Nat.digits b z, d < 10 := by
      rw [numeral]
      split
      · next zero => simp [zero]
      · simp only [List.mem_reverse]
    have read := pbcMpzSetStrInt_eq_iff lower upper (mpzGetStr b z)
    rwa [printed, mpzGetStr, noLetter_digitChar upper small, digits, ← mpzGetStr] at read

end Bases

/-- In base 16 the text `50` is read as 80, and 90 is not read back. -/
theorem pbcMpzSetStr_reads_hex :
    pbcMpzSetStrInt ['5', '0'] 16 = some (positional 16 [5, 0] 0, 2) ∧
      pbcMpzSetStrInt (mpzGetStr 16 90) 16 ≠ some (90, (mpzGetStr 16 90).length) := by
  obtain ⟨texts, numbers⟩ := pbcMpzSetStr_reads_iff (b := 16) (by decide) (by decide)
  constructor
  · have digits : NoLetter 16 ['5', '0'] := by
      intro c member
      cases member
    exact (texts ['5', '0']).mpr ⟨digits, by decide⟩
  · intro read
    have ten := ((numbers 90).mp read).1 10 (by norm_num)
    omega

/-- In base 16 the text `A` stands for ten, and is read as zero. -/
theorem pbcMpzSetStr_misreads :
    numberAt digitOf 16 ['A'] 0 = (10, 1) ∧ pbcMpzSetStrInt ['A'] 16 = some (0, 1) := by
  decide

end Values

end Pbc.Arith
