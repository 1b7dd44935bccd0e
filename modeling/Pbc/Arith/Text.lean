import Pbc.Arith.NaiveFp

/-!
# Elements as text

`element_snprint` and `element_set_str` of the naive implementation of `F_p` and of the
extensions built over it. A string ends with its list; a reader gives the number of
characters it has read, on which the reader around it moves on.
-/

open Pbc.Gmp

namespace Pbc.Arith

section Operations

/-- The decimal digits of an integer, as `mpz_out_str` and `gmp_snprintf` write them. -/
def mpzOutStr (z : ℤ) : List Char :=
  if z < 0 then '-' :: Nat.toDigits 10 z.natAbs else Nat.toDigits 10 z.natAbs

/-- `snprintf` of a text into a buffer: the characters stored before the final zero, and
the length that the text needs. -/
def snprintf (text : List Char) (size : ℕ) : List Char × ℕ := (text.take (size - 1), text.length)

/-- A further piece behind what a buffer holds, and `clip_sub`. -/
def clipSub (size : ℕ) (s : List Char × ℕ) (piece : ℕ → List Char × ℕ) : List Char × ℕ :=
  let left := if s.2 ≥ size then 0 else size - s.2
  let (text, status) := piece left
  (s.1 ++ text, s.2 + status)

/-- The loop that skips blanks. -/
def skipSpaces (cp : List Char) : List Char := cp.dropWhile isSpace

/-- The methods of a `field_t` for text. `setStr` gets what the destination holds, and
gives what it holds then and the number of characters read. Beside the methods stand the
values that elements hold and which of them are canonical. -/
structure TextField where
  Element : Type
  Value : Type
  value : Element → Value
  Canonical : Value → Prop
  set0 : Element → Element
  snprint : ℕ → Element → List Char × ℕ
  setStr : Element → List Char → ℤ → Element × ℕ

/-- The naive implementation. -/
def zpText (p : ℕ) : TextField where
  Element := ℤ
  Value := ℤ
  value := id
  Canonical z := 0 ≤ z ∧ z < p
  set0 _ := 0
  snprint size e := snprintf (mpzOutStr e) size
  setStr _ s base := (zpSetStr p s base, (pbcMpzSetStr s base).2)

variable (k : TextField)

/-- `fq_snprint`. -/
def fqSnprint (size : ℕ) (e : k.Element × k.Element) : List Char × ℕ :=
  let s := snprintf ['['] size
  let s := clipSub size s fun left => k.snprint left e.1
  let s := clipSub size s (snprintf [',', ' '])
  let s := clipSub size s fun left => k.snprint left e.2
  clipSub size s (snprintf [']'])

/-- `fq_set_str`. -/
def fqSetStr (e : k.Element × k.Element) (s : List Char) (base : ℤ) : (k.Element × k.Element) × ℕ :=
  let e := (k.set0 e.1, k.set0 e.2)
  match skipSpaces s with
  | '[' :: cp =>
      let (x, count) := k.setStr e.1 cp base
      match skipSpaces (cp.drop count) with
      | ',' :: cp =>
          let (y, count) := k.setStr e.2 cp base
          match cp.drop count with
          | ']' :: cp => ((x, y), s.length - cp.length)
          | _ => ((x, y), 0)
      | _ => ((x, e.2), 0)
  | _ => (e, 0)

/-- A quadratic extension, built by `field_init_quadratic` or `field_init_fi`. -/
def fqText : TextField where
  Element := k.Element × k.Element
  Value := k.Value × k.Value
  value e := (k.value e.1, k.value e.2)
  Canonical v := k.Canonical v.1 ∧ k.Canonical v.2
  set0 e := (k.set0 e.1, k.set0 e.2)
  snprint := fqSnprint k
  setStr := fqSetStr k

/-- The loop of `polymod_snprint`, behind the coefficients before. -/
def polymodSnprintLoop (size : ℕ) : {n : ℕ} → Bool → List Char × ℕ → (Fin n → k.Element) →
    List Char × ℕ
  | 0, _, s, _ => s
  | _ + 1, first, s, coeff =>
      let s := if first then s else clipSub size s (snprintf [',', ' '])
      let s := clipSub size s fun left => k.snprint left (coeff ⟨0, Nat.succ_pos _⟩)
      polymodSnprintLoop size false s (Fin.tail coeff)

/-- `polymod_snprint`. -/
def polymodSnprint (size : ℕ) {n : ℕ} (coeff : Fin n → k.Element) : List Char × ℕ :=
  let s := snprintf ['['] size
  let s := polymodSnprintLoop k size true s coeff
  clipSub size s (snprintf [']'])

/-- The loop of `polymod_set_str`: the coefficients, and the rest of the string unless a
comma is missing. -/
def polymodSetStrLoop (base : ℤ) : {n : ℕ} → (Fin n → k.Element) → List Char →
    (Fin n → k.Element) × Option (List Char)
  | 0, coeff, cp => (coeff, some cp)
  | n + 1, coeff, cp =>
      let (x, count) := k.setStr (coeff ⟨0, Nat.succ_pos _⟩) cp base
      let cp := skipSpaces (cp.drop count)
      if n = 0 then (Fin.cons x (Fin.tail coeff), some cp)
      else
        match cp with
        | ',' :: cp =>
            let (y, rest) := polymodSetStrLoop base (Fin.tail coeff) cp
            (Fin.cons x y, rest)
        | _ => (Fin.cons x (Fin.tail coeff), none)

/-- `polymod_set_str`. -/
def polymodSetStr {n : ℕ} (coeff : Fin n → k.Element) (s : List Char) (base : ℤ) :
    (Fin n → k.Element) × ℕ :=
  let coeff i := k.set0 (coeff i)
  match skipSpaces s with
  | '[' :: cp =>
      let (coeff, rest) := polymodSetStrLoop k base coeff cp
      match rest with
      | some (']' :: cp) => (coeff, s.length - cp.length)
      | _ => (coeff, 0)
  | _ => (coeff, 0)

/-- A polynomial extension of degree `n`. -/
def polymodText (n : ℕ) : TextField where
  Element := Fin n → k.Element
  Value := Fin n → k.Value
  value e i := k.value (e i)
  Canonical v := ∀ i, k.Canonical (v i)
  set0 e i := k.set0 (e i)
  snprint size := polymodSnprint k size
  setStr := polymodSetStr k

end Operations

/-- A text after which a reader stops: it does not start with a digit, a letter or a
space. -/
def Stops (tail : List Char) : Prop :=
  ∀ c, tail.head? = some c → c.isAlphanum = false ∧ isSpace c = false

/-- The reader undoes the printer. In a buffer of any size the printer leaves the start
of one text; behind any blanks the reader takes all of that text and no more, and leaves
the value that was printed, whatever the destination held. -/
def TextField.ReadsBack (k : TextField) : Prop :=
  ∀ e, k.Canonical (k.value e) → ∃ text, (∀ size, k.snprint size e = snprintf text size) ∧
    ∀ c spaces tail, (∀ x ∈ spaces, isSpace x = true) → Stops tail →
      ∃ x, k.setStr c (spaces ++ text ++ tail) 10 = (x, spaces.length + text.length) ∧
        k.value x = k.value e

section Values

theorem clipSub_snprintf (size : ℕ) (text piece : List Char) :
    clipSub size (snprintf text size) (snprintf piece) = snprintf (text ++ piece) size := by
  have left : (if text.length ≥ size then 0 else size - text.length) - 1 =
      size - 1 - text.length := by
    split <;> omega
  have clipped : clipSub size (snprintf text size) (snprintf piece) =
      (text.take (size - 1) ++ piece.take (size - 1 - text.length), text.length + piece.length) := by
    rw [← left]
    rfl
  rw [clipped, snprintf, List.take_append, List.length_append]

/-- Blanks in front of a character that is not one are skipped. -/
theorem skipSpaces_append {spaces : List Char} (blank : ∀ x ∈ spaces, isSpace x = true) {c : Char}
    (solid : isSpace c = false) (cp : List Char) : skipSpaces (spaces ++ c :: cp) = c :: cp := by
  rw [skipSpaces, List.dropWhile_append_of_pos blank, List.dropWhile_cons_of_neg (by simp [solid])]

/-- The codes of the digits. -/
theorem digit_range {c : Char} (digit : c.isDigit = true) :
    (48 ≤ c.toNat ∧ c.toNat ≤ 57) ∧ '0' ≤ c ∧ c ≤ '9' := by
  have range : 48 ≤ c.toNat ∧ c.toNat ≤ 57 := by
    simpa [Char.isDigit, UInt32.le_iff_toNat_le] using digit
  refine ⟨range, ?_⟩
  simpa [Char.le_def, UInt32.le_iff_toNat_le] using range

private theorem strDigit_of_isDigit {c : Char} (digit : c.isDigit = true) :
    isSpace c = false ∧ strDigit c = some (c.toNat - '0'.toNat) ∧ c.toNat - '0'.toNat < 10 := by
  obtain ⟨range, bounds⟩ := digit_range digit
  have zero : '0'.toNat = 48 := rfl
  have solid (d : Char) (other : d.toNat < 48) : c ≠ d := by
    rintro rfl
    omega
  refine ⟨?_, by rw [strDigit, if_pos bounds], by omega⟩
  have space := solid ' ' (by decide)
  have tab := solid '\t' (by decide)
  have newline := solid '\n' (by decide)
  have feed := solid '\r' (by decide)
  simp [isSpace, space, tab, newline, feed]
  omega

private theorem strDigit_of_not_isAlphanum {c : Char} (other : c.isAlphanum = false) :
    strDigit c = none := by
  delta Char.isAlphanum Char.isAlpha Char.isUpper Char.isLower Char.isDigit at other
  simp only [Bool.or_eq_false_iff, decide_eq_false_iff_not, Bool.and_eq_false_imp, decide_eq_true_eq,
    ge_iff_le] at other
  obtain ⟨⟨upper, lower⟩, digit⟩ := other
  have digit' : ¬('0' ≤ c ∧ c ≤ '9') := fun range => digit range.1 range.2
  have upper' : ¬('A' ≤ c ∧ c ≤ 'Z') := upper
  have lower' : ¬('a' ≤ c ∧ c ≤ 'z') := fun range => lower range.1 range.2
  rw [strDigit, if_neg digit', if_neg upper', if_neg lower']

/-- The digits of a number are read in front of a text that stops the reader. -/
private theorem pbcMpzSetStrLoop_digits {digits tail : List Char} (stops : Stops tail)
    (decimal : ∀ c ∈ digits, c.isDigit = true) (z i : ℕ) :
    pbcMpzSetStrLoop 10 (digits ++ tail) z i =
      (Nat.ofDigitChars 10 digits z, i + digits.length) := by
  induction digits generalizing z i with
  | nil =>
    cases tail with
    | nil => rfl
    | cons c tail =>
      obtain ⟨other, solid⟩ := stops c rfl
      rw [List.nil_append, pbcMpzSetStrLoop, if_neg (by simp [solid]),
        strDigit_of_not_isAlphanum other]
      rfl
  | cons c digits ih =>
    obtain ⟨solid, value, small⟩ := strDigit_of_isDigit (decimal c List.mem_cons_self)
    rw [List.cons_append, pbcMpzSetStrLoop, if_neg (by simp [solid]), value]
    simp only [ge_iff_le, not_le.mpr small, if_false]
    rw [ih fun x member => decimal x (List.mem_cons_of_mem c member), Nat.ofDigitChars_cons,
      List.length_cons, mul_comm]
    congr 1
    omega

/-- Blanks are read over. -/
private theorem pbcMpzSetStrLoop_spaces {spaces : List Char}
    (blank : ∀ x ∈ spaces, isSpace x = true) (s : List Char) (b z i : ℕ) :
    pbcMpzSetStrLoop b (spaces ++ s) z i = pbcMpzSetStrLoop b s z (i + spaces.length) := by
  induction spaces generalizing i with
  | nil => rfl
  | cons c spaces ih =>
    rw [List.cons_append, pbcMpzSetStrLoop, if_pos (blank c List.mem_cons_self),
      ih (fun x member => blank x (List.mem_cons_of_mem c member)), List.length_cons]
    congr 1
    omega

/-- Residues are read back. -/
theorem zpText_readsBack (p : ℕ) : (zpText p).ReadsBack := by
  rintro (e : ℤ) (⟨lower, upper⟩ : 0 ≤ e ∧ e < p)
  refine ⟨mpzOutStr e, fun size => rfl, fun c spaces tail blank stops => ?_⟩
  have digits : mpzOutStr e = Nat.toDigits 10 e.natAbs := if_neg (not_lt.mpr lower)
  have read : pbcMpzSetStr (spaces ++ mpzOutStr e ++ tail) 10 =
      (e.natAbs, spaces.length + (mpzOutStr e).length) := by
    have decimal : ∀ c ∈ mpzOutStr e, c.isDigit = true := by
      rw [digits]
      exact fun c => Nat.isDigit_of_mem_toDigits (by decide) (by decide)
    have loop : pbcMpzSetStr (spaces ++ mpzOutStr e ++ tail) 10 =
        pbcMpzSetStrLoop 10 (spaces ++ mpzOutStr e ++ tail) 0 0 := rfl
    rw [loop, List.append_assoc, pbcMpzSetStrLoop_spaces blank,
      pbcMpzSetStrLoop_digits stops decimal, Nat.zero_add, digits, Nat.ofDigitChars_ten_toDigits]
  have count := congrArg Prod.snd read
  refine ⟨zpSetStr p (spaces ++ mpzOutStr e ++ tail) 10, Prod.ext rfl count, ?_⟩
  show zpSetStr p (spaces ++ mpzOutStr e ++ tail) 10 = e
  rw [zpSetStr, read, Int.natAbs_of_nonneg lower]
  exact Int.emod_eq_of_lt lower upper

private theorem stops_cons {c : Char} (other : c.isAlphanum = false) (solid : isSpace c = false)
    (tail : List Char) : Stops (c :: tail) := by
  rintro _ ⟨⟩
  exact ⟨other, solid⟩

private theorem stops_comma (tail : List Char) : Stops (',' :: tail) := stops_cons rfl rfl tail

private theorem stops_bracket (tail : List Char) : Stops (']' :: tail) := stops_cons rfl rfl tail

variable {k : TextField}

/-- Behind a text that has been read stands its tail. -/
private theorem drop_text {spaces text tail : List Char} :
    (spaces ++ (text ++ tail)).drop (spaces.length + text.length) = tail := by
  rw [← List.append_assoc, ← List.length_append, List.drop_left]

/-- The five steps by which two printed coordinates are read back. -/
theorem TextField.ReadsBack.pair (base : k.ReadsBack) {x y : k.Element}
    (canonical : k.Canonical (k.value x)) (canonical' : k.Canonical (k.value y)) :
    ∃ text, (∀ size, fqSnprint k size (x, y) = snprintf text size) ∧ 0 < text.length ∧
      ∀ cx cy spaces tail, (∀ c ∈ spaces, isSpace c = true) → ∃ cp x' count cp' y' count',
        skipSpaces (spaces ++ text ++ tail) = '[' :: cp ∧
          k.setStr cx cp 10 = (x', count) ∧ skipSpaces (cp.drop count) = ',' :: cp' ∧
          k.setStr cy cp' 10 = (y', count') ∧ cp'.drop count' = ']' :: tail ∧
          k.value x' = k.value x ∧ k.value y' = k.value y := by
  obtain ⟨first, print, read⟩ := base x canonical
  obtain ⟨second, print', read'⟩ := base y canonical'
  refine ⟨['['] ++ first ++ [',', ' '] ++ second ++ [']'], fun size => ?_, by simp,
    fun cx cy spaces tail blank => ?_⟩
  · simp only [fqSnprint, print, print', clipSub_snprintf]
  · have whole : spaces ++ (['['] ++ first ++ [',', ' '] ++ second ++ [']']) ++ tail =
        spaces ++ '[' :: (first ++ ',' :: ' ' :: (second ++ ']' :: tail)) := by simp
    obtain ⟨x', run, value⟩ := read cx [] (',' :: ' ' :: (second ++ ']' :: tail)) nofun
      (stops_comma _)
    obtain ⟨y', run', value'⟩ := read' cy [' '] (']' :: tail) (by simp [isSpace])
      (stops_bracket _)
    have skip := @drop_text [] first (',' :: ' ' :: (second ++ ']' :: tail))
    have skip' := @drop_text [' '] second (']' :: tail)
    have comma := @skipSpaces_append [] nofun ',' rfl (' ' :: (second ++ ']' :: tail))
    rw [List.nil_append] at run skip comma
    rw [List.append_assoc, List.singleton_append] at run'
    refine ⟨_, x', _, _, y', _, ?_, run, ?_, run', skip', value, value'⟩
    · rw [whole, skipSpaces_append blank rfl]
    · rw [skip, comma]

/-- Elements of a quadratic extension are read back. -/
theorem fqText_readsBack (base : k.ReadsBack) : (fqText k).ReadsBack := by
  rintro (⟨x, y⟩ : k.Element × k.Element) ⟨canonical, canonical'⟩
  obtain ⟨text, print, -, read⟩ := base.pair canonical canonical'
  refine ⟨text, print, ?_⟩
  rintro ⟨cx, cy⟩ spaces tail blank -
  obtain ⟨cp, x', count, cp', y', count', bracket, run, comma, run', close, value, value'⟩ :=
    read (k.set0 cx) (k.set0 cy) spaces tail blank
  refine ⟨(x', y'), ?_, Prod.ext value value'⟩
  show fqSetStr k (cx, cy) _ 10 = _
  simp only [fqSetStr, bracket, run, comma, run', close]
  refine Prod.ext rfl ?_
  simp only [List.length_append]
  omega

/-- The coefficients of a polynomial extension, between the brackets. -/
private theorem polymodLoop_readsBack (base : k.ReadsBack) {n : ℕ} (coeff : Fin (n + 1) → k.Element)
    (canonical : ∀ i, k.Canonical (k.value (coeff i))) :
    ∃ text, (∀ size before first, polymodSnprintLoop k size first (snprintf before size) coeff =
        snprintf (before ++ (if first then [] else [',', ' ']) ++ text) size) ∧
      ∀ c spaces tail, (∀ x ∈ spaces, isSpace x = true) → ∃ x,
        polymodSetStrLoop k 10 c (spaces ++ text ++ ']' :: tail) = (x, some (']' :: tail)) ∧
          ∀ i, k.value (x i) = k.value (coeff i) := by
  induction n with
  | zero =>
    obtain ⟨text, print, read⟩ := base (coeff 0) (canonical 0)
    refine ⟨text, fun size before first => ?_, fun c spaces tail blank => ?_⟩
    · cases first <;> simp [polymodSnprintLoop, print, clipSub_snprintf]
    · obtain ⟨x, run, value⟩ := read (c ⟨0, Nat.succ_pos _⟩) spaces (']' :: tail) blank (stops_bracket tail)
      have skip := @drop_text spaces text (']' :: tail)
      have solid := @skipSpaces_append [] nofun ']' rfl tail
      rw [← List.append_assoc] at skip
      rw [List.nil_append] at solid
      refine ⟨Fin.cons x (Fin.tail c), ?_, fun i => ?_⟩
      · simp only [polymodSetStrLoop, run, skip, solid, if_true]
      · cases i using Fin.cases with
        | zero => exact value
        | succ i => exact i.elim0
  | succ n ih =>
    obtain ⟨text, print, read⟩ := base (coeff 0) (canonical 0)
    obtain ⟨text', print', read'⟩ := ih (Fin.tail coeff) fun i => canonical i.succ
    refine ⟨text ++ [',', ' '] ++ text', fun size before first => ?_, fun c spaces tail blank => ?_⟩
    · rw [polymodSnprintLoop]
      cases first <;> simp [print, print', clipSub_snprintf]
    · obtain ⟨x, run, value⟩ := read (c ⟨0, Nat.succ_pos _⟩) spaces (',' :: ' ' :: (text' ++ ']' :: tail)) blank
        (stops_comma _)
      obtain ⟨y, run', values⟩ := read' (Fin.tail c) [' '] tail (by simp [isSpace])
      have skip := @drop_text spaces text (',' :: ' ' :: (text' ++ ']' :: tail))
      have comma := @skipSpaces_append [] nofun ',' rfl (' ' :: (text' ++ ']' :: tail))
      have whole : spaces ++ (text ++ [',', ' '] ++ text') ++ ']' :: tail =
          spaces ++ text ++ ',' :: ' ' :: (text' ++ ']' :: tail) := by simp
      rw [← List.append_assoc] at skip
      rw [List.nil_append] at comma
      rw [List.append_assoc, List.singleton_append] at run'
      refine ⟨Fin.cons x y, ?_, fun i => ?_⟩
      · rw [whole, polymodSetStrLoop]
        simp only [run, skip, comma, Nat.succ_ne_zero, if_false, run']
      · cases i using Fin.cases with
        | zero => exact value
        | succ i => exact values i

/-- Elements of a polynomial extension are read back. -/
theorem polymodText_readsBack (base : k.ReadsBack) (n : ℕ) : (polymodText k n).ReadsBack := by
  intro (coeff : Fin n → k.Element) canonical
  have inner : ∃ text, (∀ size, polymodSnprintLoop k size true (snprintf ['['] size) coeff =
      snprintf ('[' :: text) size) ∧ ∀ c tail, ∃ x,
        polymodSetStrLoop k 10 c (text ++ ']' :: tail) = (x, some (']' :: tail)) ∧
          ∀ i, k.value (x i) = k.value (coeff i) := by
    cases n with
    | zero => exact ⟨[], fun size => rfl, fun c tail => ⟨c, rfl, fun i => i.elim0⟩⟩
    | succ n =>
      obtain ⟨text, print, read⟩ := polymodLoop_readsBack base coeff canonical
      exact ⟨text, fun size => print size ['['] true, fun c tail => read c [] tail nofun⟩
  obtain ⟨text, print, read⟩ := inner
  refine ⟨'[' :: text ++ [']'], fun size => ?_, fun c spaces tail blank _ => ?_⟩
  · show polymodSnprint k size coeff = _
    simp only [polymodSnprint, print, clipSub_snprintf]
  · obtain ⟨x, run, values⟩ := read (fun i => k.set0 (c i)) tail
    have whole : spaces ++ ('[' :: text ++ [']']) ++ tail =
        spaces ++ '[' :: (text ++ ']' :: tail) := by simp
    refine ⟨x, ?_, funext values⟩
    show polymodSetStr k c _ 10 = _
    rw [whole]
    simp only [polymodSetStr, skipSpaces_append blank (c := '[') rfl, run]
    refine Prod.ext rfl ?_
    simp only [List.length_append, List.length_cons, List.length_nil]
    omega

end Values

end Pbc.Arith
