import Mathlib.Data.List.TakeWhile
import Pbc.Arith.NumberText
import Pbc.Ecc.CurveBytes
import Pbc.Ecc.CurveText

/-!
# Texts that are no points

`curve_set_str` clears the flag of the point before it has looked at the text behind the first
blanks, and sets it again only where a text of the right form names a point off the curve. On
every other text it returns 0 and leaves a finite point.
-/

open Pbc.Arith

namespace Pbc.Ecc

/-- The characters that the number reader takes in a base, where it takes the base. -/
def inNumeral (base : ℤ) (c : Char) : Bool :=
  if base = 0 then inNumber strDigit 10 c
  else (2 ≤ base && base ≤ 36) && inNumber strDigit base.toNat c

/-- The texts of `O` and of pairs of coordinates, with anything behind them. -/
def PointShape (base : ℤ) (s : List Char) : Prop :=
  (∃ blanks rest, (∀ c ∈ blanks, isSpace c = true) ∧ s = blanks ++ 'O' :: rest) ∨
    ∃ blanks x blanks' y rest, (∀ c ∈ blanks ++ blanks', isSpace c = true) ∧
      (∀ c ∈ x ++ y, inNumeral base c = true) ∧
      s = blanks ++ '[' :: (x ++ (blanks' ++ ',' :: (y ++ ']' :: rest)))

/-- The test of a curve over the naive implementation. -/
def zpTest (p : ℕ) (a b : ℤ) : CurveTest ℤ where
  a := a
  b := b
  square := zpSquare p
  add := zpAdd p
  mul := zpMul p
  cmp := zpCmp

/-- `curve_set_str` of a curve over the naive implementation. -/
def zpCurveSetStr (p : ℕ) (a b : ℤ) (e : PointS ℤ) (s : List Char) (base : ℤ) : PointS ℤ × ℕ :=
  curveSetStr (zpText p) (zpTest p a b) e s base

/-- A failed parse leaves `O`, and a successful one `O` or a point of the curve, and a count
within the text. -/
def LeavesPoint (p : ℕ) (a b : ℤ) (s : List Char) (r : PointS ℤ × ℕ) : Prop :=
  (r.2 = 0 → r.1.infFlag = true) ∧ (0 < r.2 → r.1.OnCurve p a b ∧ r.2 ≤ s.length)

section Texts

/-- Where the characters of a kind end. -/
theorem dropWhile_eq_cons_iff {f : Char → Bool} {c : Char} (other : f c = false) {s cp : List Char} :
    s.dropWhile f = c :: cp ↔ ∃ front, (∀ d ∈ front, f d = true) ∧ s = front ++ c :: cp := by
  constructor
  · intro rest
    refine ⟨s.takeWhile f, ?_, ?_⟩
    · intro d member
      exact List.mem_takeWhile_imp member
    · rw [← rest, List.takeWhile_append_dropWhile]
  · rintro ⟨front, all, rfl⟩
    rw [List.dropWhile_append_of_pos all, List.dropWhile_cons_of_neg (by rw [other]; decide)]

/-- The number of characters that the reader takes. -/
theorem pbcMpzSetStr_count (s : List Char) (base : ℤ) :
    (pbcMpzSetStr s base).2 = (s.takeWhile (inNumeral base)).length := by
  have loop (b : ℕ) : (pbcMpzSetStrLoop b s 0 0).2 = (s.takeWhile (inNumber strDigit b)).length := by
    rw [pbcMpzSetStrLoop_eq, Nat.zero_add]
    rfl
  by_cases zero : base = 0
  · have kind : inNumeral base = inNumber strDigit 10 := by
      funext c
      exact if_pos zero
    rw [pbcMpzSetStr, if_pos zero, kind, loop]
  · by_cases taken : 2 ≤ base ∧ base ≤ 36
    · have kind : inNumeral base = inNumber strDigit base.toNat := by
        funext c
        simp [inNumeral, zero, taken]
      rw [pbcMpzSetStr, if_neg zero, if_neg (by omega), if_neg (by omega), kind, loop]
    · have kind : inNumeral base = fun _ => false := by
        funext c
        have outside : (decide (2 ≤ base) && decide (base ≤ 36)) = false := by
          simpa [Bool.and_eq_false_iff, imp_iff_not_or] using taken
        rw [inNumeral, if_neg zero, outside, Bool.false_and]
      have none : s.takeWhile (fun _ => false) = [] := by
        cases s with
        | nil => rfl
        | cons c s => rfl
      rw [kind, none, pbcMpzSetStr, if_neg zero]
      split
      · rfl
      · rw [if_pos (by omega)]
        rfl

/-- What the reader leaves. -/
theorem drop_pbcMpzSetStr (s : List Char) (base : ℤ) :
    s.drop (pbcMpzSetStr s base).2 = s.dropWhile (inNumeral base) := by
  have split := (List.takeWhile_append_dropWhile (p := inNumeral base) (l := s)).symm
  rw [pbcMpzSetStr_count]
  exact (congrArg (List.drop _) split).trans (List.drop_left' rfl)

/-- Blanks in front of another character, some of which the number reader has taken. -/
theorem skipSpaces_dropWhile {f : Char → Bool} {c : Char} (other : f c = false)
    (solid : isSpace c = false) {blanks : List Char} (blank : ∀ d ∈ blanks, isSpace d = true)
    (cp : List Char) : skipSpaces ((blanks ++ c :: cp).dropWhile f) = c :: cp := by
  induction blanks with
  | nil => rw [List.nil_append, List.dropWhile_cons_of_neg (by rw [other]; decide), skipSpaces,
      List.dropWhile_cons_of_neg (by rw [solid]; decide)]
  | cons d blanks ih =>
    cases taken : f d with
    | true =>
      rw [List.cons_append, List.dropWhile_cons_of_pos taken]
      exact ih fun d member => blank d (List.mem_cons_of_mem _ member)
    | false =>
      rw [List.cons_append, List.dropWhile_cons_of_neg (by rw [taken]; decide)]
      rw [← List.cons_append]
      exact skipSpaces_append blank solid cp

theorem inNumeral_comma (base : ℤ) : inNumeral base ',' = false := by
  have none (b : ℕ) : inNumber strDigit b ',' = false := rfl
  rw [inNumeral, none, none]
  simp

theorem inNumeral_bracket (base : ℤ) : inNumeral base ']' = false := by
  have none (b : ℕ) : inNumber strDigit b ']' = false := rfl
  rw [inNumeral, none, none]
  simp

/-- The steps by which the reader of points takes such a text apart. -/
theorem pointShape_iff {base : ℤ} {s : List Char} : PointShape base s ↔
    (∃ cp, skipSpaces s = 'O' :: cp) ∨
      ∃ cp cp' rest, skipSpaces s = '[' :: cp ∧
        skipSpaces (cp.dropWhile (inNumeral base)) = ',' :: cp' ∧
        cp'.dropWhile (inNumeral base) = ']' :: rest := by
  constructor
  · rintro (⟨blanks, rest, blank, rfl⟩ | ⟨blanks, x, blanks', y, rest, blank, digits, rfl⟩)
    · exact Or.inl ⟨rest, skipSpaces_append blank rfl rest⟩
    · rw [List.forall_mem_append] at blank digits
      refine Or.inr ⟨_, y ++ ']' :: rest, rest, skipSpaces_append blank.1 rfl _, ?_, ?_⟩
      · rw [List.dropWhile_append_of_pos digits.1]
        exact skipSpaces_dropWhile (inNumeral_comma base) rfl blank.2 _
      · rw [List.dropWhile_append_of_pos digits.2,
          List.dropWhile_cons_of_neg (by rw [inNumeral_bracket]; decide)]
  · rintro (⟨cp, letter⟩ | ⟨cp, cp', rest, bracket, comma, close⟩)
    · obtain ⟨blanks, blank, rfl⟩ := (dropWhile_eq_cons_iff rfl).mp letter
      exact Or.inl ⟨blanks, cp, blank, rfl⟩
    · obtain ⟨blanks, blank, rfl⟩ := (dropWhile_eq_cons_iff rfl).mp bracket
      obtain ⟨blanks', blank', left⟩ := (dropWhile_eq_cons_iff rfl).mp comma
      obtain ⟨y, digits, rfl⟩ := (dropWhile_eq_cons_iff (inNumeral_bracket base)).mp close
      refine Or.inr ⟨blanks, cp.takeWhile (inNumeral base), blanks', y, rest, ?_, ?_, ?_⟩
      · exact List.forall_mem_append.mpr ⟨blank, blank'⟩
      · refine List.forall_mem_append.mpr ⟨?_, digits⟩
        intro c member
        exact List.mem_takeWhile_imp member
      · rw [← left, List.takeWhile_append_dropWhile]

end Texts

section Values

variable {p : ℕ} {a b : ℤ}

theorem length_lt_of_dropWhile {f : Char → Bool} {c : Char} {s cp : List Char}
    (rest : s.dropWhile f = c :: cp) : cp.length < s.length := by
  have shorter : (s.dropWhile f).length ≤ s.length := (List.dropWhile_suffix f).length_le
  rw [rest, List.length_cons] at shorter
  exact shorter

/-- What `curve_set_str` leaves: `O`, or a point that passes the test and a positive count, or,
where the text is none of a point, a finite point and no count. -/
theorem zpCurveSetStr_cases (e : PointS ℤ) (s : List Char) (base : ℤ) :
    let r := zpCurveSetStr p a b e s base
    (PointShape base s ∧ r.1.infFlag = true ∧ r.2 ≤ s.length) ∨
      (PointShape base s ∧ zpCurveIsValidPoint p a b r.1 = true ∧ 0 < r.2 ∧ r.2 ≤ s.length) ∨
      ¬PointShape base s ∧ r.1.infFlag = false ∧ r.2 = 0 := by
  have reader (x : ℤ) (s : List Char) :
      (zpText p).setStr x s base = (zpSetStr p s base, (pbcMpzSetStr s base).2) := rfl
  simp only [pointShape_iff, zpCurveSetStr, curveSetStr, reader, drop_pbcMpzSetStr]
  split
  · next cp letter =>
    have shorter := length_lt_of_dropWhile letter
    exact Or.inl ⟨Or.inl ⟨cp, letter⟩, rfl, by omega⟩
  · next cp bracket =>
    have shorter := length_lt_of_dropWhile bracket
    split
    · next cp' comma =>
      have shorter' := length_lt_of_dropWhile comma
      have behind : (cp.dropWhile (inNumeral base)).length ≤ cp.length :=
        (List.dropWhile_suffix (inNumeral base)).length_le
      split
      · next rest close =>
        have shorter'' := length_lt_of_dropWhile close
        split
        · next valid =>
          refine Or.inr (Or.inl ⟨?_, valid, by omega, by omega⟩)
          exact Or.inr ⟨cp, cp', rest, bracket, comma, close⟩
        · refine Or.inl ⟨?_, rfl, Nat.zero_le _⟩
          exact Or.inr ⟨cp, cp', rest, bracket, comma, close⟩
      · next close =>
        refine Or.inr (Or.inr ⟨?_, rfl, rfl⟩)
        rintro (⟨cp₁, letter⟩ | ⟨cp₁, cp₂, rest, bracket', comma', close'⟩)
        · rw [bracket] at letter
          cases letter
        · rw [bracket] at bracket'
          cases bracket'
          rw [comma] at comma'
          cases comma'
          exact close rest close'
    · next comma =>
      refine Or.inr (Or.inr ⟨?_, rfl, rfl⟩)
      rintro (⟨cp₁, letter⟩ | ⟨cp₁, cp₂, rest, bracket', comma', -⟩)
      · rw [bracket] at letter
        cases letter
      · rw [bracket] at bracket'
        cases bracket'
        exact comma cp₂ comma'
  · next letter bracket =>
    refine Or.inr (Or.inr ⟨?_, rfl, rfl⟩)
    rintro (⟨cp, letter'⟩ | ⟨cp, cp', rest, bracket', -⟩)
    · exact letter cp letter'
    · exact bracket cp bracket'

/-- A point is left exactly by the texts of `O` and of pairs of coordinates. -/
theorem curveSetStr_leaves_iff [Fact p.Prime] (a b : ℤ) (e : PointS ℤ) (s : List Char) (base : ℤ) :
    LeavesPoint p a b s (zpCurveSetStr p a b e s base) ↔ PointShape base s := by
  rcases zpCurveSetStr_cases (p := p) (a := a) (b := b) e s base with
    ⟨shape, flag, count⟩ | ⟨shape, valid, positive, count⟩ | ⟨other, finite, none⟩
  · refine iff_of_true ?_ shape
    exact ⟨fun _ => flag, fun _ => ⟨Or.inl flag, count⟩⟩
  · refine iff_of_true ?_ shape
    exact ⟨fun none => absurd none positive.ne', fun _ => ⟨zpCurveIsValidPoint_onCurve valid, count⟩⟩
  · refine iff_of_false ?_ other
    rintro ⟨failed, -⟩
    rw [failed none] at finite
    cases finite

private local instance primeTextFive : Fact (Nat.Prime 5) := ⟨by norm_num⟩

/-- The text `[0,1]` of a point of `y^2 = x^3 + 2 x + 1` over `F_5`. -/
theorem curveSetStr_leaves_small :
    LeavesPoint 5 2 1 ['[', '0', ',', '1', ']']
      (zpCurveSetStr 5 2 1 ⟨true, 3, 3⟩ ['[', '0', ',', '1', ']'] 0) := by
  refine (curveSetStr_leaves_iff 2 1 ⟨true, 3, 3⟩ ['[', '0', ',', '1', ']'] 0).mpr ?_
  right
  refine ⟨[], ['0'], [], ['1'], [], ?_, ?_, rfl⟩
  · intro c member
    cases member
  · rintro c (_ | ⟨_, _ | ⟨_, none⟩⟩)
    · rfl
    · rfl
    · cases none

/-- The text `[0,1` has no last bracket: nothing is read, and a finite point is left. The empty
text makes a finite point of `O`, here one off the curve. -/
theorem curveSetStr_leaves_finite :
    ¬LeavesPoint 5 2 1 ['[', '0', ',', '1'] (zpCurveSetStr 5 2 1 ⟨true, 3, 0⟩ ['[', '0', ',', '1'] 0) ∧
      zpCurveSetStr 5 2 1 ⟨true, 3, 0⟩ [] 0 = (⟨false, 3, 0⟩, 0) ∧
      ¬PointS.OnCurve 5 2 1 ⟨false, 3, 0⟩ := by
  refine ⟨?_, by decide, ?_⟩
  · rintro ⟨failed, -⟩
    exact absurd (failed (by decide)) (by decide)
  · rintro (flag | equation)
    · cases flag
    · exact absurd equation (by decide)

end Values

end Pbc.Ecc
