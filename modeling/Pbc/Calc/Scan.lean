import Pbc.Calc.Lexer

/-!
# What the lexer reads

The token that stands at the head of the text: of what is left of the current line and the lines
to come. `lex` reads that token, and stays in bounds if and only if the text of the token fits into
the buffer and no string goes on to an empty line.
-/

open Pbc.Misc

namespace Pbc.Calc

section Text

/-- What is left of a line behind blanks and comments; the flag stands for a comment. -/
def skip : Bool → List UInt8 → List UInt8
  | _, [] => []
  | false, c :: cs =>
      if isBlank c then skip false cs else if c = '#'.toUInt8 then skip true cs else c :: cs
  | true, c :: cs => if c = newline then skip false cs else skip true cs

theorem skip_suffix (comment : Bool) (text : List UInt8) : skip comment text <:+ text := by
  induction text generalizing comment with
  | nil =>
    cases comment with
    | false => exact List.suffix_rfl
    | true => exact List.suffix_rfl
  | cons c cs ih =>
    cases comment with
    | false =>
      rw [skip]
      split
      · exact (ih false).trans (List.suffix_cons c cs)
      · split
        · exact (ih true).trans (List.suffix_cons c cs)
        · exact List.suffix_rfl
    | true =>
      rw [skip]
      split
      · exact (ih false).trans (List.suffix_cons c cs)
      · exact (ih true).trans (List.suffix_cons c cs)

/-- The kinds of tokens whose characters are written into the buffer. -/
def TokType.HasWord : TokType → Prop
  | .id | .int | .string => True
  | _ => False

theorem symbol_not_hasWord (c : UInt8) : ¬(symbol c).HasWord := by
  rw [symbol]
  repeat' apply iteInduction (motive := fun t : TokType => ¬t.HasWord) <;> intro
  all_goals exact id

theorem symbol_ne_none (c : UInt8) : symbol c ≠ .none := by
  rw [symbol]
  repeat' apply iteInduction (motive := fun t : TokType => t ≠ .none) <;> intro
  all_goals nofun

/-- A token as it stands in the text: its characters if it is an identifier, a number or a string,
the rest of the line behind it unless the line is read or gone, the lines to come, and those that
it went on to. -/
structure Scanned where
  tokType : TokType
  word : List UInt8
  rest : Option (List UInt8)
  lines : List InputLine
  crossed : List InputLine

/-- A token with one more character in front. -/
def Scanned.push (c : UInt8) (t : Scanned) : Scanned := { t with word := c :: t.word }

/-- A token that goes on to a line. -/
def Scanned.cross (line : InputLine) (t : Scanned) : Scanned :=
  { t with crossed := line :: t.crossed }

/-- The characters of a line up to a quotation mark. -/
def untilQuote (cs : List UInt8) : List UInt8 := cs.takeWhile fun c => c != quote

/-- Those behind it. -/
def behindQuote (cs : List UInt8) : List UInt8 := (cs.dropWhile fun c => c != quote).tail

/-- The string that a text starts with behind a quotation mark. Every end of a line adds a
newline, and the end of the input cuts it off. -/
def literal (cs : List UInt8) : List InputLine → Scanned
  | [] =>
      if quote ∈ cs then ⟨.string, untilQuote cs, some (behindQuote cs), [], []⟩
      else ⟨.string, cs ++ [newline], none, [], []⟩
  | line :: lines =>
      if quote ∈ cs then ⟨.string, untilQuote cs, some (behindQuote cs), line :: lines, []⟩
      else
        let tail := literal line.val lines
        { tail with word := cs ++ newline :: tail.word, crossed := line :: tail.crossed }

/-- The token at the head of a text. -/
def scan (text : List UInt8) (lines : List InputLine) : Scanned :=
  match skip false text with
  | [] => ⟨.none, [], none, lines, []⟩
  | c :: cs =>
      if c = quote then literal cs lines
      else if isDigit c then
        ⟨.int, c :: cs.takeWhile isDigit, some (cs.dropWhile isDigit), lines, []⟩
      else if isLetter c then
        ⟨.id, c :: cs.takeWhile isIdentifier, some (cs.dropWhile isIdentifier), lines, []⟩
      else ⟨symbol c, [], some cs, lines, []⟩

/-- Behind some characters the token fits into the buffer with its terminator, and it does not go
on to an empty line. -/
structure Scanned.FitsBehind (t : Scanned) (done : List UInt8) : Prop where
  word : done.length + t.word.length ≤ 1023
  crossed : ∀ line ∈ t.crossed, line.val ≠ []

/-- The token fits into the buffer. -/
def Scanned.Fits (t : Scanned) : Prop := t.FitsBehind []

/-- A string that starts on the last line. -/
theorem literal_last (cs : List UInt8) : literal cs [] =
    if quote ∈ cs then ⟨.string, untilQuote cs, some (behindQuote cs), [], []⟩
    else ⟨.string, cs ++ [newline], none, [], []⟩ := rfl

/-- One that starts on another line. -/
theorem literal_line (cs : List UInt8) (line : InputLine) (lines : List InputLine) :
    literal cs (line :: lines) =
      if quote ∈ cs then ⟨.string, untilQuote cs, some (behindQuote cs), line :: lines, []⟩
      else { literal line.val lines with
        word := cs ++ newline :: (literal line.val lines).word
        crossed := line :: (literal line.val lines).crossed } := rfl

@[simp] theorem literal_quote (cs : List UInt8) (lines : List InputLine) :
    literal (quote :: cs) lines = ⟨.string, [], some cs, lines, []⟩ := by
  cases lines with
  | nil => simp [literal_last, untilQuote, behindQuote]
  | cons line lines => simp [literal_line, untilQuote, behindQuote]

@[simp] theorem literal_nil_nil : literal [] [] = ⟨.string, [newline], none, [], []⟩ := rfl

@[simp] theorem literal_nil_cons (line : InputLine) (lines : List InputLine) :
    literal [] (line :: lines) = ((literal line.val lines).cross line).push newline := rfl

theorem literal_cons {c : UInt8} (other : c ≠ quote) (cs : List UInt8) (lines : List InputLine) :
    literal (c :: cs) lines = (literal cs lines).push c := by
  cases lines with
  | nil =>
    by_cases closed : quote ∈ cs
    · simp [literal_last, Scanned.push, untilQuote, behindQuote, closed, other]
    · simp [literal_last, Scanned.push, closed, other.symm]
  | cons line lines =>
    by_cases closed : quote ∈ cs
    · simp [literal_line, Scanned.push, untilQuote, behindQuote, closed, other]
    · simp [literal_line, Scanned.push, closed, other.symm]

theorem literal_tokType (cs : List UInt8) (lines : List InputLine) :
    (literal cs lines).tokType = .string := by
  induction lines generalizing cs with
  | nil =>
    rw [literal_last]
    split_ifs <;> rfl
  | cons line lines ih =>
    rw [literal_line]
    split_ifs
    · rfl
    · exact ih line.val

/-- Where there is no token, nothing is written. -/
theorem scan_of_none {text : List UInt8} {lines : List InputLine}
    (ends : (scan text lines).tokType = .none) : (scan text lines).Fits := by
  rw [scan] at ends ⊢
  cases found : skip false text with
  | nil => exact ⟨Nat.zero_le _, nofun⟩
  | cons c cs =>
    rw [found] at ends
    dsimp only at ends
    split_ifs at ends with isQuote
    · rw [literal_tokType] at ends
      cases ends
    · exact absurd ends (symbol_ne_none c)

/-- No token has a null among its characters. -/
theorem zero_notMem_literal {cs : List UInt8} (pure : 0 ∉ cs) (lines : List InputLine) :
    0 ∉ (literal cs lines).word := by
  have until' {cs : List UInt8} (pure : 0 ∉ cs) : 0 ∉ untilQuote cs :=
    fun member => pure (List.takeWhile_subset _ member)
  induction lines generalizing cs with
  | nil =>
    rw [literal_last]
    split_ifs
    · exact until' pure
    · exact List.not_mem_append pure (by decide)
  | cons line lines ih =>
    rw [literal_line]
    split_ifs
    · exact until' pure
    · refine List.not_mem_append pure (List.not_mem_cons_of_ne_of_not_mem (by decide) ?_)
      exact ih line.property

theorem zero_notMem_scan {text : List UInt8} (pure : 0 ∉ text) (lines : List InputLine) :
    0 ∉ (scan text lines).word := by
  rw [scan]
  cases found : skip false text with
  | nil => exact List.not_mem_nil
  | cons c cs =>
    have suffix := (skip_suffix false text).subset
    rw [found] at suffix
    have pure' : 0 ∉ c :: cs := fun member => pure (suffix member)
    rw [List.mem_cons, not_or] at pure'
    obtain ⟨other, tail⟩ := pure'
    have run (inside : UInt8 → Bool) : 0 ∉ c :: cs.takeWhile inside :=
      List.not_mem_cons_of_ne_of_not_mem other fun member => tail (List.takeWhile_subset _ member)
    dsimp only
    split_ifs
    · exact zero_notMem_literal tail lines
    · exact run isDigit
    · exact run isIdentifier
    · exact List.not_mem_nil

end Text

namespace Lexer

variable {s : Lexer} {c : UInt8} {cs text done : List UInt8}

/-- What is left of the live line from the pointer on. -/
def ahead (s : Lexer) : Option (List UInt8) :=
  match s.lexcp, s.currentline with
  | some p, some block =>
      if p.serial = block.serial ∧ p.offset ≤ block.line.val.length then
        some (block.line.val.drop p.offset)
      else none
  | _, _ => none

/-- What it means that some text is left. -/
theorem ahead_eq_some : s.ahead = some text ↔ ∃ serial line before, 0 ∉ before ++ text ∧
    s.currentline = some ⟨serial, line⟩ ∧ line.val = before ++ text ∧
    s.lexcp = some ⟨serial, before.length⟩ := by
  constructor
  · intro reads
    rw [ahead] at reads
    split at reads
    · next p block pointer current =>
      split at reads
      · next inside =>
        obtain ⟨serial, offset⟩ := p
        obtain ⟨serial', line⟩ := block
        obtain ⟨rfl, bound⟩ := inside
        obtain rfl := Option.some.inj reads
        refine ⟨serial, line, line.val.take offset, ?_, current, ?_, ?_⟩
        · rw [List.take_append_drop]
          exact line.property
        · rw [List.take_append_drop]
        · rw [pointer, List.length_take_of_le bound]
      · cases reads
    · cases reads
  · rintro ⟨serial, line, before, -, current, split, pointer⟩
    simp [ahead, current, pointer, split]

/-- Nothing is left of a line that was freed, and nothing is read of it. -/
theorem ahead_of_freed (freed : s.currentline = none) : s.ahead = none := by
  rw [ahead, freed]
  cases s.lexcp <;> rfl

theorem fetch_of_freed (freed : s.currentline = none) : s.fetch = .error .read := by
  rw [fetch, freed]
  cases s.lexcp <;> rfl

/-- Only the pointer differs, and it is not null. -/
structure Moved (s s' : Lexer) : Prop where
  input : s'.input = s.input
  currentline : s'.currentline = s.currentline
  tokType : s'.tokType = s.tokType
  word : s'.word = s.word
  pointer : s'.lexcp ≠ none

/-- A pointer with a text ahead is not null. -/
theorem pointer_ne_none {text : List UInt8} (reads : s.ahead = some text) : s.lexcp ≠ none := by
  obtain ⟨serial, line, before, -, -, -, pointer⟩ := ahead_eq_some.mp reads
  exact ne_of_eq_of_ne pointer (Option.some_ne_none _)

theorem Moved.refl {text : List UInt8} (reads : s.ahead = some text) : Moved s s :=
  ⟨rfl, rfl, rfl, rfl, pointer_ne_none reads⟩

theorem Moved.trans {s' s'' : Lexer} (first : Moved s s') (second : Moved s' s'') :
    Moved s s'' where
  input := second.input.trans first.input
  currentline := second.currentline.trans first.currentline
  tokType := second.tokType.trans first.tokType
  word := second.word.trans first.word
  pointer := second.pointer

/-- A character is read. -/
theorem fetch_of_cons (reads : s.ahead = some (c :: cs)) : ∃ s', s.fetch = .ok (c, s') ∧
    Moved s s' ∧ s'.ahead = some cs ∧ s'.back.ahead = some (c :: cs) := by
  obtain ⟨serial, line, before, pure, current, split, pointer⟩ := ahead_eq_some.mp reads
  refine ⟨{ s with lexcp := some ⟨serial, before.length + 1⟩ }, ?_, ?_, ?_, ?_⟩
  · simp [fetch, current, pointer, split]
  · exact ⟨rfl, rfl, rfl, rfl, nofun⟩
  · simp [ahead, current, split]
  · simp [ahead, back, current, split]

/-- So is the terminator, and nothing behind it. -/
theorem fetch_of_nil (reads : s.ahead = some []) : ∃ s', s.fetch = .ok (0, s') ∧
    Moved s s' ∧ s'.ahead = none ∧ s'.back.ahead = some [] ∧
      ∀ w, ({ s' with word := w } : Lexer).fetch = .error .read := by
  obtain ⟨serial, line, before, pure, current, split, pointer⟩ := ahead_eq_some.mp reads
  refine ⟨{ s with lexcp := some ⟨serial, before.length + 1⟩ }, ?_, ?_, ?_, ?_, ?_⟩
  · simp [fetch, current, pointer, split]
  · exact ⟨rfl, rfl, rfl, rfl, nofun⟩
  · simp [ahead, current, split]
  · simp [ahead, back, current, split]
  · simp [fetch, current, split]

/-- No line is left, and the last one is freed. -/
theorem pbcGetline_of_nil (empty : s.input = []) :
    s.pbcGetline = { s with currentline := none } := by
  rw [pbcGetline, empty]

/-- The next line, with the pointer at its start. -/
theorem pbcGetline_of_cons {line : InputLine} {lines : List InputLine}
    (more : s.input = line :: lines) : ∃ s', s.pbcGetline.start = s' ∧
      s.pbcGetline.currentline.isNone = false ∧ s'.input = lines ∧ s'.tokType = s.tokType ∧
      s'.word = s.word ∧ s'.ahead = some line.val := by
  refine ⟨_, rfl, ?_, ?_, ?_, ?_, ?_⟩ <;> rw [pbcGetline, more]
  · rfl
  · rfl
  · rfl
  · rfl
  · simp [start, ahead]

theorem zero_notMem (reads : s.ahead = some text) : 0 ∉ text := by
  obtain ⟨serial, line, before, pure, -⟩ := ahead_eq_some.mp reads
  exact fun member => pure (List.mem_append_right before member)

end Lexer

end Pbc.Calc
