import Pbc.Calc.LexerTokens
import Pbc.Calc.Sentences

/-!
# The spelling of a line

How tokens are spelled: with blanks and comments in front of each of them, as long as the words
fit into the buffer. The lexer shows the tokens that a text spells and no others, and so the
parser that calls it ends a line with the tree of the sentence that the line spells.
-/

open Pbc.Misc

namespace Pbc.Calc

section Gaps

/-- Blanks and whole comments. -/
inductive Gap : List UInt8 → Prop where
  | nil : Gap []
  | blank {c gap} (blank : isBlank c = true) (more : Gap gap) : Gap (c :: gap)
  | comment {cs gap} (line : newline ∉ cs) (more : Gap gap) :
      Gap ('#'.toUInt8 :: cs ++ newline :: gap)

/-- The end of a text, where the last comment need not end. -/
inductive Trailing : List UInt8 → Prop where
  | gap {text} (between : Gap text) : Trailing text
  | comment {gap cs} (between : Gap gap) (line : newline ∉ cs) : Trailing (gap ++ '#'.toUInt8 :: cs)

theorem skip_blank {c : UInt8} (blank : isBlank c = true) (cs : List UInt8) :
    skip false (c :: cs) = skip false cs := by
  rw [skip, if_pos blank]

theorem skip_hash (cs : List UInt8) : skip false ('#'.toUInt8 :: cs) = skip true cs := by
  rw [skip, if_neg (by decide), if_pos rfl]

theorem skip_other {c : UInt8} (blank : isBlank c = false) (hash : c ≠ '#'.toUInt8)
    (cs : List UInt8) : skip false (c :: cs) = c :: cs := by
  rw [skip, if_neg (by simp [blank]), if_neg hash]

/-- A comment ends with its line. -/
theorem skip_comment {cs : List UInt8} (line : newline ∉ cs) (text : List UInt8) :
    skip true (cs ++ newline :: text) = skip false text := by
  induction cs with
  | nil =>
    rw [List.nil_append, skip, if_pos rfl]
  | cons c cs ih =>
    rw [List.mem_cons, not_or] at line
    rw [List.cons_append, skip, if_neg (Ne.symm line.1), ih line.2]

theorem skip_unended {cs : List UInt8} (line : newline ∉ cs) : skip true cs = [] := by
  induction cs with
  | nil => rfl
  | cons c cs ih =>
    rw [List.mem_cons, not_or] at line
    rw [skip, if_neg (Ne.symm line.1), ih line.2]

theorem Gap.skip {gap : List UInt8} (gap' : Gap gap) (text : List UInt8) :
    Calc.skip false (gap ++ text) = Calc.skip false text := by
  induction gap' with
  | nil => rfl
  | blank blank _ ih => rw [List.cons_append, skip_blank blank, ih]
  | comment line _ ih =>
    rw [List.cons_append, List.cons_append, List.append_assoc, skip_hash, List.cons_append,
      skip_comment line, ih]

theorem Trailing.skip {text : List UInt8} (trailing : Trailing text) :
    Calc.skip false text = [] := by
  cases trailing with
  | gap gap =>
    have ends := gap.skip []
    rwa [List.append_nil] at ends
  | comment gap line => rw [gap.skip, skip_hash, skip_unended line]

/-- A text ends behind a gap, or shows a character of a token there. -/
theorem gap_cases (text : List UInt8) :
    Trailing text ∨ ∃ gap c cs, Gap gap ∧ text = gap ++ c :: cs ∧ isBlank c = false ∧
      c ≠ '#'.toUInt8 := by
  induction length : text.length using Nat.strong_induction_on generalizing text with
  | h n ih =>
    subst length
    cases text with
    | nil => exact .inl (.gap .nil)
    | cons c cs =>
      by_cases blank : isBlank c = true
      · rcases ih cs.length (Nat.lt_succ_self _) cs rfl with trailing | ⟨gap, d, ds, between, rfl, other⟩
        · cases trailing with
          | gap gap => exact .inl (.gap (.blank blank gap))
          | comment gap line => exact .inl (.comment (.blank blank gap) line)
        · exact .inr ⟨c :: gap, d, ds, .blank blank between, rfl, other⟩
      · by_cases hash : c = '#'.toUInt8
        · subst hash
          by_cases ended : newline ∈ cs
          · obtain ⟨line, rest, rfl, fresh⟩ := List.eq_append_cons_of_mem ended
            have shorter : rest.length < ('#'.toUInt8 :: (line ++ newline :: rest)).length := by
              simp only [List.length_cons, List.length_append]
              omega
            rcases ih rest.length shorter rest rfl with trailing | ⟨gap, d, ds, between, rfl, other⟩
            · cases trailing with
              | gap gap => exact .inl (.gap (.comment fresh gap))
              | @comment gap cs between line' =>
                have start := Trailing.comment (.comment fresh between) line'
                rw [List.append_assoc, List.cons_append, List.cons_append] at start
                exact .inl start
            · refine .inr ⟨_, d, ds, .comment fresh between, ?_, other⟩
              rw [List.append_assoc, List.cons_append, List.cons_append]
          · exact .inl (.comment .nil ended)
        · exact .inr ⟨[], c, cs, .nil, rfl, Bool.eq_false_iff.2 blank, hash⟩

end Gaps

section Tokens

/-- A string behind its quotation mark: the text and the lines that it stands in, its characters,
and what is left behind it. Each line that it ends adds a newline, and none that it goes on to is
empty. -/
inductive Quoted :
    List UInt8 → List InputLine → List UInt8 → List UInt8 → List InputLine → Prop where
  | close {w rest lines} (inside : quote ∉ w) : Quoted (w ++ quote :: rest) lines w rest lines
  | cross {w line lines w' rest lines'} (inside : quote ∉ w) (some : line.val ≠ [])
      (more : Quoted line.val lines w' rest lines') :
      Quoted w (line :: lines) (w ++ newline :: w') rest lines'

/-- The characters that are tokens of their own. A line has no null. -/
structure Single (c : UInt8) : Prop where
  blank : isBlank c = false
  hash : c ≠ '#'.toUInt8
  quote : c ≠ Calc.quote
  digit : isDigit c = false
  letter : isLetter c = false

/-- A token as it is spelled at the head of a text, with what is left behind it. A word ends where
a character does not belong to it. -/
inductive TokenText :
    List UInt8 → List InputLine → Token → List UInt8 → List InputLine → Prop where
  | id {c w rest lines} (first : isLetter c = true) (inside : ∀ d ∈ w, isIdentifier d = true)
      (apart : ∀ d ∈ rest.head?, isIdentifier d = false) (fits : w.length < 1023) :
      TokenText (c :: w ++ rest) lines (.id (bytesText (c :: w))) rest lines
  | int {c w rest lines} (first : isDigit c = true) (inside : ∀ d ∈ w, isDigit d = true)
      (apart : ∀ d ∈ rest.head?, isDigit d = false) (fits : w.length < 1023) :
      TokenText (c :: w ++ rest) lines (.int (bytesText (c :: w))) rest lines
  | string {cs lines w rest lines'} (quoted : Quoted cs lines w rest lines')
      (fits : w.length ≤ 1023) : TokenText (quote :: cs) lines (.string (bytesText w)) rest lines'
  | symbol {c rest lines token} (single : Single c)
      (reads : (symbol c).token (bytesText []) = some token) : TokenText (c :: rest) lines token rest lines

/-- What the lexer finds in front of a token. -/
structure Scanned.Finds (t : Scanned) (token : Token) (rest : List UInt8) (lines : List InputLine) :
    Prop where
  fits : t.Fits
  token : t.tokType.token (bytesText t.word) = some token
  rest : t.rest = some rest
  lines : t.lines = lines

variable {cs rest w : List UInt8} {lines lines' : List InputLine} {token : Token} {c : UInt8}

theorem letter_other (letter : isLetter c = true) :
    isBlank c = false ∧ c ≠ '#'.toUInt8 ∧ c ≠ quote ∧ isDigit c = false := by
  simp only [isLetter, Bool.or_eq_true, Bool.and_eq_true, decide_eq_true_eq,
    UInt8.le_iff_toNat_le, ← UInt8.toNat_inj] at letter
  simp only [isBlank, isDigit, quote, Bool.or_eq_false_iff, Bool.and_eq_false_iff,
    decide_eq_false_iff_not, UInt8.le_iff_toNat_le, ← UInt8.toNat_inj, ne_eq]
  change ((97 ≤ c.toNat ∧ c.toNat ≤ 122) ∨ 65 ≤ c.toNat ∧ c.toNat ≤ 90) ∨ c.toNat = 95 at letter
  change (((¬c.toNat = 32 ∧ ¬c.toNat = 9) ∧ ¬c.toNat = 13) ∧ ¬c.toNat = 10) ∧ ¬c.toNat = 35 ∧
    ¬c.toNat = 34 ∧ (¬48 ≤ c.toNat ∨ ¬c.toNat ≤ 57)
  omega

theorem digit_other (digit : isDigit c = true) :
    isBlank c = false ∧ c ≠ '#'.toUInt8 ∧ c ≠ quote := by
  simp only [isDigit, Bool.and_eq_true, decide_eq_true_eq, UInt8.le_iff_toNat_le] at digit
  simp only [isBlank, quote, Bool.or_eq_false_iff, decide_eq_false_iff_not,
    ← UInt8.toNat_inj, ne_eq]
  change 48 ≤ c.toNat ∧ c.toNat ≤ 57 at digit
  change (((¬c.toNat = 32 ∧ ¬c.toNat = 9) ∧ ¬c.toNat = 13) ∧ ¬c.toNat = 10) ∧ ¬c.toNat = 35 ∧
    ¬c.toNat = 34
  omega

theorem takeWhile_word {p : UInt8 → Bool} (inside : ∀ d ∈ w, p d = true)
    (apart : ∀ d ∈ rest.head?, p d = false) :
    (w ++ rest).takeWhile p = w ∧ (w ++ rest).dropWhile p = rest := by
  rw [List.takeWhile_append_of_pos inside, List.dropWhile_append_of_pos inside]
  cases rest with
  | nil => simp
  | cons d rest =>
    have ends : ¬p d = true := by simpa using apart d rfl
    rw [List.takeWhile_cons_of_neg ends, List.dropWhile_cons_of_neg ends, List.append_nil]
    exact ⟨rfl, rfl⟩

/-- A word fits into the buffer with its first character. -/
theorem word_fits : ([] : List UInt8).length + (c :: w).length ≤ 1023 ↔ w.length < 1023 := by
  rw [List.length_nil, Nat.zero_add, List.length_cons, Nat.add_one_le_iff]

/-- The character behind a word. -/
theorem apart_cons {p : UInt8 → Bool} (other : p c = false) :
    ∀ d ∈ (c :: rest).head?, p d = false := by
  intro d head
  cases head
  exact other

theorem dropWhile_head {p : UInt8 → Bool} (cs : List UInt8) :
    ∀ d ∈ (cs.dropWhile p).head?, p d = false := by
  intro d head
  have := List.head?_dropWhile_not p cs
  rw [Option.mem_def.1 head] at this
  simpa using this

theorem untilQuote_append (inside : quote ∉ w) :
    untilQuote (w ++ quote :: rest) = w ∧ behindQuote (w ++ quote :: rest) = rest := by
  have inside' : ∀ d ∈ w, (d != quote) = true := by
    intro d member
    rw [bne_iff_ne]
    rintro rfl
    exact inside member
  have ends : ∀ d ∈ (quote :: rest).head?, (d != quote) = false := by simp
  obtain ⟨taken, dropped⟩ := takeWhile_word inside' ends
  exact ⟨taken, by rw [behindQuote, dropped, List.tail_cons]⟩

theorem quote_split (closed : quote ∈ cs) : cs = untilQuote cs ++ quote :: behindQuote cs := by
  obtain ⟨w, rest, rfl, inside⟩ := List.eq_append_cons_of_mem closed
  obtain ⟨taken, dropped⟩ := @untilQuote_append rest w inside
  rw [taken, dropped]

theorem quote_notMem_untilQuote (cs : List UInt8) : quote ∉ untilQuote cs := by
  intro member
  have other := List.all_eq_true.1 List.all_takeWhile _ member
  simp at other

theorem literal_closed (closed : quote ∈ cs) (lines : List InputLine) :
    literal cs lines = ⟨.string, untilQuote cs, some (behindQuote cs), lines, []⟩ := by
  cases lines with
  | nil => rw [literal_last, if_pos closed]
  | cons line lines => rw [literal_line, if_pos closed]

theorem literal_open (inside : quote ∉ cs) (line : InputLine) (lines : List InputLine) :
    literal cs (line :: lines) = { literal line.val lines with
      word := cs ++ newline :: (literal line.val lines).word
      crossed := line :: (literal line.val lines).crossed } := by
  rw [literal_line, if_neg inside]

/-- A string is read if and only if it is closed in front of the next empty line. -/
theorem quoted_iff : Quoted cs lines w rest lines' ↔
    (literal cs lines).word = w ∧ (literal cs lines).rest = some rest ∧
      (literal cs lines).lines = lines' ∧ ∀ line ∈ (literal cs lines).crossed, line.val ≠ [] := by
  constructor
  · intro quoted
    induction quoted with
    | close inside =>
      obtain ⟨taken, left⟩ := untilQuote_append inside
      rw [literal_closed (by simp), taken, left]
      exact ⟨rfl, rfl, rfl, nofun⟩
    | cross inside some _ ih =>
      obtain ⟨word, rest, lines, crossed⟩ := ih
      rw [literal_open inside]
      exact ⟨by rw [word], rest, lines, List.forall_mem_cons.2 ⟨some, crossed⟩⟩
  · induction lines generalizing cs w with
    | nil =>
      by_cases closed : quote ∈ cs
      · rw [literal_closed closed]
        rintro ⟨rfl, left, rfl, -⟩
        cases left
        have quoted := @Quoted.close (untilQuote cs) (behindQuote cs) [] (quote_notMem_untilQuote cs)
        rwa [← quote_split closed] at quoted
      · rw [literal_last, if_neg closed]
        rintro ⟨-, left, -⟩
        cases left
    | cons line lines ih =>
      by_cases closed : quote ∈ cs
      · rw [literal_closed closed]
        rintro ⟨rfl, left, rfl, -⟩
        cases left
        have quoted := @Quoted.close (untilQuote cs) (behindQuote cs) (line :: lines)
          (quote_notMem_untilQuote cs)
        rwa [← quote_split closed] at quoted
      · rw [literal_open closed]
        rintro ⟨rfl, left, lines, crossed⟩
        obtain ⟨some, crossed⟩ := List.forall_mem_cons.1 crossed
        exact .cross closed some (ih ⟨rfl, left, lines, crossed⟩)

/-- The lexer finds a token in front of what is left behind it. -/
theorem scan_of_tokenText {text : List UInt8} (head : TokenText text lines token rest lines')
    {gap : List UInt8} (between : Gap gap) :
    (scan (gap ++ text) lines).Finds token rest lines' := by
  rw [scan, between.skip]
  cases head with
  | @id c w _ _ first inside apart fits =>
    obtain ⟨blank, hash, noQuote, digit⟩ := letter_other first
    obtain ⟨taken, left⟩ := takeWhile_word inside apart
    rw [List.cons_append, skip_other blank hash]
    dsimp only
    rw [if_neg noQuote, if_neg (Bool.eq_false_iff.1 digit), if_pos first, taken, left]
    exact ⟨⟨word_fits.2 fits, List.forall_mem_nil _⟩, rfl, rfl, rfl⟩
  | @int c w _ _ first inside apart fits =>
    obtain ⟨blank, hash, noQuote⟩ := digit_other first
    obtain ⟨taken, left⟩ := takeWhile_word inside apart
    rw [List.cons_append, skip_other blank hash]
    dsimp only
    rw [if_neg noQuote, if_pos first, taken, left]
    exact ⟨⟨word_fits.2 fits, List.forall_mem_nil _⟩, rfl, rfl, rfl⟩
  | @string cs _ w _ _ quoted fits =>
    obtain ⟨word, rest, lines, crossed⟩ := quoted_iff.1 quoted
    rw [skip_other (by decide) (by decide)]
    dsimp only
    rw [if_pos rfl]
    refine ⟨⟨?_, crossed⟩, ?_, rest, lines⟩
    · rw [word, List.length_nil, Nat.zero_add]
      exact fits
    · rw [word, literal_tokType]
      rfl
  | symbol single reads =>
    rw [skip_other single.blank single.hash]
    dsimp only
    rw [if_neg single.quote, if_neg (Bool.eq_false_iff.1 single.digit),
      if_neg (Bool.eq_false_iff.1 single.letter)]
    exact ⟨⟨Nat.zero_le _, List.forall_mem_nil _⟩, reads, rfl, rfl⟩

/-- A token that the lexer finds is spelled there. -/
theorem tokenText_of_scan (blank : isBlank c = false) (hash : c ≠ '#'.toUInt8)
    (finds : (scan (c :: cs) lines).Finds token rest lines') :
    TokenText (c :: cs) lines token rest lines' := by
  rw [scan, skip_other blank hash] at finds
  dsimp only at finds
  obtain ⟨⟨fits, crossed⟩, reads, left, same⟩ := finds
  by_cases isQuote : c = quote
  · rw [if_pos isQuote] at fits crossed reads left same
    rw [literal_tokType] at reads
    cases reads
    rw [isQuote]
    refine .string (quoted_iff.2 ⟨rfl, left, same, crossed⟩) ?_
    simpa using fits
  rw [if_neg isQuote] at fits crossed reads left same
  by_cases digit : isDigit c = true
  · rw [if_pos digit] at fits crossed reads left same
    cases reads
    cases left
    cases same
    have head := @TokenText.int c (cs.takeWhile isDigit) (cs.dropWhile isDigit) lines digit
      (fun d member => List.all_eq_true.1 List.all_takeWhile d member) (dropWhile_head cs)
      (word_fits.1 fits)
    rwa [List.cons_append, List.takeWhile_append_dropWhile] at head
  rw [if_neg digit] at fits crossed reads left same
  by_cases letter : isLetter c = true
  · rw [if_pos letter] at fits crossed reads left same
    cases reads
    cases left
    cases same
    have head := @TokenText.id c (cs.takeWhile isIdentifier) (cs.dropWhile isIdentifier) lines letter
      (fun d member => List.all_eq_true.1 List.all_takeWhile d member) (dropWhile_head cs)
      (word_fits.1 fits)
    rwa [List.cons_append, List.takeWhile_append_dropWhile] at head
  rw [if_neg letter] at fits crossed reads left same
  cases left
  cases same
  exact .symbol ⟨blank, hash, isQuote, Bool.eq_false_iff.2 digit, Bool.eq_false_iff.2 letter⟩ reads

/-- A text that spells some tokens, one behind the other. -/
inductive Spelling : List UInt8 → List InputLine → List Token → Prop where
  | nil {text lines} (trailing : Trailing text) : Spelling text lines []
  | cons {gap text lines token rest lines' tokens} (between : Gap gap)
      (head : TokenText text lines token rest lines') (tail : Spelling rest lines' tokens) :
      Spelling (gap ++ text) lines (token :: tokens)

/-- The lexer shows exactly the tokens that a text spells. -/
theorem shows_iff_spelling {text : List UInt8} {tokens : List Token} :
    Shows text lines tokens ↔ Spelling text lines tokens := by
  constructor
  · intro shows
    induction shows with
    | @nil text lines ends =>
      rcases gap_cases text with trailing | ⟨gap, c, cs, between, rfl, blank, hash⟩
      · exact .nil trailing
      · rw [scan, between.skip, skip_other blank hash] at ends
        dsimp only at ends
        split_ifs at ends
        · rw [literal_tokType] at ends
          cases ends
        · exact absurd ends (symbol_ne_none c)
    | @cons text lines token rest tokens fits head left _ ih =>
      rcases gap_cases text with trailing | ⟨gap, c, cs, between, rfl, blank, hash⟩
      · rw [scan, trailing.skip] at head
        cases head
      · have same : scan (gap ++ c :: cs) lines = scan (c :: cs) lines := by
          rw [scan, between.skip]
          rfl
        rw [same] at fits head left ih
        exact .cons between (tokenText_of_scan blank hash ⟨fits, head, left, rfl⟩) ih
  · intro spelling
    induction spelling with
    | nil trailing =>
      refine .nil ?_
      rw [scan, trailing.skip]
    | cons between head _ ih =>
      obtain ⟨fits, reads, left, same⟩ := scan_of_tokenText head between
      refine .cons fits reads left ?_
      rwa [same]

end Tokens

section Lines

variable {s : Lexer} {text : List UInt8} {tokens : List Token} {t : Tree}
  {err err' : Option ParseError} {fuel : ℕ}

/-- The parser comes to the end of a line with a tree exactly for the sentences with that tree. -/
theorem parseInput_sentence_iff (whole : t.Whole) :
    (∃ err', Ends (parseInput · ⟨tokens, err⟩) (.tree t, ⟨[], err'⟩)) ↔ Sentence tokens t := by
  constructor
  · rintro ⟨err', k, run⟩
    cases tokens with
    | nil => cases run k le_rfl
    | cons x rest =>
      obtain ⟨⟨t', r'⟩, first, second⟩ := bind_eq_ok.mp (run k le_rfl)
      dsimp only at second
      split_ifs at second with null
      · cases second
      · cases second
        obtain ⟨e, phrase, t', split, derives, -⟩ := ((parse_sound k).set first).derives whole
        obtain rfl : x :: rest = phrase := split.trans (List.append_nil phrase)
        have sentence : Sentence (x :: rest) t' := ⟨e, derives⟩
        cases Ends.unique (parseInput_of_sentence sentence) ⟨k, run⟩
        exact sentence
  · exact fun sentence => ⟨err, parseInput_of_sentence sentence⟩

namespace Lexer

theorem report_eq_tree (some' : t.isNull = false) {o : Option Tree} :
    report o err = .tree t ↔ o = some t := by
  cases o with
  | none => exact ⟨nofun, nofun⟩
  | some t' =>
    rw [report, Option.elim_some, Option.some_inj]
    constructor
    · intro same
      split_ifs at same
      cases same
      rfl
    · rintro rfl
      rw [some']
      rfl

/-- On a spelling of some tokens the parser comes to the end of the line with a tree exactly where
it does on the tokens. -/
theorem parseline_tree_iff (reads : s.ahead = some text) (spelling : Spelling text s.input tokens)
    (whole : t.Whole) :
    (∃ s', (Caller.parseline fuel).run handle (s, err) = .ok (some t, (s', err')) ∧
      s'.tokType = .none) ↔ parseInput fuel ⟨tokens, err⟩ = .ok (.tree t, ⟨[], err'⟩) := by
  have simulates := parseline_simulates reads (shows_iff_spelling.2 spelling) err fuel
  constructor
  · rintro ⟨s', run, ends⟩
    rw [run] at simulates
    change Simulates _ _ (.ok (report (some t) err', (s', err'))) _ at simulates
    rw [(report_eq_tree whole.isNull).2 rfl] at simulates
    generalize parseInput fuel ⟨tokens, err⟩ = out at simulates ⊢
    cases simulates with
    | @ok _ _ r holds =>
      obtain ⟨_, _, -, stands, same⟩ := holds
      obtain ⟨tokens, _⟩ := r
      obtain rfl : err' = _ := same
      have none := stands.tokType.symm.trans ends
      cases tokens with
      | nil => rfl
      | cons token => exact absurd none token.type_ne_none
  · intro run
    rw [run] at simulates
    cases result : (Caller.parseline fuel).run handle (s, err) with
    | error fault =>
      rw [result] at simulates
      cases simulates
    | ok out =>
      obtain ⟨o, s', err''⟩ := out
      rw [result] at simulates
      generalize same : report o err'' = line at simulates
      change Simulates _ _ (.ok (report o err'', (s', err''))) _ at simulates
      rw [same] at simulates
      cases simulates with
      | ok _ holds =>
        obtain ⟨_, _, -, stands, errs⟩ := holds
        obtain rfl := (report_eq_tree whole.isNull).1 same
        obtain rfl : err'' = err' := errs
        exact ⟨s', rfl, stands.tokType⟩

/-- On a line that spells some tokens, however it is laid out, the parser comes to the end with a
tree exactly for the sentences with that tree. -/
theorem parseline_spelling_iff (reads : s.ahead = some text)
    (spelling : Spelling text s.input tokens) (whole : t.Whole) (err : Option ParseError) :
    (∃ err' k, ∀ fuel, k ≤ fuel → ∃ s',
      (Caller.parseline fuel).run handle (s, err) = .ok (some t, (s', err')) ∧
        s'.tokType = .none) ↔ Sentence tokens t := by
  rw [← @parseInput_sentence_iff tokens t err whole]
  exact exists_congr fun err' => exists_congr fun k => forall₂_congr fun fuel _ =>
    parseline_tree_iff reads spelling whole

/-- The lexer in front of a line. -/
private def inFrontOf (line : InputLine) : Lexer :=
  ⟨[], 1, some ⟨0, line⟩, some ⟨0, 0⟩, .none, (Calculator.init []).lexer.word⟩

/-- The line `x =-12*y#`. -/
private def productLine : InputLine := ⟨[120, 32, 61, 45, 49, 50, 42, 121, 35], by decide⟩

private theorem productLine_spelling : Spelling productLine.val []
    [.id "x", .set, .sub, .int "12", .mul, .id "y"] := by
  have x : TokenText (120 :: [] ++ [32, 61, 45, 49, 50, 42, 121, 35]) [] (.id "x")
      [32, 61, 45, 49, 50, 42, 121, 35] [] := .id rfl (List.forall_mem_nil _) (apart_cons rfl) (by simp)
  have twelve : TokenText (49 :: [50] ++ [42, 121, 35]) [] (.int "12") [42, 121, 35] [] :=
    .int rfl (List.forall_mem_singleton.2 rfl) (apart_cons rfl) (by decide)
  have y : TokenText (121 :: [] ++ [35]) [] (.id "y") [35] [] :=
    .id rfl (List.forall_mem_nil _) (apart_cons rfl) (by simp)
  have symbol {c : UInt8} {rest : List UInt8} {token : Token} (single : Single c)
      (reads : (symbol c).token (bytesText []) = some token) :
      TokenText (c :: rest) [] token rest [] := .symbol single reads
  refine .cons .nil x ?_
  refine .cons (.blank rfl .nil) (symbol ⟨by decide, by decide, by decide, by decide, by decide⟩ rfl) ?_
  refine .cons .nil (symbol ⟨by decide, by decide, by decide, by decide, by decide⟩ rfl) ?_
  refine .cons .nil twelve ?_
  refine .cons .nil (symbol ⟨by decide, by decide, by decide, by decide, by decide⟩ rfl) ?_
  exact .cons .nil y (.nil (.comment .nil (by simp)))

/-- The line gives the product of minus twelve and `y`, assigned to `x`. -/
theorem parseline_spelling_product :
    ∃ err' k, ∀ fuel, k ≤ fuel → ∃ s',
      (Caller.parseline fuel).run handle (inFrontOf productLine, none) = .ok
        (some (.set (.id "x") (.function "mul" [.function "neg" [.int "12"], .id "y"])), (s', err')) ∧
        s'.tokType = .none := by
  have reads : (inFrontOf productLine).ahead = some productLine.val := rfl
  have negated : Derives (.chain .term) false [.sub, .int "12"] (.function "neg" [.int "12"]) :=
    .operand (.neg (.base (.int "12")))
  have product : Derives (.chain .term) false [.sub, .int "12", .mul, .id "y"]
      (.function "mul" [.function "neg" [.int "12"], .id "y"]) :=
    .operator rfl negated (.base (.id "y"))
  have sentence : Sentence [.id "x", .set, .sub, .int "12", .mul, .id "y"]
      (.set (.id "x") (.function "mul" [.function "neg" [.int "12"], .id "y"])) :=
    ⟨false, .assign (.operand (.operand (.base (.id "x")))) (.value (.operand product))⟩
  obtain ⟨e, phrase⟩ := sentence
  exact (parseline_spelling_iff reads productLine_spelling phrase.whole none).2 ⟨e, phrase⟩

end Lexer

end Lines

end Pbc.Calc
