import Pbc.Calc.Scan

/-!
# Bounds of the lexer

Every loop of the lexer stays in bounds if and only if the characters that it goes over fit, and
then leaves the pointer behind them and their copy in the buffer. So does `lex`, from any pointer
into the live line.
-/

open Pbc.Misc

namespace Pbc.Calc

namespace Lexer

/-- An operation that stays in bounds if and only if a condition holds, and then ends as told. -/
structure Bounded (x : Except LexFault Lexer) (fits : Prop) (post : Lexer → Prop) : Prop where
  ok : fits → ∃ s, x = .ok s ∧ post s
  fault : ¬fits → x = .error .read ∨ x = .error .write

section Outcomes

variable {x : Except LexFault Lexer} {fits fits' : Prop} {post post' : Lexer → Prop} {s : Lexer}
  {c : UInt8} {done : List UInt8}

theorem Bounded.congr (bounded : Bounded x fits post) (same : fits' ↔ fits)
    (ends : fits → ∀ s, post s → post' s) : Bounded x fits' post' := by
  constructor
  · intro fit
    obtain ⟨s, result, holds⟩ := bounded.ok (same.mp fit)
    exact ⟨s, result, ends (same.mp fit) s holds⟩
  · intro exceeds
    exact bounded.fault (mt same.mpr exceeds)

/-- A write behind what was written. -/
theorem put_ok (written : done <+: s.word.val) (room : done.length ≤ 1023) (c : UInt8) :
    ∃ w : WordBuffer, s.put done.length c = .ok { s with word := w } ∧ done ++ [c] <+: w.val := by
  refine ⟨_, if_pos (Nat.lt_succ_of_le room), ?_⟩
  obtain ⟨rest, split⟩ := written
  have length := s.word.property
  rw [← split, List.length_append] at length
  cases rest with
  | nil =>
    rw [List.length_nil] at length
    omega
  | cons d rest =>
    refine ⟨rest, ?_⟩
    change _ = s.word.val.set done.length c
    rw [← split, List.set_append_right _ _ (Nat.le_refl _), Nat.sub_self, List.set_cons_zero,
      List.append_assoc, List.singleton_append]

theorem put_fault {i : ℕ} (full : ¬i ≤ 1023) : s.put i c = .error .write :=
  if_neg (mt Nat.le_of_lt_succ full)

/-- A write stays in bounds as long as there is room. -/
theorem Bounded.put_bind {f : Lexer → Except LexFault Lexer} (written : done <+: s.word.val)
    (room : fits → done.length ≤ 1023)
    (next : ∀ w : WordBuffer, done ++ [c] <+: w.val → Bounded (f { s with word := w }) fits post) :
    Bounded (s.put done.length c >>= f) fits post := by
  by_cases inside : done.length ≤ 1023
  · obtain ⟨w, result, extended⟩ := put_ok written inside c
    rw [result]
    exact next w extended
  · rw [put_fault inside]
    exact ⟨fun fit => absurd (room fit) inside, fun _ => Or.inr rfl⟩

/-- The last write of a token. -/
theorem Bounded.put (written : done <+: s.word.val) (room : fits ↔ done.length ≤ 1023)
    (ends : ∀ w : WordBuffer, done ++ [c] <+: w.val → post { s with word := w }) :
    Bounded (s.put done.length c) fits post := by
  constructor
  · intro fit
    obtain ⟨w, result, extended⟩ := put_ok written (room.mp fit) c
    exact ⟨_, result, ends w extended⟩
  · intro exceeds
    exact Or.inr (put_fault (mt room.mpr exceeds))

/-- The last write and a move of the pointer. -/
theorem Bounded.put_map (g : Lexer → Lexer) (written : done <+: s.word.val)
    (room : fits ↔ done.length ≤ 1023)
    (ends : ∀ w : WordBuffer, done ++ [c] <+: w.val → post (g { s with word := w })) :
    Bounded (s.put done.length c >>= fun s => pure (g s)) fits post := by
  constructor
  · intro fit
    obtain ⟨w, result, extended⟩ := put_ok written (room.mp fit) c
    rw [result]
    exact ⟨_, rfl, ends w extended⟩
  · intro exceeds
    rw [put_fault (mt room.mpr exceeds)]
    exact Or.inr rfl

end Outcomes

theorem Moved.written {s s' : Lexer} {done : List UInt8} (moved : Moved s s')
    (written : done <+: s.word.val) : done <+: s'.word.val := by
  rwa [moved.word]

section Blanks

variable {s : Lexer} {text : List UInt8}

/-- What the lexer does at the head of its loop for blanks, and of that for comments. -/
def skipLoop (fuel : ℕ) (s : Lexer) : Bool → Except LexFault (UInt8 × Lexer)
  | false => do
      let (c, s) ← s.fetch
      skipwhitespace fuel c s
  | true => skipcomment fuel s

/-- Blanks and comments are skipped up to the head of the token, if there is one. -/
structure Skipped (s : Lexer) (found : List UInt8) (c : UInt8) (s' : Lexer) : Prop where
  moved : Moved s s'
  ended : found = [] → c = 0 ∧ s'.ahead = none
  head : ∀ d cs, found = d :: cs → c = d ∧ s'.ahead = some cs

/-- Behind one more character blanks and comments are skipped as before. -/
theorem Skipped.behind {s' s'' : Lexer} {found : List UInt8} {c : UInt8} (moved : Moved s s')
    (skipped : Skipped s' found c s'') : Skipped s found c s'' :=
  ⟨moved.trans skipped.moved, skipped.ended, skipped.head⟩

/-- Both loops skip a text up to the head of its token. -/
def Skips (text : List UInt8) : Prop :=
  ∀ {s : Lexer} {fuel : ℕ} (comment : Bool), s.ahead = some text → 2 * text.length + 1 ≤ fuel →
    ∃ c s', skipLoop fuel s comment = .ok (c, s') ∧ Skipped s (skip comment text) c s'

theorem skips_nil : Skips [] := by
  intro s fuel comment reads enough
  obtain ⟨s', fetched, moved, ended, -⟩ := fetch_of_nil reads
  obtain ⟨fuel, rfl⟩ := Nat.exists_eq_add_of_le' (Nat.le_of_add_left_le enough)
  refine ⟨0, s', ?_, moved, fun _ => ⟨rfl, ended⟩, ?_⟩
  · cases comment with
    | false =>
      rw [skipLoop, fetched]
      rfl
    | true =>
      rw [skipLoop, skipcomment, fetched]
      rfl
  · intro d cs found
    cases comment <;> cases found

section Character

variable {s' : Lexer} (skips : Skips text) (left : s'.ahead = some text) {fuel : ℕ}
  (enough : 2 * text.length + 2 ≤ fuel)

include skips left enough

/-- A blank, the start of a comment, or the head of the token. -/
theorem Skips.whitespace (d : UInt8) :
    ∃ c s'', skipwhitespace (fuel + 1) d s' = .ok (c, s'') ∧
      Skipped s' (skip false (d :: text)) c s'' := by
  rw [skipwhitespace, skip]
  by_cases blank : isBlank d = true
  · rw [if_pos blank, if_pos blank]
    exact skips false left (Nat.le_of_succ_le enough)
  · rw [if_neg blank, if_neg blank]
    by_cases hash : d = '#'.toUInt8
    · rw [if_pos hash, if_pos hash]
      exact skips true left (Nat.le_of_succ_le enough)
    · rw [if_neg hash, if_neg hash]
      refine ⟨d, s', rfl, Moved.refl left, fun ended => absurd ended (List.cons_ne_nil d text), ?_⟩
      intro d' cs found
      obtain ⟨rfl, rfl⟩ := List.cons.inj found
      exact ⟨rfl, left⟩

/-- A character of a comment, or its end. -/
theorem Skips.comment (d : UInt8) :
    ∃ c s'', (if d = newline then skipwhitespace fuel d s' else skipcomment fuel s') =
      .ok (c, s'') ∧ Skipped s' (skip true (d :: text)) c s'' := by
  rw [skip]
  by_cases ends : d = newline
  · rw [if_pos ends, if_pos ends]
    obtain ⟨fuel, rfl⟩ := Nat.exists_eq_add_of_le' (Nat.le_of_add_left_le enough)
    have blank : isBlank d = true := by
      rw [ends]
      rfl
    rw [skipwhitespace, if_pos blank]
    exact skips false left (Nat.le_of_succ_le_succ enough)
  · rw [if_neg ends, if_neg ends]
    exact skips true left (Nat.le_of_succ_le enough)

end Character

theorem Skips.cons (skips : Skips text) (d : UInt8) : Skips (d :: text) := by
  intro s fuel comment reads enough
  have nonzero : d ≠ 0 := fun zero => zero_notMem reads (zero ▸ List.mem_cons_self)
  obtain ⟨s', fetched, moved, left, -⟩ := fetch_of_cons reads
  rw [List.length_cons] at enough
  obtain ⟨fuel, rfl⟩ := Nat.exists_eq_add_of_le' (Nat.le_of_add_left_le enough)
  have room : 2 * text.length + 2 ≤ fuel := Nat.le_of_succ_le_succ enough
  cases comment with
  | false =>
    obtain ⟨c, s'', result, skipped⟩ := skips.whitespace left room d
    rw [skipLoop, fetched]
    exact ⟨c, s'', result, skipped.behind moved⟩
  | true =>
    obtain ⟨c, s'', result, skipped⟩ := skips.comment left room d
    rw [skipLoop, skipcomment, fetched]
    change ∃ c s', (if d = 0 then _ else _) = Except.ok (c, s') ∧ _
    rw [if_neg nonzero]
    exact ⟨c, s'', result, skipped.behind moved⟩

theorem skipLoop_ok (text : List UInt8) : Skips text := by
  induction text with
  | nil => exact skips_nil
  | cons d text ih => exact ih.cons d

end Blanks

section Loops

/-- How the loops over a token end, behind the characters that they find in the buffer. -/
structure Spelled (s : Lexer) (done : List UInt8) (t : Scanned) (s' : Lexer) : Prop where
  tokType : s'.tokType = s.tokType
  word : done ++ t.word ++ [0] <+: s'.word.val
  input : s'.input = t.lines
  ahead : s'.ahead = t.rest
  gone : t.rest = none → s'.currentline = none
  pointer : s'.lexcp ≠ none

/-- A loop that reads a token behind some characters. -/
def Spells (x : Except LexFault Lexer) (s : Lexer) (done : List UInt8) (t : Scanned) : Prop :=
  Bounded x (t.FitsBehind done) (Spelled s done t)

variable {x : Except LexFault Lexer} {s s' : Lexer} {c : UInt8} {text cs done : List UInt8}
  {t : Scanned} {lines : List InputLine}

/-- One more character of a token. -/
theorem Spells.cons (tail : Spells x s' (done ++ [c]) t) (same : s'.tokType = s.tokType) :
    Spells x s done (t.push c) := by
  refine Bounded.congr tail ?_ ?_
  · rw [Scanned.push]
    constructor
    · rintro ⟨word, crossed⟩
      refine ⟨?_, crossed⟩
      rw [List.length_cons] at word
      rw [List.length_append, List.length_singleton]
      omega
    · rintro ⟨word, crossed⟩
      refine ⟨?_, crossed⟩
      rw [List.length_append, List.length_singleton] at word
      rw [List.length_cons]
      omega
  · rintro _ s' ⟨tokType, word, input, ahead, gone, pointer⟩
    refine ⟨tokType.trans same, ?_, input, ahead, gone, pointer⟩
    rwa [List.append_assoc done, List.singleton_append] at word

/-- The end of a token in its line. -/
theorem Spelled.last {w : WordBuffer} (written : done ++ [0] <+: w.val) (ahead : s'.ahead = some cs)
    (same : s'.tokType = s.tokType) (input : s'.input = lines) (tokType : TokType) :
    Spelled s done ⟨tokType, [], some cs, lines, []⟩ { s' with word := w } := by
  exact ⟨same, by rwa [List.append_nil], input, ahead, nofun, pointer_ne_none ahead⟩

/-- A token of which nothing is left. -/
theorem fitsBehind_nil (tokType : TokType) (rest : Option (List UInt8)) :
    Scanned.FitsBehind ⟨tokType, [], rest, lines, []⟩ done ↔ done.length ≤ 1023 :=
  ⟨fun fits => fits.word, fun room => ⟨room, nofun⟩⟩

theorem length_concat (done : List UInt8) (c : UInt8) :
    done.length + 1 = (done ++ [c]).length := by
  rw [List.length_append, List.length_singleton]

/-- A loop that writes a character and goes on. -/
theorem Spells.put_cons (t : Scanned) {f : Lexer → Except LexFault Lexer}
    (written : done <+: s'.word.val) (same : s'.tokType = s.tokType)
    (tail : ∀ w : WordBuffer, done ++ [c] <+: w.val →
      Spells (f { s' with word := w }) { s' with word := w } (done ++ [c]) t) :
    Spells (s'.put done.length c >>= f) s done (t.push c) := by
  refine Bounded.put_bind written ?_ ?_
  · rintro ⟨word, -⟩
    omega
  · intro w extended
    exact (tail w extended).cons same

/-- The end of a token in front of a character that is taken back. -/
theorem Spells.closed (written : done <+: s'.word.val) (ahead : s'.back.ahead = some cs)
    (same : s'.tokType = s.tokType) (input : s'.input = lines) (tokType : TokType) :
    Spells (s'.put done.length 0 >>= fun s => pure s.back) s done
      ⟨tokType, [], some cs, lines, []⟩ := by
  refine Bounded.put_map back written (fitsBehind_nil _ _) fun w extended => ?_
  have ended : Spelled s done ⟨tokType, [], some cs, lines, []⟩ { s'.back with word := w } :=
    Spelled.last extended ahead same input tokType
  exact ended

/-- The loops over numbers and identifiers. -/
theorem wordLoop_spells {inside : UInt8 → Bool} (ends : inside 0 = false) (text : List UInt8)
    (tokType : TokType) : ∀ {s : Lexer} {fuel : ℕ} {done : List UInt8},
      s.ahead = some text → s.input = lines → text.length + 1 ≤ fuel → done <+: s.word.val →
        Spells (wordLoop inside fuel done.length s) s done
          ⟨tokType, text.takeWhile inside, some (text.dropWhile inside), lines, []⟩ := by
  induction text with
  | nil =>
    intro s fuel done reads input enough written
    obtain ⟨s', fetched, moved, -, back', -⟩ := fetch_of_nil reads
    obtain ⟨fuel, rfl⟩ := Nat.exists_eq_add_of_le' (Nat.le_of_add_left_le enough)
    rw [wordLoop, fetched]
    change Spells (if inside 0 then _ else _) _ _ _
    rw [if_neg (by rw [ends]; decide)]
    exact Spells.closed (moved.written written) back' moved.tokType
        (moved.input.trans input) tokType
  | cons d text ih =>
    intro s fuel done reads input enough written
    obtain ⟨s', fetched, moved, left, back'⟩ := fetch_of_cons reads
    obtain ⟨fuel, rfl⟩ := Nat.exists_eq_add_of_le' (Nat.le_of_add_left_le enough)
    rw [wordLoop, fetched]
    change Spells (if inside d then _ else _) _ _ _
    by_cases member : inside d = true
    · rw [if_pos member, List.takeWhile_cons_of_pos member, List.dropWhile_cons_of_pos member]
      refine Spells.put_cons ⟨tokType, _, _, _, _⟩ (moved.written written) moved.tokType
        fun w extended => ?_
      rw [length_concat done d]
      exact ih left (moved.input.trans input) (Nat.le_of_succ_le_succ enough) extended
    · rw [if_neg member, List.takeWhile_cons_of_neg member, List.dropWhile_cons_of_neg member]
      exact Spells.closed (moved.written written) back' moved.tokType
        (moved.input.trans input) tokType

/-- It does not matter that a token goes on to a line that is not empty. -/
theorem Spells.cross {line : InputLine} (spells : Spells x s done t) (some : line.val ≠ []) :
    Spells x s done (t.cross line) := by
  refine Bounded.congr spells ?_ ?_
  · constructor
    · rintro ⟨word, crossed⟩
      exact ⟨word, fun line member => crossed line (List.mem_cons_of_mem _ member)⟩
    · rintro ⟨word, crossed⟩
      exact ⟨word, List.forall_mem_cons.mpr ⟨some, crossed⟩⟩
  · rintro _ s' ⟨tokType, word, input, ahead, gone, pointer⟩
    exact ⟨tokType, word, input, ahead, gone, pointer⟩

/-- The number of turns that the loop over a string takes at most. -/
def turns (text : List UInt8) (lines : List InputLine) : ℕ := text.length + 1 + bytes lines

/-- The loop over a string, in front of some text. -/
def StringReads (text : List UInt8) (lines : List InputLine) : Prop :=
  ∀ {s : Lexer} {fuel : ℕ} {done : List UInt8}, s.ahead = some text → s.input = lines →
    turns text lines ≤ fuel → done <+: s.word.val →
      Spells (stringLoop fuel done.length s) s done (literal text lines)

/-- A character of a string that is not the end of a line. -/
theorem StringReads.turn (reads : StringReads cs lines) {fuel : ℕ} (left : s'.ahead = some cs)
    (input : s'.input = lines) (enough : turns cs lines ≤ fuel) (written : done <+: s'.word.val)
    (same : s'.tokType = s.tokType) (c : UInt8) :
    Spells (if c = quote then s'.put done.length 0
      else s'.put done.length c >>= fun s => stringLoop fuel (done.length + 1) s) s done
      (literal (c :: cs) lines) := by
  by_cases closes : c = quote
  · rw [if_pos closes, closes, literal_quote]
    refine Bounded.put written (fitsBehind_nil _ _) fun w extended => ?_
    exact Spelled.last extended left same input .string
  · rw [if_neg closes, literal_cons closes]
    refine Spells.put_cons (literal cs lines) written same fun w extended => ?_
    rw [length_concat done c]
    exact reads left input enough extended

theorem StringReads.cons (reads : StringReads cs lines) (c : UInt8) :
    StringReads (c :: cs) lines := by
  intro s fuel done ahead input enough written
  have nonzero : c ≠ 0 := fun zero => zero_notMem ahead (zero ▸ List.mem_cons_self)
  obtain ⟨s', fetched, moved, left, -⟩ := fetch_of_cons ahead
  rw [turns, List.length_cons] at enough
  obtain ⟨fuel, rfl⟩ := Nat.exists_eq_add_of_le' (show 1 ≤ fuel by omega)
  change Spells (s.fetch >>= _) _ _ _
  rw [fetched]
  change Spells (if c = 0 then _ else _) _ _ _
  rw [if_neg nonzero]
  refine reads.turn left (moved.input.trans input) ?_ (moved.written written) moved.tokType c
  rw [turns]
  omega

/-- The end of the input cuts a string off. -/
theorem stringReads_nil : StringReads [] [] := by
  intro s fuel done ahead input enough written
  obtain ⟨s', fetched, moved, -⟩ := fetch_of_nil ahead
  obtain ⟨fuel, rfl⟩ := Nat.exists_eq_add_of_le' (show 1 ≤ fuel from enough)
  rw [literal_nil_nil]
  change Spells (s.fetch >>= _) _ _ _
  rw [fetched]
  change Spells (put done.length newline s' >>= _) _ _ _
  refine Bounded.put_bind (moved.written written) ?_ fun w extended => ?_
  · rintro ⟨word, -⟩
    exact Nat.le_of_add_right_le word
  · have last : pbcGetline { s' with word := w } = { s' with word := w, currentline := none } :=
      pbcGetline_of_nil (moved.input.trans input)
    dsimp only
    rw [last]
    change Bounded (put (done.length + 1) 0 _) _ _
    rw [length_concat done newline]
    refine Bounded.put extended ?_ fun w' extended' => ?_
    · rw [← length_concat]
      constructor
      · intro fits
        exact fits.word
      · intro room
        exact ⟨room, nofun⟩
    · exact ⟨moved.tokType, extended', moved.input.trans input, ahead_of_freed rfl, fun _ => rfl,
        moved.pointer⟩

/-- At the end of a line the newline is written, and the next line is read from its start. -/
theorem stringLoop_crossing (t : Scanned) {line : InputLine} {fuel : ℕ} {s : Lexer}
    {done : List UInt8}
    (ahead : s.ahead = some []) (input : s.input = line :: lines) (written : done <+: s.word.val)
    (next : ∀ {s' : Lexer} {done : List UInt8}, s'.ahead = some line.val → s'.input = lines →
      done <+: s'.word.val → Spells (do
        let (c, s) ← s'.fetch
        if c = quote then s.put done.length 0
        else
          let s ← s.put done.length c
          stringLoop fuel (done.length + 1) s) s' done t) :
    Spells (stringLoop (fuel + 1) done.length s) s done (t.push newline) := by
  obtain ⟨s', fetched, moved, -⟩ := fetch_of_nil ahead
  change Spells (s.fetch >>= _) _ _ _
  rw [fetched]
  change Spells (put done.length newline s' >>= _) _ _ _
  refine Spells.put_cons t (moved.written written) moved.tokType fun w extended => ?_
  obtain ⟨s'', started, live, input', tokType, word, ahead'⟩ :=
    pbcGetline_of_cons (s := { s' with word := w }) (moved.input.trans input)
  have written' : done ++ [newline] <+: s''.word.val := by rwa [word]
  have reads := next ahead' input' written'
  rw [← length_concat] at reads
  dsimp only
  rw [live, started, if_neg Bool.false_ne_true]
  refine Bounded.congr reads Iff.rfl ?_
  rintro _ s3 ⟨tokType', word', input', ahead', gone, pointer⟩
  exact ⟨tokType'.trans tokType, word', input', ahead', gone, pointer⟩

/-- An empty line behind the end of a line leads out of bounds. -/
theorem stringReads_empty {line : InputLine} (empty : line.val = []) :
    StringReads [] (line :: lines) := by
  intro s fuel done ahead input enough written
  obtain ⟨fuel, rfl⟩ := Nat.exists_eq_add_of_le' (show 2 ≤ fuel by
    rw [turns, bytes] at enough
    omega)
  rw [literal_nil_cons]
  refine stringLoop_crossing _ ahead input written fun {s' done} ahead' input' written' => ?_
  obtain ⟨s'', fetched, moved, -, -, stuck⟩ := fetch_of_nil (ahead'.trans (congrArg some empty))
  constructor
  · intro fits
    exact absurd empty (fits.crossed line List.mem_cons_self)
  · intro _
    rw [fetched]
    change (put done.length 0 s'' >>= fun s => stringLoop (fuel + 1) (done.length + 1) s) = _ ∨
      (put done.length 0 s'' >>= fun s => stringLoop (fuel + 1) (done.length + 1) s) = _
    by_cases room : done.length ≤ 1023
    · left
      rw [put, if_pos (Nat.lt_succ_of_le room)]
      change (fetch _ >>= _) = _
      rw [stuck]
      rfl
    · right
      rw [put_fault room]
      rfl

/-- Otherwise a string goes on with the first character of the next line. -/
theorem stringReads_line {line : InputLine} (split : line.val = c :: cs)
    (reads : StringReads cs lines) : StringReads [] (line :: lines) := by
  intro s fuel done ahead input enough written
  rw [turns, bytes, split, List.length_nil, List.length_cons] at enough
  obtain ⟨fuel, rfl⟩ := Nat.exists_eq_add_of_le' (show 1 ≤ fuel by omega)
  have room : turns cs lines ≤ fuel := by
    rw [turns]
    omega
  rw [literal_nil_cons]
  refine stringLoop_crossing _ ahead input written fun {s' done} ahead' input' written' => ?_
  obtain ⟨s'', fetched, moved, left, -⟩ := fetch_of_cons (ahead'.trans (congrArg some split))
  rw [fetched, split]
  have turned := reads.turn left (moved.input.trans input') room (moved.written written')
    moved.tokType c
  exact turned.cross (by rw [split]; exact List.cons_ne_nil c cs)

/-- A string is read to its end in bounds, or the reading leads out of bounds. -/
theorem stringReads (text : List UInt8) (lines : List InputLine) : StringReads text lines := by
  induction lines generalizing text with
  | nil =>
    induction text with
    | nil => exact stringReads_nil
    | cons c text ih => exact ih.cons c
  | cons line lines ih =>
    induction text with
    | nil =>
      cases split : line.val with
      | nil => exact stringReads_empty split
      | cons c cs => exact stringReads_line split (ih cs)
    | cons c text ih' => exact ih'.cons c

end Loops

section Lex

variable {s s' s'' : Lexer} {c : UInt8} {text cs : List UInt8} {t : Scanned}

/-- The state behind a token. -/
structure After (s : Lexer) (t : Scanned) (s' : Lexer) : Prop where
  tokType : s'.tokType = t.tokType
  word : t.tokType.HasWord → t.word ++ [0] <+: s'.word.val
  kept : ¬t.tokType.HasWord → s'.word = s.word
  input : s'.input = t.lines
  ahead : s'.ahead = t.rest
  gone : t.rest = none → t.tokType ≠ .none → s'.currentline = none
  pointer : s'.lexcp ≠ none

theorem le_fuel (reads : s.ahead = some text) : 2 * (text.length + bytes s.input + 1) ≤ s.fuel := by
  obtain ⟨serial, line, before, -, current, split, -⟩ := ahead_eq_some.mp reads
  rw [fuel, current, Option.elim_some, split, List.length_append]
  omega

theorem fuel_of_moved (moved : Moved s s') : s'.fuel = s.fuel := by
  rw [fuel, fuel, moved.currentline, moved.input]

/-- A loop whose characters stand in the buffer from the start is the end of `lex`. -/
theorem Spells.after {x : Except LexFault Lexer} (spells : Spells x s'' [] t)
    (tokType : s''.tokType = t.tokType) (hasWord : t.tokType.HasWord) :
    Bounded x t.Fits (After s t) := by
  refine Bounded.congr spells Iff.rfl ?_
  rintro _ s3 ⟨tokType', word, input, ahead, gone, pointer⟩
  exact ⟨tokType'.trans tokType, fun _ => word, fun none => absurd hasWord none, input, ahead,
    fun ended _ => gone ended, pointer⟩

variable {lines : List InputLine}

/-- A token of which nothing is written fits. -/
theorem fits_nil {tokType : TokType} {rest : Option (List UInt8)} :
    Scanned.Fits ⟨tokType, [], rest, lines, []⟩ :=
  ⟨Nat.zero_le _, List.forall_mem_nil _⟩

/-- The loop over a number or an identifier, with the first character in the buffer. -/
theorem wordLoop_after {inside : UInt8 → Bool} {fuel : ℕ} {tokType : TokType}
    (left : s'.ahead = some cs) (input : s'.input = lines) (typed : s'.tokType = tokType)
    (hasWord : tokType.HasWord) (ends : inside 0 = false) (enough : cs.length + 1 ≤ fuel)
    (c : UInt8) :
    Bounded (put 0 c s' >>= fun s => wordLoop inside fuel 1 s)
      (Scanned.Fits ⟨tokType, c :: cs.takeWhile inside, some (cs.dropWhile inside), lines, []⟩)
      (After s ⟨tokType, c :: cs.takeWhile inside, some (cs.dropWhile inside), lines, []⟩) := by
  have spells : Spells (put 0 c s' >>= fun s => wordLoop inside fuel 1 s) s' []
      ⟨tokType, c :: cs.takeWhile inside, some (cs.dropWhile inside), lines, []⟩ := by
    refine Spells.put_cons ⟨tokType, cs.takeWhile inside, _, lines, []⟩ List.nil_prefix rfl
      fun w extended => ?_
    change Spells (wordLoop inside fuel ([] ++ [c]).length _) _ _ _
    apply wordLoop_spells ends cs tokType
    · exact left
    · exact input
    · exact enough
    · exact extended
  exact spells.after typed hasWord

/-- So is the loop over a string. -/
theorem stringLoop_after {fuel : ℕ} (left : s'.ahead = some cs) (input : s'.input = lines)
    (typed : s'.tokType = .string) (enough : turns cs lines ≤ fuel) :
    Bounded (stringLoop fuel 0 s') (literal cs lines).Fits (After s (literal cs lines)) := by
  have spells : Spells (stringLoop fuel 0 s') s' [] (literal cs lines) :=
    stringReads cs lines left input enough List.nil_prefix
  refine spells.after (typed.trans (literal_tokType cs lines).symm) ?_
  rw [literal_tokType]
  exact trivial

/-- The token behind blanks and comments. -/
theorem lexToken_bounded {fuel : ℕ} (moved : Moved s s') (input : s.input = lines)
    (left : s'.ahead = some cs) (nonzero : c ≠ 0) (enough : turns cs lines ≤ fuel)
    (found : skip false text = c :: cs) :
    Bounded (lexToken fuel c s') (scan text lines).Fits (After s (scan text lines)) := by
  have input' := moved.input.trans input
  have room : cs.length + 1 ≤ fuel := Nat.le_of_add_right_le enough
  rw [scan, found, lexToken, if_neg nonzero]
  dsimp only
  by_cases isQuote : c = quote
  · rw [if_pos isQuote, if_pos isQuote]
    refine stringLoop_after ?_ ?_ ?_ enough
    · exact left
    · exact input'
    · rfl
  · rw [if_neg isQuote, if_neg isQuote]
    by_cases digit : isDigit c = true
    · rw [if_pos digit, if_pos digit]
      apply wordLoop_after
      · exact left
      · exact input'
      · rfl
      · exact trivial
      · rfl
      · exact room
    · rw [if_neg digit, if_neg digit]
      by_cases letter : isLetter c = true
      · rw [if_pos letter, if_pos letter]
        apply wordLoop_after
        · exact left
        · exact input'
        · rfl
        · exact trivial
        · rfl
        · exact room
      · rw [if_neg letter, if_neg letter]
        refine ⟨fun _ => ⟨_, rfl, ?_⟩, fun exceeds => absurd fits_nil exceeds⟩
        exact ⟨rfl, fun hasWord => absurd hasWord (symbol_not_hasWord c), fun _ => moved.word,
          input', left, fun ended => absurd ended (Option.some_ne_none cs), moved.pointer⟩

/-- `lex` reads the token at the head of the text that is left, in bounds if and only if that
token fits. -/
theorem lex_bounded (reads : s.ahead = some text) :
    Bounded (lex s) (scan text s.input).Fits (After s (scan text s.input)) := by
  have enough := le_fuel reads
  have pointer : s.lexcp.isNone = false := Option.isNone_eq_false_iff.mpr
    (Option.isSome_iff_ne_none.mpr (pointer_ne_none reads))
  have room : 2 * text.length + 1 ≤ s.fuel := by omega
  obtain ⟨c, s', result, skipped⟩ := skipLoop_ok text false reads room
  have start : lex s = lexToken s.fuel c s' := by
    rw [skipLoop, bind_eq_ok] at result
    obtain ⟨⟨d, s''⟩, fetched, result⟩ := result
    rw [lex, pointer, if_neg Bool.false_ne_true, fetched]
    change skipwhitespace s.fuel d s'' = _ at result
    change (skipwhitespace s.fuel d s'' >>= _) = _
    rw [result]
    rfl
  have moved := skipped.moved
  rw [start]
  cases found : skip false text with
  | nil =>
    obtain ⟨zero, ended⟩ := skipped.ended found
    rw [lexToken, if_pos zero, scan, found]
    refine ⟨fun _ => ⟨_, rfl, ?_⟩, fun exceeds => absurd fits_nil exceeds⟩
    exact ⟨rfl, fun hasWord => hasWord.elim, fun _ => moved.word, moved.input, ended,
      fun _ other => absurd rfl other, moved.pointer⟩
  | cons d cs =>
    obtain ⟨rfl, left⟩ := skipped.head d cs found
    have nonzero : c ≠ 0 := by
      intro zero
      have member : c ∈ text := (skip_suffix false text).subset (found ▸ List.mem_cons_self)
      exact zero_notMem reads (zero ▸ member)
    have enough' := le_fuel left
    rw [fuel_of_moved moved, moved.input] at enough'
    exact lexToken_bounded moved rfl left nonzero (by rw [turns]; omega) found

end Lex

end Lexer

end Pbc.Calc
