import Pbc.Calc.CallerTokens
import Pbc.Calc.LexerRuns

/-!
# The tokens of a line

The tokens that a text shows up to the end of its line. Where they all fit and no string is cut
off, the parser that calls `lex` does what the parser does on the list of these tokens, and stays
in bounds.
-/

open Pbc.Misc

namespace Pbc.Calc

/-- The token of a type, with its text. -/
def TokType.token : TokType → String → Option Token
  | .none, _ => .none
  | .id, text => some (.id text)
  | .int, text => some (.int text)
  | .string, text => some (.string text)
  | .comma, _ => some .comma
  | .lparen, _ => some .lparen
  | .rparen, _ => some .rparen
  | .add, _ => some .add
  | .sub, _ => some .sub
  | .mul, _ => some .mul
  | .div, _ => some .div
  | .set, _ => some .set
  | .pow, _ => some .pow
  | .unk, _ => some .unk

/-- A text in front of some lines shows some tokens up to the end of the line in which it ends. -/
inductive Shows : List UInt8 → List InputLine → List Token → Prop where
  | nil {text lines} (ends : (scan text lines).tokType = .none) : Shows text lines []
  | cons {text lines token rest tokens} (fits : (scan text lines).Fits)
      (head : (scan text lines).tokType.token (bytesText (scan text lines).word) = some token)
      (left : (scan text lines).rest = some rest) (tail : Shows rest (scan text lines).lines tokens) :
      Shows text lines (token :: tokens)

/-- The lexer stands behind the first token of a reader, with the others ahead. -/
structure Lexer.StandsIn (s : Lexer) (r : Reader) (w : String) : Prop where
  tokType : s.tokType = r.tokType
  text : s.text = w
  ahead : r.tokens ≠ [] → ∃ text, s.ahead = some text ∧ Shows text s.input r.tokens.tail

theorem Token.type_ne_none (token : Token) : token.type ≠ .none := by
  cases token <;> simp [Token.type]

theorem TokType.token_type {tokType : TokType} {text : String} {token : Token}
    (head : tokType.token text = some token) : token.type = tokType := by
  cases tokType <;> cases head <;> rfl

/-- The buffer behind a token is that of the reader. -/
theorem TokType.token_word {tokType : TokType} {text w : String} {token : Token}
    (head : tokType.token text = some token) (tokens : List Token) (err : Option ParseError)
    (hasWord : tokType.HasWord → w = text) (other : ¬tokType.HasWord → w = w') :
    Reader.word ⟨token :: tokens, err⟩ w' = w := by
  cases tokType <;> cases head
  case id | int | string => exact (hasWord trivial).symm
  all_goals exact (other nofun).symm

namespace Lexer

variable {s : Lexer} {text : List UInt8} {tokens : List Token}

/-- A token with its terminator at the start of the buffer is its text. -/
theorem text_of_prefix {token : List UInt8} (pure : 0 ∉ token)
    (written : token ++ [0] <+: s.word.val) : s.text = bytesText token := by
  obtain ⟨rest, split⟩ := written
  have inside : ∀ c ∈ token, (c != 0) = true := by
    intro c member
    rw [bne_iff_ne]
    rintro rfl
    exact pure member
  rw [Lexer.text, ← split, List.append_assoc, List.takeWhile_append_of_pos inside,
    List.singleton_append, List.takeWhile_cons_of_neg (by decide), List.append_nil]

/-- `lex` goes on to the first of the tokens that the text shows. -/
theorem lex_of_shows (reads : s.ahead = some text) (shows : Shows text s.input tokens)
    (err : Option ParseError) :
    ∃ s', s.lex = .ok s' ∧ s'.StandsIn ⟨tokens, err⟩ (Reader.word ⟨tokens, err⟩ s.text) := by
  have bounded := lex_bounded reads
  have pure := zero_notMem_scan (zero_notMem reads) s.input
  cases shows with
  | nil ends =>
    obtain ⟨s', result, after⟩ := bounded.ok (scan_of_none ends)
    have kept : s'.word = s.word := after.kept (by rw [ends]; exact nofun)
    refine ⟨s', result, ?_, ?_, fun some => absurd rfl some⟩
    · rw [after.tokType, ends]
      rfl
    · rw [Lexer.text, kept, ← Lexer.text]
      rfl
  | cons fits head left tail =>
    obtain ⟨s', result, after⟩ := bounded.ok fits
    refine ⟨s', result, ?_, ?_, ?_⟩
    · rw [after.tokType]
      exact (TokType.token_type head).symm
    · rw [TokType.token_word head]
      · intro hasWord
        exact text_of_prefix pure (after.word hasWord)
      · intro other
        rw [Lexer.text, after.kept other, ← Lexer.text]
    · intro _
      refine ⟨_, after.ahead.trans left, ?_⟩
      rw [after.input]
      exact tail

/-- The variables of the lexer and those of the reader, in front of a token of some type. -/
structure InStep (tok : TokType) (s : Lexer × Option ParseError) (r : Reader × String) : Prop where
  tokType : s.1.tokType = tok
  stands : s.1.StandsIn r.1 r.2
  err : s.2 = r.1.lastparseerror

/-- An operation of the parser on the lexer does what it does on the tokens. -/
theorem handle_simulates (op : Op) (tok : TokType) (s : Lexer × Option ParseError)
    (r : Reader × String) (allowed : Caller.discipline.Allows op tok) (related : InStep tok s r) :
    Simulates Sum.inl
      (fun result s r => ∃ tok', Caller.discipline.After op tok result tok' ∧ InStep tok' s r)
      (handle op s) (handleTokens op r) := by
  obtain ⟨s, err⟩ := s
  obtain ⟨⟨tokens, err'⟩, w⟩ := r
  obtain ⟨rfl, stands, same⟩ := related
  obtain rfl : err = err' := same
  cases op with
  | look =>
    have looks : handleTokens .look (⟨tokens, err⟩, w) =
        .ok ((s.tokType, s.text), (⟨tokens, err⟩, w)) := by
      rw [stands.tokType, stands.text]
      rfl
    rw [looks]
    exact .ok (s.tokType, s.text) ⟨s.tokType, ⟨rfl, rfl⟩, rfl, stands, rfl⟩
  | lex =>
    have some : tokens ≠ [] := by
      rintro rfl
      exact allowed stands.tokType
    obtain ⟨text, reads, shows⟩ := stands.ahead some
    obtain ⟨s', result, stands'⟩ := lex_of_shows reads shows err
    rw [stands.text] at stands'
    have moves : handle .lex (s, err) = .ok ((), (s', err)) := by
      simp only [handle, result]
    rw [moves]
    exact .ok () ⟨s'.tokType, trivial, rfl, stands', rfl⟩
  | setparseerror i =>
    exact .ok () ⟨s.tokType, rfl, rfl, ⟨stands.tokType, stands.text, stands.ahead⟩, rfl⟩
  | stop fault => exact .error fault

/-- What is left of a line behind its parser. -/
def report (t : Option Tree) (err : Option ParseError) : Line :=
  t.elim .silent fun t => if t.isNull then .parseError err else .tree t

/-- The parser of a line behind its first call of `lex`. -/
theorem parseline_of_lex {s' : Lexer} (result : s.lex = .ok s') (err : Option ParseError)
    (fuel : ℕ) : (Caller.parseline fuel).run handle (s, err) = Client.run handle
      (if s'.tokType = .none then return none
        else do
          let t ← Caller.parsesetexpr fuel
          return some t) (s', err) := by
  have moves : handle .lex (s, err) = .ok ((), (s', err)) := by
    simp only [handle, result]
  change (handle .lex (s, err) >>= _) = _
  rw [moves]
  rfl

/-- The parser on the lexer, that on the tokens one by one and that on their list leave the same
of a line. -/
theorem simulates_report {x : Except (Fault ⊕ LexFault) (Tree × (Lexer × Option ParseError))}
    {y : Except Fault (Tree × (Reader × String))} {z : Except Fault (Tree × Reader)}
    (simulates : Simulates Sum.inl (fun _ s r => ∃ tok, InStep tok s r) x y)
    (agrees : Agrees Prod.mk y z) :
    Simulates Sum.inl (fun _ s r => ∃ tok w, InStep tok s (r, w))
      ((x >>= fun out => .ok (some out.1, out.2)).map fun out => (report out.1 out.2.2, out.2))
      (z >>= fun out =>
        if out.1.isNull then .ok (.parseError out.2.lastparseerror, out.2)
        else .ok (.tree out.1, out.2)) := by
  cases agrees with
  | @ok t r w fresh =>
    cases simulates with
    | @ok _ s _ holds =>
      obtain ⟨tok, together⟩ := holds
      obtain ⟨s, err⟩ := s
      obtain rfl : err = r.lastparseerror := together.err
      change Simulates _ _ (.ok (report (some t) r.lastparseerror, (s, r.lastparseerror)))
        (if t.isNull then .ok (.parseError r.lastparseerror, r) else .ok (.tree t, r))
      rw [report, Option.elim_some]
      split
      · exact .ok _ ⟨tok, w, together⟩
      · exact .ok _ ⟨tok, w, together⟩
  | error fault =>
    cases simulates with
    | error _ => exact .error fault

/-- On a line that shows some tokens the parser does what it does on their list: it ends with the
same tree and the same error, or stops at the same fault, and never at one of the lexer. -/
theorem parseline_simulates (reads : s.ahead = some text) (shows : Shows text s.input tokens)
    (err : Option ParseError) (fuel : ℕ) :
    Simulates Sum.inl (fun _ s r => ∃ tok w, InStep tok s (r, w))
      (((Caller.parseline fuel).run handle (s, err)).map fun out =>
        (report out.1 out.2.2, out.2)) (parseInput fuel ⟨tokens, err⟩) := by
  obtain ⟨s', result, stands⟩ := lex_of_shows reads shows err
  rw [parseline_of_lex result, stands.tokType]
  cases tokens with
  | nil =>
    change Simulates _ _ (.ok (Line.silent, (s', err))) (.ok (Line.silent, (⟨[], err⟩ : Reader)))
    exact .ok _ ⟨_, _, rfl, stands, rfl⟩
  | cons token tokens =>
    have some : Reader.tokType ⟨token :: tokens, err⟩ ≠ .none := token.type_ne_none
    have fresh := Reader.word_word ⟨token :: tokens, err⟩ s.text
    have together : InStep s'.tokType (s', err) (⟨token :: tokens, err⟩, _) := ⟨rfl, stands, rfl⟩
    have simulates := Client.Follows.simulates handle_simulates
      ((Caller.parse_careful fuel).set s'.tokType) together
    rw [if_neg some, Client.run_bind, parseInput]
    exact simulates_report simulates ((Caller.parse_agrees fuel).set fresh)

end Lexer

end Pbc.Calc
