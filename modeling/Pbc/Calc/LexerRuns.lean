import Pbc.Calc.Caller
import Pbc.Calc.LexerBounds

/-!
# Runs of the calculator over its input

The loop of `main` takes one line after the other, and the parser calls `lex` on it. Whatever the
lines are, a call of `lex` stays in bounds if and only if the current line is still there and the
token ahead fits into the buffer.
-/

open Pbc.Misc

namespace Pbc.Calc

/-- The calculator: the variables of the lexer, the last parse error, and what the parser is still
to do on the current line. -/
structure Calculator where
  lexer : Lexer
  lastparseerror : Option ParseError
  line : Option (Caller (Option Tree))

/-- The text of some bytes. -/
def bytesText (bytes : List UInt8) : String :=
  String.ofList (bytes.map fun c => Char.ofNat c.toNat)

/-- What `word` holds, as text. -/
def Lexer.text (s : Lexer) : String := bytesText (s.word.val.takeWhile fun c => c != 0)

/-- The operations of the parser on the variables. -/
def handle : (op : Op) → Lexer × Option ParseError →
    Except (Fault ⊕ LexFault) (op.Result × (Lexer × Option ParseError))
  | .look, (s, err) => .ok ((s.tokType, s.text), (s, err))
  | .lex, (s, err) =>
      match s.lex with
      | .ok s => .ok ((), (s, err))
      | .error fault => .error (.inr fault)
  | .setparseerror i, (s, _) => .ok ((), (s, some i))
  | .stop fault, _ => .error (.inl fault)

namespace Calculator

/-- The start of `main` in front of some lines. -/
def init (lines : List InputLine) : Calculator where
  lexer :=
    { input := lines
      allocated := 0
      currentline := none
      lexcp := none
      tokType := .none
      word := ⟨List.replicate 1024 0, List.length_replicate⟩ }
  lastparseerror := none
  line := none

/-- A step: the loop of `main` goes on to the next line, whose parser has some fuel; the parser
performs an operation; or the evaluation of its tree returns, and the line is freed. -/
def step (fuel : ℕ) (c : Calculator) : Option Calculator :=
  match c.line with
  | none =>
      match c.lexer.input with
      | [] => none
      | _ :: _ =>
          some { c with lexer := c.lexer.pbcGetline.start, line := some (Caller.parseline fuel) }
  | some (.done _) => some { c with lexer := { c.lexer with currentline := none }, line := none }
  | some (.call op next) =>
      match handle op (c.lexer, c.lastparseerror) with
      | .ok (r, (s, err)) => some ⟨s, err, some (next r)⟩
      | .error _ => none

/-- The states that some run over the lines comes to. -/
inductive Reached (lines : List InputLine) : Calculator → Prop
  | init : Reached lines (init lines)
  | step {c c' : Calculator} (reached : Reached lines c) (fuel : ℕ) (turn : c.step fuel = some c') :
      Reached lines c'

/-- The next step is a call of `lex`. -/
def Lexes (c : Calculator) : Prop := ∃ next, c.line = some (.call .lex next)

end Calculator

namespace Lexer

/-- A call of `lex` reads the live line only, up to its terminator, and writes into the buffer
only. -/
def InBounds (s : Lexer) : Prop := s.lex ≠ .error .read ∧ s.lex ≠ .error .write

/-- The current line was not freed at the end of the input, and the token that is ahead of the
pointer fits. -/
def Clear (s : Lexer) : Prop :=
  s.currentline ≠ none ∧ ∀ text, s.ahead = some text → (scan text s.input).Fits

/-- The pointer stands in the current line, unless that was freed. -/
def Ready (s : Lexer) : Prop :=
  s.currentline = none ∧ s.lexcp ≠ none ∨ ∃ text, s.ahead = some text

variable {s s' : Lexer}

/-- A line that was freed is read. -/
theorem lex_of_freed (freed : s.currentline = none) (pointer : s.lexcp ≠ none) :
    s.lex = .error .read := by
  obtain ⟨p, pointer⟩ := Option.ne_none_iff_exists'.mp pointer
  rw [lex, pointer, Option.isNone_some, if_neg Bool.false_ne_true, fetch_of_freed freed]
  rfl

/-- A call stays in bounds on those states only that are clear. -/
theorem Ready.inBounds_iff (ready : s.Ready) : s.InBounds ↔ s.Clear := by
  rcases ready with ⟨freed, pointer⟩ | ⟨text, reads⟩
  · constructor
    · rintro ⟨read, -⟩
      exact absurd (lex_of_freed freed pointer) read
    · rintro ⟨live, -⟩
      exact absurd freed live
  · have bounded := lex_bounded reads
    constructor
    · rintro ⟨read, write⟩
      constructor
      · intro freed
        rw [ahead_of_freed freed] at reads
        cases reads
      · intro text' reads'
        obtain rfl := Option.some.inj (reads.symm.trans reads')
        by_contra exceeds
        rcases bounded.fault exceeds with fault | fault
        · exact read fault
        · exact write fault
    · rintro ⟨-, fits⟩
      obtain ⟨s', result, -⟩ := bounded.ok (fits text reads)
      rw [InBounds, result]
      exact ⟨nofun, nofun⟩

/-- Behind a token the pointer stands in the current line, or that was freed. -/
theorem Ready.lex (ready : s.Ready) (result : s.lex = .ok s') (some : s'.tokType ≠ .none) :
    s'.Ready := by
  rcases ready with ⟨freed, pointer⟩ | ⟨text, reads⟩
  · rw [lex_of_freed freed pointer] at result
    cases result
  · have bounded := lex_bounded reads
    by_cases fits : (scan text s.input).Fits
    · obtain ⟨s'', result', after⟩ := bounded.ok fits
      obtain rfl := Except.ok.inj (result.symm.trans result')
      cases rest : (scan text s.input).rest with
      | none =>
        left
        rw [after.tokType] at some
        exact ⟨after.gone rest some, after.pointer⟩
      | some left =>
        right
        exact ⟨left, after.ahead.trans rest⟩
    · rcases bounded.fault fits with fault | fault <;>
      · rw [fault] at result
        cases result

end Lexer

namespace Calculator

open Caller

variable {lines : List InputLine} {c c' : Calculator}

/-- What holds between two steps: the first step on a line is a call of `lex`, and from then on
the parser keeps to its discipline, with the pointer in the line as long as there is a token. -/
def Invariant (c : Calculator) : Prop :=
  ∀ p, c.line = some p →
    (∃ next, p = .call .lex next ∧ c.lexer.Ready ∧ ∀ tok, Careful (next ()) tok) ∨
      Careful p c.lexer.tokType ∧ (c.lexer.tokType ≠ .none → c.lexer.Ready)

/-- At a call of `lex` the pointer stands in the line, and what follows it is careful. -/
theorem Invariant.lexes {next : Unit → Caller (Option Tree)} (invariant : c.Invariant)
    (line : c.line = some (.call .lex next)) :
    c.lexer.Ready ∧ ∀ tok, Careful (next ()) tok := by
  rcases invariant _ line with ⟨next', same, ready, careful⟩ | ⟨⟨some, careful⟩, ready⟩
  · obtain rfl := eq_of_heq (Client.call.inj same).2
    exact ⟨ready, careful⟩
  · exact ⟨ready some, fun tok => careful () tok trivial⟩

/-- The first thing that the parser does on a line. -/
theorem parseline_start (fuel : ℕ) : ∃ next, parseline fuel = .call .lex next ∧
    ∀ tok, Careful (next ()) tok := by
  refine ⟨_, rfl, fun tok => ?_⟩
  change Careful (tokType >>= _) tok
  rw [careful_tokType_bind]
  refine careful_if (fun _ => careful_pure _) fun _ => ?_
  exact ((parse_careful fuel).set tok).bind fun _ _ => careful_pure _

/-- Behind an operation other than a call of `lex` the discipline of the parser carries on. -/
theorem invariant_of_careful {s : Lexer} {p : Caller (Option Tree)} (err : Option ParseError)
    (careful : Careful p s.tokType) (ready : s.tokType ≠ .none → s.Ready) :
    Invariant ⟨s, err, some p⟩ := by
  rintro p' same
  obtain rfl := Option.some.inj same
  exact Or.inr ⟨careful, ready⟩

/-- The next line, with the pointer at its start. -/
theorem invariant_of_getline (c : Calculator) (fuel : ℕ) {line : InputLine}
    {lines : List InputLine} (more : c.lexer.input = line :: lines) :
    Invariant { c with lexer := c.lexer.pbcGetline.start, line := some (parseline fuel) } := by
  rintro p same
  obtain rfl := Option.some.inj same
  obtain ⟨next, start, careful⟩ := parseline_start fuel
  obtain ⟨s', started, -, -, -, -, ahead⟩ := Lexer.pbcGetline_of_cons more
  left
  refine ⟨next, start, Or.inr ⟨line.val, ?_⟩, careful⟩
  dsimp only
  rw [started]
  exact ahead

/-- An operation of the parser, and what the parser goes on with. -/
theorem Invariant.call (invariant : c.Invariant) {op : Op} {next : op.Result → Caller (Option Tree)}
    (line : c.line = some (.call op next)) {r : op.Result} {s : Lexer} {err : Option ParseError}
    (result : handle op (c.lexer, c.lastparseerror) = .ok (r, (s, err))) :
    Invariant ⟨s, err, some (next r)⟩ := by
  cases op with
  | look =>
    cases result
    rcases invariant _ line with ⟨next', other, -⟩ | ⟨⟨-, careful⟩, ready⟩
    · cases other
    · exact invariant_of_careful _ (careful _ _ ⟨rfl, rfl⟩) ready
  | lex =>
    obtain ⟨ready, careful⟩ := invariant.lexes line
    cases lexed : c.lexer.lex with
    | error fault =>
      simp only [handle, lexed] at result
      cases result
    | ok s' =>
      simp only [handle, lexed] at result
      cases result
      exact invariant_of_careful _ (careful _) (ready.lex lexed)
  | setparseerror i =>
    cases result
    rcases invariant _ line with ⟨next', other, -⟩ | ⟨⟨-, careful⟩, ready⟩
    · cases other
    · exact invariant_of_careful _ (careful _ _ rfl) ready
  | stop fault => cases result

theorem Invariant.step (invariant : c.Invariant) {fuel : ℕ} (turn : c.step fuel = some c') :
    c'.Invariant := by
  rw [Calculator.step] at turn
  split at turn
  · split at turn
    · cases turn
    · next line lines more =>
      obtain rfl := Option.some.inj turn
      exact invariant_of_getline c fuel more
  · obtain rfl := Option.some.inj turn
    exact nofun
  · next op next line =>
    split at turn
    · next r s err result =>
      obtain rfl := Option.some.inj turn
      exact invariant.call line result
    · cases turn

theorem Reached.invariant (reached : Reached lines c) : c.Invariant := by
  induction reached with
  | init => exact nofun
  | step _ fuel turn ih => exact ih.step turn

/-- At every call of `lex` in a run the pointer stands in the line, unless that was freed. -/
theorem Reached.ready (reached : Reached lines c) (lexes : c.Lexes) : c.lexer.Ready := by
  obtain ⟨next, line⟩ := lexes
  exact (reached.invariant.lexes line).1

/-- The runs over some lines stay in bounds at every call of `lex` if and only if each of them
finds its line and a token that fits. -/
theorem lex_inBounds_iff (lines : List InputLine) :
    (∀ c, Reached lines c → c.Lexes → c.lexer.InBounds) ↔
      ∀ c, Reached lines c → c.Lexes → c.lexer.Clear := by
  constructor
  · intro inBounds c reached lexes
    exact (reached.ready lexes).inBounds_iff.mp (inBounds c reached lexes)
  · intro clear c reached lexes
    exact (reached.ready lexes).inBounds_iff.mpr (clear c reached lexes)

/-- Some steps in a row, with the same fuel for every line. -/
def steps (fuel : ℕ) : ℕ → Calculator → Option Calculator
  | 0, c => some c
  | n + 1, c => c.step fuel >>= steps fuel n

theorem Reached.steps (reached : Reached lines c) {fuel n : ℕ}
    (turns : c.steps fuel n = some c') : Reached lines c' := by
  induction n generalizing c with
  | zero =>
    obtain rfl := Option.some.inj turns
    exact reached
  | succ n ih =>
    obtain ⟨c1, turn, turns⟩ := Option.bind_eq_some_iff.mp turns
    exact ih (reached.step fuel turn) turns

/-- A line with a string that nothing closes. -/
def openLine : InputLine := ⟨[34, 97, 10], by decide⟩

/-- Where that is the last line, the string frees it, and the parser then asks for one more
token. -/
theorem not_lex_inBounds :
    ¬∀ lines c, Reached lines c → c.Lexes → c.lexer.InBounds := by
  intro inBounds
  have run : ∃ c, (init [openLine]).steps 12 5 = some c ∧ c.Lexes ∧ c.lexer.lex = .error .read :=
    ⟨_, rfl, ⟨_, rfl⟩, rfl⟩
  obtain ⟨c, turns, lexes, fault⟩ := run
  exact (inBounds [openLine] c (Reached.init.steps turns) lexes).1 fault

end Calculator

end Pbc.Calc
