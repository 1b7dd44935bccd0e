import Pbc.Misc.ExtendPrintf

/-!
# Formats

Formats that are built from literals, escapes and conversions. `%%` is an escape for the printf of
GMP, but not for `do_print`, which looks behind it for a conversion: exactly the formats in which
each escape finds one of GMP are printed as they should be.
-/

open Pbc.Arith (mpzOutStr)

namespace Pbc.Misc

variable {σ E : Type}

section Pieces

/-- A part of a format, with its argument. -/
inductive Piece (E : Type) where
  | literal (c : Char) (plain : c ≠ '%' ∧ c ≠ nul)
  | percent
  | element (e : E)
  | value (v : PrintValue)

/-- The conversion for a value. -/
def PrintValue.directive : PrintValue → List Char
  | .int _ => ['%', 'd']
  | .string _ => ['%', 's']
  | .mpz _ => ['%', 'Z', 'd']

/-- The expansion of a value. -/
def PrintValue.text : PrintValue → List Char
  | .int i => mpzOutStr i
  | .string s => s
  | .mpz z => mpzOutStr z

/-- The format that is built from pieces. -/
def formatOf : List (Piece E) → List Char
  | [] => []
  | .literal c _ :: pieces => c :: formatOf pieces
  | .percent :: pieces => '%' :: '%' :: formatOf pieces
  | .element _ :: pieces => '%' :: 'B' :: formatOf pieces
  | .value v :: pieces => v.directive ++ formatOf pieces

/-- The arguments that match. -/
def argsOf : List (Piece E) → List (Argument E)
  | [] => []
  | .literal _ _ :: pieces => argsOf pieces
  | .percent :: pieces => argsOf pieces
  | .element e :: pieces => .element e :: argsOf pieces
  | .value v :: pieces => .value v :: argsOf pieces

variable (elementText : E → List Char)

/-- The text that is to be printed. -/
def textOf : List (Piece E) → List Char
  | [] => []
  | .literal c _ :: pieces => c :: textOf pieces
  | .percent :: pieces => '%' :: textOf pieces
  | .element e :: pieces => elementText e ++ textOf pieces
  | .value v :: pieces => v.text ++ textOf pieces

/-- What is promised of `do_print`, for a stream and for buffers: the text is printed, there is
an argument for each conversion, and none is left, and the length of the text is counted. -/
def PrintsRight (pieces : List (Piece E)) : Prop :=
  doPrint (streamCallbacks elementText) [] (formatOf pieces) (argsOf pieces) =
      .ok ⟨textOf elementText pieces, (textOf elementText pieces).length, []⟩ ∧
    ∀ m s size, ∃ room, doPrint (bufferCallbacks elementText s size) ⟨m, 0, size⟩ (formatOf pieces)
        (argsOf pieces) = .ok ⟨room, (textOf elementText pieces).length, []⟩ ∧
      room.memory = printed m s size (textOf elementText pieces) ∧
      room.result = (textOf elementText pieces).length

/-- Behind every escape comes a conversion of GMP, before any character that `do_print` takes for
the end of one. The flag says that there is an escape without one so far. -/
def EscapesClosed : Bool → List (Piece E) → Prop
  | pending, [] => pending = false
  | pending, .literal c _ :: pieces =>
      (pending = true → c ≠ 'B' ∧ c ∉ conversions) ∧ EscapesClosed pending pieces
  | _, .percent :: pieces => EscapesClosed true pieces
  | pending, .element _ :: pieces => pending = false ∧ EscapesClosed false pieces
  | _, .value _ :: pieces => EscapesClosed false pieces

/-- A start of a format of which GMP makes a text, whatever comes behind. -/
def Expands (start text : List Char) : Prop :=
  ∀ (format : List Char) (args : List (Argument E)),
    gmpText (start ++ format) args = (gmpText format args).map (text ++ ·)

/-- The text that a mode still has to print, and whether it is behind an escape. -/
inductive Pending (E : Type) : Bool → Mode → List Char → Prop where
  | text (start : List Char) : Pending E false (.text start) start
  | escape {start text : List Char} (expands : Expands (E := E) start text) (some : 0 < text.length) :
      Pending E true (.conversion start) text

theorem gmpText_literal {c : Char} (plain : c ≠ '%') (format : List Char) (args : List (Argument E)) :
    gmpText (c :: format) args = (gmpText format args).map (c :: ·) := by
  rw [gmpText, if_neg plain]
  all_goals
    intros
    exact absurd ‹c = '%'› plain

theorem gmpText_percent (format : List Char) (args : List (Argument E)) :
    gmpText ('%' :: '%' :: format) args = (gmpText format args).map ('%' :: ·) := rfl

theorem gmpText_directive (v : PrintValue) :
    gmpText (E := E) v.directive [.value v] = some v.text := by
  cases v with
  | int i => exact congrArg some (List.append_nil _)
  | string s => exact congrArg some (List.append_nil _)
  | mpz z => exact congrArg some (List.append_nil _)

theorem expands_percent : Expands (E := E) ['%', '%'] ['%'] := by
  intro format args
  exact gmpText_percent format args

theorem Expands.append {first second text text' : List Char} (expands : Expands (E := E) first text)
    (expands' : Expands (E := E) second text') :
    Expands (E := E) (first ++ second) (text ++ text') := by
  intro format args
  rw [List.append_assoc, expands, expands', Option.map_map]
  congr 1
  funext rest
  exact (List.append_assoc _ _ _).symm

theorem expands_literal {c : Char} (plain : c ≠ '%') : Expands (E := E) [c] [c] := by
  intro format args
  exact gmpText_literal plain format args

/-- More of the format of an escape. -/
theorem Pending.extend {start text first more : List Char}
    (behind : Pending E true (.conversion start) text) (expands : Expands (E := E) first more) :
    Pending E true (.conversion (start ++ first)) (text ++ more) := by
  cases behind with
  | escape before some =>
    refine .escape (before.append expands) ?_
    rw [List.length_append]
    exact Nat.add_pos_left some _

/-- The format of a conversion behind escapes. -/
theorem Expands.directive {start text : List Char} (expands : Expands (E := E) start text)
    (v : PrintValue) : gmpText (E := E) (start ++ v.directive) [.value v] = some (text ++ v.text) := by
  rw [expands, gmpText_directive, Option.map_some]

theorem callsOf_literal {start : List Char} {c : Char} (plain : c ≠ '%') (format : List Char) :
    callsOf (.text start) (c :: format) = callsOf (.text (start ++ [c])) format := by
  rw [callsOf, if_neg plain]

theorem callsOf_skip {start : List Char} {c : Char} (other : c ≠ 'B') (plain : c ∉ conversions)
    (format : List Char) :
    callsOf (.conversion start) (c :: format) = callsOf (.conversion (start ++ [c])) format := by
  rw [callsOf, if_neg other, if_neg plain]

theorem callsOf_percent_skip (start format : List Char) :
    callsOf (.conversion start) ('%' :: format) = callsOf (.conversion (start ++ ['%'])) format :=
  callsOf_skip (by decide) (by decide) format

/-- At a percent sign the text so far is printed. -/
theorem callsOf_text_percent (start : List Char) (c : Char) (format : List Char) :
    callsOf (.text start) ('%' :: c :: format) =
      .string start :: callsOf (.conversion []) ('%' :: c :: format) := by
  rw [callsOf, if_pos rfl, if_neg (List.cons_ne_nil _ _), callsOf_percent_skip, List.nil_append]

theorem callsOf_element (start format : List Char) :
    callsOf (.conversion start) ('B' :: format) = .element :: callsOf (.text []) format := by
  rw [callsOf, if_pos rfl]

theorem callsOf_end {c : Char} (start : List Char) (other : c ≠ 'B') (conversion : c ∈ conversions)
    (format : List Char) :
    callsOf (.conversion start) (c :: format) = .format (start ++ [c]) :: callsOf (.text []) format := by
  rw [callsOf, if_neg other, if_pos conversion]

theorem callsOf_directive (start : List Char) (v : PrintValue) (format : List Char) :
    callsOf (.conversion start) (v.directive ++ format) =
      .format (start ++ v.directive) :: callsOf (.text []) format := by
  cases v with
  | int i =>
    exact (callsOf_percent_skip _ _).trans ((callsOf_end _ (by decide) (by decide) _).trans (by
      rw [List.append_assoc]
      rfl))
  | string s =>
    exact (callsOf_percent_skip _ _).trans ((callsOf_end _ (by decide) (by decide) _).trans (by
      rw [List.append_assoc]
      rfl))
  | mpz z =>
    exact (callsOf_percent_skip _ _).trans ((callsOf_skip (by decide) (by decide) _).trans
      ((callsOf_end _ (by decide) (by decide) _).trans (by
        rw [List.append_assoc, List.append_assoc]
        rfl)))

theorem callsOf_text_directive (start : List Char) (v : PrintValue) (format : List Char) :
    callsOf (.text start) (v.directive ++ format) =
      .string start :: .format v.directive :: callsOf (.text []) format := by
  have conversion := callsOf_directive [] v format
  rw [List.nil_append] at conversion
  rw [← conversion]
  cases v with
  | int i => exact callsOf_text_percent _ _ _
  | string s => exact callsOf_text_percent _ _ _
  | mpz z => exact callsOf_text_percent _ _ _

/-- Callbacks that print what they are told to, where nothing is too long. Before the first call
the data may be in another state than behind a call. -/
structure Callbacks.Emits (cb : Callbacks σ E) (ready holds : σ → List Char → Prop) : Prop where
  weaken : ∀ {d out}, holds d out → ready d out
  string : ∀ {d out s}, ready d out → s.length < 2 ^ 31 →
    ∃ d', cb.strcb d s = (d', (s.length : ℤ)) ∧ holds d' (out ++ s)
  format : ∀ {d out f a text}, ready d out → gmpText f [a] = some text → text.length < 2 ^ 31 →
    ∃ d', cb.fstrcb d f a = some (d', (text.length : ℤ)) ∧ holds d' (out ++ text)
  element : ∀ {d out e}, ready d out → (elementText e).length < 2 ^ 31 →
    ∃ d', cb.elcb d e = (d', ((elementText e).length : ℤ)) ∧ holds d' (out ++ elementText e)

section Emitting

variable {elementText} {cb : Callbacks σ E} {ready holds : σ → List Char → Prop} {d : σ}
  {out s : List Char} {args : List (Argument E)}

theorem called_length {d' : σ} (fits : (out ++ s).length < 2 ^ 31) :
    Progress.called ⟨d, out.length, args⟩ (d', (s.length : ℤ)) =
      .ok (⟨d', (out ++ s).length, args⟩, true) := by
  rw [List.length_append] at fits
  have sum : (out.length : ℤ) + s.length < 2 ^ 31 := by omega
  have length : ((out ++ s).length : ℤ) = (out.length : ℤ) + s.length := by
    rw [List.length_append, Nat.cast_add]
  simp only [Progress.called]
  rw [if_neg (by omega), if_pos sum, length]

theorem length_lt_of_append (fits : (out ++ s).length < 2 ^ 31) : s.length < 2 ^ 31 := by
  rw [List.length_append] at fits
  omega

theorem Callbacks.Emits.runString (emits : cb.Emits elementText ready holds) (start : ready d out)
    (fits : (out ++ s).length < 2 ^ 31) : ∃ d', holds d' (out ++ s) ∧ ∀ calls args,
      runCalls cb (.string s :: calls) ⟨d, out.length, args⟩ =
        runCalls cb calls ⟨d', (out ++ s).length, args⟩ := by
  obtain ⟨d', run, holds'⟩ := emits.string start (length_lt_of_append fits)
  refine ⟨d', holds', ?_⟩
  intro calls args
  simp only [runCalls, run, called_length fits, bind, Except.bind, if_true]

theorem Callbacks.Emits.runFormat (emits : cb.Emits elementText ready holds) (start : ready d out)
    {f : List Char} {a : Argument E} (text : gmpText f [a] = some s)
    (fits : (out ++ s).length < 2 ^ 31) : ∃ d', holds d' (out ++ s) ∧ ∀ calls args,
      runCalls cb (.format f :: calls) ⟨d, out.length, a :: args⟩ =
        runCalls cb calls ⟨d', (out ++ s).length, args⟩ := by
  obtain ⟨d', run, holds'⟩ := emits.format start text (length_lt_of_append fits)
  refine ⟨d', holds', ?_⟩
  intro calls args
  simp only [runCalls, Progress.vaArg, Callbacks.format, run, called_length fits, bind, Except.bind,
    if_true]

theorem Callbacks.Emits.runElement (emits : cb.Emits elementText ready holds) (start : ready d out)
    {e : E} (fits : (out ++ elementText e).length < 2 ^ 31) :
    ∃ d', holds d' (out ++ elementText e) ∧ ∀ calls args,
      runCalls cb (.element :: calls) ⟨d, out.length, .element e :: args⟩ =
        runCalls cb calls ⟨d', (out ++ elementText e).length, args⟩ := by
  obtain ⟨d', run, holds'⟩ := emits.element start (length_lt_of_append fits)
  refine ⟨d', holds', ?_⟩
  intro calls args
  simp only [runCalls, Progress.vaElement, run, called_length fits, bind, Except.bind, if_true]

/-- A start of the whole text fits too. -/
theorem fits_of_append {first rest : List Char} (fits : (first ++ rest).length < 2 ^ 31) :
    first.length < 2 ^ 31 := by
  rw [List.length_append] at fits
  omega

/-- So do the starts that a text and what is printed behind it make. -/
theorem fits_of_shape {text piece rest : List Char} {whole : List Char}
    (fits : whole.length < 2 ^ 31) (shape : whole = text ++ piece ++ [] ++ rest) :
    (text ++ piece).length < 2 ^ 31 ∧ text.length < 2 ^ 31 := by
  rw [shape] at fits
  have pair := fits_of_append (fits_of_append fits)
  exact ⟨pair, fits_of_append pair⟩

variable (cb ready holds) in
/-- From every mode on, the calls for the pieces print what is still to be printed. -/
def Prints (elementText : E → List Char) (pieces : List (Piece E)) : Prop :=
  ∀ {pending : Bool} {mode : Mode} {text out whole : List Char} {d : σ},
    Pending E pending mode text → EscapesClosed pending pieces → ready d out →
    whole = out ++ text ++ textOf elementText pieces → whole.length < 2 ^ 31 →
    ∃ d', runCalls cb (callsOf mode (formatOf pieces)) ⟨d, out.length, argsOf pieces⟩ =
      .ok ⟨d', whole.length, []⟩ ∧ holds d' whole

theorem Prints.nil (emits : cb.Emits elementText ready holds) :
    Prints cb ready holds elementText [] := by
  intro pending mode text out whole d behind closed start same fits
  cases behind with
  | text text =>
    change whole = out ++ text ++ [] at same
    rw [List.append_nil] at same
    subst same
    obtain ⟨d', holds', run⟩ := emits.runString start fits
    exact ⟨d', (run _ _).trans rfl, holds'⟩
  | escape expands some => exact absurd closed Bool.true_eq_false_eq_False

section Step

variable {pieces : List (Piece E)} (rest : Prints cb ready holds elementText pieces)

include rest

theorem Prints.literal (c : Char) (plain : c ≠ '%' ∧ c ≠ nul) :
    Prints cb ready holds elementText (.literal c plain :: pieces) := by
  intro pending mode text out whole d behind closed start same fits
  have shape : whole = out ++ (text ++ [c]) ++ textOf elementText pieces := by
    rw [same]
    change out ++ text ++ c :: textOf elementText pieces = _
    simp only [List.append_assoc, List.cons_append, List.nil_append]
  change ∃ d', runCalls cb (callsOf mode (c :: formatOf pieces)) ⟨d, out.length, argsOf pieces⟩ = _ ∧ _
  cases behind with
  | text text =>
    rw [callsOf_literal plain.1]
    exact rest (.text _) closed.2 start shape fits
  | escape expands some =>
    obtain ⟨other, quiet⟩ := closed.1 rfl
    rw [callsOf_skip other quiet]
    have behind := (Pending.escape expands some).extend (expands_literal plain.1)
    exact rest behind closed.2 start shape fits

theorem Prints.percent (emits : cb.Emits elementText ready holds) :
    Prints cb ready holds elementText (.percent :: pieces) := by
  intro pending mode text out whole d behind closed start same fits
  change ∃ d', runCalls cb (callsOf mode ('%' :: '%' :: formatOf pieces))
    ⟨d, out.length, argsOf pieces⟩ = _ ∧ _
  cases behind with
  | text text =>
    have shape : whole = (out ++ text) ++ ['%'] ++ textOf elementText pieces := by
      rw [same]
      change out ++ text ++ '%' :: textOf elementText pieces = _
      simp only [List.append_assoc, List.cons_append, List.nil_append]
    have fits' := fits
    rw [shape] at fits'
    rw [callsOf_text_percent, callsOf_percent_skip, callsOf_percent_skip]
    obtain ⟨d', holds', run⟩ := emits.runString (s := text) start
      (fits_of_append (fits_of_append fits'))
    rw [run]
    exact rest (.escape expands_percent Nat.one_pos) closed (emits.weaken holds') shape fits
  | @escape percent text expands some =>
    have shape : whole = out ++ (text ++ ['%']) ++ textOf elementText pieces := by
      rw [same]
      change out ++ text ++ '%' :: textOf elementText pieces = _
      simp only [List.append_assoc, List.cons_append, List.nil_append]
    rw [callsOf_percent_skip, callsOf_percent_skip, List.append_assoc]
    exact rest ((Pending.escape expands some).extend expands_percent) closed start shape fits

theorem Prints.element (emits : cb.Emits elementText ready holds) (e : E) :
    Prints cb ready holds elementText (.element e :: pieces) := by
  intro pending mode text out whole d behind closed start same fits
  obtain ⟨opened, closed⟩ := closed
  subst opened
  cases behind with
  | text text =>
    have shape : whole = (out ++ text ++ elementText e) ++ [] ++ textOf elementText pieces := by
      rw [same]
      change out ++ text ++ (elementText e ++ textOf elementText pieces) = _
      simp only [List.append_assoc, List.nil_append]
    obtain ⟨pair, alone⟩ := fits_of_shape fits shape
    change ∃ d', runCalls cb (callsOf (.text text) ('%' :: 'B' :: formatOf pieces))
      ⟨d, out.length, .element e :: argsOf pieces⟩ = _ ∧ _
    rw [callsOf_text_percent, callsOf_percent_skip, callsOf_element]
    obtain ⟨d', holds', run⟩ := emits.runString (s := text) start alone
    obtain ⟨d', holds', run'⟩ := emits.runElement (e := e) (emits.weaken holds') pair
    rw [run, run']
    exact rest (.text []) closed (emits.weaken holds') shape fits

theorem Prints.value (emits : cb.Emits elementText ready holds) (v : PrintValue) :
    Prints cb ready holds elementText (.value v :: pieces) := by
  intro pending mode text out whole d behind closed start same fits
  have shape : whole = (out ++ text ++ v.text) ++ [] ++ textOf elementText pieces := by
    rw [same]
    change out ++ text ++ (v.text ++ textOf elementText pieces) = _
    simp only [List.append_assoc, List.nil_append]
  obtain ⟨pair, alone⟩ := fits_of_shape fits shape
  change ∃ d', runCalls cb (callsOf mode (v.directive ++ formatOf pieces))
    ⟨d, out.length, .value v :: argsOf pieces⟩ = _ ∧ _
  cases behind with
  | text text =>
    rw [callsOf_text_directive]
    obtain ⟨d', holds', run⟩ := emits.runString (s := text) start alone
    obtain ⟨d', holds', run'⟩ :=
      emits.runFormat (emits.weaken holds') (gmpText_directive (E := E) v) pair
    rw [run, run']
    exact rest (.text []) closed (emits.weaken holds') shape fits
  | escape expands some =>
    rw [callsOf_directive]
    rw [List.append_assoc] at pair
    obtain ⟨d', holds', run⟩ := emits.runFormat start (expands.directive v) pair
    rw [run]
    rw [← List.append_assoc] at holds' ⊢
    exact rest (.text []) closed (emits.weaken holds') shape fits

end Step

/-- Where every escape is closed, the calls print the text. -/
theorem runCalls_emits (emits : cb.Emits elementText ready holds) (pieces : List (Piece E)) :
    Prints cb ready holds elementText pieces := by
  induction pieces with
  | nil => exact Prints.nil emits
  | cons piece pieces rest =>
    cases piece with
    | literal c plain => exact rest.literal c plain
    | percent => exact rest.percent emits
    | element e => exact rest.element emits e
    | value v => exact rest.value emits v

theorem streamCallbacks_emits : (streamCallbacks elementText).Emits elementText Eq Eq where
  weaken holds := holds
  string := by
    rintro d out s rfl fits
    refine ⟨d ++ s, ?_, rfl⟩
    simp only [streamCallbacks, bmod_length fits]
  format := by
    rintro d out f a text rfl expansion fits
    refine ⟨d ++ text, ?_, rfl⟩
    simp only [streamCallbacks, expansion, Option.map_some, lengthStatus, if_pos fits]
  element := by
    rintro d out e rfl fits
    refine ⟨d ++ elementText e, ?_, rfl⟩
    simp only [streamCallbacks, lengthStatus, if_pos fits]

/-- A buffer that something was printed into. -/
def Room.Filled (p : Room) (m : CharMemory) (s size : ℕ) (text : List Char) : Prop :=
  p.Holds m s size text ∧ p.memory = printed m s size text

theorem bufferCallbacks_emits (m : CharMemory) (s size : ℕ) :
    (bufferCallbacks elementText s size).Emits elementText (Room.Holds · m s size)
      (Room.Filled · m s size) where
  weaken filled := filled.1
  string := by
    intro d out text ready fits
    obtain ⟨d', run, filled⟩ := ready.print (snprintfAt_prints text) fits
    exact ⟨d', run, filled⟩
  format := by
    intro d out f a text ready expansion fits
    obtain ⟨d', run, filled⟩ := ready.print (snprintfAt_prints text) fits
    refine ⟨d', ?_, filled⟩
    simp only [bufferCallbacks, expansion, Option.map_some, run]
  element := by
    intro d out e ready fits
    obtain ⟨d', run, filled⟩ := ready.print (snprintfAt_prints (elementText e)) fits
    exact ⟨d', run, filled⟩

end Emitting

section Failing

variable {elementText} {p p' : Progress (List Char) E} {calls : List Call}

/-- A run that is not ended by an error goes on behind a callback. -/
theorem called_go {p p' : Progress σ E} {result : σ × ℤ}
    {rest : Progress σ E → Except PrintfFault (Progress σ E)}
    (run : (p.called result >>= fun q => if q.2 then rest q.1 else pure q.1) = .ok p')
    (counted : 0 ≤ p'.count) :
    ∃ count : ℤ, count < 2 ^ 31 ∧ rest ⟨result.1, count, p.args⟩ = .ok p' := by
  obtain ⟨data, status⟩ := result
  by_cases error : status < 0
  · simp only [Progress.called, if_pos error, bind, Except.bind, Bool.false_eq_true, if_false, pure,
      Except.pure] at run
    cases run
    exact absurd counted (not_le.mpr neg_one_lt_zero)
  by_cases small : p.count + status < 2 ^ 31
  · simp only [Progress.called, if_neg error, if_pos small, bind, Except.bind, if_true] at run
    exact ⟨_, small, run⟩
  · simp only [Progress.called, if_neg error, if_neg small, bind, Except.bind] at run
    cases run

theorem string_go {s : List Char}
    (run : runCalls (streamCallbacks elementText) (.string s :: calls) p = .ok p')
    (counted : 0 ≤ p'.count) : ∃ count : ℤ, count < 2 ^ 31 ∧
      runCalls (streamCallbacks elementText) calls ⟨p.data ++ s, count, p.args⟩ = .ok p' :=
  called_go run counted

theorem format_go {f : List Char}
    (run : runCalls (streamCallbacks elementText) (.format f :: calls) p = .ok p')
    (counted : 0 ≤ p'.count) : ∃ a args text, p.args = a :: args ∧ gmpText f [a] = some text ∧
      ∃ count : ℤ, count < 2 ^ 31 ∧
        runCalls (streamCallbacks elementText) calls ⟨p.data ++ text, count, args⟩ = .ok p' := by
  obtain ⟨data, count, args⟩ := p
  cases args with
  | nil => cases run
  | cons a args =>
    have call : runCalls (streamCallbacks elementText) (.format f :: calls) ⟨data, count, a :: args⟩ =
        ((streamCallbacks elementText).format ⟨data, count, args⟩ f a >>= fun q =>
          if q.2 then runCalls (streamCallbacks elementText) calls q.1 else pure q.1) := rfl
    rw [call, Callbacks.format] at run
    cases expansion : gmpText f [a] with
    | none =>
      have failed : (streamCallbacks elementText).fstrcb data f a = none := by
        simp only [streamCallbacks, expansion, Option.map_none]
      simp only [failed] at run
      cases run
    | some text =>
      have printed : (streamCallbacks elementText).fstrcb data f a =
          some (data ++ text, lengthStatus text.length) := by
        simp only [streamCallbacks, expansion, Option.map_some]
      simp only [printed] at run
      exact ⟨a, args, text, rfl, expansion, called_go run counted⟩

theorem element_go (run : runCalls (streamCallbacks elementText) (.element :: calls) p = .ok p')
    (counted : 0 ≤ p'.count) : ∃ e args, p.args = .element e :: args ∧ ∃ count : ℤ, count < 2 ^ 31 ∧
      runCalls (streamCallbacks elementText) calls ⟨p.data ++ elementText e, count, args⟩ = .ok p' := by
  obtain ⟨data, count, args⟩ := p
  cases args with
  | nil => cases run
  | cons a args =>
    cases a with
    | element e => exact ⟨e, args, rfl, called_go run counted⟩
    | value v => cases run

/-- The count stays an `int`. -/
theorem count_lt (run : runCalls (streamCallbacks elementText) calls p = .ok p')
    (counted : 0 ≤ p'.count) (start : p.count < 2 ^ 31) : p'.count < 2 ^ 31 := by
  induction calls generalizing p with
  | nil =>
    cases run
    exact start
  | cons call calls ih =>
    cases call with
    | string s =>
      obtain ⟨count, small, run⟩ := string_go run counted
      exact ih run small
    | format f =>
      obtain ⟨a, args, text, -, -, count, small, run⟩ := format_go run counted
      exact ih run small
    | element =>
      obtain ⟨e, args, -, count, small, run⟩ := element_go run counted
      exact ih run small

/-- A literal is passed over, or taken for a conversion. -/
theorem literal_go {pending : Bool} {mode : Mode} {text : List Char} (behind : Pending E pending mode text)
    {c : Char} (plain : c ≠ '%') {format : List Char}
    (run : runCalls (streamCallbacks elementText) (callsOf mode (c :: format)) p = .ok p')
    (counted : 0 ≤ p'.count) :
    (∃ mode', Pending E pending mode' (text ++ [c]) ∧ (pending = true → c ≠ 'B' ∧ c ∉ conversions) ∧
      runCalls (streamCallbacks elementText) (callsOf mode' format) p = .ok p') ∨
    (pending = true ∧ ¬(c ≠ 'B' ∧ c ∉ conversions) ∧
      ∃ q : Progress (List Char) E, q.args.length + 1 = p.args.length ∧
        runCalls (streamCallbacks elementText) (callsOf (.text []) format) q = .ok p') := by
  cases behind with
  | text text =>
    rw [callsOf_literal plain] at run
    exact Or.inl ⟨_, .text _, nofun, run⟩
  | escape expands some =>
    by_cases element : c = 'B'
    · rw [element, callsOf_element] at run
      obtain ⟨e, args, taken, count, -, run⟩ := element_go run counted
      exact Or.inr ⟨rfl, fun quiet => quiet.1 element, _, (congrArg List.length taken).symm, run⟩
    by_cases conversion : c ∈ conversions
    · rw [callsOf_end _ element conversion] at run
      obtain ⟨a, args, _, taken, -, count, -, run⟩ := format_go run counted
      exact Or.inr ⟨rfl, fun quiet => quiet.2 conversion, _, (congrArg List.length taken).symm, run⟩
    · rw [callsOf_skip element conversion] at run
      exact Or.inl ⟨_, (Pending.escape expands some).extend (expands_literal plain),
        fun _ => ⟨element, conversion⟩, run⟩

/-- An escape adds a percent sign to what is still to be printed. -/
theorem percent_go {pending : Bool} {mode : Mode} {text : List Char} (behind : Pending E pending mode text)
    {format : List Char}
    (run : runCalls (streamCallbacks elementText) (callsOf mode ('%' :: '%' :: format)) p = .ok p')
    (counted : 0 ≤ p'.count) :
    ∃ mode' text', Pending E true mode' text' ∧ ∃ q : Progress (List Char) E, q.args = p.args ∧
      q.data.length + text'.length = p.data.length + text.length + 1 ∧
      runCalls (streamCallbacks elementText) (callsOf mode' format) q = .ok p' := by
  cases behind with
  | text text =>
    rw [callsOf_text_percent, callsOf_percent_skip, callsOf_percent_skip] at run
    obtain ⟨count, -, run⟩ := string_go run counted
    refine ⟨_, _, .escape expands_percent Nat.one_pos, ⟨p.data ++ text, count, p.args⟩, rfl, ?_, run⟩
    rw [List.length_append]
    rfl
  | @escape start text expands some =>
    rw [callsOf_percent_skip, callsOf_percent_skip, List.append_assoc] at run
    refine ⟨_, _, (Pending.escape expands some).extend expands_percent, p, rfl, ?_, run⟩
    rw [List.length_append]
    rfl

/-- An element is printed, but what is behind an escape is not. -/
theorem elementPiece_go {pending : Bool} {mode : Mode} {text : List Char}
    (behind : Pending E pending mode text) {format : List Char}
    (run : runCalls (streamCallbacks elementText) (callsOf mode ('%' :: 'B' :: format)) p = .ok p')
    (counted : 0 ≤ p'.count) :
    ∃ e, ∃ q : Progress (List Char) E, p.args = .element e :: q.args ∧
      (pending = false → q.data.length = p.data.length + text.length + (elementText e).length) ∧
      (pending = true → q.data.length < p.data.length + text.length + (elementText e).length) ∧
      runCalls (streamCallbacks elementText) (callsOf (.text []) format) q = .ok p' := by
  cases behind with
  | text text =>
    rw [callsOf_text_percent, callsOf_percent_skip, callsOf_element] at run
    obtain ⟨count, -, run⟩ := string_go run counted
    obtain ⟨e, args, taken, count, -, run⟩ := element_go run counted
    refine ⟨e, _, taken, ?_, nofun, run⟩
    intro _
    simp only [List.length_append]
  | escape expands some =>
    rw [callsOf_percent_skip, callsOf_element] at run
    obtain ⟨e, args, taken, count, -, run⟩ := element_go run counted
    refine ⟨e, _, taken, nofun, ?_, run⟩
    intro _
    rw [List.length_append]
    omega

/-- A value is printed behind the text so far. -/
theorem value_go {pending : Bool} {mode : Mode} {text : List Char} (behind : Pending E pending mode text)
    {v : PrintValue} {format : List Char}
    (run : runCalls (streamCallbacks elementText) (callsOf mode (v.directive ++ format)) p = .ok p')
    (counted : 0 ≤ p'.count) :
    ∃ a, ∃ q : Progress (List Char) E, p.args = a :: q.args ∧
      (a = .value v → q.data.length = p.data.length + text.length + v.text.length) ∧
      runCalls (streamCallbacks elementText) (callsOf (.text []) format) q = .ok p' := by
  cases behind with
  | text text =>
    rw [callsOf_text_directive] at run
    obtain ⟨count, -, run⟩ := string_go run counted
    obtain ⟨a, args, printed, taken, expansion, count, -, run⟩ := format_go run counted
    refine ⟨a, _, taken, ?_, run⟩
    rintro rfl
    rw [gmpText_directive] at expansion
    cases expansion
    simp only [List.length_append]
  | escape expands some =>
    rw [callsOf_directive] at run
    obtain ⟨a, args, printed, taken, expansion, count, -, run⟩ := format_go run counted
    refine ⟨a, _, taken, ?_, run⟩
    rintro rfl
    rw [expands.directive] at expansion
    cases expansion
    simp only [List.length_append, Nat.add_assoc]

/-- Between an escape and the conversion that closes it, no literal is taken for a conversion. -/
def NoExtra : Bool → List (Piece E) → Prop
  | _, [] => True
  | pending, .literal c _ :: pieces =>
      (pending = true → c ≠ 'B' ∧ c ∉ conversions) ∧ NoExtra pending pieces
  | _, .percent :: pieces => NoExtra true pieces
  | _, .element _ :: pieces => NoExtra false pieces
  | _, .value _ :: pieces => NoExtra false pieces

/-- Each conversion takes an argument, and so does each literal that is taken for one. -/
theorem args_le {pending : Bool} {mode : Mode} {text : List Char} (behind : Pending E pending mode text)
    {pieces : List (Piece E)}
    (run : runCalls (streamCallbacks elementText) (callsOf mode (formatOf pieces)) p = .ok p')
    (counted : 0 ≤ p'.count) : p'.args.length + (argsOf pieces).length ≤ p.args.length ∧
      (p'.args.length + (argsOf pieces).length = p.args.length → NoExtra pending pieces) := by
  induction pieces generalizing pending mode text p with
  | nil =>
    cases behind with
    | text text =>
      obtain ⟨count, -, run⟩ := string_go run counted
      cases run
      exact ⟨Nat.le_refl _, fun _ => trivial⟩
    | escape expands some =>
      cases run
      exact ⟨Nat.le_refl _, fun _ => trivial⟩
  | cons piece pieces ih =>
    cases piece with
    | literal c plain =>
      rw [argsOf]
      rcases literal_go behind plain.1 run counted with
        ⟨mode', behind', quiet, run⟩ | ⟨-, -, q, taken, run⟩
      · obtain ⟨enough, exact⟩ := ih behind' run
        exact ⟨enough, fun same => ⟨quiet, exact same⟩⟩
      · obtain ⟨enough, -⟩ := ih (.text []) run
        exact ⟨by omega, fun same => by omega⟩
    | percent =>
      obtain ⟨mode', text', behind', q, args, -, run⟩ := percent_go behind run counted
      obtain ⟨enough, exact⟩ := ih behind' run
      rw [args] at enough exact
      exact ⟨enough, exact⟩
    | element e =>
      obtain ⟨e', q, taken, -, -, run⟩ := elementPiece_go behind run counted
      obtain ⟨enough, exact⟩ := ih (.text []) run
      rw [argsOf, taken, List.length_cons, List.length_cons]
      exact ⟨by omega, fun same => exact (by omega)⟩
    | value v =>
      obtain ⟨a, q, taken, -, run⟩ := value_go behind run counted
      obtain ⟨enough, exact⟩ := ih (.text []) run
      rw [argsOf, taken, List.length_cons, List.length_cons]
      exact ⟨by omega, fun same => exact (by omega)⟩

/-- With the right arguments, all of the text is printed only if every escape is closed. -/
theorem text_le {pending : Bool} {mode : Mode} {text : List Char} (behind : Pending E pending mode text)
    {pieces : List (Piece E)} (extra : NoExtra pending pieces) (args : p.args = argsOf pieces)
    (run : runCalls (streamCallbacks elementText) (callsOf mode (formatOf pieces)) p = .ok p')
    (counted : 0 ≤ p'.count) :
    p'.data.length ≤ p.data.length + text.length + (textOf elementText pieces).length ∧
      (p'.data.length = p.data.length + text.length + (textOf elementText pieces).length →
        EscapesClosed pending pieces) := by
  induction pieces generalizing pending mode text p with
  | nil =>
    cases behind with
    | text text =>
      obtain ⟨count, -, run⟩ := string_go run counted
      cases run
      rw [List.length_append]
      exact ⟨Nat.le_refl _, fun _ => rfl⟩
    | escape expands some =>
      cases run
      exact ⟨by omega, fun same => by omega⟩
  | cons piece pieces ih =>
    cases piece with
    | literal c plain =>
      rcases literal_go behind plain.1 run counted with
        ⟨mode', behind', quiet, run⟩ | ⟨escaped, loud, -⟩
      · obtain ⟨enough, exact⟩ := ih behind' extra.2 args run
        rw [List.length_append, List.length_singleton] at enough exact
        rw [textOf, List.length_cons]
        exact ⟨by omega, fun same => ⟨quiet, exact (by omega)⟩⟩
      · exact absurd (extra.1 escaped) loud
    | percent =>
      obtain ⟨mode', text', behind', q, args', length, run⟩ := percent_go behind run counted
      obtain ⟨enough, exact⟩ := ih behind' extra (args'.trans args) run
      rw [textOf, List.length_cons]
      exact ⟨by omega, fun same => exact (by omega)⟩
    | element e =>
      obtain ⟨e', q, taken, printed, dropped, run⟩ := elementPiece_go behind run counted
      rw [taken, argsOf] at args
      obtain ⟨same, args'⟩ := List.cons.inj args
      cases same
      obtain ⟨enough, exact⟩ := ih (.text []) extra args' run
      rw [List.length_nil] at enough exact
      rw [textOf, List.length_append]
      cases pending with
      | false =>
        have length := printed rfl
        exact ⟨by omega, fun same => ⟨rfl, exact (by omega)⟩⟩
      | true =>
        have length := dropped rfl
        exact ⟨by omega, fun same => by omega⟩
    | value v =>
      obtain ⟨a, q, taken, printed, run⟩ := value_go behind run counted
      rw [taken, argsOf] at args
      obtain ⟨same, args⟩ := List.cons.inj args
      obtain ⟨enough, exact⟩ := ih (.text []) extra args run
      have length := printed same
      rw [List.length_nil] at enough exact
      rw [textOf, List.length_append]
      exact ⟨by omega, fun same => exact (by omega)⟩

end Failing

theorem nul_not_mem_formatOf (pieces : List (Piece E)) : nul ∉ formatOf pieces := by
  induction pieces with
  | nil => exact List.not_mem_nil
  | cons piece pieces ih =>
    cases piece with
    | literal c plain =>
      rintro (same | ⟨_, member⟩)
      · exact plain.2 rfl
      · exact ih member
    | percent =>
      simp only [formatOf, List.mem_cons, not_or]
      exact ⟨by decide, by decide, ih⟩
    | element e =>
      simp only [formatOf, List.mem_cons, not_or]
      exact ⟨by decide, by decide, ih⟩
    | value v =>
      have clean : nul ∉ v.directive := by
        cases v with
        | int i => exact (by decide : nul ∉ ['%', 'd'])
        | string s => exact (by decide : nul ∉ ['%', 's'])
        | mpz z => exact (by decide : nul ∉ ['%', 'Z', 'd'])
      rw [formatOf, List.mem_append, not_or]
      exact ⟨clean, ih⟩

theorem doPrint_eq (cb : Callbacks σ E) (data : σ) (pieces : List (Piece E)) :
    doPrint cb data (formatOf pieces) (argsOf pieces) =
      runCalls cb (callsOf (.text []) (formatOf pieces)) ⟨data, 0, argsOf pieces⟩ :=
  doPrintLoop_eq cb [] _ (Nat.lt_succ_self _) (nul_not_mem_formatOf pieces)

/-- The format `100%%`. -/
def hundredPercent : List (Piece Unit) :=
  [.literal '1' (by decide), .literal '0' (by decide), .literal '0' (by decide), .percent]

end Pieces

end Pbc.Misc
