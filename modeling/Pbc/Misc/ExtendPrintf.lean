import Pbc.Arith.Text
import Pbc.Misc.Snprintf

/-!
# Formatted printing

`do_print` splits a format at its percent signs, in place and with temporary terminators,
and hands the parts and the arguments to three callbacks. Which calls it makes is read off the
format alone.
-/

open Pbc.Arith (mpzOutStr)

namespace Pbc.Misc

variable {σ E : Type}

/-- A value that GMP prints. -/
inductive PrintValue where
  | int (i : ℤ)
  | string (s : List Char)
  | mpz (z : ℤ)

/-- An argument of a format; `E` are the elements. -/
inductive Argument (E : Type) where
  | element (e : E)
  | value (v : PrintValue)

/-- What ends a run early: an argument that is missing or has another type, an `int` that is too
large. -/
inductive PrintfFault where
  | argument
  | overflow
  | fuel
deriving DecidableEq

section Operations

/-- The text that the printf of GMP makes of a format and its arguments, for the directives that
occur here. Arguments that are not used do not matter. -/
def gmpText : List Char → List (Argument E) → Option (List Char)
  | [], _ => some []
  | '%' :: '%' :: format, args => (gmpText format args).map ('%' :: ·)
  | '%' :: 'd' :: format, .value (.int i) :: args => (gmpText format args).map (mpzOutStr i ++ ·)
  | '%' :: 's' :: format, .value (.string s) :: args => (gmpText format args).map (s ++ ·)
  | '%' :: 'Z' :: 'd' :: format, .value (.mpz z) :: args =>
      (gmpText format args).map (mpzOutStr z ++ ·)
  | c :: format, args => if c = '%' then none else (gmpText format args).map (c :: ·)

/-- The three callbacks of `do_print`. They give the new state of `data`, and a status. -/
structure Callbacks (σ E : Type) where
  strcb : σ → List Char → σ × ℤ
  fstrcb : σ → List Char → Argument E → Option (σ × ℤ)
  elcb : σ → E → σ × ℤ

/-- What `do_print` has done so far. -/
structure Progress (σ E : Type) where
  data : σ
  count : ℤ
  args : List (Argument E)

/-- The status of a callback: `count = -1; goto done` or `count += status`. -/
def Progress.called (p : Progress σ E) (result : σ × ℤ) : Except PrintfFault (Progress σ E × Bool) :=
  let (data, status) := result
  if status < 0 then .ok ({ p with data := data, count := -1 }, false)
  else if p.count + status < 2 ^ 31 then
    .ok ({ p with data := data, count := p.count + status }, true)
  else .error .overflow

/-- `va_arg(ap, void *)`. -/
def Progress.vaArg (p : Progress σ E) : Except PrintfFault (Argument E × Progress σ E) :=
  match p.args with
  | ptr :: args => .ok (ptr, { p with args := args })
  | [] => .error .argument

/-- `va_arg(ap, element_ptr)`. -/
def Progress.vaElement (p : Progress σ E) : Except PrintfFault (E × Progress σ E) :=
  match p.args with
  | .element e :: args => .ok (e, { p with args := args })
  | _ => .error .argument

/-- A call of `fstrcb`, with one argument. -/
def Callbacks.format (cb : Callbacks σ E) (p : Progress σ E) (fstring : List Char)
    (ptr : Argument E) : Except PrintfFault (Progress σ E × Bool) :=
  match cb.fstrcb p.data fstring ptr with
  | some result => p.called result
  | none => .error .argument

/-- `copy[i]`. -/
def charAt (copy : List Char) (i : ℕ) : Char := copy.getD i nul

/-- The string at `copy + i`. -/
def cString (copy : List Char) (i : ℕ) : List Char := (copy.drop i).takeWhile (· ≠ nul)

/-- `strchr(copy + i, c)`. -/
def strchr (copy : List Char) (i : ℕ) (c : Char) : Option ℕ :=
  if c ∈ cString copy i then some (i + (cString copy i).idxOf c) else none

/-- The characters that end a conversion, beside `B`. -/
def conversions : List Char :=
  ['d', 'i', 'o', 'u', 'x', 'X', 'e', 'E', 'f', 'F', 'g', 'G', 'a', 'A', 'c', 's', 'p', 'n', 'm']

/-- How the search for a percent sign ends. -/
inductive Search where
  | rest
  | last
  | found (c : ℕ)

/-- The inner loop that looks for a percent sign. In `!*(c + 1) != '%'` the negation, which is 0
or 1, is compared. -/
def search (copy : List Char) : ℕ → ℕ → Except PrintfFault Search
  | 0, _ => .error .fuel
  | fuel + 1, next =>
      match strchr copy next '%' with
      | none => .ok .rest
      | some c =>
          if charAt copy (c + 1) = nul then .ok .last
          else if (if charAt copy (c + 1) = nul then 1 else 0) ≠ '%'.toNat then .ok (.found c)
          else search copy fuel (c + 2)

/-- The loop `while(!found)`: the conversion behind the percent sign at `start`, from the
character behind `c` on. It gives the restored copy and the place of the conversion, or nothing
after a `goto done`. -/
def convert (cb : Callbacks σ E) (start : ℕ) : ℕ → ℕ → List Char → Progress σ E →
    Except PrintfFault (Progress σ E × Option (List Char × ℕ))
  | 0, _, _, _ => .error .fuel
  | fuel + 1, c, copy, p =>
      let c := c + 1
      if charAt copy c = nul then .ok (p, none)
      else if charAt copy c = 'B' then do
        let (e, p) ← p.vaElement
        let (p, more) ← p.called (cb.elcb p.data e)
        return (p, if more then some (copy, c) else none)
      else if charAt copy c ∈ conversions then do
        let (ptr, p) ← p.vaArg
        let ch := charAt copy (c + 1)
        let copy := copy.set (c + 1) nul
        let (p, more) ← cb.format p (cString copy start) ptr
        return (p, if more then some (copy.set (c + 1) ch, c) else none)
      else convert cb start fuel c copy p

/-- The outer loop of `do_print`, with `next` and `start` at one place. -/
def doPrintLoop (cb : Callbacks σ E) : ℕ → ℕ → List Char → Progress σ E →
    Except PrintfFault (Progress σ E)
  | 0, _, _, _ => .error .fuel
  | fuel + 1, start, copy, p => do
      match ← search copy copy.length start with
      | .rest =>
          let (p, _) ← p.called (cb.strcb p.data (cString copy start))
          return p
      | .last => return p
      | .found c =>
          let copy := copy.set c nul
          let (p, more) ← p.called (cb.strcb p.data (cString copy start))
          if more then
            let copy := copy.set c '%'
            let (p, next) ← convert cb c copy.length c copy p
            match next with
            | some (copy, c) => doPrintLoop cb fuel (c + 1) copy p
            | none => return p
          else return p

/-- `do_print`. -/
def doPrint (cb : Callbacks σ E) (data : σ) (format : List Char) (args : List (Argument E)) :
    Except PrintfFault (Progress σ E) :=
  doPrintLoop cb (format.length + 1) 0 (format ++ [nul]) { data := data, count := 0, args := args }

/-- `string_cb`, `format_cb` and `element_cb`, for a stream that takes everything. What an
element looks like is up to its field. -/
def streamCallbacks (elementText : E → List Char) : Callbacks (List Char) E where
  strcb out s := (out ++ s, Int.bmod s.length (2 ^ 32))
  fstrcb out fstring ptr :=
    (gmpText fstring [ptr]).map fun text => (out ++ text, lengthStatus text.length)
  elcb out e := (out ++ elementText e, lengthStatus (elementText e).length)

/-- `string_cb2`, `format_cb2` and `element_cb2`, for a buffer; `element_snprint` prints as
`snprintf` does. -/
def bufferCallbacks (elementText : E → List Char) (s size : ℕ) : Callbacks Room E where
  strcb p text := p.print s size (snprintfAt text)
  fstrcb p fstring ptr := (gmpText fstring [ptr]).map fun text => p.print s size (snprintfAt text)
  elcb p e := p.print s size (snprintfAt (elementText e))

end Operations

section Calls

/-- A call of a callback. -/
inductive Call where
  | string (s : List Char)
  | format (fstring : List Char)
  | element

/-- Where the scan of a format is: in a text, or behind a percent sign. -/
inductive Mode where
  | text (start : List Char)
  | conversion (start : List Char)

/-- The calls that the rest of a format leads to. -/
def callsOf : Mode → List Char → List Call
  | .text start, [] => [.string start]
  | .text start, c :: format =>
      if c = '%' then
        if format = [] then [] else .string start :: callsOf (.conversion ['%']) format
      else callsOf (.text (start ++ [c])) format
  | .conversion _, [] => []
  | .conversion start, c :: format =>
      if c = 'B' then .element :: callsOf (.text []) format
      else if c ∈ conversions then .format (start ++ [c]) :: callsOf (.text []) format
      else callsOf (.conversion (start ++ [c])) format

/-- Calls, one after the other. -/
def runCalls (cb : Callbacks σ E) : List Call → Progress σ E → Except PrintfFault (Progress σ E)
  | [], p => .ok p
  | .string s :: calls, p => do
      let (p, more) ← p.called (cb.strcb p.data s)
      if more then runCalls cb calls p else return p
  | .format fstring :: calls, p => do
      let (ptr, p) ← p.vaArg
      let (p, more) ← cb.format p fstring ptr
      if more then runCalls cb calls p else return p
  | .element :: calls, p => do
      let (e, p) ← p.vaElement
      let (p, more) ← p.called (cb.elcb p.data e)
      if more then runCalls cb calls p else return p

theorem cString_append (before text rest : List Char) (inside : nul ∉ text) :
    cString (before ++ text ++ nul :: rest) before.length = text := by
  have clean : ∀ c ∈ text, (decide (c ≠ nul)) = true := by
    intro c member
    exact decide_eq_true fun same => inside (same ▸ member)
  rw [cString, List.append_assoc, List.drop_left, List.takeWhile_append_of_pos clean,
    List.takeWhile_cons_of_neg (by simp), List.append_nil]

theorem charAt_append (before rest : List Char) (c : Char) :
    charAt (before ++ c :: rest) before.length = c := by
  rw [charAt, List.getD_append_right _ _ _ _ (Nat.le_refl _), Nat.sub_self, List.getD_cons_zero]

theorem set_append (before rest : List Char) (c d : Char) :
    (before ++ c :: rest).set before.length d = before ++ d :: rest := by
  rw [List.set_append_right _ _ (Nat.le_refl _), Nat.sub_self, List.set_cons_zero]

/-- The search, in a string without percent signs. -/
theorem search_rest {before s : List Char} (fuel : ℕ) (inside : nul ∉ s) (plain : '%' ∉ s) :
    search (before ++ s ++ [nul]) (fuel + 1) before.length = .ok .rest := by
  rw [search, strchr, cString_append before s [] inside, if_neg plain]

/-- The search, up to a percent sign. -/
theorem search_percent {before start : List Char} (fuel : ℕ) (inside : nul ∉ start)
    (plain : '%' ∉ start) (x : Char) (rest : List Char) :
    search (before ++ start ++ '%' :: x :: rest) (fuel + 1) before.length =
      .ok (if x = nul then .last else .found (before ++ start).length) := by
  have clean : ∀ c ∈ start, (decide (c ≠ nul)) = true := by
    intro c member
    exact decide_eq_true fun same => inside (same ▸ member)
  have string : cString (before ++ start ++ '%' :: x :: rest) before.length =
      start ++ '%' :: (x :: rest).takeWhile (· ≠ nul) := by
    rw [cString, List.append_assoc, List.drop_left, List.takeWhile_append_of_pos clean,
      List.takeWhile_cons_of_pos (by decide)]
  have place : strchr (before ++ start ++ '%' :: x :: rest) before.length '%' =
      some (before ++ start).length := by
    rw [strchr, string, if_pos (List.mem_append_right _ List.mem_cons_self),
      List.idxOf_append_of_notMem plain, List.idxOf_cons_self, Nat.add_zero, List.length_append]
  have behind : charAt (before ++ start ++ '%' :: x :: rest) ((before ++ start).length + 1) = x := by
    have shape : before ++ start ++ '%' :: x :: rest = (before ++ start ++ ['%']) ++ x :: rest := by
      rw [List.append_assoc _ ['%']]
      rfl
    rw [shape]
    have length : (before ++ start).length + 1 = (before ++ start ++ ['%']).length := by
      simp only [List.length_append, List.length_singleton]
    rw [length, charAt_append]
  rw [search, place]
  simp only [behind]
  split
  · rfl
  · rw [if_pos (by decide)]

/-- What the loop behind a percent sign comes to, and what the calls come to: both end, the loop
stops in front of a format that is shorter than `n`, or both fail. -/
inductive Converts (cb : Callbacks σ E) (n : ℕ) :
    Except PrintfFault (Progress σ E × Option (List Char × ℕ)) →
      Except PrintfFault (Progress σ E) → Prop where
  | ended (p : Progress σ E) : Converts cb n (.ok (p, none)) (.ok p)
  | stopped (p : Progress σ E) {before s : List Char} {c : ℕ} (place : c + 1 = before.length)
      (shorter : s.length < n) (inside : nul ∉ s) :
      Converts cb n (.ok (p, some (before ++ s ++ [nul], c))) (runCalls cb (callsOf (.text []) s) p)
  | failed (fault : PrintfFault) : Converts cb n (.error fault) (.error fault)

theorem Converts.mono {cb : Callbacks σ E} {n m : ℕ} (le : n ≤ m)
    {ran : Except PrintfFault (Progress σ E × Option (List Char × ℕ))}
    {calls : Except PrintfFault (Progress σ E)} (converts : Converts cb n ran calls) :
    Converts cb m ran calls := by
  cases converts with
  | ended p => exact .ended p
  | stopped p place shorter inside => exact .stopped p place (Nat.lt_of_lt_of_le shorter le) inside
  | failed fault => exact .failed fault

/-- The end of a conversion, after its callback. -/
theorem Converts.of_called {cb : Callbacks σ E} {n c : ℕ} {before s : List Char}
    (called : Except PrintfFault (Progress σ E × Bool)) (place : c + 1 = before.length)
    (shorter : s.length < n) (inside : nul ∉ s) :
    Converts cb n
      (called >>= fun q => pure (q.1, if q.2 then some (before ++ s ++ [nul], c) else none))
      (called >>= fun q => if q.2 then runCalls cb (callsOf (.text []) s) q.1 else pure q.1) := by
  cases called with
  | error fault => exact .failed fault
  | ok done =>
    obtain ⟨p', more⟩ := done
    cases more with
    | false => exact .ended p'
    | true => exact .stopped p' place shorter inside

/-- The terminator is put behind the conversion for the callback, and taken away again. -/
theorem cut_restored (before s : List Char) {start : List Char} (inside : nul ∉ start) :
    let copy := before ++ start ++ s ++ [nul]
    let cut := copy.set (before ++ start).length nul
    cString cut before.length = start ∧
      cut.set (before ++ start).length (charAt copy (before ++ start).length) = copy := by
  obtain ⟨d, rest, final⟩ : ∃ d rest, s ++ [nul] = d :: rest := by
    cases s with
    | nil => exact ⟨nul, [], rfl⟩
    | cons d rest => exact ⟨d, rest ++ [nul], rfl⟩
  rw [List.append_assoc _ s, final]
  intro copy cut
  have cut_eq : cut = before ++ start ++ nul :: rest := set_append _ _ _ _
  refine ⟨?_, ?_⟩
  · rw [cut_eq, cString_append before start rest inside]
  · rw [cut_eq, set_append, charAt_append]

/-- The loop behind a percent sign follows the calls. -/
theorem convert_converts (cb : Callbacks σ E) (before : List Char) {start s : List Char} {fuel c : ℕ}
    (p : Progress σ E) (place : c + 1 = (before ++ start).length) (enough : s.length < fuel)
    (inside : nul ∉ start) (inside' : nul ∉ s) :
    Converts cb s.length (convert cb before.length fuel c (before ++ start ++ s ++ [nul]) p)
      (runCalls cb (callsOf (.conversion start) s) p) := by
  induction s generalizing start fuel c with
  | nil =>
    obtain ⟨fuel, rfl⟩ := Nat.exists_eq_succ_of_ne_zero (Nat.ne_of_gt enough)
    have behind : charAt (before ++ start ++ [] ++ [nul]) (c + 1) = nul := by
      rw [List.append_nil, place, charAt_append]
    rw [convert]
    simp only [behind, if_true]
    exact .ended p
  | cons x s ih =>
    obtain ⟨fuel, rfl⟩ := Nat.exists_eq_succ_of_ne_zero (Nat.ne_of_gt (Nat.zero_lt_of_lt enough))
    have other : x ≠ nul := fun same => inside' (same ▸ List.mem_cons_self)
    have inside'' : nul ∉ s := fun member => inside' (List.mem_cons_of_mem _ member)
    have longer : nul ∉ start ++ [x] := by
      rw [List.mem_append, List.mem_singleton]
      rintro (member | same)
      · exact inside member
      · exact other same.symm
    have shape : before ++ start ++ x :: s ++ [nul] = before ++ start ++ x :: (s ++ [nul]) := by
      rw [List.append_assoc _ (x :: s), List.cons_append]
    have shape' : before ++ start ++ x :: s ++ [nul] = before ++ (start ++ [x]) ++ s ++ [nul] := by
      simp only [List.append_assoc, List.cons_append, List.nil_append]
    have behind : charAt (before ++ start ++ x :: s ++ [nul]) (c + 1) = x := by
      rw [shape, place, charAt_append]
    have next : c + 1 + 1 = (before ++ (start ++ [x])).length := by
      rw [place]
      simp only [List.length_append, List.length_singleton, Nat.add_assoc]
    rw [convert, callsOf]
    simp only [behind, if_neg other]
    rw [shape']
    by_cases element : x = 'B'
    · simp only [if_pos element, runCalls]
      cases p.vaElement with
      | error fault => exact .failed fault
      | ok taken => exact .of_called _ next (Nat.lt_succ_self _) inside''
    simp only [if_neg element]
    by_cases conversion : x ∈ conversions
    · obtain ⟨string, restored⟩ := cut_restored before s longer
      simp only [if_pos conversion, runCalls]
      cases p.vaArg with
      | error fault => exact .failed fault
      | ok taken =>
        simp only [bind, Except.bind, next, string, restored]
        exact .of_called _ next (Nat.lt_succ_self _) inside''
    · simp only [if_neg conversion]
      exact (ih next (Nat.lt_of_succ_lt_succ enough) longer inside'').mono (Nat.le_succ _)

theorem callsOf_plain {start s : List Char} (plain : '%' ∉ s) :
    callsOf (.text start) s = [.string (start ++ s)] := by
  induction s generalizing start with
  | nil => rw [callsOf, List.append_nil]
  | cons c s ih =>
    have other : c ≠ '%' := fun same => plain (same ▸ List.mem_cons_self)
    rw [callsOf, if_neg other, ih fun member => plain (List.mem_cons_of_mem _ member), List.append_assoc]
    rfl

theorem callsOf_percent {start s : List Char} (plain : '%' ∉ s) (format : List Char) :
    callsOf (.text start) (s ++ '%' :: format) =
      if format = [] then [] else .string (start ++ s) :: callsOf (.conversion ['%']) format := by
  induction s generalizing start with
  | nil => rw [List.nil_append, List.append_nil, callsOf, if_pos rfl]
  | cons c s ih =>
    have other : c ≠ '%' := fun same => plain (same ▸ List.mem_cons_self)
    rw [List.cons_append, callsOf, if_neg other, ih fun member => plain (List.mem_cons_of_mem _ member),
      List.append_assoc]
    rfl

/-- `do_print` makes the calls of the format, one after the other. -/
theorem doPrintLoop_eq (cb : Callbacks σ E) {fuel : ℕ} (before : List Char) {s : List Char}
    (p : Progress σ E) (enough : s.length < fuel) (inside : nul ∉ s) :
    doPrintLoop cb fuel before.length (before ++ s ++ [nul]) p =
      runCalls cb (callsOf (.text []) s) p := by
  induction fuel generalizing before s p with
  | zero => exact absurd enough (Nat.not_lt_zero _)
  | succ fuel ih =>
    obtain ⟨steps, length⟩ : ∃ steps, (before ++ s ++ [nul]).length = steps + 1 :=
      ⟨(before ++ s).length, by simp only [List.length_append, List.length_singleton]⟩
    by_cases percent : '%' ∈ s
    · obtain ⟨start, format, rfl, plain⟩ := List.eq_append_cons_of_mem percent
      have clean : nul ∉ start := fun member => inside (List.mem_append_left _ member)
      rw [doPrintLoop, length, callsOf_percent plain]
      cases format with
      | nil =>
        have copy : before ++ (start ++ ['%']) ++ [nul] = before ++ start ++ '%' :: nul :: [] := by
          simp only [List.append_assoc, List.cons_append, List.nil_append]
        rw [copy, search_percent steps clean plain, if_pos rfl, if_pos rfl]
        rfl
      | cons x rest =>
        have clean' : nul ∉ x :: rest := fun member =>
          inside (List.mem_append_right _ (List.mem_cons_of_mem _ member))
        have other : x ≠ nul := fun same => clean' (same ▸ List.mem_cons_self)
        have copy : before ++ (start ++ '%' :: x :: rest) ++ [nul] =
            before ++ start ++ '%' :: x :: (rest ++ [nul]) := by
          simp only [List.append_assoc, List.cons_append]
        have copy' : before ++ start ++ '%' :: x :: (rest ++ [nul]) =
            (before ++ start) ++ ['%'] ++ (x :: rest) ++ [nul] := by
          simp only [List.append_assoc, List.cons_append, List.nil_append]
        have place : (before ++ start).length + 1 = (before ++ start ++ ['%']).length := by
          simp only [List.length_append, List.length_singleton]
        rw [copy, search_percent steps clean plain, if_neg other, if_neg (List.cons_ne_nil _ _),
          List.nil_append, runCalls]
        simp only [bind, Except.bind, set_append, cString_append before start _ clean]
        cases p.called (cb.strcb p.data start) with
        | error fault => rfl
        | ok done =>
          obtain ⟨p', more⟩ := done
          cases more with
          | false => rfl
          | true =>
            simp only [if_true, copy']
            have room : (x :: rest).length < (before ++ start ++ ['%'] ++ (x :: rest) ++ [nul]).length := by
              simp only [List.length_append, List.length_singleton]
              omega
            have converts := convert_converts cb (before ++ start) p' place room (by decide) clean'
            generalize convert cb _ _ _ _ p' = ran at converts ⊢
            generalize runCalls cb (callsOf (.conversion ['%']) (x :: rest)) p' = calls at converts ⊢
            cases converts with
            | ended p'' => rfl
            | failed fault => rfl
            | @stopped p'' before' s' c' place' shorter clean'' =>
              have enough' : s'.length < fuel := by
                simp only [List.length_append, List.length_cons] at enough shorter
                omega
              simp only [place', ih before' p'' enough' clean'']
    · rw [doPrintLoop, length, search_rest steps inside percent, callsOf_plain percent, List.nil_append,
        runCalls]
      simp only [bind, Except.bind, cString_append before s [] inside, runCalls]
      cases p.called (cb.strcb p.data s) with
      | error fault => rfl
      | ok done =>
        obtain ⟨p', more⟩ := done
        cases more with
        | false => rfl
        | true => rfl

end Calls

end Pbc.Misc
