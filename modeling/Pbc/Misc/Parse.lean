import Mathlib.Algebra.Order.Group.Nat
import Mathlib.Data.List.Induction

/-!
# Tokens of a parameter text

The tokenizer that reads pairing parameters from a buffer or a stream, and the table into
which the words go in pairs. A source gives one character at a time and takes the last one
back. The loops have fuel; the length of what is left in the source is enough.
-/

namespace Pbc.Misc

section Sources

/-- `struct fetch_ops_s`; no character stands for `EOF`. -/
structure FetchOps (σ : Type) where
  getc : σ → Option Char × σ
  ungetc : Option Char → σ → σ

/-- `struct tracker_t`, with positions from `base` on. -/
structure Tracker where
  text : List Char
  p : ℕ

/-- `tracker_init`. -/
def trackerInit (text : List Char) : Tracker := ⟨text, 0⟩

/-- `fops_buf`. -/
def fopsBuf : FetchOps Tracker where
  getc t := if t.p = t.text.length then (none, t) else (t.text[t.p]?, { t with p := t.p + 1 })
  ungetc c t := if c = none then t else if t.p = 0 then t else { t with p := t.p - 1 }

/-- `fops_str`, on what is left of a stream. -/
def fopsStr : FetchOps (List Char) where
  getc
    | [] => (none, [])
    | c :: s => (some c, s)
  ungetc c s := c.toList ++ s

/-- A source is read from its front, and takes back the character that was read last. -/
structure FetchOps.Reads {σ : Type} (fops : FetchOps σ) (rest : σ → List Char) : Prop where
  eof : ∀ {s}, rest s = [] → ∃ s', fops.getc s = (none, s') ∧ rest (fops.ungetc none s') = []
  next : ∀ {s c r}, rest s = c :: r →
    ∃ s', fops.getc s = (some c, s') ∧ rest s' = r ∧ rest (fops.ungetc (some c) s') = c :: r

/-- What is left of a buffer. -/
def Tracker.rest (t : Tracker) : List Char := t.text.drop t.p

theorem fopsBuf_reads : fopsBuf.Reads Tracker.rest where
  eof {t} empty := by
    rw [Tracker.rest, List.drop_eq_nil_iff] at empty
    by_cases stop : t.p = t.text.length
    · refine ⟨t, if_pos stop, ?_⟩
      exact List.drop_eq_nil_iff.mpr empty
    · refine ⟨{ t with p := t.p + 1 }, ?_, ?_⟩
      · simp only [fopsBuf, if_neg stop, List.getElem?_eq_none empty]
      · exact List.drop_eq_nil_iff.mpr (Nat.le_succ_of_le empty)
  next {t c r} left := by
    rw [Tracker.rest] at left
    have inside : t.p < t.text.length := by
      by_contra outside
      rw [List.drop_eq_nil_iff.mpr (not_lt.mp outside)] at left
      cases left
    rw [List.drop_eq_getElem_cons inside, List.cons.injEq] at left
    obtain ⟨head, tail⟩ := left
    refine ⟨{ t with p := t.p + 1 }, ?_, tail, ?_⟩
    · simp only [fopsBuf, if_neg inside.ne, List.getElem?_eq_getElem inside, head]
    · show t.text.drop t.p = c :: r
      rw [List.drop_eq_getElem_cons inside, head, tail]

theorem fopsStr_reads : fopsStr.Reads id where
  eof {s} empty := by
    obtain rfl : s = [] := empty
    exact ⟨[], rfl, rfl⟩
  next {s c r} left := by
    obtain rfl : s = c :: r := left
    exact ⟨r, rfl, rfl, rfl⟩

end Sources

section Tokens

/-- The tokens of `token_get_generic`. -/
inductive Token where
  | langle
  | langleslash
  | rangle
  | word (s : List Char)
  | eof
  deriving DecidableEq, Repr

/-- The blanks; the search for a character finds the final zero of a string, too. -/
def isBlank (c : Char) : Bool := c = ' ' || c = '\t' || c = '\r' || c = '\n' || c.toNat = 0

/-- The characters that end a word. -/
def endsWord (c : Char) : Bool := isBlank c || c = '<' || c = '/' || c = '>'

variable {σ : Type} (fops : FetchOps σ)

/-- The blanks and comments in front of a token; `comment` tells whether a comment is being
skipped. -/
def skipWhitespace : ℕ → Bool → σ → Option (Option Char × σ)
  | 0, _, _ => none
  | fuel + 1, comment, ctx =>
      match fops.getc ctx with
      | (none, ctx) => some (none, ctx)
      | (some c, ctx) =>
          if comment then skipWhitespace fuel (c ≠ '\n') ctx
          else if isBlank c then skipWhitespace fuel false ctx
          else if c = '#' then skipWhitespace fuel true ctx
          else some (some c, ctx)

/-- The loop that collects a word in a buffer of `n` bytes, and fails where it would write
behind the buffer. -/
def wordLoop : ℕ → ℕ → List Char → Char → σ → Option (List Char × σ)
  | 0, _, _, _, _ => none
  | fuel + 1, n, buf, c, ctx =>
      if buf.length < n then
        let buf := buf ++ [c]
        let n := if buf.length = n then n + 32 else n
        match fops.getc ctx with
        | (none, ctx) => if buf.length < n then some (buf, fops.ungetc none ctx) else none
        | (some c, ctx) =>
            if endsWord c then
              if buf.length < n then some (buf, fops.ungetc (some c) ctx) else none
            else wordLoop fuel n buf c ctx
      else none

/-- `token_get_generic`. -/
def tokenGetGeneric (fuel : ℕ) (ctx : σ) : Option (Token × σ) := do
  let (c, ctx) ← skipWhitespace fops fuel false ctx
  match c with
  | none => return (.eof, ctx)
  | some c =>
      if c = '<' then
        let (c, ctx) := fops.getc ctx
        if c = some '/' then return (.langleslash, ctx)
        return (.langle, fops.ungetc c ctx)
      else if c = '>' then return (.rangle, ctx)
      else
        let (s, ctx) ← wordLoop fops fuel 32 [] c ctx
        return (.word s, ctx)

end Tokens

section Tables

/-- `symtab_t`: the entries in the order of their keys' first appearance. -/
abbrev Symtab := List (List Char × List Char)

/-- `symtab_put`. -/
def symtabPut (t : Symtab) (data key : List Char) : Symtab :=
  match t with
  | [] => [(key, data)]
  | e :: t => if e.1 = key then (key, data) :: t else e :: symtabPut t data key

/-- `symtab_at`; `symtab_has` tells whether there is an entry. -/
def symtabAt (t : Symtab) (key : List Char) : Option (List Char) :=
  (t.find? (·.1 = key)).map Prod.snd

variable {σ : Type} (fops : FetchOps σ)

/-- `param_read_generic`. -/
def paramReadGeneric (fuel : ℕ) : ℕ → Symtab → σ → Option (Symtab × σ)
  | 0, _, _ => none
  | turns + 1, tab, ctx => do
      let (tok, ctx) ← tokenGetGeneric fops fuel ctx
      match tok with
      | .word s =>
          let (tok, ctx) ← tokenGetGeneric fops fuel ctx
          match tok with
          | .word s1 => paramReadGeneric fuel turns (symtabPut tab s1 s) ctx
          | _ => return (tab, ctx)
      | _ => return (tab, ctx)

end Tables

section Values

/-- A word that the tokenizer reads whole. -/
structure IsWord (w : List Char) : Prop where
  nonempty : w ≠ []
  plain : ∀ c ∈ w, endsWord c = false
  uncommented : w.head? ≠ some '#'

/-- A word is checked letter by letter. -/
theorem isWord_of_all {w : List Char} (nonempty : w ≠ [])
    (plain : w.all (fun c => !endsWord c) = true) (uncommented : w.head? ≠ some '#') : IsWord w :=
  ⟨nonempty, fun c member => by simpa using List.all_eq_true.mp plain c member, uncommented⟩

/-- The text of some keys and their values, one pair a line. -/
def paramText (lines : List (List Char × List Char)) : List Char :=
  lines.flatMap fun line => line.1 ++ ' ' :: line.2 ++ ['\n']

variable {σ : Type} {fops : FetchOps σ} {rest : σ → List Char}

/-- Blanks are skipped up to a character that starts no comment. -/
private theorem skipWhitespace_blanks (reads : fops.Reads rest) {blanks r : List Char} {c : Char}
    (blank : ∀ x ∈ blanks, isBlank x = true) (solid : isBlank c = false) (word : c ≠ '#') {s : σ}
    (left : rest s = blanks ++ c :: r) {fuel : ℕ} (enough : blanks.length < fuel) :
    ∃ s', skipWhitespace fops fuel false s = some (some c, s') ∧ rest s' = r := by
  induction blanks generalizing s fuel with
  | nil =>
    obtain ⟨fuel, rfl⟩ := Nat.exists_eq_succ_of_ne_zero (Nat.ne_of_gt enough)
    obtain ⟨s', read, behind, -⟩ := reads.next left
    exact ⟨s', by simp [skipWhitespace, read, solid, word], behind⟩
  | cons x blanks ih =>
    obtain ⟨fuel, rfl⟩ := Nat.exists_eq_succ_of_ne_zero (Nat.ne_of_gt (Nat.zero_lt_of_lt enough))
    obtain ⟨s', read, behind, -⟩ := reads.next left
    obtain ⟨s'', skipped, behind'⟩ := ih (fun y member => blank y (List.mem_cons_of_mem x member))
      behind (Nat.lt_of_succ_lt_succ enough)
    exact ⟨s'', by simp [skipWhitespace, read, blank x List.mem_cons_self, skipped], behind'⟩

/-- Blanks are skipped up to the end of the source. -/
private theorem skipWhitespace_eof (reads : fops.Reads rest) {blanks : List Char}
    (blank : ∀ x ∈ blanks, isBlank x = true) {s : σ} (left : rest s = blanks) {fuel : ℕ}
    (enough : blanks.length < fuel) : ∃ s', skipWhitespace fops fuel false s = some (none, s') := by
  induction blanks generalizing s fuel with
  | nil =>
    obtain ⟨fuel, rfl⟩ := Nat.exists_eq_succ_of_ne_zero (Nat.ne_of_gt enough)
    obtain ⟨s', read, -⟩ := reads.eof left
    exact ⟨s', by simp [skipWhitespace, read]⟩
  | cons x blanks ih =>
    obtain ⟨fuel, rfl⟩ := Nat.exists_eq_succ_of_ne_zero (Nat.ne_of_gt (Nat.zero_lt_of_lt enough))
    obtain ⟨s', read, behind, -⟩ := reads.next left
    obtain ⟨s'', skipped⟩ := ih (fun y member => blank y (List.mem_cons_of_mem x member))
      behind (Nat.lt_of_succ_lt_succ enough)
    exact ⟨s'', by simp [skipWhitespace, read, blank x List.mem_cons_self, skipped]⟩

/-- A word is collected up to the character that ends it, and the buffer grows before it
overflows. -/
private theorem wordLoop_word (reads : fops.Reads rest) {w r : List Char} {d : Char}
    (plain : ∀ x ∈ w, endsWord x = false) (ends : endsWord d = true) {s : σ}
    (left : rest s = w ++ d :: r) {fuel n : ℕ} (enough : w.length < fuel) {buf : List Char}
    (room : buf.length < n) (c : Char) :
    ∃ s', wordLoop fops fuel n buf c s = some (buf ++ c :: w, s') ∧ rest s' = d :: r := by
  have grown (c : Char) (buf : List Char) (n : ℕ) (room : buf.length < n) :
      (buf ++ [c]).length < if (buf ++ [c]).length = n then n + 32 else n := by
    rw [List.length_append, List.length_singleton]
    split <;> omega
  induction w generalizing s fuel n buf c with
  | nil =>
    obtain ⟨fuel, rfl⟩ := Nat.exists_eq_succ_of_ne_zero (Nat.ne_of_gt enough)
    obtain ⟨s', read, -, back⟩ := reads.next left
    refine ⟨fops.ungetc (some d) s', ?_, back⟩
    simp only [wordLoop, if_pos room, read, ends, if_true, if_pos (grown c buf n room)]
  | cons x w ih =>
    obtain ⟨fuel, rfl⟩ := Nat.exists_eq_succ_of_ne_zero (Nat.ne_of_gt (Nat.zero_lt_of_lt enough))
    obtain ⟨s', read, behind, -⟩ := reads.next left
    obtain ⟨s'', loop, behind'⟩ := ih (fun y member => plain y (List.mem_cons_of_mem x member))
      behind (Nat.lt_of_succ_lt_succ enough) (grown c buf n room) x
    refine ⟨s'', ?_, behind'⟩
    simp only [wordLoop, if_pos room, read, plain x List.mem_cons_self, Bool.false_eq_true, if_false,
      loop, List.append_assoc, List.singleton_append]

/-- A word is read behind any blanks, and what ends it is left. -/
theorem tokenGetGeneric_word (reads : fops.Reads rest) {blanks w r : List Char} {d : Char}
    (blank : ∀ x ∈ blanks, isBlank x = true) (word : IsWord w) (ends : endsWord d = true) {s : σ}
    (left : rest s = blanks ++ (w ++ d :: r)) {fuel : ℕ}
    (enough : blanks.length + w.length < fuel) :
    ∃ s', tokenGetGeneric fops fuel s = some (.word w, s') ∧ rest s' = d :: r := by
  obtain ⟨nonempty, plain, uncommented⟩ := word
  obtain ⟨c, w, rfl⟩ := List.exists_cons_of_ne_nil nonempty
  have first := plain c List.mem_cons_self
  simp only [endsWord, Bool.or_eq_false_iff, decide_eq_false_iff_not] at first
  obtain ⟨⟨⟨solid, opening⟩, -⟩, closing⟩ := first
  have hash : c ≠ '#' := by
    rintro rfl
    exact uncommented rfl
  rw [List.length_cons] at enough
  have room : ([] : List Char).length < 32 := by decide
  have more : w.length < fuel := by omega
  obtain ⟨s', skipped, behind⟩ := skipWhitespace_blanks reads blank solid hash left
    (lt_of_le_of_lt (Nat.le_add_right _ (w.length + 1)) enough)
  obtain ⟨s'', loop, behind'⟩ := wordLoop_word reads (fun x member =>
    plain x (List.mem_cons_of_mem c member)) ends behind more room c
  exact ⟨s'', by simp [tokenGetGeneric, skipped, opening, closing, loop], behind'⟩

theorem tokenGetGeneric_eof (reads : fops.Reads rest) {blanks : List Char}
    (blank : ∀ x ∈ blanks, isBlank x = true) {s : σ} (left : rest s = blanks) {fuel : ℕ}
    (enough : blanks.length < fuel) : ∃ s', tokenGetGeneric fops fuel s = some (.eof, s') := by
  obtain ⟨s', skipped⟩ := skipWhitespace_eof reads blank left enough
  exact ⟨s', by simp [tokenGetGeneric, skipped]⟩

/-- The lines of a text go into the table in their order. -/
theorem paramReadGeneric_lines (reads : fops.Reads rest) {lines : List (List Char × List Char)}
    (words : ∀ line ∈ lines, IsWord line.1 ∧ IsWord line.2) {blanks : List Char}
    (blank : ∀ x ∈ blanks, isBlank x = true) {s : σ} (left : rest s = blanks ++ paramText lines)
    {fuel turns : ℕ} (enough : (rest s).length < fuel) (more : lines.length < turns) (tab : Symtab) :
    ∃ s', paramReadGeneric fops fuel turns tab s =
      some (lines.foldl (fun tab line => symtabPut tab line.2 line.1) tab, s') := by
  induction lines generalizing blanks s turns tab with
  | nil =>
    obtain ⟨turns, rfl⟩ := Nat.exists_eq_succ_of_ne_zero (Nat.ne_of_gt more)
    rw [paramText, List.flatMap_nil, List.append_nil] at left
    obtain ⟨s', token⟩ := tokenGetGeneric_eof reads blank left (left ▸ enough)
    exact ⟨s', by simp [paramReadGeneric, token]⟩
  | cons line lines ih =>
    obtain ⟨turns, rfl⟩ := Nat.exists_eq_succ_of_ne_zero (Nat.ne_of_gt (Nat.zero_lt_of_lt more))
    obtain ⟨key, data⟩ := line
    obtain ⟨keyWord, dataWord⟩ : IsWord key ∧ IsWord data := words _ List.mem_cons_self
    have split : rest s = blanks ++ (key ++ ' ' :: (data ++ '\n' :: paramText lines)) := by
      simp [left, paramText]
    rw [split] at enough
    simp only [List.length_append, List.length_cons] at enough
    have space : ∀ x ∈ [' '], isBlank x = true := List.all_eq_true.mp rfl
    have newline : ∀ x ∈ ['\n'], isBlank x = true := List.all_eq_true.mp rfl
    obtain ⟨s', token, behind⟩ := tokenGetGeneric_word reads blank keyWord rfl split
      (show _ < fuel by omega)
    obtain ⟨s'', token', behind'⟩ := tokenGetGeneric_word reads space dataWord (d := '\n') rfl behind
      (show _ < fuel by simp; omega)
    obtain ⟨after, read⟩ := ih (fun line member => words line (List.mem_cons_of_mem _ member))
      newline behind' (by rw [behind']; simp; omega)
      (Nat.lt_of_succ_lt_succ more) (symtabPut tab data key)
    exact ⟨after, by simp [paramReadGeneric, token, token', read]⟩

/-- The entry of a key is the one that was put last. -/
theorem symtabAt_put (t : Symtab) (data key key' : List Char) :
    symtabAt (symtabPut t data key) key' = if key = key' then some data else symtabAt t key' := by
  induction t with
  | nil =>
    by_cases same : key = key' <;> simp [symtabPut, symtabAt, same]
  | cons e t ih =>
    rw [symtabPut]
    by_cases found : e.1 = key
    · rw [if_pos found]
      by_cases same : key = key'
      · simp [symtabAt, same]
      · have other : e.1 ≠ key' := fun equal => same (found.symm.trans equal)
        simp [symtabAt, same, other]
    · rw [if_neg found]
      by_cases first : e.1 = key'
      · have other : key ≠ key' := fun equal => found (first.trans equal.symm)
        simp [symtabAt, first, other]
      · have behind : symtabAt (e :: symtabPut t data key) key' = symtabAt (symtabPut t data key) key' := by
          simp [symtabAt, first]
        have before : symtabAt (e :: t) key' = symtabAt t key' := by simp [symtabAt, first]
        rw [behind, before, ih]

/-- A key all of whose lines have one value is found with it. -/
theorem symtabAt_lines {lines : List (List Char × List Char)} {key data : List Char}
    (member : (key, data) ∈ lines) (only : ∀ line ∈ lines, line.1 = key → line.2 = data) :
    symtabAt (lines.foldl (fun tab line => symtabPut tab line.2 line.1) []) key = some data := by
  induction lines using List.reverseRecOn with
  | nil => cases member
  | append_singleton lines line ih =>
    rw [List.foldl_append, List.foldl_cons, List.foldl_nil, symtabAt_put]
    split
    · next same => rw [only line (by simp) same]
    · next other =>
      refine ih ?_ fun line' member' => only line' (List.mem_append_left _ member')
      rcases List.mem_append.mp member with member | member
      · exact member
      · rw [List.mem_singleton] at member
        exact absurd (congrArg Prod.fst member).symm other

end Values

end Pbc.Misc
