import Pbc.Calc.Grammar
import Pbc.Misc.Fuel

/-!
# The parser of the calculator

The recursive descent parser, with the current token in front of the tokens that are left.
It follows null pointers where it deletes or evaluates a tree that misses a node. The
functions have fuel.
-/

open Pbc.Misc

namespace Pbc.Calc

section Operations

/-- What stops a run: its fuel is used up, it follows a null pointer, it reads an argument that
was not given or data of another type, or the library does not return. -/
inductive Fault where
  | fuel
  | null
  | slot
  | cast
  | library
  deriving DecidableEq

/-- The codes of parse errors. -/
inductive ParseError where
  | expectFactor
  | expectRparen
  | arglist
  deriving DecidableEq

/-- The state of the parser: the current token and those behind it, and the last error. -/
structure Reader where
  tokens : List Token
  lastparseerror : Option ParseError

/-- `lex`. -/
def lex (r : Reader) : Reader := { r with tokens := r.tokens.tail }

/-- What the buffer `word` holds, given what it held in front of the current token. -/
def Reader.word (r : Reader) (before : String) : String :=
  match r.tokens with
  | .id word :: _ | .int word :: _ | .string word :: _ => word
  | _ => before

/-- `setparseerror`. -/
def setparseerror (r : Reader) (i : ParseError) : Reader := { r with lastparseerror := some i }

mutual

/-- `tree_delete`. -/
def treeDelete : Tree → Except Fault Unit
  | .null => .error .null
  | .id _ | .int _ | .string _ => .ok ()
  | .function _ child => treeDeleteAll child
  | .set t1 t2 => do
      treeDelete t1
      treeDelete t2

/-- The deletion of the nodes below a tree. -/
def treeDeleteAll : List Tree → Except Fault Unit
  | [] => .ok ()
  | t :: child => do
      treeDelete t
      treeDeleteAll child

end

/-- The test for a null pointer. -/
def Tree.isNull : Tree → Bool
  | .null => true
  | _ => false

mutual

/-- `parsesetexpr`. -/
def parsesetexpr : ℕ → Reader → Except Fault (Tree × Reader)
  | 0, _ => .error .fuel
  | fuel + 1, r => do
      let (t1, r) ← parseleft .expr fuel r
      if t1.isNull then return (.null, r)
      match r.tokens with
      | .set :: _ =>
          let (t2, r) ← parsesetexpr fuel (lex r)
          if t2.isNull then
            treeDelete t1
            return (.null, r)
          return (.set t1 t2, r)
      | _ => return (t1, r)

/-- `parseexpr` and `parseterm`. -/
def parseleft : Chain → ℕ → Reader → Except Fault (Tree × Reader)
  | _, 0, _ => .error .fuel
  | c, fuel + 1, r => do
      let (res, r) ← parseoperand c fuel r
      if res.isNull then return (.null, r)
      leftLoop c fuel res r

/-- The loops of `parseexpr` and `parseterm`. -/
def leftLoop : Chain → ℕ → Tree → Reader → Except Fault (Tree × Reader)
  | _, 0, _, _ => .error .fuel
  | c, fuel + 1, res, r =>
      match r.tokens.head?.bind c.op with
      | some word => do
          let (t2, r) ← parseoperand c fuel (lex r)
          if t2.isNull then
            treeDelete res
            return (.null, r)
          leftLoop c fuel (.function word [res, t2]) r
      | none => .ok (res, r)

/-- The operands of `parseexpr` are terms, and those of `parseterm` factors. -/
def parseoperand : Chain → ℕ → Reader → Except Fault (Tree × Reader)
  | _, 0, _ => .error .fuel
  | .expr, fuel + 1, r => parseleft .term fuel r
  | .term, fuel + 1, r => parsefactor fuel r

/-- `parsefactor`. -/
def parsefactor : ℕ → Reader → Except Fault (Tree × Reader)
  | 0, _ => .error .fuel
  | fuel + 1, r =>
      match r.tokens with
      | .sub :: _ => do
          let (t, r) ← parsefactor fuel (lex r)
          if t.isNull then return (.null, r)
          return (.function "neg" [t], r)
      | _ => parsepow fuel r

/-- `parsepow`. -/
def parsepow : ℕ → Reader → Except Fault (Tree × Reader)
  | 0, _ => .error .fuel
  | fuel + 1, r => do
      let (t1, r) ← parseprimitive fuel r
      match r.tokens with
      | .pow :: _ =>
          -- A missing base is not noticed here.
          let (t2, r) ← parseprimitive fuel (lex r)
          if t2.isNull then
            treeDelete t1
            return (.null, r)
          return (.function "pow" [t1, t2], r)
      | _ => return (t1, r)

/-- `parseprimitive`. -/
def parseprimitive : ℕ → Reader → Except Fault (Tree × Reader)
  | 0, _ => .error .fuel
  | fuel + 1, r =>
      match r.tokens with
      | .id word :: _ =>
          let r := lex r
          match r.tokens with
          | .lparen :: _ => do
              let (returned, child, r) ← parseexprlist fuel r
              if returned then return (.function word child, r)
              treeDelete (.function word child)
              return (.null, r)
          | _ => .ok (.id word, r)
      | .string word :: _ =>
          -- The buffer is read behind the next token.
          let r := lex r
          .ok (.string (r.word word), r)
      | .lparen :: _ => do
          let (t, r) ← parsesetexpr fuel (lex r)
          if t.isNull then return (.null, r)
          match r.tokens with
          | .rparen :: _ => return (t, lex r)
          | _ =>
              treeDelete t
              return (.null, setparseerror r .expectRparen)
      | .int word :: _ => .ok (.int word, lex r)
      | _ => .ok (.null, setparseerror r .expectFactor)

/-- `parseexprlist`: whether it returns its tree, and the nodes below that. -/
def parseexprlist : ℕ → Reader → Except Fault (Bool × List Tree × Reader)
  | 0, _ => .error .fuel
  | fuel + 1, r =>
      let r := lex r
      match r.tokens with
      | .rparen :: _ => .ok (true, [], lex r)
      | _ => do
          let (c, r) ← parsesetexpr fuel r
          if c.isNull then return (false, [], r)
          exprlistLoop fuel [c] r

/-- The loop of `parseexprlist`. -/
def exprlistLoop : ℕ → List Tree → Reader → Except Fault (Bool × List Tree × Reader)
  | 0, _, _ => .error .fuel
  | fuel + 1, child, r =>
      match r.tokens with
      | .rparen :: _ => .ok (true, child, lex r)
      | .comma :: _ => do
          let (c, r) ← parsesetexpr fuel (lex r)
          if c.isNull then return (false, child, r)
          exprlistLoop fuel (child ++ [c]) r
      | _ => .ok (false, child, setparseerror r .arglist)

end

/-- `parseexpr`. -/
def parseexpr : ℕ → Reader → Except Fault (Tree × Reader) := parseleft .expr

/-- `parseterm`. -/
def parseterm : ℕ → Reader → Except Fault (Tree × Reader) := parseleft .term

/-- What a line is: nothing, a tree that is evaluated, or an error. -/
inductive Line where
  | silent
  | tree (t : Tree)
  | parseError (code : Option ParseError)

/-- `parseline` up to the evaluation of the tree. -/
def parseInput (fuel : ℕ) (r : Reader) : Except Fault (Line × Reader) :=
  match r.tokens with
  | [] => .ok (.silent, r)
  | _ => do
      let (t, r) ← parsesetexpr fuel r
      if t.isNull then return (.parseError r.lastparseerror, r)
      return (.tree t, r)

end Operations

section Deletion

theorem treeDeleteAll_of_forall {child : List Tree} (all : ∀ t ∈ child, treeDelete t = .ok ()) :
    treeDeleteAll child = .ok () := by
  induction child with
  | nil => rfl
  | cons t child ih =>
    rw [treeDeleteAll, all t List.mem_cons_self]
    exact ih fun t' member => all t' (List.mem_cons_of_mem t member)

/-- A whole tree is deleted. -/
theorem treeDelete_of_whole {t : Tree} (whole : t.Whole) : treeDelete t = .ok () := by
  induction whole with
  | id | int | string => rfl
  | function word _ ih =>
    rw [treeDelete]
    exact treeDeleteAll_of_forall ih
  | set _ _ ih ih' =>
    rw [treeDelete, ih]
    exact ih'

mutual

/-- Only a whole tree is deleted. -/
theorem whole_of_treeDelete : ∀ {t : Tree}, treeDelete t = .ok () → t.Whole
  | .null, deleted => nomatch deleted
  | .id word, _ => .id word
  | .int word, _ => .int word
  | .string word, _ => .string word
  | .function word child, deleted => by
    rw [treeDelete] at deleted
    exact .function word (whole_of_treeDeleteAll deleted)
  | .set t1 t2, deleted => by
    rw [treeDelete, bind_eq_ok] at deleted
    obtain ⟨_, first, second⟩ := deleted
    exact .set (whole_of_treeDelete first) (whole_of_treeDelete second)

theorem whole_of_treeDeleteAll : ∀ {child : List Tree}, treeDeleteAll child = .ok () →
    ∀ t ∈ child, t.Whole
  | [], _ => nofun
  | t :: child, deleted => by
    rw [treeDeleteAll, bind_eq_ok] at deleted
    obtain ⟨_, first, rest⟩ := deleted
    exact List.forall_mem_cons.mpr ⟨whole_of_treeDelete first, whole_of_treeDeleteAll rest⟩

end

theorem Tree.isNull_iff {t : Tree} : t.isNull = true ↔ t = .null := by
  cases t <;> simp [isNull]

end Deletion

section Soundness

/-- What a parse function may return for some tokens: nothing where they break off, or the
tree of a phrase in front of those that are left. A tree that misses a node may be anything. -/
structure Reads (l : Level) (tokens : List Token) (out : Tree × Reader) : Prop where
  refuses : out.1 = .null → Refuses l tokens out.2.tokens
  derives : out.1.Whole → ∃ e s t, tokens = s ++ out.2.tokens ∧ Derives l e s t ∧
    Stops l e s out.2.tokens

/-- What `parseexprlist` may return for the tokens of a call. -/
structure ReadsList (tokens : List Token) (out : Bool × List Tree × Reader) : Prop where
  refuses : out.1 = false → (∀ t ∈ out.2.1, t.Whole) → Refuses .prim tokens out.2.2.tokens
  derives : out.1 = true → (∀ t ∈ out.2.1, t.Whole) →
    ∃ s t, tokens = s ++ out.2.2.tokens ∧ Derives .prim false s t ∧ s.getLast? = some .rparen

/-- With some fuel every function returns what it may. -/
structure ParseSound (fuel : ℕ) : Prop where
  set : ∀ {r out}, parsesetexpr fuel r = .ok out → Reads .set r.tokens out
  left : ∀ {c r out}, parseleft c fuel r = .ok out → Reads (.chain c) r.tokens out
  loop : ∀ {c res r out}, leftLoop c fuel res r = .ok out → res ≠ .null →
    (∀ e s t, Derives (.chain c) e s t → Stops c.operand e s r.tokens →
      Reads (.chain c) (s ++ r.tokens) out) ∧ (out.1 = .null ∨ out.1.Whole → res.Whole)
  operand : ∀ {c r out}, parseoperand c fuel r = .ok out → Reads c.operand r.tokens out
  factor : ∀ {r out}, parsefactor fuel r = .ok out → Reads .factor r.tokens out
  pow : ∀ {r out}, parsepow fuel r = .ok out → r.tokens.head? ≠ some .sub →
    Reads .factor r.tokens out
  prim : ∀ {r out}, parseprimitive fuel r = .ok out → Reads .prim r.tokens out
  list : ∀ {r out} word, parseexprlist fuel r = .ok out → r.tokens.head? = some .lparen →
    ReadsList (.id word :: r.tokens) out
  listLoop : ∀ {child r out word}, exprlistLoop fuel child r = .ok out →
    (∀ e s t, Derives (.args word) e s t → Stops .set e s r.tokens →
      ReadsList (.id word :: .lparen :: s ++ r.tokens) out) ∧
    ((∀ t ∈ out.2.1, t.Whole) → ∀ t ∈ child, t.Whole)

variable {fuel : ℕ} {r : Reader} {out : Tree × Reader}

/-- A tree that is returned and deleted was whole. -/
private theorem delete_ok {α : Type} {t : Tree} {a out : α}
    (run : (treeDelete t >>= fun _ => (pure a : Except Fault α)) = .ok out) : t.Whole ∧ a = out := by
  obtain ⟨_, deleted, result⟩ := bind_eq_ok.mp run
  exact ⟨whole_of_treeDelete deleted, Except.ok.inj result⟩

private theorem Reads.null {l : Level} {tokens : List Token} (refuses : Refuses l tokens r.tokens) :
    Reads l tokens (.null, r) :=
  ⟨fun _ => refuses, fun whole => nomatch whole⟩

private theorem Reads.tree {l : Level} {tokens : List Token} {t : Tree} (some : t ≠ .null)
    (derives : t.Whole → ∃ e s t, tokens = s ++ r.tokens ∧ Derives l e s t ∧ Stops l e s r.tokens) :
    Reads l tokens (t, r) :=
  ⟨fun null => absurd null some, derives⟩

theorem parsesetexpr_sound (sound : ParseSound fuel) (run : parsesetexpr (fuel + 1) r = .ok out) :
    Reads .set r.tokens out := by
  rw [parsesetexpr] at run
  obtain ⟨⟨t1, r1⟩, run1, run⟩ := bind_eq_ok.mp run
  obtain ⟨refuses, derives⟩ := sound.left run1
  by_cases null : t1.isNull = true
  · simp only [null, if_true] at run
    obtain rfl := Except.ok.inj run
    exact .null (.value (refuses (Tree.isNull_iff.mp null)))
  · have some : t1 ≠ .null := mt Tree.isNull_iff.mpr null
    simp only [null, Bool.false_eq_true, if_false] at run
    split at run
    · next rest tokens =>
      obtain ⟨⟨t2, r2⟩, run2, run⟩ := bind_eq_ok.mp run
      obtain ⟨refuses', derives'⟩ := sound.set run2
      simp only [lex, tokens, List.tail_cons] at refuses' derives'
      by_cases null' : t2.isNull = true
      · simp only [null', if_true] at run
        obtain ⟨whole, rfl⟩ := delete_ok run
        obtain ⟨e, s, t, split, phrase, -⟩ := derives whole
        rw [split, tokens]
        exact .null (.assign phrase (refuses' (Tree.isNull_iff.mp null')))
      · simp only [null', Bool.false_eq_true, if_false] at run
        obtain rfl := Except.ok.inj run
        refine .tree nofun fun whole => ?_
        cases whole with
        | set whole whole' =>
          obtain ⟨e, s, t, split, phrase, -⟩ := derives whole
          obtain ⟨e', s', t', split', phrase', stops'⟩ := derives' whole'
          refine ⟨e', s ++ .set :: s', _, ?_, .assign phrase phrase', ?_⟩
          · rw [split, tokens, split', List.append_assoc, List.cons_append]
          · rw [List.append_cons]
            exact stops'.append phrase'.nonempty
    · next other =>
      obtain rfl := Except.ok.inj run
      refine .tree some fun whole => ?_
      obtain ⟨e, s, t, split, phrase, stops⟩ := derives whole
      refine ⟨e, s, t, split, .value phrase, stops.raise rfl nofun ?_⟩
      intro x head joins
      obtain ⟨rest, tokens⟩ := List.head?_eq_some_iff.mp head
      cases x <;> cases joins
      exact other rest tokens

theorem parseleft_sound (sound : ParseSound fuel) {c : Chain}
    (run : parseleft c (fuel + 1) r = .ok out) : Reads (.chain c) r.tokens out := by
  rw [parseleft] at run
  obtain ⟨⟨res, r1⟩, run1, run⟩ := bind_eq_ok.mp run
  obtain ⟨refuses, derives⟩ := sound.operand run1
  by_cases null : res.isNull = true
  · simp only [null, if_true] at run
    obtain rfl := Except.ok.inj run
    exact .null (.operand (refuses (Tree.isNull_iff.mp null)))
  · have some : res ≠ .null := mt Tree.isNull_iff.mpr null
    simp only [null, Bool.false_eq_true, if_false] at run
    obtain ⟨reads, kept⟩ := sound.loop run some
    have reads' (whole : res.Whole) : Reads (.chain c) r.tokens out := by
      obtain ⟨e, s, t, split, phrase, stops⟩ := derives whole
      rw [split]
      exact reads e s t (.operand phrase) stops
    exact ⟨fun missing => (reads' (kept (Or.inl missing))).refuses missing,
      fun whole => (reads' (kept (Or.inr whole))).derives whole⟩

theorem parseoperand_sound (sound : ParseSound fuel) {c : Chain}
    (run : parseoperand c (fuel + 1) r = .ok out) : Reads c.operand r.tokens out := by
  cases c with
  | expr => exact sound.left run
  | term => exact sound.factor run

theorem leftLoop_sound (sound : ParseSound fuel) {c : Chain} {res : Tree}
    (run : leftLoop c (fuel + 1) res r = .ok out) (some : res ≠ .null) :
    (∀ e s t, Derives (.chain c) e s t → Stops c.operand e s r.tokens →
      Reads (.chain c) (s ++ r.tokens) out) ∧ (out.1 = .null ∨ out.1.Whole → res.Whole) := by
  rw [leftLoop] at run
  split at run
  · next word op =>
    obtain ⟨x, head, op⟩ := Option.bind_eq_some_iff.mp op
    obtain ⟨rest, tokens⟩ := List.head?_eq_some_iff.mp head
    obtain ⟨⟨t2, r2⟩, run2, run⟩ := bind_eq_ok.mp run
    obtain ⟨refuses, derives⟩ := sound.operand run2
    simp only [lex, tokens, List.tail_cons] at refuses derives
    rw [tokens]
    by_cases null : t2.isNull = true
    · simp only [null, if_true] at run
      obtain ⟨whole, rfl⟩ := delete_ok run
      refine ⟨fun e s t phrase stops => ?_, fun _ => whole⟩
      exact .null (.operator op phrase (refuses (Tree.isNull_iff.mp null)))
    · simp only [null, Bool.false_eq_true, if_false] at run
      obtain ⟨reads, kept⟩ := sound.loop run nofun
      have parts (whole : (Tree.function word [res, t2]).Whole) : res.Whole ∧ t2.Whole := by
        cases whole with
        | function _ all => exact ⟨all res (by simp), all t2 (by simp)⟩
      refine ⟨fun e s t phrase stops => ?_, fun result => (parts (kept result)).1⟩
      have reads' (whole : t2.Whole) : Reads (.chain c) (s ++ x :: rest) out := by
        obtain ⟨e', s', t', split, phrase', stops'⟩ := derives whole
        have shape : s ++ x :: rest = (s ++ x :: s') ++ r2.tokens := by
          rw [split, List.append_assoc, List.cons_append]
        rw [shape]
        refine reads e' _ _ (.operator op phrase phrase') ?_
        rw [List.append_cons]
        exact stops'.append phrase'.nonempty
      exact ⟨fun missing => (reads' (parts (kept (Or.inl missing))).2).refuses missing,
        fun whole => (reads' (parts (kept (Or.inr whole))).2).derives whole⟩
  · next none =>
    obtain rfl := Except.ok.inj run
    refine ⟨fun e s t phrase stops => .tree some fun _ => ⟨e, s, t, rfl, phrase, ?_⟩, ?_⟩
    · refine stops.raise c.rank_operand c.operand_ne_prim fun x head joins => ?_
      have isSome := (c.op_isSome_iff x).mpr joins
      rw [head, Option.bind_some] at none
      rw [none] at isSome
      cases isSome
    · rintro (null | whole)
      · exact absurd null some
      · exact whole

theorem parsefactor_sound (sound : ParseSound fuel) (run : parsefactor (fuel + 1) r = .ok out) :
    Reads .factor r.tokens out := by
  rw [parsefactor] at run
  split at run
  · next rest tokens =>
    obtain ⟨⟨t, r1⟩, run1, run⟩ := bind_eq_ok.mp run
    obtain ⟨refuses, derives⟩ := sound.factor run1
    simp only [lex, tokens, List.tail_cons] at refuses derives
    rw [tokens]
    by_cases null : t.isNull = true
    · simp only [null, if_true] at run
      obtain rfl := Except.ok.inj run
      exact .null (.neg (refuses (Tree.isNull_iff.mp null)))
    · simp only [null, Bool.false_eq_true, if_false] at run
      obtain rfl := Except.ok.inj run
      refine .tree nofun fun whole => ?_
      have inner : t.Whole := by
        cases whole with
        | function _ all => exact all t (by simp)
      obtain ⟨e, s, t', split, phrase, stops⟩ := derives inner
      refine ⟨e, .sub :: s, _, by rw [split, List.cons_append], .neg phrase, ?_⟩
      exact stops.append (s := [.sub]) phrase.nonempty
  · next other =>
    refine sound.pow run fun head => ?_
    obtain ⟨rest, tokens⟩ := List.head?_eq_some_iff.mp head
    exact other rest tokens

theorem parsepow_sound (sound : ParseSound fuel) (run : parsepow (fuel + 1) r = .ok out)
    (unsigned : r.tokens.head? ≠ some .sub) : Reads .factor r.tokens out := by
  rw [parsepow] at run
  obtain ⟨⟨t1, r1⟩, run1, run⟩ := bind_eq_ok.mp run
  obtain ⟨refuses, derives⟩ := sound.prim run1
  dsimp only at run
  split at run
  · next rest tokens =>
    obtain ⟨⟨t2, r2⟩, run2, run⟩ := bind_eq_ok.mp run
    obtain ⟨refuses', derives'⟩ := sound.prim run2
    simp only [lex, tokens, List.tail_cons] at refuses' derives'
    by_cases null : t2.isNull = true
    · simp only [null, if_true] at run
      obtain ⟨whole, rfl⟩ := delete_ok run
      obtain ⟨e, s, t, split, phrase, -⟩ := derives whole
      rw [split, tokens]
      exact .null (.exponent phrase (refuses' (Tree.isNull_iff.mp null)))
    · simp only [null, Bool.false_eq_true, if_false] at run
      obtain rfl := Except.ok.inj run
      refine .tree nofun fun whole => ?_
      have parts : t1.Whole ∧ t2.Whole := by
        cases whole with
        | function _ all => exact ⟨all t1 (by simp), all t2 (by simp)⟩
      obtain ⟨e, s, t, split, phrase, -⟩ := derives parts.1
      obtain ⟨e', s', t', split', phrase', stops'⟩ := derives' parts.2
      refine ⟨true, s ++ .pow :: s', _, ?_, .power phrase phrase', ?_⟩
      · rw [split, tokens, split', List.append_assoc, List.cons_append]
      · rw [List.append_cons]
        exact (stops'.power).append phrase'.nonempty
  · next other =>
    obtain rfl := Except.ok.inj run
    have exponent : r1.tokens.head? ≠ some .pow := by
      intro head
      obtain ⟨rest, tokens⟩ := List.head?_eq_some_iff.mp head
      exact other rest tokens
    refine ⟨fun null => .base (refuses null) unsigned exponent, fun whole => ?_⟩
    obtain ⟨e, s, t, split, phrase, stops⟩ := derives whole
    exact ⟨false, s, t, split, .base phrase, stops.base exponent⟩

theorem exprlistLoop_sound (sound : ParseSound fuel) {child : List Tree} {word : String}
    {out : Bool × List Tree × Reader} (run : exprlistLoop (fuel + 1) child r = .ok out) :
    (∀ e s t, Derives (.args word) e s t → Stops .set e s r.tokens →
      ReadsList (.id word :: .lparen :: s ++ r.tokens) out) ∧
    ((∀ t ∈ out.2.1, t.Whole) → ∀ t ∈ child, t.Whole) := by
  rw [exprlistLoop] at run
  split at run
  · next rest tokens =>
    obtain rfl := Except.ok.inj run
    refine ⟨fun e s t args stops => ⟨nofun, fun _ _ => ?_⟩, id⟩
    refine ⟨.id word :: .lparen :: s ++ [.rparen], t, ?_, .callArgs args, ?_⟩
    · simp only [lex, tokens, List.tail_cons, List.append_assoc, List.singleton_append]
    · exact List.getLast?_concat
  · next rest tokens =>
    obtain ⟨⟨c, r1⟩, run1, run⟩ := bind_eq_ok.mp run
    obtain ⟨refuses, derives⟩ := sound.set run1
    simp only [lex, tokens, List.tail_cons] at refuses derives
    rw [tokens]
    by_cases null : c.isNull = true
    · simp only [null, if_true] at run
      obtain rfl := Except.ok.inj run
      refine ⟨fun e s t args stops => ⟨fun _ _ => ?_, nofun⟩, id⟩
      exact .args (.next args (refuses (Tree.isNull_iff.mp null)))
    · simp only [null, Bool.false_eq_true, if_false] at run
      obtain ⟨reads, kept⟩ := sound.listLoop run
      refine ⟨fun e s t args stops => ?_, fun all t member =>
        kept all t (List.mem_append_left [c] member)⟩
      have reads' (whole : c.Whole) : ReadsList (.id word :: .lparen :: s ++ .comma :: rest) out := by
        obtain ⟨e', s', t', split, phrase, stops'⟩ := derives whole
        have shape : Token.id word :: .lparen :: s ++ .comma :: rest =
            .id word :: .lparen :: (s ++ .comma :: s') ++ r1.tokens := by
          simp only [split, List.cons_append, List.append_assoc]
        obtain ⟨below, rfl⟩ := args.args_tree
        rw [shape]
        refine reads e' _ _ (.next args phrase) ?_
        rw [List.append_cons]
        exact stops'.append phrase.nonempty
      have last (all : ∀ t ∈ out.2.1, t.Whole) : c.Whole := kept all c (by simp)
      exact ⟨fun returned all => (reads' (last all)).refuses returned all,
        fun returned all => (reads' (last all)).derives returned all⟩
  · next unclosed other =>
    obtain rfl := Except.ok.inj run
    refine ⟨fun e s t args stops => ⟨fun _ _ => .args (.unfinished args ?_ ?_), nofun⟩, id⟩
    · refine stops.raise rfl nofun fun x head joins => ?_
      obtain ⟨rest, tokens⟩ := List.head?_eq_some_iff.mp head
      cases x <;> cases joins
      exact other rest tokens
    · intro head
      obtain ⟨rest, tokens⟩ := List.head?_eq_some_iff.mp head
      exact unclosed rest tokens

theorem parseexprlist_sound (sound : ParseSound fuel) {out : Bool × List Tree × Reader}
    (word : String) (run : parseexprlist (fuel + 1) r = .ok out)
    (bracket : r.tokens.head? = some .lparen) : ReadsList (.id word :: r.tokens) out := by
  obtain ⟨tokens, shape⟩ := List.head?_eq_some_iff.mp bracket
  rw [parseexprlist] at run
  simp only [lex, shape, List.tail_cons] at run
  rw [shape]
  split at run
  · next rest =>
    obtain rfl := Except.ok.inj run
    exact ⟨nofun, fun _ _ => ⟨[.id word, .lparen, .rparen], _, rfl, .call word, rfl⟩⟩
  · next other =>
    have some : tokens.head? ≠ some .rparen := by
      intro head
      obtain ⟨rest, tokens⟩ := List.head?_eq_some_iff.mp head
      exact other rest tokens
    obtain ⟨⟨c, r1⟩, run1, run⟩ := bind_eq_ok.mp run
    obtain ⟨refuses, derives⟩ := sound.set run1
    by_cases null : c.isNull = true
    · simp only [null, if_true] at run
      obtain rfl := Except.ok.inj run
      exact ⟨fun _ _ => .args (.first (refuses (Tree.isNull_iff.mp null)) some), nofun⟩
    · simp only [null, Bool.false_eq_true, if_false] at run
      obtain ⟨reads, kept⟩ := sound.listLoop run
      have reads' (all : ∀ t ∈ out.2.1, t.Whole) :
          ReadsList (.id word :: .lparen :: tokens) out := by
        obtain ⟨e, s, t, split, phrase, stops⟩ := derives (kept all c List.mem_cons_self)
        obtain rfl : tokens = s ++ r1.tokens := split
        exact reads e s _ (.first phrase) stops
      exact ⟨fun returned all => (reads' all).refuses returned all,
        fun returned all => (reads' all).derives returned all⟩

theorem parseprimitive_sound (sound : ParseSound fuel)
    (run : parseprimitive (fuel + 1) r = .ok out) : Reads .prim r.tokens out := by
  rw [parseprimitive] at run
  split at run
  · next word rest tokens =>
    simp only [lex, tokens, List.tail_cons] at run
    rw [tokens]
    split at run
    · next rest' =>
      obtain ⟨⟨returned, child, r1⟩, run1, run⟩ := bind_eq_ok.mp run
      obtain ⟨refuses, derives⟩ := sound.list word run1 rfl
      by_cases done : returned = true
      · simp only [done, if_true] at run
        obtain rfl := Except.ok.inj run
        refine .tree nofun fun whole => ?_
        cases whole with
        | function _ all =>
          obtain ⟨s, t, split, phrase, last⟩ := derives done all
          refine ⟨false, s, t, split, phrase, .prim fun _ word => ?_⟩
          rw [last]
          exact nofun
      · simp only [done, Bool.false_eq_true, if_false] at run
        obtain ⟨whole, rfl⟩ := delete_ok run
        cases whole with
        | function _ all => exact .null (refuses (Bool.eq_false_iff.mpr done) all)
    · next other =>
      obtain rfl := Except.ok.inj run
      refine .tree nofun fun _ => ⟨false, [.id word], _, rfl, .id word, .prim fun head => ?_⟩
      obtain ⟨rest', tokens⟩ := List.head?_eq_some_iff.mp head
      exact absurd tokens (other rest')
  · next word rest tokens =>
    obtain rfl := Except.ok.inj run
    refine .tree nofun fun _ => ⟨false, [.string word], _, ?_, .string word, .prim fun _ _ => nofun⟩
    rw [lex, tokens]
    rfl
  · next rest tokens =>
    obtain ⟨⟨t, r1⟩, run1, run⟩ := bind_eq_ok.mp run
    obtain ⟨refuses, derives⟩ := sound.set run1
    simp only [lex, tokens, List.tail_cons] at refuses derives
    rw [tokens]
    by_cases null : t.isNull = true
    · simp only [null, if_true] at run
      obtain rfl := Except.ok.inj run
      exact .null (.inner (refuses (Tree.isNull_iff.mp null)))
    · simp only [null, Bool.false_eq_true, if_false] at run
      split at run
      · next rest' closed =>
        obtain rfl := Except.ok.inj run
        refine .tree (mt Tree.isNull_iff.mpr null) fun whole => ?_
        obtain ⟨e, s, t', split, phrase, -⟩ := derives whole
        refine ⟨false, .lparen :: s ++ [.rparen], t', ?_, .paren phrase, .prim fun _ word => ?_⟩
        · simp only [lex, split, closed, List.tail_cons, List.cons_append, List.append_assoc,
            List.nil_append]
        · rw [List.getLast?_concat]
          exact nofun
      · next other =>
        obtain ⟨whole, rfl⟩ := delete_ok run
        obtain ⟨e, s, t', split, phrase, stops⟩ := derives whole
        rw [split]
        refine .null (.unclosed phrase stops fun head => ?_)
        obtain ⟨rest', closed⟩ := List.head?_eq_some_iff.mp head
        exact other rest' closed
  · next word rest tokens =>
    obtain rfl := Except.ok.inj run
    refine .tree nofun fun _ => ⟨false, [.int word], _, ?_, .int word, .prim fun _ _ => nofun⟩
    rw [lex, tokens]
    rfl
  · next id string lparen int =>
    obtain rfl := Except.ok.inj run
    refine .null (.missing fun x head starts => ?_)
    obtain ⟨rest, tokens⟩ := List.head?_eq_some_iff.mp head
    cases x with
    | id word => exact id word rest tokens
    | string word => exact string word rest tokens
    | lparen => exact lparen rest tokens
    | int word => exact int word rest tokens
    | _ => exact starts

/-- A run of the parser that ends with a whole tree has read a phrase, and one that ends
without a tree has deleted the trees of the phrases in front of the place where it breaks
off. -/
theorem parse_sound : ∀ fuel, ParseSound fuel
  | 0 => ⟨nofun, nofun, nofun, nofun, nofun, nofun, nofun, nofun, nofun⟩
  | fuel + 1 =>
    have sound := parse_sound fuel
    { set := parsesetexpr_sound sound
      left := parseleft_sound sound
      loop := leftLoop_sound sound
      operand := parseoperand_sound sound
      factor := parsefactor_sound sound
      pow := parsepow_sound sound
      prim := parseprimitive_sound sound
      list := parseexprlist_sound sound
      listLoop := exprlistLoop_sound sound }

end Soundness

end Pbc.Calc
