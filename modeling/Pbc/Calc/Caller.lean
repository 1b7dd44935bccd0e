import Pbc.Calc.Lexer
import Pbc.Calc.Parse
import Pbc.Misc.Client

/-!
# The parser as a caller of the lexer

The recursive descent parser, which asks for one token after the other. It reaches the lexer only
through the variables `tok_type` and `word` and through `lex`, and it asks for no token behind the
end of a line.
-/

open Pbc.Misc

namespace Pbc.Calc

/-- What the parser does outside of itself: it looks at `tok_type` and `word`, calls `lex`, notes
an error, and stops where it follows a null pointer or its fuel is used up. -/
inductive Op where
  | look
  | lex
  | setparseerror (i : ParseError)
  | stop (fault : Fault)

def Op.Result : Op → Type
  | .look => TokType × String
  | .lex => Unit
  | .setparseerror _ => Unit
  | .stop _ => Empty

/-- A computation of the parser. -/
abbrev Caller := Client Op Op.Result

/-- The function that an operator of a rank stands for. -/
def Chain.opType : Chain → TokType → Option String
  | .term, .mul => some "mul"
  | .term, .div => some "div"
  | .expr, .add => some "add"
  | .expr, .sub => some "sub"
  | _, _ => none

/-- There is no operator at the end of a line. -/
theorem Chain.opType_none (c : Chain) : c.opType .none = none := by
  cases c <;> rfl

namespace Caller

section Operations

/-- The value of `tok_type`. -/
def tokType : Caller TokType := .call .look fun r => .done r.1

/-- The text in `word`. -/
def word : Caller String := .call .look fun r => .done r.2

/-- `lex`. -/
def lex : Caller Unit := .call .lex .done

/-- `setparseerror`. -/
def setparseerror (i : ParseError) : Caller Unit := .call (.setparseerror i) .done

/-- A stop of the parser. -/
def stop {α : Type} (fault : Fault) : Caller α := .call (.stop fault) Empty.elim

/-- `tree_delete`. -/
def delete (t : Tree) : Caller Unit :=
  match treeDelete t with
  | .ok () => .done ()
  | .error fault => stop fault

mutual

/-- `parsesetexpr`. -/
def parsesetexpr : ℕ → Caller Tree
  | 0 => stop .fuel
  | fuel + 1 => do
      let t1 ← parseleft .expr fuel
      if t1.isNull then return .null
      if (← tokType) = .set then
        lex
        let t2 ← parsesetexpr fuel
        if t2.isNull then
          delete t1
          return .null
        return .set t1 t2
      else return t1

/-- `parseexpr` and `parseterm`. -/
def parseleft : Chain → ℕ → Caller Tree
  | _, 0 => stop .fuel
  | c, fuel + 1 => do
      let res ← parseoperand c fuel
      if res.isNull then return .null
      leftLoop c fuel res

/-- The loops of `parseexpr` and `parseterm`. -/
def leftLoop : Chain → ℕ → Tree → Caller Tree
  | _, 0, _ => stop .fuel
  | c, fuel + 1, res => do
      match c.opType (← tokType) with
      | some word =>
          lex
          let t2 ← parseoperand c fuel
          if t2.isNull then
            delete res
            return .null
          leftLoop c fuel (.function word [res, t2])
      | none => return res

/-- The operands of `parseexpr` are terms, and those of `parseterm` factors. -/
def parseoperand : Chain → ℕ → Caller Tree
  | _, 0 => stop .fuel
  | .expr, fuel + 1 => parseleft .term fuel
  | .term, fuel + 1 => parsefactor fuel

/-- `parsefactor`. -/
def parsefactor : ℕ → Caller Tree
  | 0 => stop .fuel
  | fuel + 1 => do
      if (← tokType) = .sub then
        lex
        let t ← parsefactor fuel
        if t.isNull then return .null
        return .function "neg" [t]
      else parsepow fuel

/-- `parsepow`. -/
def parsepow : ℕ → Caller Tree
  | 0 => stop .fuel
  | fuel + 1 => do
      let t1 ← parseprimitive fuel
      if (← tokType) = .pow then
        lex
        let t2 ← parseprimitive fuel
        if t2.isNull then
          delete t1
          return .null
        return .function "pow" [t1, t2]
      else return t1

/-- `parseprimitive`. -/
def parseprimitive : ℕ → Caller Tree
  | 0 => stop .fuel
  | fuel + 1 => do
      match ← tokType with
      | .id =>
          let id ← word
          lex
          if (← tokType) = .lparen then
            let (returned, child) ← parseexprlist fuel
            if returned then return .function id child
            delete (.function id child)
            return .null
          else return .id id
      | .string =>
          lex
          return .string (← word)
      | .lparen =>
          lex
          let t ← parsesetexpr fuel
          if t.isNull then return .null
          if (← tokType) = .rparen then
            lex
            return t
          else
            delete t
            setparseerror .expectRparen
            return .null
      | .int =>
          let id ← word
          lex
          return .int id
      | _ =>
          setparseerror .expectFactor
          return .null

/-- `parseexprlist`: whether it returns its tree, and the nodes below that. -/
def parseexprlist : ℕ → Caller (Bool × List Tree)
  | 0 => stop .fuel
  | fuel + 1 => do
      lex
      if (← tokType) = .rparen then
        lex
        return (true, [])
      else
        let c ← parsesetexpr fuel
        if c.isNull then return (false, [])
        exprlistLoop fuel [c]

/-- The loop of `parseexprlist`. -/
def exprlistLoop : ℕ → List Tree → Caller (Bool × List Tree)
  | 0, _ => stop .fuel
  | fuel + 1, child => do
      match ← tokType with
      | .rparen =>
          lex
          return (true, child)
      | .comma =>
          lex
          let c ← parsesetexpr fuel
          if c.isNull then return (false, child)
          exprlistLoop fuel (child ++ [c])
      | _ =>
          setparseerror .arglist
          return (false, child)

end

/-- `parseline` up to the evaluation of its tree; where there is no token it returns at once. -/
def parseline (fuel : ℕ) : Caller (Option Tree) := do
  lex
  if (← tokType) = .none then return none
  else
    let t ← parsesetexpr fuel
    return some t

end Operations

section Discipline

/-- The parser calls `lex` only while there is a token in front of it. -/
def discipline : Protocol Op Op.Result TokType where
  Allows
    | .lex, tok => tok ≠ .none
    | _, _ => True
  After
    | .look, tok, r, tok' => r.1 = tok ∧ tok' = tok
    | .lex, _, _, _ => True
    | .setparseerror _, tok, _, tok' => tok' = tok
    | .stop _, _, _, _ => False

/-- From a token on, a computation keeps to the discipline. -/
def Careful {α : Type} (p : Caller α) (tok : TokType) : Prop := p.Follows discipline tok

variable {α β : Type} {tok : TokType}

@[simp] theorem careful_done (a : α) : Careful (.done a : Caller α) tok := trivial

@[simp] theorem careful_pure (a : α) : Careful (pure a : Caller α) tok := trivial

@[simp] theorem careful_stop (fault : Fault) : Careful (stop fault : Caller α) tok :=
  ⟨trivial, nofun⟩

@[simp] theorem careful_delete (t : Tree) : Careful (delete t) tok := by
  rw [delete]
  split
  · exact careful_done ()
  · exact careful_stop _

theorem Careful.bind {p : Caller α} {f : α → Caller β} (first : Careful p tok)
    (second : ∀ a tok, Careful (f a) tok) : Careful (p >>= f) tok :=
  Client.Follows.bind first second

@[simp] theorem careful_tokType_bind {f : TokType → Caller α} :
    Careful (tokType >>= f) tok ↔ Careful (f tok) tok := by
  constructor
  · rintro ⟨-, next⟩
    exact next (tok, "") tok ⟨rfl, rfl⟩
  · intro next
    refine ⟨trivial, ?_⟩
    rintro ⟨_, word⟩ _ ⟨rfl, rfl⟩
    exact next

@[simp] theorem careful_word_bind {f : String → Caller α} :
    Careful (word >>= f) tok ↔ ∀ text, Careful (f text) tok := by
  constructor
  · rintro ⟨-, next⟩ text
    exact next (tok, text) tok ⟨rfl, rfl⟩
  · intro next
    refine ⟨trivial, ?_⟩
    rintro ⟨_, word⟩ _ ⟨rfl, rfl⟩
    exact next word

@[simp] theorem careful_lex_bind {f : Unit → Caller α} :
    Careful (lex >>= f) tok ↔ tok ≠ .none ∧ ∀ tok', Careful (f ()) tok' := by
  constructor
  · rintro ⟨some, next⟩
    exact ⟨some, fun tok' => next () tok' trivial⟩
  · rintro ⟨some, next⟩
    exact ⟨some, fun _ tok' _ => next tok'⟩

@[simp] theorem careful_setparseerror_bind {i : ParseError} {f : Unit → Caller α} :
    Careful (setparseerror i >>= f) tok ↔ Careful (f ()) tok := by
  constructor
  · rintro ⟨-, next⟩
    exact next () tok rfl
  · intro next
    refine ⟨trivial, ?_⟩
    rintro _ _ rfl
    exact next

/-- A test for a missing tree. -/
theorem careful_if {p : Prop} [Decidable p] {x y : Caller α} (first : p → Careful x tok)
    (second : ¬p → Careful y tok) : Careful (if p then x else y) tok := by
  split
  · next holds => exact first holds
  · next fails => exact second fails

/-- The functions of the parser keep to the discipline. -/
structure ParseCareful (fuel : ℕ) : Prop where
  set : ∀ tok, Careful (parsesetexpr fuel) tok
  left : ∀ c tok, Careful (parseleft c fuel) tok
  loop : ∀ c res tok, Careful (leftLoop c fuel res) tok
  operand : ∀ c tok, Careful (parseoperand c fuel) tok
  factor : ∀ tok, Careful (parsefactor fuel) tok
  pow : ∀ tok, Careful (parsepow fuel) tok
  prim : ∀ tok, Careful (parseprimitive fuel) tok
  list : ∀ tok, tok ≠ .none → Careful (parseexprlist fuel) tok
  listLoop : ∀ child tok, Careful (exprlistLoop fuel child) tok

variable {fuel : ℕ}

theorem parsesetexpr_careful (careful : ParseCareful fuel) (tok : TokType) :
    Careful (parsesetexpr (fuel + 1)) tok := by
  rw [parsesetexpr]
  refine (careful.left .expr tok).bind fun t1 tok => ?_
  refine careful_if (fun _ => careful_pure _) fun _ => ?_
  rw [careful_tokType_bind]
  refine careful_if (fun set => ?_) fun _ => careful_pure _
  rw [careful_lex_bind, set]
  refine ⟨nofun, fun tok => (careful.set tok).bind fun t2 tok => ?_⟩
  refine careful_if (fun _ => ?_) fun _ => careful_pure _
  exact (careful_delete t1).bind fun _ tok => careful_pure _

theorem parseleft_careful (careful : ParseCareful fuel) (c : Chain) (tok : TokType) :
    Careful (parseleft c (fuel + 1)) tok := by
  rw [parseleft]
  refine (careful.operand c tok).bind fun res tok => ?_
  exact careful_if (fun _ => careful_pure _) fun _ => careful.loop c res tok

theorem leftLoop_careful (careful : ParseCareful fuel) (c : Chain) (res : Tree) (tok : TokType) :
    Careful (leftLoop c (fuel + 1) res) tok := by
  rw [leftLoop, careful_tokType_bind]
  split
  · next word op =>
    rw [careful_lex_bind]
    constructor
    · rintro rfl
      rw [Chain.opType_none] at op
      cases op
    · intro tok
      refine (careful.operand c tok).bind fun t2 tok => ?_
      refine careful_if (fun _ => ?_) fun _ => careful.loop c _ tok
      exact (careful_delete res).bind fun _ tok => careful_pure _
  · exact careful_pure _

theorem parseoperand_careful (careful : ParseCareful fuel) (c : Chain) (tok : TokType) :
    Careful (parseoperand c (fuel + 1)) tok := by
  cases c with
  | expr => exact careful.left .term tok
  | term => exact careful.factor tok

theorem parsefactor_careful (careful : ParseCareful fuel) (tok : TokType) :
    Careful (parsefactor (fuel + 1)) tok := by
  rw [parsefactor, careful_tokType_bind]
  refine careful_if (fun sub => ?_) fun _ => careful.pow tok
  rw [careful_lex_bind, sub]
  refine ⟨nofun, fun tok => (careful.factor tok).bind fun t tok => ?_⟩
  exact careful_if (fun _ => careful_pure _) fun _ => careful_pure _

theorem parsepow_careful (careful : ParseCareful fuel) (tok : TokType) :
    Careful (parsepow (fuel + 1)) tok := by
  rw [parsepow]
  refine (careful.prim tok).bind fun t1 tok => ?_
  rw [careful_tokType_bind]
  refine careful_if (fun pow => ?_) fun _ => careful_pure _
  rw [careful_lex_bind, pow]
  refine ⟨nofun, fun tok => (careful.prim tok).bind fun t2 tok => ?_⟩
  refine careful_if (fun _ => ?_) fun _ => careful_pure _
  exact (careful_delete t1).bind fun _ tok => careful_pure _

theorem parseprimitive_careful (careful : ParseCareful fuel) (tok : TokType) :
    Careful (parseprimitive (fuel + 1)) tok := by
  rw [parseprimitive, careful_tokType_bind]
  cases tok with
  | id =>
    dsimp only
    rw [careful_word_bind]
    intro id
    rw [careful_lex_bind]
    refine ⟨nofun, fun tok => ?_⟩
    rw [careful_tokType_bind]
    refine careful_if (fun lparen => ?_) fun _ => careful_pure _
    refine (careful.list tok (lparen ▸ nofun)).bind ?_
    rintro ⟨returned, child⟩ tok
    refine careful_if (fun _ => careful_pure _) fun _ => ?_
    exact (careful_delete _).bind fun _ tok => careful_pure _
  | string =>
    dsimp only
    rw [careful_lex_bind]
    refine ⟨nofun, fun tok => ?_⟩
    rw [careful_word_bind]
    exact fun text => careful_pure _
  | lparen =>
    dsimp only
    rw [careful_lex_bind]
    refine ⟨nofun, fun tok => (careful.set tok).bind fun t tok => ?_⟩
    refine careful_if (fun _ => careful_pure _) fun _ => ?_
    rw [careful_tokType_bind]
    refine careful_if (fun rparen => ?_) fun _ => ?_
    · rw [careful_lex_bind, rparen]
      exact ⟨nofun, fun tok => careful_pure _⟩
    · refine (careful_delete t).bind fun _ tok => ?_
      rw [careful_setparseerror_bind]
      exact careful_pure _
  | int =>
    dsimp only
    rw [careful_word_bind]
    intro id
    rw [careful_lex_bind]
    exact ⟨nofun, fun tok => careful_pure _⟩
  | _ =>
    dsimp only
    rw [careful_setparseerror_bind]
    exact careful_pure _

theorem parseexprlist_careful (careful : ParseCareful fuel) (tok : TokType) (some : tok ≠ .none) :
    Careful (parseexprlist (fuel + 1)) tok := by
  rw [parseexprlist, careful_lex_bind]
  refine ⟨some, fun tok => ?_⟩
  rw [careful_tokType_bind]
  refine careful_if (fun rparen => ?_) fun _ => ?_
  · rw [careful_lex_bind, rparen]
    exact ⟨nofun, fun tok => careful_pure _⟩
  · refine (careful.set tok).bind fun c tok => ?_
    exact careful_if (fun _ => careful_pure _) fun _ => careful.listLoop _ tok

theorem exprlistLoop_careful (careful : ParseCareful fuel) (child : List Tree) (tok : TokType) :
    Careful (exprlistLoop (fuel + 1) child) tok := by
  rw [exprlistLoop, careful_tokType_bind]
  cases tok with
  | rparen =>
    dsimp only
    rw [careful_lex_bind]
    exact ⟨nofun, fun tok => careful_pure _⟩
  | comma =>
    dsimp only
    rw [careful_lex_bind]
    refine ⟨nofun, fun tok => (careful.set tok).bind fun c tok => ?_⟩
    exact careful_if (fun _ => careful_pure _) fun _ => careful.listLoop _ tok
  | _ =>
    dsimp only
    rw [careful_setparseerror_bind]
    exact careful_pure _

/-- The parser asks for no token behind the end of a line. -/
theorem parse_careful (fuel : ℕ) : ParseCareful fuel := by
  induction fuel with
  | zero =>
    constructor <;> intros
    all_goals simp only [parsesetexpr, parseleft, leftLoop, parseoperand, parsefactor, parsepow,
      parseprimitive, parseexprlist, exprlistLoop, careful_stop]
  | succ fuel careful =>
    exact {
      set := parsesetexpr_careful careful
      left := parseleft_careful careful
      loop := leftLoop_careful careful
      operand := parseoperand_careful careful
      factor := parsefactor_careful careful
      pow := parsepow_careful careful
      prim := parseprimitive_careful careful
      list := parseexprlist_careful careful
      listLoop := exprlistLoop_careful careful }

end Discipline

end Caller

end Pbc.Calc
