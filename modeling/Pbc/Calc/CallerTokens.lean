import Pbc.Calc.Caller

/-!
# The caller on the tokens of a line

Where `lex` takes the tokens of a line from a list, the parser that asks for them one by one does
what the parser does that has the whole list in front of it.
-/

open Pbc.Misc

namespace Pbc.Calc

/-- The value of `tok_type` for a token. -/
def Token.type : Token → TokType
  | .id _ => .id
  | .int _ => .int
  | .string _ => .string
  | .comma => .comma
  | .lparen => .lparen
  | .rparen => .rparen
  | .add => .add
  | .sub => .sub
  | .mul => .mul
  | .div => .div
  | .set => .set
  | .pow => .pow
  | .unk => .unk

/-- The value of `tok_type` in front of some tokens. -/
def Reader.tokType (r : Reader) : TokType := r.tokens.head?.elim .none Token.type

/-- The operations of the parser on a list of tokens and a buffer. -/
def handleTokens : (op : Op) → Reader × String → Except Fault (op.Result × (Reader × String))
  | .look, (r, w) => .ok ((r.tokType, w), (r, w))
  | .lex, (r, w) => .ok ((), (lex r, (lex r).word w))
  | .setparseerror i, (r, w) => .ok ((), (setparseerror r i, w))
  | .stop fault, _ => .error fault

/-- The buffer holds the text of the token in front. -/
def Fresh (r : Reader) (w : String) : Prop := r.word w = w

theorem Reader.word_word (r : Reader) (w : String) : Fresh r (r.word w) := by
  obtain ⟨_ | ⟨token, rest⟩, err⟩ := r
  · rfl
  · cases token <;> rfl

/-- A caller ends like a function of the reader, with the same reader behind its result. -/
inductive Agrees {α β : Type} (pack : α → Reader → β) :
    Except Fault (α × (Reader × String)) → Except Fault β → Prop where
  | ok (a : α) {r : Reader} {w : String} (fresh : Fresh r w) :
      Agrees pack (.ok (a, (r, w))) (.ok (pack a r))
  | error (fault : Fault) : Agrees pack (.error fault) (.error fault)

/-- The run of a caller on some tokens. -/
def Caller.onTokens {α : Type} (p : Caller α) (r : Reader) (w : String) :
    Except Fault (α × (Reader × String)) :=
  p.run handleTokens (r, w)

variable {α β α' β' : Type} {pack : α → Reader → β} {pack' : α' → Reader → β'} {r : Reader}
  {w : String} {fuel : ℕ}

/-- Two computations agree if their parts do. -/
theorem Agrees.bind {p : Caller α} {y : Except Fault β} {f : α → Caller α'}
    {g : β → Except Fault β'} (first : Agrees pack (p.onTokens r w) y)
    (second : ∀ a r w, Fresh r w → Agrees pack' ((f a).onTokens r w) (g (pack a r))) :
    Agrees pack' (Caller.onTokens (p >>= f) r w) (y >>= g) := by
  rw [Caller.onTokens, Client.run_bind]
  rw [Caller.onTokens] at first
  generalize p.run handleTokens (r, w) = x at first ⊢
  cases first with
  | ok a fresh => exact second a _ _ fresh
  | error fault => exact .error fault

namespace Caller

theorem onTokens_tokType (f : TokType → Caller α) :
    (tokType >>= f).onTokens r w = (f r.tokType).onTokens r w := rfl

theorem onTokens_word (f : String → Caller α) :
    (word >>= f).onTokens r w = (f w).onTokens r w := rfl

theorem onTokens_lex (f : Unit → Caller α) :
    (lex >>= f).onTokens r w = (f ()).onTokens (Calc.lex r) ((Calc.lex r).word w) := rfl

/-- A tree is deleted, and what follows does not read it. -/
theorem agrees_delete {t : Tree} {f : Caller α} {y : Except Fault β}
    (rest : Agrees pack (f.onTokens r w) y) :
    Agrees pack ((delete t >>= fun _ => f).onTokens r w) (treeDelete t >>= fun _ => y) := by
  rw [delete]
  cases treeDelete t with
  | ok _ => exact rest
  | error fault => exact .error fault

/-- The functions of the parser agree. -/
structure ParseAgrees (fuel : ℕ) : Prop where
  set : ∀ {r w}, Fresh r w →
    Agrees Prod.mk ((parsesetexpr fuel).onTokens r w) (Calc.parsesetexpr fuel r)
  left : ∀ {r w} c, Fresh r w →
    Agrees Prod.mk ((parseleft c fuel).onTokens r w) (Calc.parseleft c fuel r)
  loop : ∀ {r w} c res, Fresh r w →
    Agrees Prod.mk ((leftLoop c fuel res).onTokens r w) (Calc.leftLoop c fuel res r)
  operand : ∀ {r w} c, Fresh r w →
    Agrees Prod.mk ((parseoperand c fuel).onTokens r w) (Calc.parseoperand c fuel r)
  factor : ∀ {r w}, Fresh r w →
    Agrees Prod.mk ((parsefactor fuel).onTokens r w) (Calc.parsefactor fuel r)
  pow : ∀ {r w}, Fresh r w →
    Agrees Prod.mk ((parsepow fuel).onTokens r w) (Calc.parsepow fuel r)
  prim : ∀ {r w}, Fresh r w →
    Agrees Prod.mk ((parseprimitive fuel).onTokens r w) (Calc.parseprimitive fuel r)
  list : ∀ r w, Agrees (fun a r => (a.1, a.2, r))
    ((parseexprlist fuel).onTokens r w) (Calc.parseexprlist fuel r)
  listLoop : ∀ {r w} child, Fresh r w → Agrees (fun a r => (a.1, a.2, r))
    ((exprlistLoop fuel child).onTokens r w) (Calc.exprlistLoop fuel child r)

theorem parsesetexpr_agrees (agrees : ParseAgrees fuel) (fresh : Fresh r w) :
    Agrees Prod.mk ((parsesetexpr (fuel + 1)).onTokens r w) (Calc.parsesetexpr (fuel + 1) r) := by
  rw [parsesetexpr, Calc.parsesetexpr]
  refine (agrees.left .expr fresh).bind fun t1 r w fresh => ?_
  dsimp only
  split
  · exact .ok _ fresh
  · rw [onTokens_tokType]
    obtain ⟨_ | ⟨token, rest⟩, err⟩ := r
    · exact .ok t1 fresh
    · cases token with
      | set =>
        change Agrees _ ((lex >>= _).onTokens _ w) _
        rw [onTokens_lex]
        refine (agrees.set (Reader.word_word _ _)).bind fun t2 r w fresh => ?_
        dsimp only
        split
        · exact agrees_delete (.ok _ fresh)
        · exact .ok _ fresh
      | _ => exact .ok t1 fresh

theorem parseleft_agrees (agrees : ParseAgrees fuel) (c : Chain) (fresh : Fresh r w) :
    Agrees Prod.mk ((parseleft c (fuel + 1)).onTokens r w) (Calc.parseleft c (fuel + 1) r) := by
  rw [parseleft, Calc.parseleft]
  refine (agrees.operand c fresh).bind fun res r w fresh => ?_
  dsimp only
  split
  · exact .ok _ fresh
  · exact agrees.loop c res fresh

/-- Operators are told by the types of their tokens. -/
theorem Chain.opType_tokType (c : Chain) (r : Reader) :
    c.opType r.tokType = r.tokens.head?.bind c.op := by
  obtain ⟨_ | ⟨token, rest⟩, err⟩ := r
  · cases c <;> rfl
  · cases c <;> cases token <;> rfl

theorem leftLoop_agrees (agrees : ParseAgrees fuel) (c : Chain) (res : Tree) (fresh : Fresh r w) :
    Agrees Prod.mk ((leftLoop c (fuel + 1) res).onTokens r w)
      (Calc.leftLoop c (fuel + 1) res r) := by
  rw [leftLoop, Calc.leftLoop, onTokens_tokType, Chain.opType_tokType]
  cases r.tokens.head?.bind c.op with
  | none => exact .ok res fresh
  | some word =>
    dsimp only
    rw [onTokens_lex]
    refine (agrees.operand c (Reader.word_word _ _)).bind fun t2 r w fresh => ?_
    dsimp only
    split
    · exact agrees_delete (.ok _ fresh)
    · exact agrees.loop c _ fresh

theorem parseoperand_agrees (agrees : ParseAgrees fuel) (c : Chain) (fresh : Fresh r w) :
    Agrees Prod.mk ((parseoperand c (fuel + 1)).onTokens r w)
      (Calc.parseoperand c (fuel + 1) r) := by
  cases c with
  | expr => exact agrees.left .term fresh
  | term => exact agrees.factor fresh

theorem parsefactor_agrees (agrees : ParseAgrees fuel) (fresh : Fresh r w) :
    Agrees Prod.mk ((parsefactor (fuel + 1)).onTokens r w) (Calc.parsefactor (fuel + 1) r) := by
  rw [parsefactor, Calc.parsefactor, onTokens_tokType]
  obtain ⟨_ | ⟨token, rest⟩, err⟩ := r
  · exact agrees.pow fresh
  · cases token with
    | sub =>
      change Agrees _ ((lex >>= _).onTokens _ w) _
      rw [onTokens_lex]
      refine (agrees.factor (Reader.word_word _ _)).bind fun t r w fresh => ?_
      dsimp only
      split
      · exact .ok _ fresh
      · exact .ok _ fresh
    | _ => exact agrees.pow fresh

theorem parsepow_agrees (agrees : ParseAgrees fuel) (fresh : Fresh r w) :
    Agrees Prod.mk ((parsepow (fuel + 1)).onTokens r w) (Calc.parsepow (fuel + 1) r) := by
  rw [parsepow, Calc.parsepow]
  refine (agrees.prim fresh).bind fun t1 r w fresh => ?_
  rw [onTokens_tokType]
  obtain ⟨_ | ⟨token, rest⟩, err⟩ := r
  · exact .ok t1 fresh
  · cases token with
    | pow =>
      change Agrees _ ((lex >>= _).onTokens _ w) _
      rw [onTokens_lex]
      refine (agrees.prim (Reader.word_word _ _)).bind fun t2 r w fresh => ?_
      dsimp only
      split
      · exact agrees_delete (.ok _ fresh)
      · exact .ok _ fresh
    | _ => exact .ok t1 fresh

theorem parseprimitive_agrees (agrees : ParseAgrees fuel) (fresh : Fresh r w) :
    Agrees Prod.mk ((parseprimitive (fuel + 1)).onTokens r w)
      (Calc.parseprimitive (fuel + 1) r) := by
  rw [parseprimitive, Calc.parseprimitive, onTokens_tokType]
  obtain ⟨_ | ⟨token, rest⟩, err⟩ := r
  · exact .ok _ fresh
  · cases token with
    | id text =>
      obtain rfl : text = w := fresh
      change Agrees _ ((word >>= _).onTokens _ text) _
      rw [onTokens_word, onTokens_lex, onTokens_tokType]
      have fresh := Reader.word_word (Calc.lex ⟨.id text :: rest, err⟩) text
      obtain _ | ⟨token, rest⟩ := rest
      · exact .ok (Tree.id text) fresh
      · cases token with
        | lparen =>
          refine (agrees.list _ _).bind ?_
          rintro ⟨returned, child⟩ r w fresh
          dsimp only
          split
          · exact .ok _ fresh
          · exact agrees_delete (.ok _ fresh)
        | _ => exact .ok (Tree.id text) fresh
    | string text =>
      obtain rfl : text = w := fresh
      exact .ok _ (Reader.word_word _ _)
    | lparen =>
      change Agrees _ ((lex >>= _).onTokens _ w) _
      rw [onTokens_lex]
      refine (agrees.set (Reader.word_word _ _)).bind fun t r w fresh => ?_
      dsimp only
      split
      · exact .ok _ fresh
      · rw [onTokens_tokType]
        obtain ⟨_ | ⟨token, rest⟩, err⟩ := r
        · exact agrees_delete (.ok _ fresh)
        · cases token with
          | rparen => exact .ok _ (Reader.word_word _ _)
          | _ => exact agrees_delete (.ok _ fresh)
    | int text =>
      obtain rfl : text = w := fresh
      exact .ok _ (Reader.word_word _ _)
    | _ => exact .ok _ fresh

/-- The first argument of a call, and what follows. -/
theorem firstArg_agrees (agrees : ParseAgrees fuel) (c : Tree) (fresh : Fresh r w) :
    Agrees (fun a r => (a.1, a.2, r))
      ((if c.isNull then pure (false, []) else exprlistLoop fuel [c] : Caller _).onTokens r w)
      (if c.isNull then pure (false, [], r) else Calc.exprlistLoop fuel [c] r) := by
  split
  · exact .ok (false, []) fresh
  · exact agrees.listLoop [c] fresh

theorem parseexprlist_agrees (agrees : ParseAgrees fuel) (r : Reader) (w : String) :
    Agrees (fun a r => (a.1, a.2, r)) ((parseexprlist (fuel + 1)).onTokens r w)
      (Calc.parseexprlist (fuel + 1) r) := by
  rw [parseexprlist, Calc.parseexprlist, onTokens_lex, onTokens_tokType]
  have fresh := Reader.word_word (Calc.lex r) w
  generalize (Calc.lex r).word w = w at fresh ⊢
  generalize Calc.lex r = r at fresh ⊢
  obtain ⟨_ | ⟨token, rest⟩, err⟩ := r
  · exact (agrees.set fresh).bind fun c _ _ fresh => firstArg_agrees agrees c fresh
  · cases token with
    | rparen => exact .ok (true, []) (Reader.word_word _ _)
    | _ => exact (agrees.set fresh).bind fun c _ _ fresh => firstArg_agrees agrees c fresh

theorem exprlistLoop_agrees (agrees : ParseAgrees fuel) (child : List Tree) (fresh : Fresh r w) :
    Agrees (fun a r => (a.1, a.2, r)) ((exprlistLoop (fuel + 1) child).onTokens r w)
      (Calc.exprlistLoop (fuel + 1) child r) := by
  rw [exprlistLoop, Calc.exprlistLoop, onTokens_tokType]
  obtain ⟨_ | ⟨token, rest⟩, err⟩ := r
  · exact .ok (false, child) fresh
  · cases token with
    | rparen => exact .ok (true, child) (Reader.word_word _ _)
    | comma =>
      change Agrees _ ((lex >>= _).onTokens _ w) _
      rw [onTokens_lex]
      refine (agrees.set (Reader.word_word _ _)).bind fun c r w fresh => ?_
      dsimp only
      split
      · exact .ok (false, child) fresh
      · exact agrees.listLoop _ fresh
    | _ => exact .ok (false, child) fresh

/-- Asking for the tokens one by one makes no difference to the parser. -/
theorem parse_agrees (fuel : ℕ) : ParseAgrees fuel := by
  induction fuel with
  | zero =>
    constructor
    case operand =>
      intro r w c fresh
      cases c <;> exact .error .fuel
    all_goals
      intros
      exact .error .fuel
  | succ fuel agrees =>
    exact {
      set := parsesetexpr_agrees agrees
      left := parseleft_agrees agrees
      loop := leftLoop_agrees agrees
      operand := parseoperand_agrees agrees
      factor := parsefactor_agrees agrees
      pow := parsepow_agrees agrees
      prim := parseprimitive_agrees agrees
      list := parseexprlist_agrees agrees
      listLoop := exprlistLoop_agrees agrees }

end Caller

end Pbc.Calc
