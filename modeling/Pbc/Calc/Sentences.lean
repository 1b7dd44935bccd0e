import Pbc.Calc.Parse

/-!
# The lines that the calculator accepts

The parser reads every phrase up to the token that stops it and builds the tree of its
derivation, and it reports every line that breaks off inside a phrase. It misses tokens that
follow a sentence, the empty line, and a `^` whose base is missing.
-/

open Pbc.Misc

namespace Pbc.Calc

section Completeness

variable {c : Chain} {l : Level} {e : Bool} {s r : List Token} {t : Tree} {x : Token}
  {err : Option ParseError}

/-- The token in front does not fill the buffer `word`. -/
def Plain (r : List Token) : Prop := ∀ err before, Reader.word ⟨r, err⟩ before = before

theorem Tree.Whole.isNull (whole : t.Whole) : t.isNull = false :=
  Bool.eq_false_iff.mpr (mt Tree.isNull_iff.mp whole.ne_null)

/-- The kind of the phrases behind which a phrase of some kind may go on. -/
def Level.inner : Level → Level
  | .chain c => c.operand
  | .args _ => .set
  | l => l

/-- A run reads a phrase in front of the tokens that are left. Behind an operand or an
argument it is in the loop of its kind. -/
def ReadsPhrase : Level → List Token → Tree → List Token → Option ParseError → Prop
  | .prim, s, t, r, err => Ends (parseprimitive · ⟨s ++ r, err⟩) (t, ⟨r, err⟩)
  | .factor, s, t, r, err => Ends (parsefactor · ⟨s ++ r, err⟩) (t, ⟨r, err⟩)
  | .chain c, s, t, r, err => ∀ out, Ends (leftLoop c · t ⟨r, err⟩) out →
      Ends (parseleft c · ⟨s ++ r, err⟩) out
  | .set, s, t, r, err => Ends (parsesetexpr · ⟨s ++ r, err⟩) (t, ⟨r, err⟩)
  | .args _, s, t, r, err => ∃ word child, t = .function word child ∧
      ∀ out, Ends (exprlistLoop · child ⟨r, err⟩) out →
        Ends (parseexprlist · ⟨.lparen :: s ++ r, err⟩) out

/-- Behind a phrase that stops a run goes on with its tree. A string in front of a word is
given that word. -/
def Complete (l : Level) (e : Bool) (s : List Token) (t : Tree) : Prop :=
  ∀ r err, Stops l.inner e s r → ∃ t', t'.Whole ∧ (Plain r → t' = t) ∧ ReadsPhrase l s t' r err

/-- The loop of a rank ends where no operator follows. -/
theorem leftLoop_ends (stops : Stops (.chain c) e s r) :
    Ends (leftLoop c · t ⟨r, err⟩) (t, ⟨r, err⟩) := by
  refine .succ (.of_eq fun fuel => ?_)
  rw [leftLoop]
  have none : r.head?.bind c.op = none := by
    rw [Option.bind_eq_none_iff]
    intro x head
    by_contra some
    have joins := (c.op_isSome_iff x).mp (Option.ne_none_iff_isSome.mp some)
    exact lt_irrefl _ (stops.rank x _ head joins)
  simp only [none]

/-- An operator stops the operand in front of it. -/
theorem Chain.stops_operator {word : String} (op : c.op x = some word) :
    Stops c.operand e s (x :: r) := by
  have joins := (c.op_isSome_iff x).mp (Option.isSome_iff_exists.mpr ⟨word, op⟩)
  refine ⟨fun head => ?_, fun head => ?_, fun y n head joins' => ?_⟩
  · obtain rfl : x = .lparen := Option.some.inj head
    cases joins
  · obtain rfl : x = .pow := Option.some.inj head
    cases joins
  · obtain rfl : x = y := Option.some.inj head
    rw [joins, Option.some.injEq, c.rank_operand] at joins'
    omega

theorem Chain.plain_operator {word : String} (op : c.op x = some word) : Plain (x :: r) := by
  have joins := (c.op_isSome_iff x).mp (Option.isSome_iff_exists.mpr ⟨word, op⟩)
  cases x <;> first | exact fun _ _ => rfl | cases joins

/-- The tokens behind a phrase in brackets. -/
theorem Stops.rparen : Stops l e s (.rparen :: r) :=
  ⟨nofun, nofun, fun x n head joins => by cases head; cases joins⟩

theorem Stops.comma : Stops .set e s (.comma :: r) :=
  ⟨nofun, nofun, fun x n head joins => by cases head; cases joins; decide⟩

theorem Stops.set : Stops (.chain .expr) e s (.set :: r) :=
  ⟨nofun, nofun, fun x n head joins => by cases head; cases joins; decide⟩

theorem Stops.pow : Stops .prim e s (.pow :: r) := .prim nofun

/-- No phrase starts with a closing bracket. -/
theorem Derives.head_ne_rparen (derives : Derives l e s t) : (s ++ r).head? ≠ some .rparen := by
  induction derives generalizing r with
  | power _ _ ih | operator _ _ _ ih | assign _ _ ih | next _ _ ih =>
    rw [List.append_assoc]
    exact ih
  | base _ ih | operand _ ih | value _ ih | first _ ih => exact ih
  | _ => simp

/-- A primitive has no sign. -/
theorem Derives.head_ne_sub (derives : Derives .prim e s t) : (s ++ r).head? ≠ some .sub := by
  cases derives <;> simp

theorem complete_id (word : String) : Complete .prim false [.id word] (.id word) := by
  intro r err stops
  refine ⟨.id word, .id word, fun _ => rfl, .succ (.of_eq fun fuel => ?_)⟩
  simp only [List.cons_append, List.nil_append, parseprimitive, lex, List.tail_cons]
  split
  · next rest => exact absurd rfl (stops.bracket rfl word)
  · rfl

theorem complete_int (word : String) : Complete .prim false [.int word] (.int word) :=
  fun _ _ _ => ⟨.int word, .int word, fun _ => rfl, .succ (.of_eq fun _ => rfl)⟩

theorem complete_string (word : String) : Complete .prim false [.string word] (.string word) := by
  intro r err _
  refine ⟨.string (Reader.word ⟨r, err⟩ word), .string _, fun plain => ?_, .succ (.of_eq fun _ => rfl)⟩
  rw [plain]

theorem complete_paren (inner : Complete .set e s t) :
    Complete .prim false (.lparen :: s ++ [.rparen]) t := by
  intro r err _
  obtain ⟨t', whole, same, reads⟩ := inner (.rparen :: r) err .rparen
  refine ⟨t', whole, fun _ => same fun _ _ => rfl, .succ ?_⟩
  simp only [List.cons_append, List.append_assoc, List.nil_append, parseprimitive, lex,
    List.tail_cons]
  refine .bind reads (.of_eq fun fuel => ?_)
  simp only [whole.isNull, Bool.false_eq_true, if_false, List.tail_cons]
  rfl

theorem complete_call (word : String) :
    Complete .prim false [.id word, .lparen, .rparen] (.function word []) := by
  intro r err _
  refine ⟨.function word [], .function word (List.forall_mem_nil _), fun _ => rfl, .succ ?_⟩
  have reads : Ends (parseexprlist · ⟨.lparen :: .rparen :: r, err⟩) (true, [], ⟨r, err⟩) :=
    .succ (.of_eq fun _ => rfl)
  simp only [List.cons_append, List.nil_append, parseprimitive, lex, List.tail_cons]
  exact .bind reads (.of_eq fun fuel => rfl)

theorem complete_callArgs {word : String} (args : Complete (.args word) e s t)
    (phrase : Derives (.args word) e s t) :
    Complete .prim false (.id word :: .lparen :: s ++ [.rparen]) t := by
  intro r err _
  obtain ⟨t', whole, same, word', child, shape, reads⟩ := args (.rparen :: r) err .rparen
  have plain := same fun _ _ => rfl
  obtain ⟨child', tree⟩ := phrase.args_tree
  obtain ⟨rfl, rfl⟩ := Tree.function.inj (shape.symm.trans (plain.trans tree))
  refine ⟨t', whole, fun _ => plain, .succ ?_⟩
  have loop : Ends (exprlistLoop · child ⟨.rparen :: r, err⟩) (true, child, ⟨r, err⟩) :=
    .succ (.of_eq fun _ => rfl)
  simp only [List.cons_append, List.append_assoc, List.nil_append, parseprimitive, lex,
    List.tail_cons]
  refine .bind (reads _ loop) (.of_eq fun fuel => ?_)
  rw [shape]
  rfl

/-- `parsefactor` goes on to `parsepow` where no sign stands. -/
theorem parsefactor_ends {out : Tree × Reader} (unsigned : s.head? ≠ some .sub)
    (pow : Ends (parsepow · ⟨s, err⟩) out) : Ends (parsefactor · ⟨s, err⟩) out := by
  refine .succ ?_
  simp only [parsefactor]
  split
  · next rest => exact absurd rfl unsigned
  · exact pow

/-- `parsepow` returns its base where no exponent follows. -/
theorem parsepow_ends {r' : Reader} (exponent : r'.tokens.head? ≠ some .pow)
    (prim : Ends (parseprimitive · ⟨s, err⟩) (t, r')) : Ends (parsepow · ⟨s, err⟩) (t, r') := by
  refine .succ (.bind prim (.of_eq fun fuel => ?_))
  dsimp only
  split
  · next rest power =>
    rw [power] at exponent
    exact absurd rfl exponent
  · rfl

theorem complete_base (base : Complete .prim e s t) (phrase : Derives .prim e s t) :
    Complete .factor false s t := by
  intro r err stops
  obtain ⟨t', whole, same, reads⟩ := base r err (.prim stops.bracket)
  refine ⟨t', whole, same, parsefactor_ends phrase.head_ne_sub (parsepow_ends ?_ reads)⟩
  intro head
  rcases stops.exponent head with level | flag
  · cases level
  · cases flag

/-- A base in front of `^` is read with its own tree. -/
theorem Complete.pow_base (base : Complete .prim e s t) (r : List Token) (err : Option ParseError) :
    t.Whole ∧ Ends (parseprimitive · ⟨s ++ .pow :: r, err⟩) (t, ⟨.pow :: r, err⟩) := by
  obtain ⟨t', whole, same, reads⟩ := base (.pow :: r) err .pow
  obtain rfl := same fun _ _ => rfl
  exact ⟨whole, reads⟩

theorem complete_power {e' : Bool} {s' : List Token} {t' : Tree} (base : Complete .prim e s t)
    (exponent : Complete .prim e' s' t') (phrase : Derives .prim e s t)
    (phrase' : Derives .prim e' s' t') :
    Complete .factor true (s ++ .pow :: s') (.function "pow" [t, t']) := by
  intro r err stops
  rw [List.append_cons] at stops
  obtain ⟨t2, whole, same, reads⟩ :=
    exponent r err (.prim (stops.tail phrase'.nonempty).bracket)
  obtain ⟨whole1, reads1⟩ := base.pow_base (s' ++ r) err
  refine ⟨.function "pow" [t, t2], ?_, fun plain => by rw [same plain], ?_⟩
  · exact .function _ (by simp [whole1, whole])
  · rw [ReadsPhrase, List.append_assoc, List.cons_append]
    refine parsefactor_ends phrase.head_ne_sub (.succ (.bind reads1 (.bind reads ?_)))
    refine .of_eq fun fuel => ?_
    simp only [whole.isNull, Bool.false_eq_true, if_false]
    rfl

theorem complete_neg (factor : Complete .factor e s t) (phrase : Derives .factor e s t) :
    Complete .factor e (.sub :: s) (.function "neg" [t]) := by
  intro r err stops
  obtain ⟨t', whole, same, reads⟩ := factor r err (stops.tail (s := [.sub]) phrase.nonempty)
  refine ⟨.function "neg" [t'], ?_, fun plain => by rw [same plain], ?_⟩
  · exact .function _ (by simp [whole])
  · refine .succ (.bind reads (.of_eq fun fuel => ?_))
    simp only [whole.isNull, Bool.false_eq_true, if_false]
    rfl

/-- The operands of a rank are read by `parseoperand`. -/
theorem Complete.parseoperand (operand : Complete c.operand e s t) (r : List Token)
    (err : Option ParseError) (stops : Stops c.operand e s r) :
    ∃ t', t'.Whole ∧ (Plain r → t' = t) ∧
      Ends (parseoperand c · ⟨s ++ r, err⟩) (t', ⟨r, err⟩) := by
  cases c with
  | expr =>
    obtain ⟨t', whole, same, reads⟩ := operand r err (stops.lower (by decide) nofun)
    exact ⟨t', whole, same, .succ (reads _ (leftLoop_ends stops))⟩
  | term =>
    obtain ⟨t', whole, same, reads⟩ := operand r err stops
    exact ⟨t', whole, same, .succ reads⟩

theorem complete_operand (operand : Complete c.operand e s t) : Complete (.chain c) e s t := by
  intro r err stops
  obtain ⟨t', whole, same, reads⟩ := operand.parseoperand r err stops
  refine ⟨t', whole, same, fun out loop => .succ (.bind reads ?_)⟩
  simp only [whole.isNull, Bool.false_eq_true, if_false]
  exact loop

/-- The operand in front of an operator is read with its own tree. -/
theorem Complete.left {word : String} (left : Complete (.chain c) e s t) (op : c.op x = some word)
    (r : List Token) (err : Option ParseError) :
    t.Whole ∧ ∀ out, Ends (leftLoop c · t ⟨x :: r, err⟩) out →
      Ends (parseleft c · ⟨s ++ x :: r, err⟩) out := by
  obtain ⟨t', whole, same, reads⟩ := left (x :: r) err (c.stops_operator op)
  obtain rfl := same (c.plain_operator op)
  exact ⟨whole, reads⟩

theorem complete_operator {word : String} {e' : Bool} {s' : List Token} {t' : Tree}
    (op : c.op x = some word) (left : Complete (.chain c) e s t)
    (right : Complete c.operand e' s' t') (phrase : Derives c.operand e' s' t') :
    Complete (.chain c) e' (s ++ x :: s') (.function word [t, t']) := by
  intro r err stops
  rw [List.append_cons] at stops
  obtain ⟨t2, whole, same, reads⟩ := right.parseoperand r err (stops.tail phrase.nonempty)
  obtain ⟨whole1, reads1⟩ := left.left op (s' ++ r) err
  refine ⟨.function word [t, t2], ?_, fun plain => by rw [same plain], fun out loop => ?_⟩
  · exact .function _ (by simp [whole1, whole])
  · rw [List.append_assoc, List.cons_append]
    refine reads1 out (.succ ?_)
    simp only [leftLoop, List.head?_cons, Option.bind_some, op]
    refine .bind reads ?_
    simp only [whole.isNull, Bool.false_eq_true, if_false]
    exact loop

theorem complete_value (expr : Complete (.chain .expr) e s t) : Complete .set e s t := by
  intro r err stops
  have stops' : Stops (.chain .expr) e s r := stops.lower (by decide) nofun
  obtain ⟨t', whole, same, reads⟩ := expr r err (stops'.lower (by decide) nofun)
  refine ⟨t', whole, same, .succ (.bind (reads _ (leftLoop_ends stops')) (.of_eq fun fuel => ?_))⟩
  simp only [whole.isNull, Bool.false_eq_true, if_false]
  split
  · next rest => exact absurd (stops.rank .set _ rfl rfl) (lt_irrefl _)
  · rfl

/-- The left side of an assignment is read with its own tree. -/
theorem Complete.assign_left (left : Complete (.chain .expr) e s t) (r : List Token)
    (err : Option ParseError) :
    t.Whole ∧ Ends (parseleft .expr · ⟨s ++ .set :: r, err⟩) (t, ⟨.set :: r, err⟩) := by
  have stops : Stops (.chain .expr) e s (.set :: r) := .set
  obtain ⟨t', whole, same, reads⟩ := left (.set :: r) err (stops.lower (by decide) nofun)
  obtain rfl := same fun _ _ => rfl
  exact ⟨whole, reads _ (leftLoop_ends stops)⟩

theorem complete_assign {e' : Bool} {s' : List Token} {t' : Tree}
    (left : Complete (.chain .expr) e s t) (right : Complete .set e' s' t')
    (phrase : Derives .set e' s' t') : Complete .set e' (s ++ .set :: s') (.set t t') := by
  intro r err stops
  rw [List.append_cons] at stops
  obtain ⟨t2, whole, same, reads⟩ := right r err (stops.tail phrase.nonempty)
  obtain ⟨whole1, reads1⟩ := left.assign_left (s' ++ r) err
  refine ⟨.set t t2, .set whole1 whole, fun plain => by rw [same plain], ?_⟩
  rw [ReadsPhrase, List.append_assoc, List.cons_append]
  refine .succ (.bind reads1 ?_)
  simp only [whole1.isNull, Bool.false_eq_true, if_false, lex, List.tail_cons]
  refine .bind reads (.of_eq fun fuel => ?_)
  simp only [whole.isNull, Bool.false_eq_true, if_false]
  rfl

theorem complete_first {word : String} (arg : Complete .set e s t) (phrase : Derives .set e s t) :
    Complete (.args word) e s (.function word [t]) := by
  intro r err stops
  obtain ⟨t', whole, same, reads⟩ := arg r err stops
  refine ⟨.function word [t'], .function _ (by simp [whole]), fun plain => by rw [same plain],
    word, [t'], rfl, fun out loop => .succ ?_⟩
  simp only [List.cons_append, parseexprlist, lex, List.tail_cons]
  split
  · next rest shape =>
    have head : (s ++ r).head? ≠ some .rparen := phrase.head_ne_rparen
    rw [shape] at head
    exact absurd rfl head
  · refine .bind reads ?_
    simp only [whole.isNull, Bool.false_eq_true, if_false]
    exact loop

/-- Arguments in front of a comma are read with their own trees. -/
theorem Complete.args {word : String} {child : List Tree}
    (args : Complete (.args word) e s (.function word child)) (r : List Token)
    (err : Option ParseError) :
    (∀ t ∈ child, t.Whole) ∧ ∀ out, Ends (exprlistLoop · child ⟨.comma :: r, err⟩) out →
      Ends (parseexprlist · ⟨.lparen :: s ++ .comma :: r, err⟩) out := by
  obtain ⟨t', whole, same, word', child', shape, reads⟩ := args (.comma :: r) err .comma
  obtain ⟨rfl, rfl⟩ := Tree.function.inj (shape.symm.trans (same fun _ _ => rfl))
  rw [shape] at whole
  cases whole with
  | function _ all => exact ⟨all, reads⟩

theorem complete_next {word : String} {child : List Tree} {e' : Bool} {s' : List Token} {t' : Tree}
    (args : Complete (.args word) e s (.function word child)) (arg : Complete .set e' s' t')
    (phrase : Derives .set e' s' t') :
    Complete (.args word) e' (s ++ .comma :: s') (.function word (child ++ [t'])) := by
  intro r err stops
  rw [List.append_cons] at stops
  obtain ⟨t2, whole, same, reads⟩ := arg r err (stops.tail phrase.nonempty)
  obtain ⟨all, reads1⟩ := args.args (s' ++ r) err
  refine ⟨.function word (child ++ [t2]), .function _ ?_, fun plain => by rw [same plain],
    word, child ++ [t2], rfl, fun out loop => ?_⟩
  · intro t member
    rcases List.mem_append.mp member with member | member
    · exact all t member
    · rwa [List.mem_singleton.mp member]
  · rw [← List.cons_append, List.append_assoc, List.cons_append]
    refine reads1 out (.succ (.bind reads ?_))
    simp only [whole.isNull, Bool.false_eq_true, if_false]
    exact loop

/-- Every phrase is read up to the token that stops it. -/
theorem Derives.complete (derives : Derives l e s t) : Complete l e s t := by
  induction derives with
  | id word => exact complete_id word
  | int word => exact complete_int word
  | string word => exact complete_string word
  | paren _ ih => exact complete_paren ih
  | call word => exact complete_call word
  | callArgs args ih => exact complete_callArgs ih args
  | base base ih => exact complete_base ih base
  | power base exponent ih ih' => exact complete_power ih ih' base exponent
  | neg factor ih => exact complete_neg ih factor
  | operand _ ih => exact complete_operand ih
  | operator op _ right ih ih' => exact complete_operator op ih ih' right
  | value _ ih => exact complete_value ih
  | assign _ right ih ih' => exact complete_assign ih ih' right
  | first arg ih => exact complete_first ih arg
  | next _ arg ih ih' => exact complete_next ih ih' arg

end Completeness

section Refusal

variable {c : Chain} {l : Level} {e : Bool} {s r : List Token} {t : Tree} {x : Token}
  {word : String}

/-- A run breaks off in front of the tokens that are left, and the nodes that it has to delete
are there. -/
def BreaksOff : Level → List Token → List Token → Option ParseError → Option ParseError → Prop
  | .prim, s, r, err, err' => Ends (parseprimitive · ⟨s, err⟩) (.null, ⟨r, err'⟩)
  | .factor, s, r, err, err' => Ends (parsefactor · ⟨s, err⟩) (.null, ⟨r, err'⟩)
  | .chain c, s, r, err, err' => Ends (parseleft c · ⟨s, err⟩) (.null, ⟨r, err'⟩)
  | .set, s, r, err, err' => Ends (parsesetexpr · ⟨s, err⟩) (.null, ⟨r, err'⟩)
  | .args _, s, r, err, err' => ∃ child, (∀ t ∈ child, t.Whole) ∧
      Ends (parseexprlist · ⟨.lparen :: s, err⟩) (false, child, ⟨r, err'⟩)

/-- A sequence is refused with some error code. -/
def Refused (l : Level) (s r : List Token) : Prop := ∀ err, ∃ err', BreaksOff l s r err err'

theorem refused_missing (none : ∀ x, r.head? = some x → ¬x.Starts) : Refused .prim r r := by
  intro err
  refine ⟨some .expectFactor, .succ (.of_eq fun fuel => ?_)⟩
  rw [parseprimitive]
  split
  · next word rest tokens => exact absurd trivial (none _ (congrArg List.head? tokens))
  · next word rest tokens => exact absurd trivial (none _ (congrArg List.head? tokens))
  · next rest tokens => exact absurd trivial (none _ (congrArg List.head? tokens))
  · next word rest tokens => exact absurd trivial (none _ (congrArg List.head? tokens))
  · rfl

theorem refused_inner (inner : Refused .set s r) : Refused .prim (.lparen :: s) r := by
  intro err
  obtain ⟨err', breaks⟩ := inner err
  exact ⟨err', .succ (.bind breaks (.of_eq fun _ => rfl))⟩

theorem refused_unclosed (inner : Derives .set e s t) (stops : Stops .set e s r)
    (unclosed : r.head? ≠ some .rparen) : Refused .prim (.lparen :: s ++ r) r := by
  intro err
  obtain ⟨t', whole, -, reads⟩ := inner.complete r err stops
  refine ⟨some .expectRparen, .succ ?_⟩
  simp only [List.cons_append, parseprimitive, lex, List.tail_cons]
  refine .bind reads (.of_eq fun fuel => ?_)
  simp only [whole.isNull, Bool.false_eq_true, if_false]
  split
  · next rest => exact absurd rfl unclosed
  · rw [treeDelete_of_whole whole]
    rfl

theorem refused_args (args : Refused (.args word) s r) :
    Refused .prim (.id word :: .lparen :: s) r := by
  intro err
  obtain ⟨err', child, all, breaks⟩ := args err
  refine ⟨err', .succ (.bind breaks (.of_eq fun fuel => ?_))⟩
  simp only [Bool.false_eq_true, if_false, treeDelete_of_whole (.function word all)]
  rfl

theorem refused_first (arg : Refused .set s r) (some : s.head? ≠ some .rparen) :
    Refused (.args word) s r := by
  intro err
  obtain ⟨err', breaks⟩ := arg err
  refine ⟨err', [], List.forall_mem_nil _, .succ ?_⟩
  simp only [parseexprlist, lex, List.tail_cons]
  split
  · next rest => exact absurd rfl some
  · exact .bind breaks (.of_eq fun _ => rfl)

theorem refused_next {s' : List Token} (args : Derives (.args word) e s t)
    (arg : Refused .set s' r) : Refused (.args word) (s ++ .comma :: s') r := by
  intro err
  obtain ⟨err', breaks⟩ := arg err
  obtain ⟨child, rfl⟩ := args.args_tree
  obtain ⟨all, reads⟩ := args.complete.args s' err
  exact ⟨err', child, all, reads _ (.succ (.bind breaks (.of_eq fun _ => rfl)))⟩

theorem refused_unfinished (args : Derives (.args word) e s t) (stops : Stops (.args word) e s r)
    (unclosed : r.head? ≠ some .rparen) : Refused (.args word) (s ++ r) r := by
  intro err
  obtain ⟨t', whole, -, word', child, shape, reads⟩ :=
    args.complete r err (stops.lower (Nat.le_succ 4) nofun)
  rw [shape] at whole
  cases whole with
  | function _ all =>
    refine ⟨some .arglist, child, all, reads _ (.succ (.of_eq fun fuel => ?_))⟩
    rw [exprlistLoop]
    split
    · next rest tokens => exact absurd (congrArg List.head? tokens) unclosed
    · next rest tokens =>
      exact absurd (stops.rank .comma _ (congrArg List.head? tokens) rfl) (lt_irrefl _)
    · rfl

theorem refused_base (base : Refused .prim s r) (unsigned : s.head? ≠ some .sub)
    (exponent : r.head? ≠ some .pow) : Refused .factor s r := by
  intro err
  obtain ⟨err', breaks⟩ := base err
  exact ⟨err', parsefactor_ends unsigned (parsepow_ends exponent breaks)⟩

theorem refused_exponent {s' : List Token} (base : Derives .prim e s t)
    (exponent : Refused .prim s' r) : Refused .factor (s ++ .pow :: s') r := by
  intro err
  obtain ⟨err', breaks⟩ := exponent err
  obtain ⟨whole, reads⟩ := base.complete.pow_base s' err
  refine ⟨err', parsefactor_ends base.head_ne_sub (.succ (.bind reads (.bind breaks ?_)))⟩
  refine .of_eq fun fuel => ?_
  rw [treeDelete_of_whole whole]
  rfl

theorem refused_neg (factor : Refused .factor s r) : Refused .factor (.sub :: s) r := by
  intro err
  obtain ⟨err', breaks⟩ := factor err
  exact ⟨err', .succ (.bind breaks (.of_eq fun _ => rfl))⟩

theorem Refused.parseoperand (operand : Refused c.operand s r) (err : Option ParseError) :
    ∃ err', Ends (parseoperand c · ⟨s, err⟩) (.null, ⟨r, err'⟩) := by
  obtain ⟨err', breaks⟩ := operand err
  cases c with
  | expr => exact ⟨err', .succ breaks⟩
  | term => exact ⟨err', .succ breaks⟩

theorem refused_operand (operand : Refused c.operand s r) : Refused (.chain c) s r := by
  intro err
  obtain ⟨err', breaks⟩ := operand.parseoperand err
  exact ⟨err', .succ (.bind breaks (.of_eq fun _ => rfl))⟩

theorem refused_operator {s' : List Token} (op : c.op x = some word)
    (left : Derives (.chain c) e s t) (right : Refused c.operand s' r) :
    Refused (.chain c) (s ++ x :: s') r := by
  intro err
  obtain ⟨err', breaks⟩ := right.parseoperand err
  obtain ⟨whole, reads⟩ := left.complete.left op s' err
  refine ⟨err', reads _ (.succ ?_)⟩
  simp only [leftLoop, List.head?_cons, Option.bind_some, op]
  refine .bind breaks (.of_eq fun fuel => ?_)
  rw [treeDelete_of_whole whole]
  rfl

theorem refused_value (expr : Refused (.chain .expr) s r) : Refused .set s r := by
  intro err
  obtain ⟨err', breaks⟩ := expr err
  exact ⟨err', .succ (.bind breaks (.of_eq fun _ => rfl))⟩

theorem refused_assign {s' : List Token} (left : Derives (.chain .expr) e s t)
    (right : Refused .set s' r) : Refused .set (s ++ .set :: s') r := by
  intro err
  obtain ⟨err', breaks⟩ := right err
  obtain ⟨whole, reads⟩ := left.complete.assign_left s' err
  refine ⟨err', .succ (.bind reads ?_)⟩
  simp only [whole.isNull, Bool.false_eq_true, if_false, lex, List.tail_cons]
  refine .bind breaks (.of_eq fun fuel => ?_)
  rw [treeDelete_of_whole whole]
  rfl

/-- Every sequence that breaks off is refused. -/
theorem Refuses.refused (refuses : Refuses l s r) : Refused l s r := by
  induction refuses with
  | missing none => exact refused_missing none
  | inner _ ih => exact refused_inner ih
  | unclosed inner stops unclosed => exact refused_unclosed inner stops unclosed
  | args _ ih => exact refused_args ih
  | first _ some ih => exact refused_first ih some
  | next args _ ih => exact refused_next args ih
  | unfinished args stops unclosed => exact refused_unfinished args stops unclosed
  | base _ unsigned exponent ih => exact refused_base ih unsigned exponent
  | exponent base _ ih => exact refused_exponent base ih
  | neg _ ih => exact refused_neg ih
  | operand _ ih => exact refused_operand ih
  | operator op left _ ih => exact refused_operator op left ih
  | value _ ih => exact refused_value ih
  | assign left _ ih => exact refused_assign left ih

end Refusal

section Lines

variable {tokens : List Token} {err : Option ParseError}

/-- A line is treated as the grammar says: a sentence gives its tree, and anything else a parse
error. -/
structure FollowsGrammar (tokens : List Token) (err : Option ParseError) : Prop where
  sentence : ∀ t, Sentence tokens t → ∃ r, Ends (parseInput · ⟨tokens, err⟩) (.tree t, r)
  other : (¬∃ t, Sentence tokens t) →
    ∃ code r, Ends (parseInput · ⟨tokens, err⟩) (.parseError code, r)

/-- The tree that is read in front of a line is evaluated. -/
theorem parseInput_of_tree {t : Tree} {r : Reader} (some : tokens ≠ []) (whole : t.Whole)
    (reads : Ends (parsesetexpr · ⟨tokens, err⟩) (t, r)) :
    Ends (parseInput · ⟨tokens, err⟩) (.tree t, r) := by
  cases tokens with
  | nil => exact absurd rfl some
  | cons x rest =>
    refine .bind reads (.of_eq fun fuel => ?_)
    simp only [whole.isNull, Bool.false_eq_true, if_false]
    rfl

/-- A sentence gives its tree and no tokens are left. -/
theorem parseInput_of_sentence {t : Tree} (sentence : Sentence tokens t) :
    Ends (parseInput · ⟨tokens, err⟩) (.tree t, ⟨[], err⟩) := by
  obtain ⟨e, phrase⟩ := sentence
  obtain ⟨t', whole, same, reads⟩ := phrase.complete [] err ⟨nofun, nofun, nofun⟩
  obtain rfl := same fun _ _ => rfl
  rw [ReadsPhrase, List.append_nil] at reads
  exact parseInput_of_tree phrase.nonempty whole reads

/-- A line that breaks off gives a parse error. -/
theorem parseInput_of_refuses {r : List Token} (refuses : Refuses .set tokens r)
    (some : tokens ≠ []) :
    ∃ code, Ends (parseInput · ⟨tokens, err⟩) (.parseError code, ⟨r, code⟩) := by
  obtain ⟨err', breaks⟩ := refuses.refused err
  cases tokens with
  | nil => exact absurd rfl some
  | cons x rest => exact ⟨err', .bind breaks (.of_eq fun _ => rfl)⟩

/-- A parse error is only reported for a line that breaks off. -/
theorem refuses_of_parseInput {fuel : ℕ} {r : Reader} {code : Option ParseError}
    (run : parseInput fuel ⟨tokens, err⟩ = .ok (.parseError code, r)) :
    tokens ≠ [] ∧ Refuses .set tokens r.tokens := by
  cases tokens with
  | nil => cases run
  | cons x rest =>
    refine ⟨nofun, ?_⟩
    obtain ⟨⟨t, r1⟩, run1, run⟩ := bind_eq_ok.mp run
    obtain ⟨refuses, -⟩ := (parse_sound fuel).set run1
    by_cases null : t.isNull = true
    · simp only [null, if_true] at run
      obtain ⟨-, rfl⟩ := Prod.mk.inj (Except.ok.inj run)
      exact refuses (Tree.isNull_iff.mp null)
    · simp only [null, Bool.false_eq_true, if_false] at run
      cases run

/-- `parseline` treats as the grammar says exactly the lines that are sentences or break off
inside a phrase. It is silent on the empty line, evaluates a sentence whatever follows it, and
follows a null pointer, or puts it into a tree, where `^` has no base. -/
theorem followsGrammar_iff (tokens : List Token) (err : Option ParseError) :
    FollowsGrammar tokens err ↔
      tokens ≠ [] ∧ ((∃ t, Sentence tokens t) ∨ ∃ r, Refuses .set tokens r) := by
  constructor
  · rintro ⟨-, other⟩
    by_cases sentence : ∃ t, Sentence tokens t
    · obtain ⟨t, e, phrase⟩ := sentence
      exact ⟨phrase.nonempty, Or.inl ⟨t, e, phrase⟩⟩
    · obtain ⟨code, r, fuel, run⟩ := other sentence
      obtain ⟨some, refuses⟩ := refuses_of_parseInput (run fuel le_rfl)
      exact ⟨some, Or.inr ⟨r.tokens, refuses⟩⟩
  · rintro ⟨some, accepted⟩
    refine ⟨fun t sentence => ⟨_, parseInput_of_sentence sentence⟩, fun none => ?_⟩
    obtain ⟨r, refuses⟩ := accepted.resolve_left none
    obtain ⟨code, ends⟩ := @parseInput_of_refuses tokens err r refuses some
    exact ⟨code, _, ends⟩

/-- `1 2` is no sentence, but `1` is evaluated. -/
theorem not_followsGrammar_trailing :
    ¬∀ tokens err, FollowsGrammar tokens err := by
  intro follows
  have parsed : Ends (parseInput · ⟨[.int "1", .int "2"], none⟩)
      (.tree (.int "1"), ⟨[.int "2"], none⟩) :=
    .succ <| .succ <| .succ <| .succ <| .succ <| .succ <| .succ <| .succ <| .of_eq fun _ => rfl
  obtain ⟨code, r, ends⟩ := (follows [.int "1", .int "2"] none).other (by
    rintro ⟨t, sentence⟩
    cases Ends.unique parsed (parseInput_of_sentence sentence))
  cases Ends.unique parsed ends

end Lines

end Pbc.Calc
