import Mathlib.Data.List.Basic

/-!
# The grammar of the calculator

The phrases of a line and the trees that belong to them. Operators of one rank associate to
the left. A sequence of tokens that is no sentence breaks off where an operand, a comma or a
closing bracket is missing.
-/

namespace Pbc.Calc

/-- The tokens of a line. -/
inductive Token where
  | id (word : String)
  | int (word : String)
  | string (word : String)
  | comma
  | lparen
  | rparen
  | add
  | sub
  | mul
  | div
  | set
  | pow
  | unk
  deriving DecidableEq

/-- `struct tree_s`; `null` is the null pointer. -/
inductive Tree where
  | null
  | id (word : String)
  | int (word : String)
  | string (word : String)
  | function (word : String) (child : List Tree)
  | set (t1 t2 : Tree)

/-- No node below a tree is missing, nor is the tree itself. -/
inductive Tree.Whole : Tree → Prop where
  | id (word : String) : Whole (.id word)
  | int (word : String) : Whole (.int word)
  | string (word : String) : Whole (.string word)
  | function (word : String) {child : List Tree} (whole : ∀ t ∈ child, Whole t) :
      Whole (.function word child)
  | set {t1 t2 : Tree} (first : Whole t1) (second : Whole t2) : Whole (.set t1 t2)

/-- The two ranks of left-associative operators. -/
inductive Chain where
  | expr
  | term
  deriving DecidableEq

/-- The function that an operator of a rank stands for. -/
def Chain.op : Chain → Token → Option String
  | .term, .mul => some "mul"
  | .term, .div => some "div"
  | .expr, .add => some "add"
  | .expr, .sub => some "sub"
  | _, _ => none

/-- The kinds of phrases; `args` stands for the arguments of a function, between the
brackets. -/
inductive Level where
  | prim
  | factor
  | chain (c : Chain)
  | set
  | args (word : String)
  deriving DecidableEq

/-- The operands of a rank of operators. -/
def Chain.operand : Chain → Level
  | .term => .factor
  | .expr => .chain .term

/-- A phrase of some kind and its tree. The flag tells whether the phrase ends with an
exponent, behind which no other exponent can stand. -/
inductive Derives : Level → Bool → List Token → Tree → Prop where
  | id (word : String) : Derives .prim false [.id word] (.id word)
  | int (word : String) : Derives .prim false [.int word] (.int word)
  | string (word : String) : Derives .prim false [.string word] (.string word)
  | paren {e s t} (inner : Derives .set e s t) : Derives .prim false (.lparen :: s ++ [.rparen]) t
  | call (word : String) : Derives .prim false [.id word, .lparen, .rparen] (.function word [])
  | callArgs {word e s t} (args : Derives (.args word) e s t) :
      Derives .prim false (.id word :: .lparen :: s ++ [.rparen]) t
  | base {e s t} (base : Derives .prim e s t) : Derives .factor false s t
  | power {e s t e' s' t'} (base : Derives .prim e s t) (exponent : Derives .prim e' s' t') :
      Derives .factor true (s ++ .pow :: s') (.function "pow" [t, t'])
  | neg {e s t} (factor : Derives .factor e s t) :
      Derives .factor e (.sub :: s) (.function "neg" [t])
  | operand {c : Chain} {e s t} (operand : Derives c.operand e s t) : Derives (.chain c) e s t
  | operator {c : Chain} {e s t e' s' t' x word} (op : c.op x = some word)
      (left : Derives (.chain c) e s t) (right : Derives c.operand e' s' t') :
      Derives (.chain c) e' (s ++ x :: s') (.function word [t, t'])
  | value {e s t} (expr : Derives (.chain .expr) e s t) : Derives .set e s t
  | assign {e s t e' s' t'} (left : Derives (.chain .expr) e s t) (right : Derives .set e' s' t') :
      Derives .set e' (s ++ .set :: s') (.set t t')
  | first {word e s t} (arg : Derives .set e s t) : Derives (.args word) e s (.function word [t])
  | next {word e s child e' s' t} (args : Derives (.args word) e s (.function word child))
      (arg : Derives .set e' s' t) :
      Derives (.args word) e' (s ++ .comma :: s') (.function word (child ++ [t]))

/-- A sentence of the calculator, with the tree of its derivation. -/
def Sentence (s : List Token) (t : Tree) : Prop := ∃ e, Derives .set e s t

/-- The rank of a kind of phrase. -/
def Level.rank : Level → ℕ
  | .prim => 0
  | .factor => 1
  | .chain .term => 2
  | .chain .expr => 3
  | .set => 4
  | .args _ => 5

/-- The rank of the phrases that go on behind a token. -/
def Token.joins : Token → Option ℕ
  | .mul | .div => some 2
  | .add | .sub => some 3
  | .set => some 4
  | .comma => some 5
  | _ => none

/-- No token that follows can continue a phrase. -/
structure Stops (l : Level) (e : Bool) (s r : List Token) : Prop where
  bracket : r.head? = some .lparen → ∀ word, s.getLast? ≠ some (.id word)
  exponent : r.head? = some .pow → l = .prim ∨ e = true
  rank : ∀ x n, r.head? = some x → x.joins = some n → l.rank < n

/-- The tokens with which a primitive starts. -/
def Token.Starts : Token → Prop
  | .id _ | .int _ | .string _ | .lparen => True
  | _ => False

/-- A sequence breaks off inside a phrase, in front of the second sequence. A base that
breaks off in front of a `^` does not count. -/
inductive Refuses : Level → List Token → List Token → Prop where
  | missing {r} (none : ∀ x, r.head? = some x → ¬x.Starts) : Refuses .prim r r
  | inner {s r} (inner : Refuses .set s r) : Refuses .prim (.lparen :: s) r
  | unclosed {e s t r} (inner : Derives .set e s t) (stops : Stops .set e s r)
      (unclosed : r.head? ≠ some .rparen) : Refuses .prim (.lparen :: s ++ r) r
  | args {word s r} (args : Refuses (.args word) s r) : Refuses .prim (.id word :: .lparen :: s) r
  | first {word s r} (arg : Refuses .set s r) (some : s.head? ≠ some .rparen) :
      Refuses (.args word) s r
  | next {word e s t s' r} (args : Derives (.args word) e s t) (arg : Refuses .set s' r) :
      Refuses (.args word) (s ++ .comma :: s') r
  | unfinished {word e s t r} (args : Derives (.args word) e s t) (stops : Stops (.args word) e s r)
      (unclosed : r.head? ≠ some .rparen) : Refuses (.args word) (s ++ r) r
  | base {s r} (base : Refuses .prim s r) (unsigned : s.head? ≠ some .sub)
      (exponent : r.head? ≠ some .pow) : Refuses .factor s r
  | exponent {e s t s' r} (base : Derives .prim e s t) (exponent : Refuses .prim s' r) :
      Refuses .factor (s ++ .pow :: s') r
  | neg {s r} (factor : Refuses .factor s r) : Refuses .factor (.sub :: s) r
  | operand {c : Chain} {s r} (operand : Refuses c.operand s r) : Refuses (.chain c) s r
  | operator {c : Chain} {e s t s' r x word} (op : c.op x = some word)
      (left : Derives (.chain c) e s t) (right : Refuses c.operand s' r) :
      Refuses (.chain c) (s ++ x :: s') r
  | value {s r} (expr : Refuses (.chain .expr) s r) : Refuses .set s r
  | assign {e s t s' r} (left : Derives (.chain .expr) e s t) (right : Refuses .set s' r) :
      Refuses .set (s ++ .set :: s') r

section Phrases

variable {l l' : Level} {e : Bool} {s r : List Token} {t : Tree}

theorem Derives.nonempty (derives : Derives l e s t) : s ≠ [] := by
  induction derives <;> simp_all

theorem Derives.whole (derives : Derives l e s t) : t.Whole := by
  induction derives with
  | id | int | string => constructor
  | call word => exact .function word (List.forall_mem_nil _)
  | paren _ ih | callArgs _ ih | base _ ih | operand _ ih | value _ ih => exact ih
  | power _ _ ih ih' | operator _ _ _ ih ih' => exact .function _ (by simp [ih, ih'])
  | neg _ ih | first _ ih => exact .function _ (by simp [ih])
  | assign _ _ ih ih' => exact .set ih ih'
  | next _ _ ih ih' =>
    cases ih with
    | function _ all =>
      refine .function _ fun t member => ?_
      rcases List.mem_append.mp member with member | member
      · exact all t member
      · rwa [List.mem_singleton.mp member]

/-- Arguments stand in the tree of their call. -/
theorem Derives.args_tree {word : String} (args : Derives (.args word) e s t) :
    ∃ child, t = .function word child := by
  cases args with
  | first => exact ⟨_, rfl⟩
  | next => exact ⟨_, rfl⟩

/-- What stops a phrase stops one that ends with it. -/
theorem Stops.append {s' : List Token} (stops : Stops l e s' r) (nonempty : s' ≠ []) :
    Stops l e (s ++ s') r := by
  refine ⟨fun bracket word => ?_, stops.exponent, stops.rank⟩
  rw [List.getLast?_append_of_ne_nil s nonempty]
  exact stops.bracket bracket word

/-- What stops a phrase stops the one that it ends with. -/
theorem Stops.tail {s' : List Token} (stops : Stops l e (s ++ s') r) (nonempty : s' ≠ []) :
    Stops l e s' r := by
  refine ⟨fun bracket word => ?_, stops.exponent, stops.rank⟩
  rw [← List.getLast?_append_of_ne_nil s nonempty]
  exact stops.bracket bracket word

/-- A phrase ends at a kind whose tokens do not follow. -/
theorem Stops.raise (stops : Stops l e s r) (next : l'.rank = l.rank + 1) (operand : l ≠ .prim)
    (other : ∀ x, r.head? = some x → x.joins ≠ some l'.rank) : Stops l' e s r := by
  refine ⟨stops.bracket, fun exponent => Or.inr ?_, fun x n head joins => ?_⟩
  · exact (stops.exponent exponent).resolve_left operand
  · have below := stops.rank x n head joins
    have different : n ≠ l'.rank := by
      rintro rfl
      exact other x head joins
    omega

theorem Stops.lower (stops : Stops l e s r) (below : l'.rank ≤ l.rank) (operand : l ≠ .prim) :
    Stops l' e s r := by
  refine ⟨stops.bracket, fun exponent => Or.inr ?_, fun x n head joins => ?_⟩
  · exact (stops.exponent exponent).resolve_left operand
  · exact Nat.lt_of_le_of_lt below (stops.rank x n head joins)

private theorem Token.one_lt_of_joins {x : Token} {n : ℕ} (joins : x.joins = some n) : 1 < n := by
  cases x <;> cases joins <;> decide

/-- A primitive stops but for an identifier in front of a bracket. -/
theorem Stops.prim (bracket : r.head? = some .lparen → ∀ word, s.getLast? ≠ some (.id word)) :
    Stops .prim e s r :=
  ⟨bracket, fun _ => Or.inl rfl, fun _ _ _ joins =>
    Nat.lt_of_succ_lt (Token.one_lt_of_joins joins)⟩

/-- A primitive ends a factor as its exponent. -/
theorem Stops.power (stops : Stops .prim e s r) : Stops .factor true s r :=
  ⟨stops.bracket, fun _ => Or.inr rfl, fun _ _ _ joins => Token.one_lt_of_joins joins⟩

/-- A primitive is a factor where no exponent follows. -/
theorem Stops.base (stops : Stops .prim e s r) (exponent : r.head? ≠ some .pow) :
    Stops .factor false s r :=
  ⟨stops.bracket, fun power => absurd power exponent,
    fun _ _ _ joins => Token.one_lt_of_joins joins⟩

theorem Chain.rank_operand (c : Chain) : (Level.chain c).rank = c.operand.rank + 1 := by
  cases c <;> rfl

theorem Chain.operand_ne_prim (c : Chain) : c.operand ≠ .prim := by
  cases c <;> nofun

/-- The operators of a rank are the tokens behind which its phrases go on. -/
theorem Chain.op_isSome_iff (c : Chain) (x : Token) :
    (c.op x).isSome ↔ x.joins = some (Level.chain c).rank := by
  cases c <;> cases x <;> simp [Chain.op, Token.joins, Level.rank]

theorem Tree.Whole.ne_null (whole : t.Whole) : t ≠ .null := by
  rintro rfl
  cases whole

end Phrases

end Pbc.Calc
