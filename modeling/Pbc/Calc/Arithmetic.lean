import Mathlib.Data.Nat.Digits.Defs
import Mathlib.Algebra.Field.ZMod
import Pbc.Algebra.Numerals
import Pbc.Calc.Safety

/-!
# The arithmetic of the calculator

Expressions with numerals, variables and the operators, written with as few brackets as their
ranks allow, and lines that show or assign them. A run of such lines computes in the integers and
in a field: every line reports the value that it means, and the variables hold the values that the
assignments mean.
-/

open Pbc.Misc Pbc.Gmp

namespace Pbc.Calc

section Language

/-- The operators between two operands. -/
inductive Operator where
  | add
  | sub
  | mul
  | div
  deriving DecidableEq, Repr

/-- Expressions as they are meant. -/
inductive Expression where
  | int (n : ℕ)
  | var (x : String)
  | neg (a : Expression)
  | op (o : Operator) (a b : Expression)
  | pow (a b : Expression)
  deriving Repr

/-- A line shows or assigns an expression. -/
inductive Statement where
  | value (a : Expression)
  | assign (x : String) (a : Expression)
  deriving Repr

def Operator.token : Operator → Token
  | .add => .add
  | .sub => .sub
  | .mul => .mul
  | .div => .div

def Operator.word : Operator → String
  | .add => "add"
  | .sub => "sub"
  | .mul => "mul"
  | .div => "div"

def Operator.chain : Operator → Chain
  | .add | .sub => .expr
  | .mul | .div => .term

/-- The kind of phrase that an expression is without brackets. -/
def Expression.level : Expression → Level
  | .int _ | .var _ => .prim
  | .neg _ | .pow _ _ => .factor
  | .op o _ _ => .chain o.chain

/-- A numeral. -/
def numeral (n : ℕ) : String := String.ofList (Nat.toDigits 10 n)

/-- An expression as a phrase of some kind: in brackets where it is of a higher rank. -/
def bracket (l : Level) (a : Expression) (s : List Token) : List Token :=
  if a.level.rank ≤ l.rank then s else .lparen :: s ++ [.rparen]

/-- The tokens of an expression. -/
def Expression.tokens : Expression → List Token
  | .int n => [.int (numeral n)]
  | .var x => [.id x]
  | .neg a => .sub :: bracket .factor a a.tokens
  | .op o a b => bracket (.chain o.chain) a a.tokens ++ o.token :: bracket o.chain.operand b b.tokens
  | .pow a b => bracket .prim a a.tokens ++ .pow :: bracket .prim b b.tokens

def Statement.tokens : Statement → List Token
  | .value a => a.tokens
  | .assign x a => .id x :: .set :: a.tokens

/-- The tree that the parser is to build. -/
def Expression.tree : Expression → Tree
  | .int n => .int (numeral n)
  | .var x => .id x
  | .neg a => .function "neg" [a.tree]
  | .op o a b => .function o.word [a.tree, b.tree]
  | .pow a b => .function "pow" [a.tree, b.tree]

def Statement.tree : Statement → Tree
  | .value a => a.tree
  | .assign x a => .set (.id x) a.tree

end Language

section Grammar

variable {e : Bool} {s : List Token} {t : Tree} {l l' : Level}

theorem Operator.op_token (o : Operator) : o.chain.op o.token = some o.word := by
  cases o <;> rfl

/-- A phrase is also one of any higher rank up to that of an expression. -/
theorem Derives.lift (phrase : Derives l e s t) (low : l.rank ≤ l'.rank) (plain : l'.rank ≤ 3) :
    ∃ e', Derives l' e' s t := by
  have primFactor {e : Bool} (phrase : Derives .prim e s t) : Derives .factor false s t :=
    .base phrase
  have factorTerm {e : Bool} (phrase : Derives .factor e s t) : Derives (.chain .term) e s t :=
    .operand (c := .term) phrase
  have termExpr {e : Bool} (phrase : Derives (.chain .term) e s t) : Derives (.chain .expr) e s t :=
    .operand (c := .expr) phrase
  rcases l with _ | _ | ⟨_ | _⟩ | _ | _ <;> rcases l' with _ | _ | ⟨_ | _⟩ | _ | _ <;>
    simp only [Level.rank] at low plain <;> try omega
  · exact ⟨_, phrase⟩
  · exact ⟨_, primFactor phrase⟩
  · exact ⟨_, termExpr (factorTerm (primFactor phrase))⟩
  · exact ⟨_, factorTerm (primFactor phrase)⟩
  · exact ⟨_, phrase⟩
  · exact ⟨_, termExpr (factorTerm phrase)⟩
  · exact ⟨_, factorTerm phrase⟩
  · exact ⟨_, phrase⟩
  · exact ⟨_, termExpr phrase⟩
  · exact ⟨_, phrase⟩

theorem Expression.level_le (a : Expression) : a.level.rank ≤ 3 := by
  cases a with
  | int | var | neg | pow => simp [Expression.level, Level.rank]
  | op o => cases o <;> simp [Expression.level, Operator.chain, Level.rank]

/-- Brackets make a phrase of any kind. -/
theorem bracket_derives {a : Expression} (phrase : Derives a.level e s t) (plain : l.rank ≤ 3) :
    ∃ e', Derives l e' (bracket l a s) t := by
  rw [bracket]
  by_cases low : a.level.rank ≤ l.rank
  · rw [if_pos low]
    exact phrase.lift low plain
  · rw [if_neg low]
    obtain ⟨e', inner⟩ : ∃ e', Derives (.chain .expr) e' s t := phrase.lift a.level_le le_rfl
    exact (Derives.paren (.value inner)).lift (Nat.zero_le _) plain

/-- The tokens of an expression derive its tree. -/
theorem Expression.derives (a : Expression) : ∃ e, Derives a.level e a.tokens a.tree := by
  induction a with
  | int n => exact ⟨_, .int _⟩
  | var x => exact ⟨_, .id x⟩
  | neg a ih =>
    obtain ⟨e, phrase⟩ := ih
    obtain ⟨e', factor⟩ := bracket_derives (l := .factor) phrase (by decide)
    exact ⟨_, .neg factor⟩
  | op o a b iha ihb =>
    obtain ⟨e, left⟩ := iha
    obtain ⟨e', right⟩ := ihb
    obtain ⟨e, left⟩ := bracket_derives (l := .chain o.chain) left (by cases o <;> decide)
    obtain ⟨e', right⟩ := bracket_derives (l := o.chain.operand) right (by cases o <;> decide)
    exact ⟨_, .operator o.op_token left right⟩
  | pow a b iha ihb =>
    obtain ⟨e, base⟩ := iha
    obtain ⟨e', exponent⟩ := ihb
    obtain ⟨e, base⟩ := bracket_derives (l := .prim) base (by decide)
    obtain ⟨e', exponent⟩ := bracket_derives (l := .prim) exponent (by decide)
    exact ⟨_, .power base exponent⟩

/-- A line of the language is a sentence. -/
theorem Statement.sentence (line : Statement) : Sentence line.tokens line.tree := by
  cases line with
  | value a =>
    obtain ⟨e, phrase⟩ := a.derives
    obtain ⟨e', expr⟩ : ∃ e', Derives (.chain .expr) e' a.tokens a.tree :=
      phrase.lift a.level_le le_rfl
    exact ⟨e', .value expr⟩
  | assign x a =>
    obtain ⟨e, phrase⟩ := a.derives
    obtain ⟨e', expr⟩ : ∃ e', Derives (.chain .expr) e' a.tokens a.tree :=
      phrase.lift a.level_le le_rfl
    obtain ⟨e'', left⟩ : ∃ e'', Derives (.chain .expr) e'' [.id x] (.id x) :=
      (Derives.id x).lift (Nat.zero_le _) le_rfl
    exact ⟨e', .assign left (.value expr)⟩

end Grammar

section Numerals

theorem foldl_decimal (digits : List Char) (decimal : ∀ c ∈ digits, c.isDigit = true) (n : ℕ) :
    digits.foldl (fun z cp => z * 10 + (cp.toNat - '0'.toNat : ℤ)) (n : ℤ) =
      (Nat.ofDigitChars 10 digits n : ℕ) := by
  induction digits generalizing n with
  | nil => rfl
  | cons c digits ih =>
    have above : '0'.toNat ≤ c.toNat := by
      have digit := decimal c List.mem_cons_self
      rw [Char.isDigit, Bool.and_eq_true, decide_eq_true_eq] at digit
      exact digit.1
    have step : (n : ℤ) * 10 + (c.toNat - '0'.toNat : ℤ) = ((10 * n + (c.toNat - '0'.toNat) : ℕ) : ℤ) := by
      rw [Nat.cast_add, Nat.cast_mul, Nat.cast_sub above, mul_comm]
      rfl
    rw [List.foldl_cons, Nat.ofDigitChars_cons, step,
      ih fun x member => decimal x (List.mem_cons_of_mem c member)]

/-- A numeral is read as its number. -/
@[simp] theorem decimal_numeral (n : ℕ) : decimal (numeral n) = n := by
  have digits : ∀ c ∈ Nat.toDigits 10 n, c.isDigit = true :=
    fun c => Nat.isDigit_of_mem_toDigits (by decide) (by decide)
  rw [decimal, numeral, String.toList_ofList, ← Nat.cast_zero, foldl_decimal _ digits,
    Nat.ofDigitChars_ten_toDigits]

end Numerals

section Meaning

variable {K : Type} [Field K] [DecidableEq K]

/-- The values that expressions mean. -/
inductive Meaning (K : Type) where
  | int (z : ℤ)
  | element (a : K)
  deriving DecidableEq

/-- `z_div`: the quotient is cut off. -/
def zDiv (a b : ℤ) : ℤ := a.tdiv b

/-- `z_pow_mpz`: the exponent is taken for an unsigned number. -/
def zPowMpz (a z : ℤ) : ℤ := a ^ mpzGetUi z

/-- The operators on integers. -/
def Operator.onIntegers : Operator → ℤ → ℤ → Option ℤ
  | .add, x, y => some (x + y)
  | .sub, x, y => some (x - y)
  | .mul, x, y => some (x * y)
  | .div, x, y => if y = 0 then none else some (zDiv x y)

/-- The operators in the field. -/
def Operator.onField : Operator → K → K → Option K
  | .add, x, y => some (x + y)
  | .sub, x, y => some (x - y)
  | .mul, x, y => some (x * y)
  | .div, x, y => if y = 0 then none else some (x / y)

def Meaning.neg : Meaning K → Meaning K
  | .int z => .int (-z)
  | .element a => .element (-a)

/-- Integers and elements do not mix. -/
def Meaning.op (o : Operator) : Meaning K → Meaning K → Option (Meaning K)
  | .int x, .int y => (o.onIntegers x y).map .int
  | .element x, .element y => (o.onField x y).map .element
  | _, _ => none

/-- An exponent is an integer. -/
def Meaning.pow : Meaning K → Meaning K → Option (Meaning K)
  | .int x, .int z => some (.int (zPowMpz x z))
  | .element x, .int z => if 0 ≤ z then some (.element (x ^ z.toNat)) else none
  | _, _ => none

/-- The values of the variables. -/
abbrev Environment (K : Type) := String → Option (Meaning K)

/-- What an expression means, if it means anything. -/
def Expression.eval (env : Environment K) : Expression → Option (Meaning K)
  | .int n => some (.int n)
  | .var x => env x
  | .neg a => (a.eval env).map Meaning.neg
  | .op o a b => (a.eval env).bind fun x => (b.eval env).bind fun y => x.op o y
  | .pow a b => (a.eval env).bind fun x => (b.eval env).bind fun y => x.pow y

/-- What some lines mean: the value that each one shows, and the variables behind them. -/
def evalLines : List Statement → Environment K → Option (List (Option (Meaning K)) × Environment K)
  | [], env => some ([], env)
  | .value a :: lines, env =>
    (a.eval env).bind fun x => (evalLines lines env).map fun out => (some x :: out.1, out.2)
  | .assign name a :: lines, env =>
    (a.eval env).bind fun x =>
      (evalLines lines (Function.update env name (some x))).map fun out => (none :: out.1, out.2)

end Meaning

section Library

/-- The operation of the library for an operator. -/
def Operator.method (lib : Library) :
    Operator → lib.Element → lib.Element → lib.World → Option (lib.Element × lib.World)
  | .add => lib.add
  | .sub => lib.sub
  | .mul => lib.mul
  | .div => lib.div

/-- The operations of the library on the integers, and on a field whose elements stand for those
of `K`. -/
structure Computes (lib : Library) {K : Type} [Field K] [DecidableEq K] (f : lib.Field)
    (embed : K → lib.Element) : Prop where
  fieldInt : ∀ z, lib.field (lib.setZ z) = lib.Z
  fieldElement : ∀ a, lib.field (embed a) = f
  toMpz : ∀ z w, lib.toMpz (lib.setZ z) w = some (z, w)
  negInt : ∀ z w, lib.neg (lib.setZ z) w = some (lib.setZ (-z), w)
  negElement : ∀ a w, lib.neg (embed a) w = some (embed (-a), w)
  opInt : ∀ (o : Operator) x y z w, o.onIntegers x y = some z →
    o.method lib (lib.setZ x) (lib.setZ y) w = some (lib.setZ z, w)
  opElement : ∀ (o : Operator) (x y z : K) w, o.onField x y = some z →
    o.method lib (embed x) (embed y) w = some (embed z, w)
  powInt : ∀ x z w, lib.powMpz (lib.setZ x) z w = some (lib.setZ (zPowMpz x z), w)
  powElement : ∀ x z w, 0 ≤ z → lib.powMpz (embed x) z w = some (embed (x ^ z.toNat), w)

end Library

section Evaluation

variable {lib : Library} {K : Type} [Field K] [DecidableEq K] {f : lib.Field}
  {embed : K → lib.Element} {env env' : Environment K} {st : State lib}

/-- The value of the calculator for what an expression means. -/
def Meaning.val (lib : Library) (embed : K → lib.Element) : Meaning K → Val lib
  | .int z => .element (lib.setZ z)
  | .element a => .element (embed a)

/-- The variables hold what the environment says. -/
def Stored (embed : K → lib.Element) (env : Environment K) (st : State lib) : Prop :=
  ∀ x v, env x = some v → st.var x = some (v.val lib embed)

omit [Field K] [DecidableEq K] in
theorem Meaning.type_val (v : Meaning K) : (v.val lib embed).type ≠ .err := by
  cases v <;> nofun

theorem executeTree_neg {t : Tree} {v : Meaning K} (computes : Computes lib f embed)
    (value : executeTree t st = .ok (some (v.val lib embed), st)) :
    executeTree (.function "neg" [t]) st = .ok (some (v.neg.val lib embed), st) := by
  have values : executeArgs [t] [] st = .ok (.inr [v.val lib embed], st) := by
    rw [executeArgs_value_cons value v.type_val]
    rfl
  have found : builtin lib "neg" = some fNeg := rfl
  rw [executeTree_of_values found values]
  cases v with
  | int z =>
    change callElement (lib.neg (lib.setZ z)) st = _
    rw [callElement, call, computes.negInt]
    rfl
  | element a =>
    change callElement (lib.neg (embed a)) st = _
    rw [callElement, call, computes.negElement]
    rfl

omit [Field K] [DecidableEq K] in
/-- The values of two arguments. -/
theorem executeArgs_two {t t' : Tree} {v w : Meaning K}
    (value : executeTree t st = .ok (some (v.val lib embed), st))
    (value' : executeTree t' st = .ok (some (w.val lib embed), st)) :
    executeArgs [t, t'] [] st = .ok (.inr [v.val lib embed, w.val lib embed], st) := by
  rw [executeArgs_value_cons value v.type_val, executeArgs_value_cons value' w.type_val]
  rfl

theorem Operator.builtin_word (o : Operator) : builtin lib o.word = some (fBinOp (o.method lib)) := by
  cases o <;> rfl

theorem executeTree_op {t t' : Tree} {o : Operator} {u v w : Meaning K}
    (computes : Computes lib f embed)
    (value : executeTree t st = .ok (some (v.val lib embed), st))
    (value' : executeTree t' st = .ok (some (w.val lib embed), st)) (result : v.op o w = some u) :
    executeTree (.function o.word [t, t']) st = .ok (some (u.val lib embed), st) := by
  rw [executeTree_of_values o.builtin_word (executeArgs_two value value')]
  cases v with
  | int x =>
    cases w with
    | element y => cases result
    | int y =>
      obtain ⟨z, sum, rfl⟩ := Option.map_eq_some_iff.1 result
      change (if lib.field (lib.setZ x) ≠ lib.field (lib.setZ y) then _ else
        callElement (o.method lib (lib.setZ x) (lib.setZ y)) st) = _
      rw [if_neg (not_not.2 ((computes.fieldInt x).trans (computes.fieldInt y).symm)), callElement, call,
        computes.opInt o x y z _ sum]
      rfl
  | element x =>
    cases w with
    | int y => cases result
    | element y =>
      obtain ⟨z, sum, rfl⟩ := Option.map_eq_some_iff.1 result
      change (if lib.field (embed x) ≠ lib.field (embed y) then _ else
        callElement (o.method lib (embed x) (embed y)) st) = _
      rw [if_neg (not_not.2 ((computes.fieldElement x).trans (computes.fieldElement y).symm)),
        callElement, call, computes.opElement o x y z _ sum]
      rfl

theorem executeTree_pow {t t' : Tree} {u v w : Meaning K} (computes : Computes lib f embed)
    (value : executeTree t st = .ok (some (v.val lib embed), st))
    (value' : executeTree t' st = .ok (some (w.val lib embed), st)) (result : v.pow w = some u) :
    executeTree (.function "pow" [t, t']) st = .ok (some (u.val lib embed), st) := by
  have found : builtin lib "pow" = some fPow := rfl
  rw [executeTree_of_values found (executeArgs_two value value')]
  cases w with
  | element y => cases v <;> cases result
  | int z =>
    cases v with
    | int x =>
      cases result
      change (call (lib.toMpz (lib.setZ z)) st >>= fun out =>
        callElement (lib.powMpz (lib.setZ x) out.1) out.2) = _
      rw [call, computes.toMpz]
      change callElement (lib.powMpz (lib.setZ x) z) st = _
      rw [callElement, call, computes.powInt]
      rfl
    | element x =>
      rw [Meaning.pow] at result
      split_ifs at result with nonneg
      cases result
      change (call (lib.toMpz (lib.setZ z)) st >>= fun out =>
        callElement (lib.powMpz (embed x) out.1) out.2) = _
      rw [call, computes.toMpz]
      change callElement (lib.powMpz (embed x) z) st = _
      rw [callElement, call, computes.powElement x z _ nonneg]
      rfl

/-- The tree of an expression evaluates to what the expression means, and changes nothing. -/
theorem executeTree_eval (computes : Computes lib f embed) (agrees : Stored embed env st)
    {a : Expression} {v : Meaning K} (means : a.eval env = some v) :
    executeTree a.tree st = .ok (some (v.val lib embed), st) := by
  induction a generalizing v with
  | int n =>
    cases means
    rw [Expression.tree, executeTree, decimal_numeral]
    rfl
  | var x =>
    rw [Expression.tree, executeTree_word, agrees x v means]
    rfl
  | neg a ih =>
    obtain ⟨x, first, rfl⟩ := Option.map_eq_some_iff.1 means
    exact executeTree_neg computes (ih first)
  | op o a b iha ihb =>
    obtain ⟨x, first, means⟩ := Option.bind_eq_some_iff.1 means
    obtain ⟨y, second, means⟩ := Option.bind_eq_some_iff.1 means
    exact executeTree_op computes (iha first) (ihb second) means
  | pow a b iha ihb =>
    obtain ⟨x, first, means⟩ := Option.bind_eq_some_iff.1 means
    obtain ⟨y, second, means⟩ := Option.bind_eq_some_iff.1 means
    exact executeTree_pow computes (iha first) (ihb second) means

end Evaluation

section Lines

variable {lib : Library} {K : Type} [Field K] [DecidableEq K] {f : lib.Field}
  {embed : K → lib.Element} {env env' : Environment K} {st : State lib}

/-- What is printed for a line: the value that it shows, if it shows one. -/
def shown (lib : Library) (embed : K → lib.Element) (out : Option (Meaning K)) : Report lib :=
  out.elim .silent fun v => .value (v.val lib embed)

omit [Field K] [DecidableEq K] in
theorem Stored.put (agrees : Stored embed env st) (x : String) (v : Meaning K) :
    Stored embed (Function.update env x (some v)) (st.put (v.val lib embed) x) := by
  intro y w value
  change Function.update st.var x _ y = _
  rw [Function.update_apply] at value ⊢
  split_ifs at value ⊢ with same
  · rw [Option.some.inj value]
  · exact agrees y w value

/-- A sentence whose tree has a value reports it. -/
theorem parseline_of_sentence {tokens : List Token} {t : Tree} {v : Option (Val lib)}
    {st' : State lib} (sentence : Sentence tokens t)
    (result : executeTree t st = .ok (v, st')) :
    Ends (parseline · tokens st) (report t v st', st') := by
  refine .bind (parseInput_of_sentence sentence) ?_
  obtain ⟨e, phrase⟩ := sentence
  refine .of_eq fun _ => ?_
  change (executeTree t st >>= fun out => treeDelete t >>= fun _ => pure (report t out.1 out.2, out.2)) = _
  rw [result, treeDelete_of_whole phrase.whole]
  rfl

/-- A line with an expression shows what it means. -/
theorem parseline_value (computes : Computes lib f embed) (agrees : Stored embed env st)
    {a : Expression} {v : Meaning K} (means : a.eval env = some v) :
    Ends (parseline · (Statement.value a).tokens st) (shown lib embed (some v), st) := by
  have line := parseline_of_sentence (Statement.value a).sentence
    (executeTree_eval computes agrees means)
  have reported : report a.tree (some (v.val lib embed)) st = shown lib embed (some v) := by
    cases a <;> simp only [report, Expression.tree, v.type_val, if_false, shown, Option.elim_some]
  rwa [Statement.tree, reported] at line

/-- An assignment shows nothing, and stores what it means. -/
theorem parseline_assign (computes : Computes lib f embed) (agrees : Stored embed env st)
    {x : String} {a : Expression} {v : Meaning K} (means : a.eval env = some v) :
    Ends (parseline · (Statement.assign x a).tokens st)
      (.silent, st.put (v.val lib embed) x) := by
  have result : executeTree (.set (.id x) a.tree) st =
      .ok (some (v.val lib embed), st.put (v.val lib embed) x) := by
    rw [executeTree_set, executeTree_eval computes agrees means]
    exact if_neg v.type_val
  have line := parseline_of_sentence (Statement.assign x a).sentence result
  have reported (st : State lib) :
      report (.set (.id x) a.tree) (some (v.val lib embed)) st = .silent := by
    rw [report]
    simp only [v.type_val, if_false]
  rwa [Statement.tree, reported] at line

/-- The calculator shows for every line what the line means, leaves the variables with what the
assignments mean, and changes nothing else. -/
theorem runLines_evalLines (computes : Computes lib f embed) (agrees : Stored embed env st)
    {lines : List Statement} {outs : List (Option (Meaning K))}
    (means : evalLines lines env = some (outs, env')) :
    ∃ st', Ends (runLines · (lines.map Statement.tokens) st) (outs.map (shown lib embed), st') ∧
      Stored embed env' st' ∧ st' = { st with var := st'.var } := by
  induction lines generalizing env st outs with
  | nil =>
    cases means
    exact ⟨st, .of_eq fun _ => rfl, agrees, rfl⟩
  | cons line lines ih =>
    cases line with
    | value a =>
      obtain ⟨v, first, means⟩ := Option.bind_eq_some_iff.1 means
      obtain ⟨⟨outs, env⟩, rest, same⟩ := Option.map_eq_some_iff.1 means
      cases same
      obtain ⟨st', ends, stored, frame⟩ := ih agrees rest
      exact ⟨st', .bind (parseline_value computes agrees first) (.bind ends (.of_eq fun _ => rfl)),
        stored, frame⟩
    | assign x a =>
      obtain ⟨v, first, means⟩ := Option.bind_eq_some_iff.1 means
      obtain ⟨⟨outs, env⟩, rest, same⟩ := Option.map_eq_some_iff.1 means
      cases same
      obtain ⟨st', ends, stored, frame⟩ := ih (agrees.put x v) rest
      exact ⟨st', .bind (parseline_assign computes agrees first) (.bind ends (.of_eq fun _ => rfl)),
        stored, frame⟩

private local instance primeFiveArithmetic : Fact (Nat.Prime 5) := ⟨by decide⟩

/-- Operands of one kind are combined. -/
private def combine (o : Operator) : ℤ ⊕ ZMod 5 → ℤ ⊕ ZMod 5 → Option (ℤ ⊕ ZMod 5)
  | .inl x, .inl y => (o.onIntegers x y).map .inl
  | .inr x, .inr y => (o.onField x y).map .inr
  | _, _ => none

/-- The integers and the field of five elements as a library. -/
private def fiveLibrary : Library where
  World := Unit
  Field := Bool
  Element := ℤ ⊕ ZMod 5
  Pairing := Unit
  sameField := inferInstance
  Z := true
  field := Sum.isLeft
  order f := if f then 0 else 5
  G1 _ := false
  G2 _ := false
  GT _ := false
  Zr _ := false
  setZ := Sum.inl
  dataZ := Sum.elim id fun a => a.val
  toMpz a w := some (a.elim id fun a => a.val, w)
  setMpz f z w := some (if f then .inl z else .inr z, w)
  setStr _ _ _ := none
  random _ _ := none
  invert _ _ := none
  neg a w := some (a.map (- ·) (- ·), w)
  add a b w := (combine .add a b).map (·, w)
  sub a b w := (combine .sub a b).map (·, w)
  mul a b w := (combine .mul a b).map (·, w)
  div a b w := (combine .div a b).map (·, w)
  powMpz a z w := some (a.map (zPowMpz · z) (· ^ z.toNat), w)
  pairingApply _ _ _ _ := none
  fieldInitFp _ _ := none
  genA _ _ _ := none
  bruteForceDlog _ _ _ := none
  pollardRho _ _ _ _ := none
  indexCalculusDlog _ _ _ _ := none

private theorem fiveLibrary_computes :
    Computes fiveLibrary false (Sum.inr : ZMod 5 → ℤ ⊕ ZMod 5) where
  fieldInt _ := rfl
  fieldElement _ := rfl
  toMpz _ _ := rfl
  negInt _ _ := rfl
  negElement _ _ := rfl
  opInt o x y z w sum := by
    have both : combine o (.inl x) (.inl y) = some (.inl z) := by rw [combine, sum]; rfl
    cases o <;> exact congrArg (Option.map (·, w)) both
  opElement o x y z w sum := by
    have both : combine o (.inr x) (.inr y) = some (.inr z) := by rw [combine, sum]; rfl
    cases o <;> exact congrArg (Option.map (·, w)) both
  powInt _ _ _ := rfl
  powElement _ _ _ _ := rfl

/-- Three in the field of five elements is stored as `a`. -/
private def fiveState : State fiveLibrary where
  lastparseerror := none
  lastruntimeerror := none
  var x := if x = "a" then some (.element (Sum.inr 3)) else none
  currentPairing := ()
  world := ()

private def fiveEnvironment : Environment (ZMod 5) := fun x => if x = "a" then some (.element 3) else none

/-- The lines `b := (-7) / 2` and `-(a * a - a) ^ 2 * a`. -/
private def fiveLines : List Statement :=
  [.assign "b" (.op .div (.neg (.int 7)) (.int 2)),
    .value (.op .mul (.neg (.pow (.op .sub (.op .mul (.var "a") (.var "a")) (.var "a")) (.int 2)))
      (.var "a"))]

/-- They store minus three and show two. -/
theorem runLines_evalLines_five : ∃ st' : State fiveLibrary,
    Ends (runLines · (fiveLines.map Statement.tokens) fiveState)
      ([.silent, .value (.element (Sum.inr 2))], st') ∧
      st'.var "b" = some (.element (Sum.inl (-3))) := by
  have means : evalLines fiveLines fiveEnvironment = some ([none, some (.element 2)],
      Function.update fiveEnvironment "b" (some (.int (-3)))) := by
    rfl
  have agrees : Stored (Sum.inr : ZMod 5 → fiveLibrary.Element) fiveEnvironment fiveState := by
    intro x v value
    rw [fiveEnvironment] at value
    split_ifs at value with same
    cases value
    exact if_pos same
  obtain ⟨st', ends, stored, -⟩ := runLines_evalLines fiveLibrary_computes agrees means
  exact ⟨st', ends, stored "b" _ (Function.update_self ..)⟩

end Lines

end Pbc.Calc
