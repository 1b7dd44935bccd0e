import Pbc.Calc.Execute
import Pbc.Calc.Sentences

/-!
# Missing values in the calculator

A line stops for a missing node or value in one of these ways: the parser comes to a `^` behind
a missing base, `pairing` is called with two arguments, or the result of `init_pairing` is an
argument or is assigned. Otherwise it ends in a report if the library returns.
-/

open Pbc.Misc

namespace Pbc.Calc

variable {lib : Library} {st st' : State lib} {arg : List (Val lib)}

section Functions

/-- A function that gives a value if the library returns. -/
def Returns (x : Except Fault (Option (Val lib) × State lib)) : Prop :=
  x = .error .library ∨ ∃ v st, x = .ok (some v, st)

theorem returns_error (i : RuntimeError) : Returns (.ok (newruntimeerror i st)) :=
  Or.inr ⟨_, _, rfl⟩

theorem returns_value (v : Val lib) : Returns (.ok (some v, st)) :=
  Or.inr ⟨_, _, rfl⟩

/-- The library is called, and the rest gives a value. -/
theorem returns_call {α : Type} {operation : lib.World → Option (α × lib.World)}
    {next : α × State lib → Except Fault (Option (Val lib) × State lib)}
    (rest : ∀ out, Returns (next out)) : Returns (call operation st >>= next) := by
  cases result : operation st.world with
  | none =>
    left
    rw [call, result]
    rfl
  | some out =>
    rw [call, result]
    exact rest _

theorem returns_callElement (operation : lib.World → Option (lib.Element × lib.World)) :
    Returns (callElement operation st) :=
  returns_call fun _ => returns_value _

theorem returns_unless {p : Prop} [Decidable p] {i : RuntimeError}
    {x : Except Fault (Option (Val lib) × State lib)} (rest : ¬p → Returns x) :
    Returns (if p then pure (newruntimeerror i st) else x) := by
  split
  · exact returns_error i
  · next other => exact rest other

/-- Arguments that `check_arg` lets through have the types that it asks for. -/
theorem checkArg_eq_none {types : List ValType} (checked : checkArg arg types = none) :
    arg.map Val.type = types := by
  rw [checkArg] at checked
  split at checked
  · cases checked
  · split at checked
    · cases checked
    · next same => exact not_not.mp same

/-- A function that checks its arguments gives a value if it does for those types. -/
theorem returns_checked {types : List ValType} {body : Fun lib}
    (rest : arg.map Val.type = types → Returns (body arg st)) :
    Returns (checked types body arg st) := by
  rw [checked]
  split
  · exact returns_error _
  · next passed => exact rest (checkArg_eq_none passed)

theorem Val.type_element {v : Val lib} (type : v.type = .element) : ∃ e, v = .element e := by
  cases v <;> cases type
  exact ⟨_, rfl⟩

theorem Val.type_pairing {v : Val lib} (type : v.type = .pairing) : ∃ p, v = .pairing p := by
  cases v <;> cases type
  exact ⟨_, rfl⟩

theorem Val.type_field {v : Val lib} (type : v.type = .field) : ∃ f, v = .field f := by
  cases v <;> cases type
  exact ⟨_, rfl⟩

theorem Val.type_string {v : Val lib} (type : v.type = .string) : ∃ s, v = .string s := by
  cases v <;> cases type
  exact ⟨_, rfl⟩

theorem exists_one {x : ValType} (types : arg.map Val.type = [x]) : ∃ v, arg = [v] ∧ v.type = x := by
  obtain ⟨v, rest, rfl, type, types⟩ := List.map_eq_cons_iff.mp types
  obtain rfl := List.map_eq_nil_iff.mp types
  exact ⟨v, rfl, type⟩

theorem exists_two {x y : ValType} (types : arg.map Val.type = [x, y]) :
    ∃ v w, arg = [v, w] ∧ v.type = x ∧ w.type = y := by
  obtain ⟨v, rest, rfl, type, types⟩ := List.map_eq_cons_iff.mp types
  obtain ⟨w, rfl, type'⟩ := exists_one types
  exact ⟨v, w, rfl, type, type'⟩

theorem exists_three {x y z : ValType} (types : arg.map Val.type = [x, y, z]) :
    ∃ u v w, arg = [u, v, w] ∧ u.type = x ∧ v.type = y ∧ w.type = z := by
  obtain ⟨u, rest, rfl, type, types⟩ := List.map_eq_cons_iff.mp types
  obtain ⟨v, w, rfl, type', type''⟩ := exists_two types
  exact ⟨u, v, w, rfl, type, type', type''⟩

theorem fPairingGetGroup_returns (getGroup : lib.Pairing → lib.Field) :
    Returns (fPairingGetGroup getGroup arg st) :=
  returns_checked fun types => by
    obtain ⟨v, rfl, type⟩ := exists_one types
    obtain ⟨p, rfl⟩ := Val.type_pairing type
    exact returns_value _

theorem fRandom_returns : Returns (fRandom arg st) :=
  returns_checked fun types => by
    obtain ⟨v, rfl, type⟩ := exists_one types
    obtain ⟨f, rfl⟩ := Val.type_field type
    exact returns_callElement _

theorem fBinOp_returns (binop : lib.Element → lib.Element → lib.World → Option (lib.Element × lib.World)) :
    Returns (fBinOp binop arg st) :=
  returns_checked fun types => by
    obtain ⟨v, w, rfl, type, type'⟩ := exists_two types
    obtain ⟨e0, rfl⟩ := Val.type_element type
    obtain ⟨e1, rfl⟩ := Val.type_element type'
    exact returns_unless fun _ => returns_callElement _

theorem fOrder_returns : Returns (fOrder arg st) :=
  returns_checked fun types => by
    obtain ⟨v, rfl, type⟩ := exists_one types
    obtain ⟨f, rfl⟩ := Val.type_field type
    exact returns_value _

theorem fUnary_returns (unary : lib.Element → lib.World → Option (lib.Element × lib.World)) :
    Returns (fUnary unary arg st) :=
  returns_checked fun types => by
    obtain ⟨v, rfl, type⟩ := exists_one types
    obtain ⟨e0, rfl⟩ := Val.type_element type
    exact returns_callElement _

theorem fPow_returns : Returns (fPow arg st) :=
  returns_checked fun types => by
    obtain ⟨v, w, rfl, type, type'⟩ := exists_two types
    obtain ⟨e0, rfl⟩ := Val.type_element type
    obtain ⟨e1, rfl⟩ := Val.type_element type'
    exact returns_call fun _ => returns_callElement _

theorem fNextprime_returns : Returns (fNextprime arg st) :=
  returns_checked fun types => by
    obtain ⟨v, rfl, type⟩ := exists_one types
    obtain ⟨e0, rfl⟩ := Val.type_element type
    exact returns_unless fun _ => returns_call fun _ => returns_value _

theorem fBruteForceDlog_returns : Returns (fBruteForceDlog arg st) :=
  returns_checked fun types => by
    obtain ⟨v, w, rfl, type, type'⟩ := exists_two types
    obtain ⟨e0, rfl⟩ := Val.type_element type
    obtain ⟨e1, rfl⟩ := Val.type_element type'
    exact returns_unless fun _ => returns_callElement _

theorem fPollardRho_returns : Returns (fPollardRho arg st) :=
  returns_checked fun types => by
    obtain ⟨v, w, x, rfl, type, type', type''⟩ := exists_three types
    obtain ⟨e0, rfl⟩ := Val.type_element type
    obtain ⟨e1, rfl⟩ := Val.type_element type'
    obtain ⟨f, rfl⟩ := Val.type_field type''
    exact returns_unless fun _ => returns_callElement _

theorem fZz_returns : Returns (fZz arg st) :=
  returns_checked fun types => by
    obtain ⟨v, rfl, type⟩ := exists_one types
    obtain ⟨e0, rfl⟩ := Val.type_element type
    exact returns_unless fun _ => returns_call fun _ => returns_call fun _ => returns_value _

theorem fGenA_returns : Returns (fGenA arg st) :=
  returns_checked fun types => by
    obtain ⟨v, w, rfl, type, type'⟩ := exists_two types
    obtain ⟨e0, rfl⟩ := Val.type_element type
    obtain ⟨e1, rfl⟩ := Val.type_element type'
    exact returns_unless fun _ => returns_unless fun _ => returns_call fun _ => returns_call fun _ =>
      returns_call fun _ => returns_value _

theorem fFromZZ_returns : Returns (fFromZZ arg st) :=
  returns_checked fun types => by
    obtain ⟨v, w, rfl, type, type'⟩ := exists_two types
    obtain ⟨e, rfl⟩ := Val.type_element type
    obtain ⟨f, rfl⟩ := Val.type_field type'
    exact returns_unless fun _ => returns_callElement _

theorem fFromstr_returns : Returns (fFromstr arg st) :=
  returns_checked fun types => by
    obtain ⟨v, w, rfl, type, type'⟩ := exists_two types
    obtain ⟨s, rfl⟩ := Val.type_string type
    obtain ⟨f, rfl⟩ := Val.type_field type'
    exact returns_callElement _

theorem fIndexCalculus_returns : Returns (fIndexCalculus arg st) :=
  returns_checked fun types => by
    obtain ⟨v, w, rfl, type, type'⟩ := exists_two types
    obtain ⟨e0, rfl⟩ := Val.type_element type
    obtain ⟨e1, rfl⟩ := Val.type_element type'
    exact returns_call fun _ => returns_call fun _ => returns_call fun _ => returns_value _

/-- `init_pairing` of a pairing gives no value. -/
theorem fInitPairing_pairing (p : lib.Pairing) :
    fInitPairing [.pairing p] st = .ok (none, setPairingGroups p st) :=
  rfl

theorem fInitPairing_returns (other : ∀ p, arg ≠ [.pairing p]) : Returns (fInitPairing arg st) :=
  returns_checked fun types => by
    obtain ⟨v, rfl, type⟩ := exists_one types
    obtain ⟨p, rfl⟩ := Val.type_pairing type
    exact absurd rfl (other p)

/-- `pairing` of two arguments reads a third. -/
theorem fPairing_two (a0 a1 : Val lib) : fPairing [a0, a1] st = .error .slot :=
  rfl

theorem fPairingApply_returns (p : lib.Pairing) (e0 e1 : lib.Element) :
    Returns (fPairingApply p (.element e0) (.element e1) st) :=
  returns_unless fun _ => returns_unless fun _ => returns_callElement _

theorem fPairing_returns (other : arg.length ≠ 2) : Returns (fPairing arg st) := by
  rw [fPairing]
  split
  · exact returns_error _
  · split
    · exact returns_error _
    · have three : arg.length = 3 := by omega
      obtain ⟨a0, a1, a2, rfl⟩ := List.length_eq_three.mp three
      refine returns_unless fun type => returns_unless fun type' => ?_
      obtain ⟨e0, rfl⟩ := Val.type_element (not_not.mp type)
      obtain ⟨e1, rfl⟩ := Val.type_element (not_not.mp type')
      refine returns_unless fun type'' => ?_
      obtain ⟨p, rfl⟩ := Val.type_pairing (not_not.mp type'')
      exact fPairingApply_returns p e0 e1

/-- The built-in functions give values, but for `init_pairing` of a pairing and `pairing` of two
arguments. -/
theorem builtin_returns {word : String} {fn : Fun lib} (found : builtin lib word = some fn)
    (init : word = "init_pairing" → ∀ p, arg ≠ [.pairing p])
    (slot : word = "pairing" → arg.length ≠ 2) : Returns (fn arg st) := by
  unfold builtin at found
  split at found <;> cases found
  · exact fInitPairing_returns (init rfl)
  · exact fPairingGetGroup_returns _
  · exact fPairingGetGroup_returns _
  · exact fPairingGetGroup_returns _
  · exact fPairingGetGroup_returns _
  · exact fRandom_returns
  · exact fRandom_returns
  · exact fRandom_returns
  · exact fOrder_returns
  · exact fOrder_returns
  · exact fUnary_returns _
  · exact fBinOp_returns _
  · exact fBinOp_returns _
  · exact fPow_returns
  · exact fBinOp_returns _
  · exact fUnary_returns _
  · exact fUnary_returns _
  · exact fBinOp_returns _
  · exact fPairing_returns (slot rfl)
  · exact fNextprime_returns
  · exact fBruteForceDlog_returns
  · exact fPollardRho_returns
  · exact fIndexCalculus_returns
  · exact fZz_returns
  · exact fGenA_returns
  · exact fFromZZ_returns
  · exact fFromstr_returns

end Functions

section Evaluation

variable {t : Tree} {child : List Tree} {arg' : List (Val lib)} {fault : Fault}

/-- The result of a tree is the null pointer: it calls `init_pairing` with a pairing. -/
def Missing (st : State lib) (t : Tree) : Prop :=
  ∃ t' p st', t = .function "init_pairing" [t'] ∧
    executeArgs [t'] [] st = .ok (.inr [.pairing p], st')

/-- The evaluation of a tree comes to a call of `pairing` with two arguments, to a call that does
not return, or to a missing value that is an argument or is assigned. -/
inductive Hazard : State lib → Tree → Prop where
  | pairing {st st' t1 t2 arg} (values : executeArgs [t1, t2] [] st = .ok (.inr arg, st')) :
      Hazard st (.function "pairing" [t1, t2])
  | library {st st' word child fn arg} (found : builtin lib word = some fn)
      (values : executeArgs child [] st = .ok (.inr arg, st'))
      (stuck : fn arg st' = .error .library) : Hazard st (.function word child)
  | argument {st st' word before t after arg} (found : builtin lib word ≠ none)
      (values : executeArgs before [] st = .ok (.inr arg, st')) (argument : Hazard st' t) :
      Hazard st (.function word (before ++ t :: after))
  | missingArgument {st st' word before t after arg} (found : builtin lib word ≠ none)
      (values : executeArgs before [] st = .ok (.inr arg, st')) (missing : Missing st' t) :
      Hazard st (.function word (before ++ t :: after))
  | assigned {st word t} (value : Hazard st t) : Hazard st (.set (.id word) t)
  | missingAssigned {st word t} (missing : Missing st t) : Hazard st (.set (.id word) t)

/-- An identifier has the value that is stored for it. -/
theorem executeTree_word (word : String) (st : State lib) :
    executeTree (.id word) st =
      (st.var word).elim (.ok (newruntimeerror .varnotfound st)) fun v => .ok (some v, st) := by
  rw [executeTree]
  cases st.var word <;> rfl

/-- An assignment stores a value that is no error. -/
theorem executeTree_set (word : String) (t : Tree) (st : State lib) :
    executeTree (.set (.id word) t) st =
      (executeTree t st >>= fun out => out.1.elim (.error .null) fun v =>
        if v.type = .err then pure (some v, out.2) else pure (some v, out.2.put v word)) := by
  change (executeTree t st >>= _) = _
  congr 1
  funext out
  obtain ⟨none | v, st⟩ := out <;> rfl

/-- A function is called behind its arguments. -/
theorem executeTree_function (word : String) (child : List Tree) (st : State lib) :
    executeTree (.function word child) st =
      (builtin lib word).elim (.ok (newruntimeerror .funnotfound st)) fun fn =>
        executeArgs child [] st >>= fun out =>
          out.1.elim (fun v => pure (some v, out.2)) (fn · out.2) := by
  rw [executeTree]
  cases builtin lib word with
  | none => rfl
  | some fn =>
    dsimp only [Option.elim]
    congr 1
    funext out
    obtain ⟨v | arg, st⟩ := out <;> rfl

/-- One turn of the loop over the arguments. -/
theorem executeArgs_cons (t : Tree) (child : List Tree) (arg : List (Val lib)) (st : State lib) :
    executeArgs (t :: child) arg st =
      (executeTree t st >>= fun out => out.1.elim (.error .null) fun v =>
        if v.type = .err then pure (.inl v, out.2)
        else executeArgs child (arg ++ [v]) out.2) := by
  change (executeTree t st >>= _) = _
  congr 1
  funext out
  obtain ⟨none | v, st⟩ := out <;> rfl

theorem executeArgs_error_cons (result : executeTree t st = .error fault) :
    executeArgs (t :: child) arg st = .error fault := by
  rw [executeArgs_cons, result]
  rfl

theorem executeArgs_none_cons (result : executeTree t st = .ok (none, st')) :
    executeArgs (t :: child) arg st = .error .null := by
  rw [executeArgs_cons, result]
  rfl

theorem executeArgs_err_cons {v : Val lib} (result : executeTree t st = .ok (some v, st'))
    (err : v.type = .err) : executeArgs (t :: child) arg st = .ok (.inl v, st') := by
  rw [executeArgs_cons, result]
  exact if_pos err

theorem executeArgs_value_cons {v : Val lib} (result : executeTree t st = .ok (some v, st'))
    (value : v.type ≠ .err) :
    executeArgs (t :: child) arg st = executeArgs child (arg ++ [v]) st' := by
  rw [executeArgs_cons, result]
  exact if_neg value

/-- An argument has a value, and the loop goes on, or it has none. -/
theorem executeArgs_cons_cases (t : Tree) (st : State lib) :
    (∃ fault, executeTree t st = .error fault) ∨ (∃ st', executeTree t st = .ok (none, st')) ∨
    (∃ v st', executeTree t st = .ok (some v, st') ∧ v.type = .err) ∨
    ∃ v st', executeTree t st = .ok (some v, st') ∧ v.type ≠ .err := by
  cases executeTree t st with
  | error fault => exact Or.inl ⟨fault, rfl⟩
  | ok out =>
    obtain ⟨v, st'⟩ := out
    cases v with
    | none => exact Or.inr (Or.inl ⟨st', rfl⟩)
    | some v =>
      by_cases err : v.type = .err
      · exact Or.inr (Or.inr (Or.inl ⟨v, st', rfl, err⟩))
      · exact Or.inr (Or.inr (Or.inr ⟨v, st', rfl, err⟩))

/-- Where every argument has its value, so has the first one, and the loop goes on with it. -/
theorem executeArgs_cons_values
    (values : executeArgs (t :: child) arg st = .ok (.inr arg', st')) :
    ∃ v st'', executeTree t st = .ok (some v, st'') ∧ v.type ≠ .err ∧
      executeArgs child (arg ++ [v]) st'' = .ok (.inr arg', st') := by
  rcases executeArgs_cons_cases t st with
    ⟨_, result⟩ | ⟨_, result⟩ | ⟨_, _, result, err⟩ | ⟨v, st'', result, value⟩
  · rw [executeArgs_error_cons result] at values
    cases values
  · rw [executeArgs_none_cons result] at values
    cases values
  · rw [executeArgs_err_cons result err] at values
    cases values
  · rw [executeArgs_value_cons result value] at values
    exact ⟨v, st'', result, value, values⟩

/-- Behind arguments with values the loop goes on. -/
theorem executeArgs_append {after : List Tree}
    (values : executeArgs child arg st = .ok (.inr arg', st')) :
    executeArgs (child ++ after) arg st = executeArgs after arg' st' := by
  induction child generalizing arg st with
  | nil =>
    obtain ⟨same, rfl⟩ := Prod.mk.inj (Except.ok.inj values)
    obtain rfl := Sum.inr.inj same
    rfl
  | cons t child ih =>
    obtain ⟨v, st'', result, value, values⟩ := executeArgs_cons_values values
    rw [List.cons_append, executeArgs_value_cons result value]
    exact ih values

/-- Every argument has its value. -/
theorem executeArgs_length (values : executeArgs child arg st = .ok (.inr arg', st')) :
    arg'.length = arg.length + child.length := by
  induction child generalizing arg st with
  | nil =>
    obtain ⟨same, rfl⟩ := Prod.mk.inj (Except.ok.inj values)
    obtain rfl := Sum.inr.inj same
    rfl
  | cons t child ih =>
    obtain ⟨v, st'', result, value, values⟩ := executeArgs_cons_values values
    rw [ih values, List.length_append, List.length_singleton, List.length_cons]
    omega

/-- The loop stops at an argument that stops or has no value. -/
theorem exists_of_executeArgs_error (stop : executeArgs child arg st = .error fault) :
    ∃ before t after arg' st', child = before ++ t :: after ∧
      executeArgs before arg st = .ok (.inr arg', st') ∧
      ((∃ fault, executeTree t st' = .error fault) ∨
        ∃ st'', executeTree t st' = .ok (none, st'')) := by
  induction child generalizing arg st with
  | nil => cases stop
  | cons t child ih =>
    rcases executeArgs_cons_cases t st with
      stops | missing | ⟨_, _, result, err⟩ | ⟨v, _, result, value⟩
    · exact ⟨[], t, child, arg, st, rfl, rfl, Or.inl stops⟩
    · exact ⟨[], t, child, arg, st, rfl, rfl, Or.inr missing⟩
    · rw [executeArgs_err_cons result err] at stop
      cases stop
    · rw [executeArgs_value_cons result value] at stop
      obtain ⟨before, t', after, arg', st', rfl, values, last⟩ := ih stop
      refine ⟨t :: before, t', after, arg', st', rfl, ?_, last⟩
      rw [executeArgs_value_cons result value]
      exact values

theorem executeTree_of_values {word : String} {fn : Fun lib} (found : builtin lib word = some fn)
    (values : executeArgs child [] st = .ok (.inr arg, st')) :
    executeTree (.function word child) st = fn arg st' := by
  rw [executeTree_function, found]
  simp only [values]
  rfl

theorem executeTree_of_args_error {word : String} (found : builtin lib word ≠ none)
    (stop : executeArgs child [] st = .error fault) :
    executeTree (.function word child) st = .error fault := by
  obtain ⟨fn, found⟩ := Option.ne_none_iff_exists'.mp found
  rw [executeTree_function, found]
  simp only [stop]
  rfl

/-- The evaluation of a call stops in an argument, ends with an error, or comes to the
function. -/
theorem executeTree_function_cases {word : String} {fn : Fun lib}
    (found : builtin lib word = some fn) (child : List Tree) (st : State lib) :
    (∃ fault, executeArgs child [] st = .error fault) ∨
    (∃ v st', executeTree (.function word child) st = .ok (some v, st')) ∨
    ∃ arg st', executeArgs child [] st = .ok (.inr arg, st') := by
  rw [executeTree_function, found]
  cases executeArgs child [] st with
  | error fault => exact Or.inl ⟨fault, rfl⟩
  | ok out =>
    obtain ⟨v | arg, st'⟩ := out
    · exact Or.inr (Or.inl ⟨v, st', rfl⟩)
    · exact Or.inr (Or.inr ⟨arg, st', rfl⟩)

theorem executeTree_notfound {word : String} (found : builtin lib word = none) :
    executeTree (.function word child) st = .ok (newruntimeerror .funnotfound st) := by
  rw [executeTree_function, found]
  rfl

/-- An identifier is evaluated. -/
theorem executeTree_id (word : String) (st : State lib) :
    ∃ v st', executeTree (.id word) st = .ok (some v, st') := by
  rw [executeTree_word]
  cases st.var word with
  | none => exact ⟨_, _, rfl⟩
  | some v => exact ⟨_, _, rfl⟩

theorem executeTree_set_error {word : String} (result : executeTree t st = .error fault) :
    executeTree (.set (.id word) t) st = .error fault := by
  rw [executeTree_set, result]
  rfl

theorem executeTree_set_none {word : String} (result : executeTree t st = .ok (none, st')) :
    executeTree (.set (.id word) t) st = .error .null := by
  rw [executeTree_set, result]
  rfl

theorem executeTree_set_some (word : String) {v : Val lib}
    (result : executeTree t st = .ok (some v, st')) :
    ∃ st'', executeTree (.set (.id word) t) st = .ok (some v, st'') := by
  rw [executeTree_set, result]
  by_cases err : v.type = .err
  · exact ⟨_, if_pos err⟩
  · exact ⟨_, if_neg err⟩

/-- Only an identifier is assigned to. -/
theorem executeTree_set_cases (t1 t : Tree) (st : State lib) :
    t1 = .null ∨ (∃ word, t1 = .id word) ∨
      executeTree (.set t1 t) st = .ok (newruntimeerror .badlvalue st) := by
  cases t1 with
  | null => exact Or.inl rfl
  | id word => exact Or.inr (Or.inl ⟨word, rfl⟩)
  | _ => exact Or.inr (Or.inr rfl)

/-- A function gives no value exactly as `init_pairing` of a pairing. -/
theorem builtin_eq_none {word : String} {fn : Fun lib} (found : builtin lib word = some fn)
    (result : fn arg st = .ok (none, st')) : word = "init_pairing" ∧ ∃ p, arg = [.pairing p] := by
  by_contra other
  have slot : word = "pairing" → arg.length ≠ 2 := by
    rintro rfl two
    obtain rfl : fPairing = fn := Option.some.inj found
    obtain ⟨a0, a1, rfl⟩ := List.length_eq_two.mp two
    cases result
  rcases builtin_returns found (fun init p same => other ⟨init, p, same⟩) slot with
    stuck | ⟨v, st'', value⟩
  · rw [stuck] at result
    cases result
  · rw [value] at result
    cases result

/-- The result of a tree is missing exactly where it is that of `init_pairing`. -/
theorem missing_iff : Missing st t ↔ ∃ st', executeTree t st = .ok (none, st') := by
  constructor
  · rintro ⟨t', p, st', rfl, values⟩
    have found : builtin lib "init_pairing" = some fInitPairing := rfl
    exact ⟨_, executeTree_of_values found values⟩
  · rintro ⟨st', result⟩
    cases t with
    | null | int | string => cases result
    | id word =>
      obtain ⟨v, st'', value⟩ := executeTree_id word st
      rw [value] at result
      cases result
    | set t1 t =>
      rcases executeTree_set_cases t1 t st with rfl | ⟨word, rfl⟩ | bad
      · cases result
      · rcases executeArgs_cons_cases t st with
          ⟨_, stop⟩ | ⟨_, none⟩ | ⟨_, _, value, -⟩ | ⟨_, _, value, -⟩
        · rw [executeTree_set_error stop] at result
          cases result
        · rw [executeTree_set_none none] at result
          cases result
        all_goals
          obtain ⟨st'', value⟩ := executeTree_set_some word value
          rw [value] at result
          cases result
      · rw [bad] at result
        cases result
    | function word child =>
      cases found : builtin lib word with
      | none =>
        rw [executeTree_notfound found] at result
        cases result
      | some fn =>
        rcases executeTree_function_cases found child st with
          ⟨fault, stop⟩ | ⟨v, st'', value⟩ | ⟨arg, st'', values⟩
        · rw [executeTree_of_args_error (by simp [found]) stop] at result
          cases result
        · rw [value] at result
          cases result
        · rw [executeTree_of_values found values] at result
          obtain ⟨rfl, p, rfl⟩ := builtin_eq_none found result
          have one := executeArgs_length values
          obtain ⟨t', rfl⟩ := List.length_eq_one_iff.mp (by simpa using one.symm)
          exact ⟨t', p, st'', rfl, values⟩

/-- A hazard stops the evaluation. -/
theorem Hazard.stops (hazard : Hazard st t) : ∃ fault, executeTree t st = .error fault := by
  induction hazard with
  | pairing values =>
    obtain ⟨a0, a1, rfl⟩ := List.length_eq_two.mp (executeArgs_length values)
    have found : builtin lib "pairing" = some fPairing := rfl
    exact ⟨.slot, executeTree_of_values found values⟩
  | library found values stuck => exact ⟨.library, by rw [executeTree_of_values found values, stuck]⟩
  | argument found values _ ih =>
    obtain ⟨fault, stop⟩ := ih
    refine ⟨fault, executeTree_of_args_error found ?_⟩
    rw [executeArgs_append values, executeArgs_error_cons stop]
  | missingArgument found values missing =>
    obtain ⟨st'', none⟩ := missing_iff.mp missing
    refine ⟨.null, executeTree_of_args_error found ?_⟩
    rw [executeArgs_append values, executeArgs_none_cons none]
  | assigned _ ih =>
    obtain ⟨fault, stop⟩ := ih
    exact ⟨fault, executeTree_set_error stop⟩
  | missingAssigned missing =>
    obtain ⟨st'', none⟩ := missing_iff.mp missing
    exact ⟨.null, executeTree_set_none none⟩

/-- Where the evaluation of a call stops at the function there is a hazard. -/
theorem hazard_of_function {word : String} {fn : Fun lib} (found : builtin lib word = some fn)
    (values : executeArgs child [] st = .ok (.inr arg, st')) (stop : fn arg st' = .error fault) :
    Hazard st (.function word child) := by
  by_cases slot : word = "pairing" ∧ arg.length = 2
  · obtain ⟨rfl, two⟩ := slot
    have length := executeArgs_length values
    obtain ⟨t1, t2, rfl⟩ := List.length_eq_two.mp (by simpa [two] using length.symm)
    exact .pairing values
  · have init : word = "init_pairing" → ∀ p, arg ≠ [.pairing p] := by
      rintro rfl p rfl
      obtain rfl : fInitPairing = fn := Option.some.inj found
      cases stop
    rcases builtin_returns found init (fun word two => slot ⟨word, two⟩) with
      stuck | ⟨v, st'', value⟩
    · exact .library found values stuck
    · rw [value] at stop
      cases stop

/-- The evaluation of a whole tree only stops for a hazard. -/
theorem hazard_of_stops (whole : t.Whole) (stop : executeTree t st = .error fault) :
    Hazard st t := by
  induction whole generalizing st fault with
  | id word =>
    obtain ⟨v, st', value⟩ := executeTree_id word st
    rw [value] at stop
    cases stop
  | int | string => cases stop
  | function word whole ih =>
    rename_i child
    cases found : builtin lib word with
    | none =>
      rw [executeTree_notfound found] at stop
      cases stop
    | some fn =>
      rcases executeTree_function_cases found child st with
        ⟨fault, stop'⟩ | ⟨v, st', value⟩ | ⟨arg, st', values⟩
      · obtain ⟨before, t, after, arg, st', rfl, values, last⟩ := exists_of_executeArgs_error stop'
        have found' : builtin lib word ≠ none := by simp [found]
        rcases last with ⟨fault, stop⟩ | none
        · exact .argument found' values (ih t (by simp) stop)
        · exact .missingArgument found' values (missing_iff.mpr none)
      · rw [value] at stop
        cases stop
      · rw [executeTree_of_values found values] at stop
        exact hazard_of_function found values stop
  | set first _ _ ih =>
    rename_i t1 t _ _
    rcases executeTree_set_cases t1 t st with rfl | ⟨word, rfl⟩ | bad
    · cases first
    · rcases executeArgs_cons_cases t st with
        ⟨_, stop⟩ | none | ⟨_, _, value, -⟩ | ⟨_, _, value, -⟩
      · exact .assigned (ih stop)
      · exact .missingAssigned (missing_iff.mpr none)
      all_goals
        obtain ⟨st', value⟩ := executeTree_set_some word value
        rw [value] at stop
        cases stop
    · rw [bad] at stop
      cases stop

/-- A whole tree is evaluated exactly where there is no hazard. -/
theorem executeTree_ok_iff (whole : t.Whole) :
    (∃ out, executeTree t st = .ok out) ↔ ¬Hazard st t := by
  constructor
  · rintro ⟨out, result⟩ hazard
    obtain ⟨fault, stop⟩ := hazard.stops
    rw [stop] at result
    cases result
  · intro safe
    cases result : executeTree t st with
    | error fault => exact absurd (hazard_of_stops whole result) safe
    | ok out => exact ⟨out, rfl⟩

end Evaluation

section Lines

variable {tokens : List Token} {lines : List (List Token)} {fuel : ℕ}

/-- A line without missing nodes and values. The parser comes to the end of a sentence or to a
place where the line breaks off, and so not to a `^` behind a base that breaks off, and there is
no hazard in the tree that it builds. -/
structure Clean (tokens : List Token) (st : State lib) : Prop where
  parse : tokens = [] ∨ (∃ e s t r, tokens = s ++ r ∧ Derives .set e s t ∧ Stops .set e s r) ∨
    ∃ r, Refuses .set tokens r
  execute : ∀ t r, Ends (parsesetexpr · ⟨tokens, st.lastparseerror⟩) (t, r) →
    ¬Hazard { st with lastparseerror := r.lastparseerror } t

/-- In a run every line is clean in the state that it finds. -/
inductive CleanRun : List (List Token) → State lib → Prop where
  | nil {st : State lib} : CleanRun [] st
  | cons {tokens : List Token} {lines : List (List Token)} {st : State lib} (line : Clean tokens st)
      (rest : ∀ report st', Ends (parseline · tokens st) (report, st') → CleanRun lines st') :
      CleanRun (tokens :: lines) st

/-- The parts of a line that ends. -/
theorem parseline_eq_ok {out : Report lib × State lib} (run : parseline fuel tokens st = .ok out) :
    tokens = [] ∨ ∃ t r, parsesetexpr fuel ⟨tokens, st.lastparseerror⟩ = .ok (t, r) ∧
      (t = .null ∨ t.Whole ∧
        ∃ out, executeTree t { st with lastparseerror := r.lastparseerror } = .ok out) := by
  cases tokens with
  | nil => exact Or.inl rfl
  | cons x rest =>
    right
    obtain ⟨⟨line, r⟩, run1, run⟩ := bind_eq_ok.mp run
    obtain ⟨⟨t, r'⟩, parsed, run1⟩ := bind_eq_ok.mp run1
    refine ⟨t, r', parsed, ?_⟩
    by_cases null : t.isNull = true
    · exact Or.inl (Tree.isNull_iff.mp null)
    · simp only [null, Bool.false_eq_true, if_false] at run1
      obtain ⟨rfl, rfl⟩ := Prod.mk.inj (Except.ok.inj run1)
      obtain ⟨⟨v, st'⟩, result, run⟩ := bind_eq_ok.mp run
      obtain ⟨_, deleted, -⟩ := bind_eq_ok.mp run
      exact Or.inr ⟨whole_of_treeDelete deleted, _, result⟩

/-- A line that ends is clean. -/
theorem clean_of_ok {k : ℕ} (ends : ∀ fuel, k ≤ fuel → ∃ out, parseline fuel tokens st = .ok out) :
    Clean tokens st := by
  constructor
  · obtain ⟨out, run⟩ := ends k le_rfl
    refine (parseline_eq_ok run).imp id ?_
    rintro ⟨t, r, parsed, null | ⟨whole, -⟩⟩
    · exact Or.inr ⟨r.tokens, ((parse_sound k).set parsed).refuses null⟩
    · obtain ⟨e, s, t', split, phrase, stops⟩ := ((parse_sound k).set parsed).derives whole
      exact Or.inl ⟨e, s, t', r.tokens, split, phrase, stops⟩
  · rintro t r parsed hazard
    obtain ⟨l, results⟩ := id parsed
    have result' := results (max k l) (le_max_right k l)
    obtain ⟨out, run⟩ := ends (max k l) (le_max_left k l)
    rcases parseline_eq_ok run with rfl | ⟨t', r', parsed', result⟩
    · have refuses : Refuses .set [] [] :=
        .value (.operand (.operand (.base (.missing nofun) nofun nofun)))
      obtain ⟨err', breaks⟩ := refuses.refused st.lastparseerror
      cases Ends.unique parsed breaks
      cases hazard
    · obtain ⟨rfl, rfl⟩ := Prod.mk.inj (Except.ok.inj (result'.symm.trans parsed'))
      rcases result with rfl | ⟨whole, result⟩
      · cases hazard
      · exact (executeTree_ok_iff whole).mp result hazard

/-- A clean line ends in a report. -/
theorem Clean.ends (clean : Clean tokens st) :
    ∃ report st', Ends (parseline · tokens st) (report, st') := by
  rcases clean.parse with rfl | ⟨e, s, t, r, rfl, phrase, stops⟩ | ⟨r, refuses⟩
  · exact ⟨_, _, .of_eq fun _ => rfl⟩
  · obtain ⟨t', whole, -, reads⟩ := phrase.complete r st.lastparseerror stops
    obtain ⟨⟨v, st'⟩, result⟩ := (executeTree_ok_iff whole).mpr (clean.execute t' _ reads)
    have some : s ++ r ≠ [] := List.append_ne_nil_of_left_ne_nil phrase.nonempty r
    refine ⟨report t' v st', st', .bind (parseInput_of_tree some whole reads) (.of_eq fun _ => ?_)⟩
    simp only [result, treeDelete_of_whole whole]
    rfl
  · by_cases some : tokens = []
    · subst some
      exact ⟨_, _, .of_eq fun _ => rfl⟩
    · obtain ⟨code, ends⟩ := @parseInput_of_refuses tokens st.lastparseerror r refuses some
      exact ⟨_, _, .bind ends (.of_eq fun _ => rfl)⟩

/-- A run that ends is clean. -/
theorem cleanRun_of_ok {k : ℕ}
    (ends : ∀ fuel, k ≤ fuel → ∃ out, runLines fuel lines st = .ok out) : CleanRun lines st := by
  induction lines generalizing st k with
  | nil => exact .nil
  | cons tokens lines ih =>
    refine .cons (@clean_of_ok _ _ _ k fun fuel enough => ?_) fun report st' ⟨l, first⟩ =>
      @ih st' (max k l) fun fuel enough => ?_
    · obtain ⟨out, run⟩ := ends fuel enough
      obtain ⟨out, first, -⟩ := bind_eq_ok.mp run
      exact ⟨out, first⟩
    · obtain ⟨out, run⟩ := ends fuel (le_trans (le_max_left k l) enough)
      obtain ⟨out, first', run⟩ := bind_eq_ok.mp run
      have result := first fuel (le_trans (le_max_right k l) enough)
      obtain rfl := Except.ok.inj (result.symm.trans first')
      obtain ⟨out, rest, -⟩ := bind_eq_ok.mp run
      exact ⟨out, rest⟩

/-- Every line of a run ends in a report, with no null pointer followed and no argument read
that is not there, exactly where every line is clean in the state that it finds. Every tree that
is built is deleted, so it misses no node. -/
theorem runLines_ends_iff (lines : List (List Token)) (st : State lib) :
    (∃ reports st', reports.length = lines.length ∧ Ends (runLines · lines st) (reports, st')) ↔
      CleanRun lines st := by
  constructor
  · rintro ⟨reports, st', -, k, run⟩
    exact cleanRun_of_ok fun fuel enough => ⟨_, run fuel enough⟩
  · intro clean
    induction clean with
    | nil => exact ⟨[], _, rfl, .of_eq fun _ => rfl⟩
    | cons line _ ih =>
      obtain ⟨report, st', first⟩ := line.ends
      obtain ⟨reports, st'', length, rest⟩ := ih report st' first
      refine ⟨report :: reports, st'', congrArg (· + 1) length, ?_⟩
      exact .bind first (.bind rest (.of_eq fun _ => rfl))

/-- The value of `x = init_pairing(A)` is the null pointer, whose type is looked at. -/
theorem not_clean_assigned {p : lib.Pairing} (value : st.var "A" = some (.pairing p)) :
    ¬Clean [.id "x", .set, .id "init_pairing", .lparen, .id "A", .rparen] st := by
  intro clean
  have call : Derives .prim false [.id "init_pairing", .lparen, .id "A", .rparen]
      (.function "init_pairing" [.id "A"]) :=
    .callArgs (.first (.value (.operand (.operand (.base (.id "A"))))))
  have phrase : Derives .set false
      [.id "x", .set, .id "init_pairing", .lparen, .id "A", .rparen]
      (.set (.id "x") (.function "init_pairing" [.id "A"])) :=
    .assign (.operand (.operand (.base (.id "x")))) (.value (.operand (.operand (.base call))))
  obtain ⟨t', -, same, reads⟩ := phrase.complete [] st.lastparseerror ⟨nofun, nofun, nofun⟩
  obtain rfl := same fun _ _ => rfl
  have result : executeTree (.id "A") st = .ok (some (.pairing p), st) := by
    rw [executeTree_word, value]
    rfl
  have values : executeArgs [.id "A"] [] st = .ok (.inr [.pairing p], st) := by
    rw [executeArgs_value_cons result nofun]
    rfl
  exact clean.execute _ _ reads (.missingAssigned ⟨.id "A", p, st, rfl, values⟩)

/-- A library without data. -/
private def emptyLibrary : Library where
  World := Unit
  Field := Unit
  Element := Unit
  Pairing := Unit
  sameField := inferInstance
  Z := ()
  field := id
  order _ := 0
  G1 := id
  G2 := id
  GT := id
  Zr := id
  setZ _ := ()
  dataZ _ := 0
  toMpz _ _ := none
  setMpz _ _ _ := none
  setStr _ _ _ := none
  random _ _ := none
  invert _ _ := none
  neg _ _ := none
  add _ _ _ := none
  sub _ _ _ := none
  mul _ _ _ := none
  div _ _ _ := none
  powMpz _ _ _ := none
  pairingApply _ _ _ _ := none
  fieldInitFp _ _ := none
  genA _ _ _ := none
  bruteForceDlog _ _ _ := none
  pollardRho _ _ _ _ := none
  indexCalculusDlog _ _ _ _ := none

/-- Not every line ends in a report: with a pairing as the value of `A` the line
`x = init_pairing(A)` does not. -/
theorem not_runLines_ends : ¬∀ (lib : Library) (st : State lib) (lines : List (List Token)),
    ∃ reports st', reports.length = lines.length ∧ Ends (runLines · lines st) (reports, st') := by
  intro ends
  obtain ⟨reports, st', -, k, run⟩ := ends emptyLibrary
    ⟨none, none, fun key => if key = "A" then some (.pairing ()) else none, (), ()⟩
    [[.id "x", .set, .id "init_pairing", .lparen, .id "A", .rparen]]
  cases cleanRun_of_ok fun fuel enough => ⟨_, run fuel enough⟩ with
  | cons line => exact not_clean_assigned rfl line

end Lines

end Pbc.Calc
