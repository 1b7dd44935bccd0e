import Mathlib.Algebra.BigOperators.Group.List.Basic
import Pbc.Calc.Machine
import Pbc.Calc.Safety

/-!
# Who owns the values of the calculator

The evaluation in memory does what the evaluation of values does, and touches no block that is not
live. Behind a line the live blocks are those of the variables, and those that were lost: the
array of the arguments where one of them is an error, and what `init_pairing` writes over.
-/

open Pbc.Misc Pbc.Misc.Assertion

namespace Pbc.Calc

variable {lib : Library} {allocator : Allocator (ValBlock lib)} {p : ℕ} {v : Val lib}
  {E : Fault → Prop} {F : Assertion (ValBlock lib)}

section Values

/-- A value in memory, with its data. -/
def valAt (p : ℕ) : Val lib → Assertion (ValBlock lib)
  | .element e => oneOf fun d => pointsTo p (.val (.element d)) * pointsTo d (.element e)
  | .string s => oneOf fun d => pointsTo p (.val (.string d)) * pointsTo d (.text s)
  | .pairing data => pointsTo p (.val (.pairing data))
  | .field data => pointsTo p (.val (.field data))
  | .err i => pointsTo p (.val (.err i))

/-- What is said of the address of a data block is said of a value. -/
theorem valAt_element (p d : ℕ) (e : lib.Element) :
    pointsTo p (.val (.element d)) * pointsTo d (.element e) ≤ valAt p (.element e) :=
  le_oneOf (fun d => pointsTo p (.val (.element d)) * pointsTo d (.element e) :
    ℕ → Assertion (ValBlock lib)) d

theorem valAt_string (p d : ℕ) (s : String) :
    pointsTo p (.val (.string d)) * pointsTo d (.text s) ≤ (valAt p (.string s) : Assertion (ValBlock lib)) :=
  le_oneOf (fun d => pointsTo p (.val (.string d)) * pointsTo d (.text s) :
    ℕ → Assertion (ValBlock lib)) d

/-- A block alone in front of what follows it. -/
theorem Triple.load_bind {α : Type} {c : ValBlock lib} {next : ValBlock lib → ValProg lib α}
    {S : α → Assertion (ValBlock lib)} (rest : Triple (pointsTo p c * F) (next c) S E) :
    Triple (pointsTo p c * F) (load p >>= next) S E :=
  Triple.call_value Triple.load rest

theorem loadVal_triple : Triple (valAt p v) (loadVal p) (fun v' => fact (v' = v) * valAt p v) E := by
  cases v with
  | element e =>
    refine Triple.of_oneOf fun d => ?_
    refine Triple.load_bind ?_
    rw [mul_comm]
    refine Triple.load_bind (Triple.pure_fact rfl ?_)
    rw [mul_comm]
    exact valAt_element p d e
  | string s =>
    refine Triple.of_oneOf fun d => ?_
    refine Triple.load_bind ?_
    rw [mul_comm]
    refine Triple.load_bind (Triple.pure_fact rfl ?_)
    rw [mul_comm]
    exact valAt_string p d s
  | pairing | field | err =>
    exact Triple.bind_value Triple.load (Triple.pure_fact rfl le_rfl)

theorem valType_triple :
    Triple (valAt p v) (valType p) (fun type => fact (type = v.type) * valAt p v) E := by
  cases v with
  | element e =>
    refine Triple.of_oneOf fun d => ?_
    exact Triple.load_bind (Triple.pure_fact rfl (valAt_element p d e))
  | string s =>
    refine Triple.of_oneOf fun d => ?_
    exact Triple.load_bind (Triple.pure_fact rfl (valAt_string p d s))
  | pairing | field | err =>
    exact Triple.bind_value Triple.load (Triple.pure_fact rfl le_rfl)

theorem valNew_triple (allocator : Allocator (ValBlock lib)) (v : Val lib) :
    Triple 1 (valNew allocator v) (fun p => valAt p v) E := by
  cases v with
  | element e =>
    refine (Triple.alloc allocator _).bind fun d => ?_
    rw [← one_mul (pointsTo d _)]
    exact ((Triple.alloc allocator _).frame _).mono le_rfl fun p => valAt_element p d e
  | string s =>
    refine (Triple.alloc allocator _).bind fun d => ?_
    rw [← one_mul (pointsTo d _)]
    exact ((Triple.alloc allocator _).frame _).mono le_rfl fun p => valAt_string p d s
  | pairing | field | err => exact Triple.alloc allocator _

/-- A copy has its own data. -/
theorem valCopy_triple : Triple (valAt p v) (valCopy allocator p) (fun q => valAt q v * valAt p v) E := by
  refine Triple.bind_value loadVal_triple ?_
  rw [← one_mul (valAt p v)]
  exact ((valNew_triple allocator v).frame _).mono le_rfl fun q => by rw [one_mul]

theorem Triple.free_bind {α : Type} {c : ValBlock lib} {next : Unit → ValProg lib α}
    {S : α → Assertion (ValBlock lib)} (rest : Triple F (next ()) S E) :
    Triple (pointsTo p c * F) (free p >>= next) S E := by
  refine Triple.call Triple.free fun _ => ?_
  rwa [one_mul]

theorem valDelete_triple : Triple (valAt p v) (valDelete p) (fun _ => 1) E := by
  cases v with
  | element e =>
    refine Triple.of_oneOf fun d => ?_
    refine Triple.load_bind ?_
    rw [mul_comm]
    exact Triple.free_bind Triple.free
  | string s =>
    refine Triple.of_oneOf fun d => ?_
    refine Triple.load_bind ?_
    rw [mul_comm]
    exact Triple.free_bind Triple.free
  | pairing | field | err =>
    exact Triple.bind_value Triple.load Triple.free

/-- The values of an array are deleted. -/
theorem deleteAll_triple {ps : List ℕ} {vs : List (Val lib)} :
    Triple (each valAt ps vs) (deleteAll ps) (fun _ => 1) E := by
  induction ps generalizing vs with
  | nil =>
    cases vs with
    | nil => exact Triple.pure le_rfl
    | cons v vs =>
      exact fun F h holds => (fact_mul_apply.1 holds).1.elim
  | cons p ps ih =>
    cases vs with
    | nil =>
      exact fun F h holds => (fact_mul_apply.1 holds).1.elim
    | cons v vs =>
      refine Triple.call valDelete_triple fun _ => ?_
      rw [one_mul]
      exact ih

/-- The values of an array are read. -/
theorem loadAll_triple {ps : List ℕ} {vs : List (Val lib)} :
    Triple (each valAt ps vs) (loadAll ps) (fun vs' => fact (vs' = vs) * each valAt ps vs) E := by
  induction ps generalizing vs with
  | nil =>
    cases vs with
    | nil => exact Triple.pure_fact rfl le_rfl
    | cons v vs => exact fun F h holds => (fact_mul_apply.1 holds).1.elim
  | cons p ps ih =>
    cases vs with
    | nil => exact fun F h holds => (fact_mul_apply.1 holds).1.elim
    | cons v vs =>
      refine Triple.call_value loadVal_triple ?_
      rw [mul_comm]
      refine Triple.call_value ih (Triple.pure_fact rfl ?_)
      rw [mul_comm]
      exact le_rfl

end Values

section Functions

/-- A computation that does not look at the variables, and leaves them as they are. -/
def Keeps {α : Type} (x : State lib → Except Fault (α × State lib)) : Prop :=
  ∀ st var, x { st with var } = (x st).map fun out => (out.1, { out.2 with var })

theorem keeps_value {α : Type} (a : α) : Keeps fun st : State lib => .ok (a, st) := fun _ _ => rfl

theorem keeps_error (i : RuntimeError) : Keeps fun st : State lib => .ok (newruntimeerror i st) :=
  fun _ _ => rfl

/-- What does not depend on the state may stop. -/
theorem keeps_bind {α β : Type} {y : Except Fault α} {next : α → State lib → Except Fault (β × State lib)}
    (rest : ∀ a, Keeps (next a)) : Keeps fun st => y >>= fun a => next a st := by
  cases y with
  | error fault => exact fun _ _ => rfl
  | ok a => exact rest a

/-- The library is called. -/
theorem keeps_call {α β : Type} {operation : lib.World → Option (α × lib.World)}
    {next : α × State lib → Except Fault (β × State lib)} (rest : ∀ a, Keeps fun st => next (a, st)) :
    Keeps fun st => call operation st >>= next := by
  intro st var
  cases result : operation st.world with
  | none =>
    simp only [call, result]
    rfl
  | some out =>
    simp only [call, result]
    exact rest out.1 { st with world := out.2 } var

theorem keeps_callElement (operation : lib.World → Option (lib.Element × lib.World)) :
    Keeps (callElement operation) := by
  refine keeps_call fun _ => ?_
  exact keeps_value _

theorem keeps_unless {φ : Prop} [Decidable φ] {i : RuntimeError}
    {x : State lib → Except Fault (Option (Val lib) × State lib)} (rest : Keeps x) :
    Keeps fun st => if φ then pure (newruntimeerror i st) else x st := by
  by_cases holds : φ
  · simp only [if_pos holds]
    exact keeps_error i
  · simpa only [if_neg holds] using rest

theorem keeps_checked {types : List ValType} {body : Fun lib} {arg : List (Val lib)}
    (rest : arg.map Val.type = types → Keeps (body arg)) : Keeps (checked types body arg) := by
  unfold checked
  cases result : checkArg arg types with
  | some i => exact keeps_error i
  | none => exact rest (checkArg_eq_none result)

variable {arg : List (Val lib)}

theorem fPairingGetGroup_keeps (getGroup : lib.Pairing → lib.Field) :
    Keeps (fPairingGetGroup getGroup arg) := by
  refine keeps_checked fun types => ?_
  refine keeps_bind fun a0 => keeps_bind fun p => ?_
  exact keeps_value _

theorem fRandom_keeps : Keeps (fRandom arg : State lib → _) := by
  refine keeps_checked fun types => ?_
  exact keeps_bind fun a0 => keeps_bind fun f => keeps_callElement _

theorem fOrder_keeps : Keeps (fOrder arg : State lib → _) := by
  refine keeps_checked fun types => ?_
  refine keeps_bind fun a0 => keeps_bind fun f => ?_
  exact keeps_value _

theorem fUnary_keeps (unary : lib.Element → lib.World → Option (lib.Element × lib.World)) :
    Keeps (fUnary unary arg) := by
  refine keeps_checked fun types => ?_
  exact keeps_bind fun a0 => keeps_bind fun e0 => keeps_callElement _

theorem fBinOp_keeps (binop : lib.Element → lib.Element → lib.World → Option (lib.Element × lib.World)) :
    Keeps (fBinOp binop arg) := by
  refine keeps_checked fun types => ?_
  refine keeps_bind fun a0 => keeps_bind fun a1 => keeps_bind fun e0 => keeps_bind fun e1 => ?_
  exact keeps_unless (keeps_callElement _)

theorem fPow_keeps : Keeps (fPow arg : State lib → _) := by
  refine keeps_checked fun types => ?_
  refine keeps_bind fun a0 => keeps_bind fun a1 => keeps_bind fun e0 => keeps_bind fun e1 => ?_
  exact keeps_call fun z => keeps_callElement _

theorem fPairingApply_keeps (p : lib.Pairing) (a0 a1 : Val lib) : Keeps (fPairingApply p a0 a1) := by
  refine keeps_bind fun e0 => keeps_bind fun e1 => ?_
  exact keeps_unless (keeps_unless (keeps_callElement _))

theorem fPairing_keeps : Keeps (fPairing arg : State lib → _) := by
  refine keeps_unless (keeps_unless ?_)
  refine keeps_bind fun a0 => keeps_bind fun a1 => keeps_bind fun a2 => ?_
  refine keeps_unless (keeps_unless ?_)
  by_cases three : arg.length = 3
  · simp only [if_pos three]
    exact keeps_unless (keeps_bind fun p => fPairingApply_keeps p a0 a1)
  · simp only [if_neg three]
    exact fun st var => fPairingApply_keeps st.currentPairing a0 a1 st var

theorem fNextprime_keeps : Keeps (fNextprime arg : State lib → _) := by
  refine keeps_checked fun types => ?_
  refine keeps_bind fun a0 => keeps_bind fun e0 => keeps_unless (keeps_call fun p => ?_)
  exact keeps_value _

theorem fBruteForceDlog_keeps : Keeps (fBruteForceDlog arg : State lib → _) := by
  refine keeps_checked fun types => ?_
  refine keeps_bind fun a0 => keeps_bind fun a1 => keeps_bind fun e0 => keeps_bind fun e1 => ?_
  exact keeps_unless (keeps_callElement _)

theorem fPollardRho_keeps : Keeps (fPollardRho arg : State lib → _) := by
  refine keeps_checked fun types => ?_
  refine keeps_bind fun a0 => keeps_bind fun a1 => keeps_bind fun a2 => ?_
  refine keeps_bind fun e0 => keeps_bind fun e1 => keeps_unless ?_
  exact keeps_bind fun f => keeps_callElement _

theorem fZz_keeps : Keeps (fZz arg : State lib → _) := by
  refine keeps_checked fun types => ?_
  refine keeps_bind fun a0 => keeps_bind fun e0 => keeps_unless ?_
  refine keeps_call fun p => keeps_call fun f => ?_
  exact keeps_value _

theorem fGenA_keeps : Keeps (fGenA arg : State lib → _) := by
  refine keeps_checked fun types => ?_
  refine keeps_bind fun a0 => keeps_bind fun a1 => keeps_bind fun e0 => keeps_unless ?_
  refine keeps_bind fun e1 => keeps_unless ?_
  refine keeps_call fun rbits => keeps_call fun qbits => keeps_call fun p => ?_
  exact keeps_value _

theorem fFromZZ_keeps : Keeps (fFromZZ arg : State lib → _) := by
  refine keeps_checked fun types => ?_
  refine keeps_bind fun a0 => keeps_bind fun a1 => keeps_bind fun e => keeps_bind fun f => ?_
  exact keeps_unless (keeps_callElement _)

theorem fFromstr_keeps : Keeps (fFromstr arg : State lib → _) := by
  refine keeps_checked fun types => ?_
  refine keeps_bind fun a0 => keeps_bind fun a1 => keeps_bind fun f => keeps_bind fun s => ?_
  exact keeps_callElement _

theorem fIndexCalculus_keeps : Keeps (fIndexCalculus arg : State lib → _) := by
  refine keeps_checked fun types => ?_
  refine keeps_bind fun a0 => keeps_bind fun a1 => keeps_bind fun e0 => keeps_bind fun e1 => ?_
  refine keeps_call fun g => keeps_call fun h => keeps_call fun x => ?_
  exact keeps_value _

theorem fInitPairing_keeps (other : ∀ p, arg ≠ [.pairing p]) : Keeps (fInitPairing arg : State lib → _) := by
  refine keeps_checked fun types => ?_
  obtain ⟨v, rfl, type⟩ := exists_one types
  obtain ⟨p, rfl⟩ := Val.type_pairing type
  exact absurd rfl (other p)

/-- The built-in functions do not look at the variables, and leave them as they are, but for
`init_pairing` of a pairing. -/
theorem builtin_keeps {word : String} {fn : Fun lib} (found : builtin lib word = some fn)
    (other : word = "init_pairing" → ∀ p, arg ≠ [.pairing p]) : Keeps (fn arg) := by
  unfold builtin at found
  split at found <;> cases found
  · exact fInitPairing_keeps (other rfl)
  · exact fPairingGetGroup_keeps _
  · exact fPairingGetGroup_keeps _
  · exact fPairingGetGroup_keeps _
  · exact fPairingGetGroup_keeps _
  · exact fRandom_keeps
  · exact fRandom_keeps
  · exact fRandom_keeps
  · exact fOrder_keeps
  · exact fOrder_keeps
  · exact fUnary_keeps _
  · exact fBinOp_keeps _
  · exact fBinOp_keeps _
  · exact fPow_keeps
  · exact fBinOp_keeps _
  · exact fUnary_keeps _
  · exact fUnary_keeps _
  · exact fBinOp_keeps _
  · exact fPairing_keeps
  · exact fNextprime_keeps
  · exact fBruteForceDlog_keeps
  · exact fPollardRho_keeps
  · exact fIndexCalculus_keeps
  · exact fZz_keeps
  · exact fGenA_keeps
  · exact fFromZZ_keeps
  · exact fFromstr_keeps

end Functions

section Variables

/-- A variable: its name, and its value with the address. -/
abbrev Entry (lib : Library) := List Char × ℕ × Val lib

/-- The values of variables in memory. -/
def varsAt (entries : List (Entry lib)) : Assertion (ValBlock lib) :=
  (entries.map fun x => valAt x.2.1 x.2.2).prod

/-- A machine holds a state, with some entries for its variables. -/
structure Machine.Holds (m : Machine lib) (st : State lib) (entries : List (Entry lib)) : Prop where
  var : m.var = entries.map fun x => (x.1, x.2.1)
  state : st = m.state fun key => (tableAt entries key.toList).map Prod.snd

/-- Blocks that nothing points to any more: the array of some arguments, or a value. -/
inductive Garbage (lib : Library) where
  | items (a : ℕ)
  | value (p : ℕ) (v : Val lib)

def Garbage.at : Garbage lib → Assertion (ValBlock lib)
  | .items a => pointsTo a .items
  | .value p v => valAt p v

/-- The lost blocks in memory. -/
def garbageAt (garbage : List (Garbage lib)) : Assertion (ValBlock lib) :=
  (garbage.map Garbage.at).prod

theorem garbageAt_nil : (garbageAt [] : Assertion (ValBlock lib)) = 1 := rfl

theorem garbageAt_cons (x : Garbage lib) (garbage : List (Garbage lib)) :
    garbageAt (x :: garbage) = x.at * garbageAt garbage := rfl

variable {m : Machine lib} {st : State lib} {entries : List (Entry lib)} {key : String}

theorem Machine.Holds.at (holds : m.Holds st entries) (key : String) :
    m.at key = (tableAt entries key.toList).map Prod.fst ∧
      st.var key = (tableAt entries key.toList).map Prod.snd := by
  constructor
  · rw [Machine.at, holds.var, tableAt_map]
  · rw [holds.state]
    rfl

/-- An assignment to a variable. -/
theorem Machine.Holds.put (holds : m.Holds st entries) (p : ℕ) (v : Val lib) (key : String) :
    (m.put p key).Holds (st.put v key) (tablePut entries (p, v) key.toList) := by
  constructor
  · rw [Machine.put, holds.var]
    exact tablePut_map Prod.fst entries (p, v) key.toList
  · rw [State.put, holds.state, Machine.state, Machine.state]
    congr 1
    funext key'
    rw [tableAt_put, Function.update_apply, Function.update_apply]
    by_cases same : key' = key
    · rw [if_pos same, if_pos (congrArg String.toList same)]
      rfl
    · rw [if_neg same, if_neg (mt String.toList_inj.1 same)]

/-- The value that a variable had, if it had one, is no longer that of a variable. -/
theorem varsAt_tablePut (entries : List (Entry lib)) (p : ℕ) (v : Val lib) (key : List Char) :
    varsAt (tablePut entries (p, v) key) * ((tableAt entries key).elim 1 fun old => valAt old.1 old.2) =
      varsAt entries * valAt p v := by
  rcases tablePut_cases entries key with ⟨value, puts⟩ | ⟨xs₁, old, xs₂, value, rfl, puts⟩
  · rw [value, puts, varsAt, List.map_append, List.prod_append, Option.elim_none, mul_one]
    simp [varsAt]
  · rw [value, puts, varsAt, varsAt]
    simp only [List.map_append, List.prod_append, List.map_cons, List.prod_cons, Option.elim_some]
    ac_rfl

/-- The part of a variable. -/
theorem varsAt_of_tableAt {entries : List (Entry lib)} {key : List Char} {x : ℕ × Val lib}
    (found : tableAt entries key = some x) : ∃ others, varsAt entries = valAt x.1 x.2 * others := by
  rcases tablePut_cases entries key with ⟨value, -⟩ | ⟨xs₁, old, xs₂, value, rfl, -⟩
  · rw [value] at found
    cases found
  · obtain rfl := Option.some.inj (value.symm.trans found)
    refine ⟨varsAt xs₁ * varsAt xs₂, ?_⟩
    simp only [varsAt, List.map_append, List.prod_append, List.map_cons, List.prod_cons]
    ac_rfl

/-- The variables of a state in memory. -/
def varsOf (m : Machine lib) (st : State lib) : Assertion (ValBlock lib) :=
  oneOf fun entries => fact (m.Holds st entries) * varsAt entries

theorem varsAt_le (holds : m.Holds st entries) : varsAt entries ≤ varsOf m st := by
  have le := le_oneOf (fun entries => fact (m.Holds st entries) * varsAt entries) entries
  simp only [fact_mul holds] at le
  exact le

variable {α β : Type} {prog : ValProg lib α} {x : Except Fault β} {S : β → α → Assertion (ValBlock lib)}

theorem Follows.of_varsOf (each : ∀ entries, m.Holds st entries → Follows (varsAt entries * F) prog x S) :
    Follows (varsOf m st * F) prog x S := by
  intro F' h holds
  rw [mul_assoc] at holds
  obtain ⟨entries, holds⟩ := oneOf_mul_apply.1 holds
  rw [mul_assoc] at holds
  obtain ⟨same, holds⟩ := fact_mul_apply.1 holds
  rw [← mul_assoc] at holds
  exact each entries same F' h holds

/-- The code of the last error is the same. -/
theorem Follows.of_codes (given : m.lastruntimeerror = st.lastruntimeerror →
    Follows (varsOf m st * F) prog x S) : Follows (varsOf m st * F) prog x S := by
  refine Follows.of_varsOf fun entries holds => ?_
  have codes : m.lastruntimeerror = st.lastruntimeerror := by
    rw [holds.state]
    rfl
  exact (given codes).mono (mul_le_mul_left (varsAt_le holds) F) fun _ _ => le_rfl

/-- What is left behind a part of the evaluation: its result, the variables, and blocks that are
lost only where the result is not tidy. -/
def leaves (R : β → α → Assertion (ValBlock lib)) (tidy : β → Prop) (out : β × State lib)
    (res : α × Machine lib) : Assertion (ValBlock lib) :=
  oneOf fun garbage => fact (tidy out.1 → garbage = []) *
    (R out.1 res.1 * (varsOf res.2 out.2 * garbageAt garbage))

variable {R : β → α → Assertion (ValBlock lib)} {tidy : β → Prop} {b : β} {a : α}

theorem le_leaves {garbage : List (Garbage lib)} (lost : tidy b → garbage = []) :
    R b a * (varsOf m st * garbageAt garbage) ≤ leaves R tidy (b, st) (a, m) := by
  have le := le_oneOf (fun garbage => fact (tidy b → garbage = []) *
    (R b a * (varsOf m st * garbageAt garbage))) garbage
  simp only [fact_mul lost] at le
  exact le

/-- Nothing is lost. -/
theorem le_leaves_tidy : R b a * varsOf m st ≤ leaves R tidy (b, st) (a, m) := by
  have le : R b a * (varsOf m st * garbageAt []) ≤ leaves R tidy (b, st) (a, m) :=
    le_leaves fun _ => rfl
  rwa [garbageAt_nil, mul_one] at le

theorem Follows.of_leaves {α' β' : Type} {prog : ValProg lib α'} {x : Except Fault β'}
    {S : β' → α' → Assertion (ValBlock lib)}
    (each : ∀ garbage, (tidy b → garbage = []) →
      Follows (R b a * (varsOf m st * garbageAt garbage) * F) prog x S) :
    Follows (leaves R tidy (b, st) (a, m) * F) prog x S := by
  intro F' h holds
  rw [mul_assoc] at holds
  obtain ⟨garbage, holds⟩ := oneOf_mul_apply.1 holds
  rw [mul_assoc] at holds
  obtain ⟨lost, holds⟩ := fact_mul_apply.1 holds
  rw [← mul_assoc] at holds
  exact each garbage lost F' h holds

end Variables

section Evaluation

variable {m : Machine lib} {st : State lib}

/-- The result of a tree in memory. -/
def resultAt : Option (Val lib) → Option ℕ → Assertion (ValBlock lib)
  | some v, some p => valAt p v
  | none, none => 1
  | _, _ => fact False

/-- A result is a value. -/
def IsValue (v : Option (Val lib)) : Prop := ∃ w, v = some w ∧ w.type ≠ .err

theorem not_isValue {v : Val lib} (err : v.type = .err) : ¬IsValue (some v) := by
  rintro ⟨w, same, value⟩
  obtain rfl := Option.some.inj same
  exact value err

/-- The result of the loop over arguments in memory. -/
def argsAt : Val lib ⊕ List (Val lib) → ℕ ⊕ List ℕ → Assertion (ValBlock lib)
  | .inl v, .inl p => fact (v.type = .err) * valAt p v
  | .inr vs, .inr ps => each valAt ps vs
  | _, _ => fact False

/-- A state with another code of an error. -/
theorem Machine.Holds.error {entries : List (Entry lib)} (holds : m.Holds st entries) (i : RuntimeError) :
    Machine.Holds { m with lastruntimeerror := some i } { st with lastruntimeerror := some i } entries := by
  constructor
  · exact holds.var
  · rw [holds.state]
    rfl

theorem varsOf_mono {m' : Machine lib} {st' : State lib}
    (each : ∀ entries, m.Holds st entries → m'.Holds st' entries) : varsOf m st ≤ varsOf m' st' := by
  rintro h ⟨entries, holds⟩
  obtain ⟨same, holds⟩ := fact_mul_apply.1 holds
  exact varsAt_le (each entries same) h holds

/-- A new value as the result. -/
theorem valNew_follows {m' : Machine lib} {st' : State lib} (v : Val lib) (same : varsOf m st ≤ varsOf m' st') :
    Follows (varsOf m st) (valNew allocator v >>= fun p => pure (some p, m'))
      (.ok (some v, st') : Except Fault _) (leaves resultAt IsValue) := by
  rw [← one_mul (varsOf m st)]
  refine Follows.step ((valNew_triple allocator v).frame _) fun p => Follows.pure ?_
  exact (mul_le_mul_right same (valAt p v)).trans (le_leaves_tidy (R := resultAt) (b := some v) (a := some p))

theorem newError_follows (i : RuntimeError) : Follows (varsOf m st) (newError allocator i m)
    (.ok (newruntimeerror i st) : Except Fault _) (leaves resultAt IsValue) :=
  valNew_follows (.err i) (varsOf_mono fun _ holds => holds.error i)

/-- The variables, next to some lost blocks. -/
def remains (m : Machine lib) (st : State lib) : Assertion (ValBlock lib) :=
  oneOf fun garbage => varsOf m st * garbageAt garbage

/-- A variable of `set_pairing_groups`. -/
theorem putNew_triple (v : Val lib) (key : String) :
    Triple (remains m st) (putNew allocator v key m) (fun m' => remains m' (st.put v key)) E := by
  refine Triple.of_oneOf fun garbage => Triple.of_oneOf_mul fun entries => ?_
  rw [mul_assoc]
  refine Triple.of_fact fun holds => ?_
  rw [← one_mul (varsAt entries * _)]
  refine Triple.call (valNew_triple allocator v) fun p => Triple.pure ?_
  rw [← mul_assoc, mul_comm (valAt p v), ← varsAt_tablePut]
  have stored := varsAt_le (holds.put p v key)
  cases tableAt entries key.toList with
  | none =>
    rw [Option.elim_none, mul_one]
    exact (mul_le_mul_left stored _).trans
      (le_oneOf (fun garbage => varsOf (m.put p key) (st.put v key) * garbageAt garbage) garbage)
  | some old =>
    rw [Option.elim_some, mul_assoc]
    exact (mul_le_mul_left stored _).trans
      (le_oneOf (fun garbage => varsOf (m.put p key) (st.put v key) * garbageAt garbage)
        (.value old.1 old.2 :: garbage))

theorem machineSetGroups_triple (p : lib.Pairing) : Triple (remains m st) (machineSetGroups allocator p m)
    (fun m' => remains m' (setPairingGroups p st)) E := by
  refine (putNew_triple _ _).bind fun m => (putNew_triple _ _).bind fun m => ?_
  refine (putNew_triple _ _).bind fun m => (putNew_triple _ _).bind fun m => ?_
  refine (putNew_triple _ _).bind fun m => Triple.pure ?_
  rintro h ⟨garbage, holds⟩
  refine ⟨garbage, mul_le_mul_left (varsOf_mono fun entries holds => ?_) _ h holds⟩
  constructor
  · exact holds.var
  · rw [setPairingGroups, holds.state]
    rfl

/-- A built-in function in memory. -/
theorem callBuiltin_follows {word : String} {fn : Fun lib} {ps : List ℕ} {vs : List (Val lib)}
    (found : builtin lib word = some fn) :
    Follows (each valAt ps vs * varsOf m st) (callBuiltin allocator fn ps m) (fn vs st)
      fun out res => leaves resultAt IsValue out res * each valAt ps vs := by
  refine Follows.step_value loadAll_triple ?_
  rw [mul_comm]
  by_cases init : word = "init_pairing" ∧ ∃ p, vs = [.pairing p]
  · obtain ⟨rfl, p, rfl⟩ := init
    obtain rfl : fInitPairing = fn := Option.some.inj found
    rw [fInitPairing_pairing, fInitPairing_pairing, lift_ok_bind]
    refine Follows.frame ?_ _
    have start : varsOf m st ≤ remains m st := by
      have le := le_oneOf (fun garbage => varsOf m st * garbageAt garbage) []
      exact (le_of_eq (mul_one _).symm).trans le
    refine Follows.step ((machineSetGroups_triple p).mono start fun _ => le_rfl) fun m' => ?_
    refine Follows.of_oneOf fun garbage => Follows.pure ?_
    have none : ¬IsValue (none : Option (Val lib)) := fun ⟨_, same, _⟩ => nomatch same
    have lost := @le_leaves _ m' (setPairingGroups p st) _ _ resultAt IsValue .none .none garbage
      (absurd · none)
    exact (le_of_eq (one_mul _).symm).trans lost
  · refine Follows.frame ?_ _
    rw [← mul_one (varsOf m st)]
    refine Follows.of_varsOf fun entries holds => ?_
    rw [mul_one]
    have keeps := builtin_keeps found (fun word p same => init ⟨word, p, same⟩) (m.state fun _ => none)
      fun key => (tableAt entries key.toList).map Prod.snd
    have same : fn vs st = _ := (congrArg (fn vs) holds.state).trans keeps
    rw [same]
    cases result : fn vs (m.state fun _ => none) with
    | error fault => exact Follows.stop fault
    | ok out =>
      obtain ⟨_ | v, st'⟩ := out
      · exact absurd (builtin_eq_none found result) init
      · refine Follows.mono (valNew_follows v ?_) (varsAt_le holds) fun _ _ => le_rfl
        refine varsOf_mono fun entries' holds' => ⟨holds'.var, ?_⟩
        have vars := congrArg State.var (holds.state.symm.trans holds'.state)
        exact congrArg (m.after st').state vars

/-- The arguments of a call are cleared. -/
theorem callAndClear_follows {word : String} {fn : Fun lib} {ps : List ℕ} {vs : List (Val lib)} {arg : ℕ}
    (found : builtin lib word = some fn) :
    Follows (each valAt ps vs * varsOf m st * pointsTo arg .items)
      (callBuiltin allocator fn ps m >>= fun out => deleteAll ps >>= fun _ => free arg >>= fun _ => pure out)
      (fn vs st) (leaves resultAt IsValue) := by
  rw [← bind_pure (fn vs st)]
  refine Follows.bind ((callBuiltin_follows found).frame _) fun out res => ?_
  rw [mul_assoc, mul_comm, mul_assoc]
  refine Follows.step (deleteAll_triple.frame _) fun _ => ?_
  rw [one_mul]
  refine Follows.step (Triple.free.frame _) fun _ => Follows.pure ?_
  rw [one_mul]

/-- The value of a variable is copied. -/
theorem copyVariable_follows {entries : List (Entry lib)} {key : List Char} {p : ℕ} {v : Val lib}
    (holds : m.Holds st entries) (there : tableAt entries key = some (p, v)) :
    Follows (varsAt entries) (valCopy allocator p >>= fun res => pure (some res, m))
      (.ok (some v, st) : Except Fault _) (leaves resultAt IsValue) := by
  obtain ⟨others, vars⟩ := varsAt_of_tableAt there
  have whole := varsAt_le holds
  rw [vars] at whole ⊢
  refine Follows.step (valCopy_triple.frame _) fun res => Follows.pure ?_
  rw [mul_assoc]
  exact (mul_le_mul_right whole (valAt res v)).trans (le_leaves_tidy (R := resultAt) (b := some v) (a := some res))

/-- A value is stored in a variable, and copied from there. -/
theorem machineAssign_follows {p : ℕ} {v : Val lib} (word : String) :
    Follows (valAt p v * varsOf m st) (machineAssign allocator p word m)
      (.ok (some v, st.put v word) : Except Fault _) (leaves resultAt IsValue) := by
  rw [mul_comm]
  refine Follows.of_varsOf fun entries holds => ?_
  rw [← varsAt_tablePut _ _ _ word.toList]
  have stored := holds.put p v word
  have there : tableAt (tablePut entries (p, v) word.toList) word.toList = some (p, v) := by
    rw [tableAt_put, Function.update_self]
  have copies := @copyVariable_follows lib allocator _ _ _ _ _ _ stored there
  have found : (m.put p word).at word = some p := by
    rw [(stored.at word).1, there]
    rfl
  simp only [machineAssign, found, (holds.at word).1]
  cases tableAt entries word.toList with
  | none =>
    rw [Option.elim_none, mul_one]
    exact copies
  | some old =>
    rw [Option.elim_some, mul_comm]
    refine Follows.step (valDelete_triple.frame _) fun _ => ?_
    rw [one_mul]
    exact copies

/-- What follows the evaluation of a tree. -/
theorem Follows.bind_result {α β : Type} {P : Assertion (ValBlock lib)}
    {prog : ValProg lib (Option ℕ × Machine lib)} {x : Except Fault (Option (Val lib) × State lib)}
    {next : Option ℕ × Machine lib → ValProg lib α}
    {f : Option (Val lib) × State lib → Except Fault β} {S : β → α → Assertion (ValBlock lib)}
    (tree : Follows P prog x (leaves resultAt IsValue))
    (missing : ∀ m st garbage,
      Follows (1 * (varsOf m st * garbageAt garbage) * F) (next (none, m)) (f (none, st)) S)
    (err : ∀ p v m st garbage, v.type = .err →
      Follows (valAt p v * (varsOf m st * garbageAt garbage) * F) (next (some p, m)) (f (some v, st)) S)
    (value : ∀ p v m st, v.type ≠ .err →
      Follows (valAt p v * (varsOf m st * F)) (next (some p, m)) (f (some v, st)) S) :
    Follows (P * F) (prog >>= next) (x >>= f) S := by
  refine Follows.bind (tree.frame F) fun (v, st) (p, m) => ?_
  refine Follows.of_leaves fun garbage lost => ?_
  cases v with
  | none =>
    cases p with
    | none => exact missing m st garbage
    | some p =>
      rw [mul_assoc]
      exact Follows.of_fact False.elim
  | some v =>
    cases p with
    | none =>
      rw [mul_assoc]
      exact Follows.of_fact False.elim
    | some p =>
      by_cases type : v.type = .err
      · exact err p v m st garbage type
      · rw [lost ⟨v, rfl, type⟩, garbageAt_nil, mul_one, mul_assoc]
        exact value p v m st type

/-- Only an identifier is assigned to. -/
theorem set_badlvalue_follows {t1 t2 : Tree} (some : t1 ≠ .null) (other : ∀ word, t1 ≠ .id word) :
    Follows (varsOf m st) (machineTree allocator (.set t1 t2) m) (executeTree (.set t1 t2) st)
      (leaves resultAt IsValue) := by
  rw [machineTree, executeTree]
  · exact newError_follows _
  · exact some
  · exact other
  · exact some
  · exact other

mutual

/-- The evaluation of a tree in memory. -/
theorem machineTree_follows : ∀ (t : Tree) (m : Machine lib) (st : State lib),
    Follows (varsOf m st) (machineTree allocator t m) (executeTree t st) (leaves resultAt IsValue)
  | .null, _, _ => by
    rw [machineTree, executeTree]
    exact Follows.stop Fault.null
  | .int word, m, st => by
    rw [machineTree, executeTree]
    exact valNew_follows _ le_rfl
  | .string word, m, st => by
    rw [machineTree, executeTree]
    exact valNew_follows _ le_rfl
  | .id word, m, st => by
    rw [machineTree, executeTree_word, ← mul_one (varsOf m st)]
    refine Follows.of_varsOf fun entries holds => ?_
    rw [(holds.at word).1, (holds.at word).2, mul_one]
    cases there : tableAt entries word.toList with
    | none => exact (newError_follows _).mono (varsAt_le holds) fun _ _ => le_rfl
    | some x => exact copyVariable_follows holds there
  | .set .null _, m, st => by
    rw [machineTree, executeTree]
    exact Follows.stop Fault.null
  | .set (.function _ _) _, _, _ => set_badlvalue_follows nofun nofun
  | .set (.int _) _, _, _ => set_badlvalue_follows nofun nofun
  | .set (.string _) _, _, _ => set_badlvalue_follows nofun nofun
  | .set (.set _ _) _, _, _ => set_badlvalue_follows nofun nofun
  | .set (.id word) t, m, st => by
    rw [machineTree, executeTree_set]
    rw [← mul_one (varsOf m st)]
    refine Follows.bind_result (machineTree_follows t m st) (fun m st garbage => ?_)
      (fun p v m st garbage err => ?_) fun p v m st value => ?_
    · exact Follows.stop Fault.null
    · rw [mul_assoc]
      refine Follows.step_value valType_triple ?_
      rw [mul_one, if_pos err, Option.elim_some, if_pos err]
      have lost : resultAt (some v) (some p) * (varsOf m st * garbageAt garbage) ≤
          leaves resultAt IsValue (some v, st) (some p, m) := le_leaves (absurd · (not_isValue err))
      exact Follows.pure lost
    · refine Follows.step_value valType_triple ?_
      rw [mul_one, if_neg value, Option.elim_some, if_neg value]
      exact machineAssign_follows word
  | .function word child, m, st => by
    rw [machineTree, executeTree_function]
    cases found : builtin lib word with
    | none => exact newError_follows _
    | some fn =>
      rw [← one_mul (varsOf m st)]
      refine Follows.step ((Triple.alloc allocator .items).frame _) fun arg => ?_
      rw [mul_comm, ← one_mul (varsOf m st)]
      have args := machineArgs_follows child [] [] m st rfl
      refine Follows.bind (args.frame (pointsTo arg .items)) fun (b, st') (a, m') => ?_
      refine Follows.of_leaves fun garbage lost => ?_
      cases b with
      | inl v =>
        cases a with
        | inr ps =>
          rw [mul_assoc]
          exact Follows.of_fact False.elim
        | inl p =>
          rw [mul_assoc, argsAt, mul_assoc]
          refine Follows.of_fact fun err => Follows.pure ?_
          have lost : resultAt (some v) (some p) * (varsOf m' st' * garbageAt (.items arg :: garbage)) ≤
              leaves resultAt IsValue (some v, st') (some p, m') :=
            le_leaves (absurd · (not_isValue err))
          rwa [garbageAt_cons, mul_comm (Garbage.at _), ← mul_assoc (varsOf m' st')] at lost
      | inr vs =>
        cases a with
        | inl p =>
          rw [mul_assoc]
          exact Follows.of_fact False.elim
        | inr ps =>
          rw [lost rfl, garbageAt_nil, mul_one]
          exact callAndClear_follows found

theorem machineArgs_follows : ∀ (child : List Tree) (ps : List ℕ) (vs : List (Val lib)) (m : Machine lib)
    (st : State lib), ps.length = vs.length →
    Follows (each valAt ps vs * varsOf m st) (machineArgs allocator child ps m) (executeArgs child vs st)
      (leaves argsAt fun out => out.isRight)
  | [], ps, vs, m, st, _ => by
    rw [machineArgs, executeArgs]
    exact Follows.pure (le_leaves_tidy (R := argsAt) (b := .inr vs) (a := .inr ps))
  | t :: child, ps, vs, m, st, lengths => by
    rw [machineArgs, executeArgs_cons, mul_comm]
    refine Follows.bind_result (machineTree_follows t m st) (fun m st garbage => ?_)
      (fun p v m st garbage err => ?_) fun p v m st value => ?_
    · exact Follows.stop Fault.null
    · rw [mul_assoc]
      refine Follows.step_value valType_triple ?_
      rw [if_pos err, Option.elim_some, if_pos err, ← mul_assoc, mul_comm]
      refine Follows.step (deleteAll_triple.frame _) fun _ => Follows.pure ?_
      have lost : argsAt (.inl v) (.inl p) * (varsOf m st * garbageAt garbage) ≤
          leaves argsAt (fun out => out.isRight) (.inl v, st) (.inl p, m) := le_leaves nofun
      rw [argsAt, fact_mul err] at lost
      rwa [one_mul]
    · refine Follows.step_value valType_triple ?_
      rw [if_neg value, Option.elim_some, if_neg value]
      have more : (ps ++ [p]).length = (vs ++ [v]).length := by simp [lengths]
      refine (machineArgs_follows child (ps ++ [p]) (vs ++ [v]) m st more).mono (le_of_eq ?_) fun _ _ => le_rfl
      rw [each_append _ lengths, each, each, mul_one]
      ac_rfl

end

end Evaluation

section Lines

variable {m : Machine lib} {st : State lib} {tokens : List Token} {fuel : ℕ} {t : Tree}

theorem garbageAt_append (garbage garbage' : List (Garbage lib)) :
    garbageAt (garbage ++ garbage') = garbageAt garbage * garbageAt garbage' := by
  rw [garbageAt, List.map_append, List.prod_append]
  rfl

/-- What is printed, in memory. -/
theorem machineReport_triple {p : ℕ} {v : Val lib} (codes : m.lastruntimeerror = st.lastruntimeerror) :
    Triple (valAt p v) (machineReport t p m)
      (fun printed => fact (printed = report t (some v) st) * valAt p v) E := by
  refine Triple.bind_value valType_triple ?_
  unfold report
  dsimp only
  rw [← codes]
  by_cases err : v.type = .err
  · rw [if_pos err, if_pos err]
    exact Triple.pure_fact rfl le_rfl
  · rw [if_neg err, if_neg err]
    cases t with
    | set => exact Triple.pure_fact rfl le_rfl
    | null | id | int | string | function =>
      exact Triple.bind_value loadVal_triple (Triple.pure_fact rfl le_rfl)

/-- A report says nothing of the memory. -/
def reportAt {α : Type} (r r' : α) : Assertion (ValBlock lib) := fact (r' = r)

theorem le_leaves_report {β : Type} {printed : β} {tidy : β → Prop} {garbage : List (Garbage lib)}
    (lost : tidy printed → garbage = []) :
    varsOf m st * garbageAt garbage ≤ leaves reportAt tidy (printed, st) (printed, m) := by
  have le : reportAt printed printed * (varsOf m st * garbageAt garbage) ≤
      leaves reportAt tidy (printed, st) (printed, m) := le_leaves lost
  rwa [reportAt, fact_mul rfl] at le

/-- A line that is read as a call of `init_pairing`. -/
def CallsInit (fuel : ℕ) (tokens : List Token) : Prop :=
  ∃ err child r, parseInput fuel ⟨tokens, err⟩ = .ok (.tree (.function "init_pairing" child), r)

/-- Lines behind which nothing is lost: they come to no runtime error, and none of them is a call
of `init_pairing`. -/
def Tidy (fuel : ℕ) (lines : List (List Token)) (reports : List (Report lib)) : Prop :=
  (∀ report ∈ reports, ∀ code, report ≠ .runtimeError code) ∧ ∀ tokens ∈ lines, ¬CallsInit fuel tokens

theorem machineLine_follows (fuel : ℕ) (tokens : List Token) (m : Machine lib) (st : State lib) :
    Follows (varsOf m st) (machineLine allocator fuel tokens m) (parseline fuel tokens st)
      (leaves reportAt fun printed => Tidy fuel [tokens] [printed]) := by
  rw [machineLine, parseline, ← mul_one (varsOf m st)]
  refine Follows.of_varsOf fun entries holds => ?_
  have codes : m.lastparseerror = st.lastparseerror := by rw [holds.state]; rfl
  rw [mul_one, codes]
  refine Follows.bind_eq (Follows.lift _ _) fun (line, r) (line', r') parsed => ?_
  refine Follows.of_fact fun same => ?_
  cases same
  have moved : varsAt entries ≤ varsOf { m with lastparseerror := r.lastparseerror }
      { st with lastparseerror := r.lastparseerror } :=
    varsAt_le ⟨holds.var, by rw [holds.state]; rfl⟩
  cases line with
  | silent | parseError =>
    refine Follows.pure (moved.trans ?_)
    rw [← mul_one (varsOf _ _), ← garbageAt_nil]
    exact le_leaves_report fun _ => rfl
  | tree t =>
    refine Follows.bind_eq ((machineTree_follows t _ _).mono moved fun _ _ => le_rfl)
      fun (v, st') (p, m') result => ?_
    rw [← mul_one (leaves _ _ _ _)]
    refine Follows.of_leaves fun garbage lost => ?_
    rw [mul_one]
    cases v with
    | none =>
      cases p with
      | some p => exact Follows.of_fact False.elim
      | none =>
        refine Follows.bind_eq (Follows.lift _ _) fun _ _ deleted => ?_
        refine Follows.of_fact fun _ => Follows.pure ?_
        rw [resultAt, one_mul]
        refine le_leaves_report fun tidy => ?_
        obtain ⟨t', _, _, rfl, -⟩ := missing_iff.mpr ⟨_, result⟩
        exact absurd ⟨_, _, _, parsed⟩ (tidy.2 tokens (by simp))
    | some v =>
      cases p with
      | none => exact Follows.of_fact False.elim
      | some p =>
        rw [mul_left_comm]
        refine Follows.of_codes fun codes => ?_
        rw [mul_left_comm]
        refine Follows.step_value (machineReport_triple codes) ?_
        refine Follows.step (valDelete_triple.frame _) fun _ => ?_
        refine Follows.bind (Follows.lift _ _) fun _ _ => Follows.of_fact fun _ => Follows.pure ?_
        rw [one_mul]
        refine le_leaves_report fun tidy => lost ⟨v, rfl, fun err => ?_⟩
        exact tidy.1 _ (List.mem_singleton_self _) st'.lastruntimeerror (if_pos err)

theorem machineLines_follows (fuel : ℕ) (lines : List (List Token)) (m : Machine lib) (st : State lib) :
    Follows (varsOf m st) (machineLines allocator fuel lines m) (runLines fuel lines st)
      (leaves reportAt (Tidy fuel lines)) := by
  induction lines generalizing m st with
  | nil =>
    rw [machineLines, runLines, ← one_mul (varsOf m st)]
    refine Follows.pure ?_
    rw [one_mul, ← mul_one (varsOf m st), ← garbageAt_nil]
    exact le_leaves_report fun _ => rfl
  | cons tokens lines ih =>
    rw [machineLines, runLines]
    refine Follows.bind (machineLine_follows fuel tokens m st) fun (printed', st) (printed, m) => ?_
    rw [← mul_one (leaves _ _ _ _)]
    refine Follows.of_leaves fun garbage lost => ?_
    rw [mul_one]
    refine Follows.of_fact fun same => ?_
    subst same
    refine Follows.bind ((ih m st).frame _) fun (reports', st) (reports, m) => ?_
    refine Follows.of_leaves fun garbage' lost' => ?_
    rw [mul_assoc]
    refine Follows.of_fact fun same => ?_
    subst same
    refine Follows.pure ?_
    rw [mul_assoc, ← garbageAt_append]
    refine le_leaves_report fun tidy => ?_
    have rest : Tidy fuel lines reports :=
      ⟨fun r member => tidy.1 r (List.mem_cons_of_mem _ member),
        fun s member => tidy.2 s (List.mem_cons_of_mem _ member)⟩
    have first : Tidy fuel [tokens] [printed] := by
      constructor
      · rintro r member
        rw [List.mem_singleton] at member
        exact tidy.1 r (by simp [member])
      · rintro s member
        rw [List.mem_singleton] at member
        exact tidy.2 s (by simp [member])
    rw [lost first, lost' rest]
    rfl

/-- What is left behind a run. -/
structure Cleared (fuel : ℕ) (lines : List (List Token)) (reports : List (Report lib)) (m : Machine lib)
    (st : State lib) (garbage : List (Garbage lib)) (h : Heap (ValBlock lib)) : Prop where
  owned : (varsOf m st * garbageAt garbage) h
  lost : Tidy fuel lines reports → garbage = []

/-- A run in memory, from the variables of a state and whatever addresses the allocator finds,
prints what the run of values prints or stops where that stops, and never comes to a block that is
not live. Behind it the live blocks are those of the variables and those that were lost, and there
are none of the latter if no line came to a runtime error or is a call of `init_pairing`. -/
theorem machineLines_eq (allocator : Allocator (ValBlock lib)) (fuel : ℕ) (lines : List (List Token))
    (m : Machine lib) (st : State lib) (h : Heap (ValBlock lib)) (owned : varsOf m st h) :
    (∀ fault, runLines fuel lines st = .error fault →
      machineLines allocator fuel lines m h = .error (.other fault)) ∧
    ∀ reports st', runLines fuel lines st = .ok (reports, st') →
      ∃ m' h' garbage, machineLines allocator fuel lines m h = .ok ((reports, m'), h') ∧
        Cleared fuel lines reports m' st' garbage h' := by
  have holds : (varsOf m st * 1) h := by rwa [mul_one]
  have whole : Follows (varsOf m st) (machineLines allocator fuel lines m) (runLines fuel lines st)
      (leaves reportAt (Tidy fuel lines)) := machineLines_follows fuel lines m st
  have follows := whole 1 h holds
  constructor
  · intro fault result
    rw [result] at follows
    exact follows
  · intro reports st' result
    rw [result] at follows
    obtain ⟨⟨reports', m'⟩, h', run, holds⟩ := follows
    rw [mul_one] at holds
    obtain ⟨garbage, holds⟩ := holds
    obtain ⟨lost, holds⟩ := fact_mul_apply.1 holds
    obtain ⟨same, holds⟩ := fact_mul_apply.1 holds
    obtain rfl : reports' = reports := same
    exact ⟨m', h', garbage, run, holds, lost⟩

/-- The integers as a library. -/
private def integerLibrary : Library where
  World := Unit
  Field := Unit
  Element := ℤ
  Pairing := Unit
  sameField := inferInstance
  Z := ()
  field _ := ()
  order _ := 0
  G1 := id
  G2 := id
  GT := id
  Zr := id
  setZ := id
  dataZ := id
  toMpz z w := some (z, w)
  setMpz _ z w := some (z, w)
  setStr _ _ _ := none
  random _ _ := none
  invert _ _ := none
  neg z w := some (-z, w)
  add z z' w := some (z + z', w)
  sub z z' w := some (z - z', w)
  mul z z' w := some (z * z', w)
  div _ _ _ := none
  powMpz _ _ _ := none
  pairingApply _ _ _ _ := none
  fieldInitFp _ _ := none
  genA _ _ _ := none
  bruteForceDlog _ _ _ := none
  pollardRho _ _ _ _ := none
  indexCalculusDlog _ _ _ _ := none

/-- Two lines: `x = 3` and `-x`. -/
theorem machineLines_eq_integers : ∃ m st h garbage,
    machineLines (bumpAllocator (ValBlock integerLibrary)) 20
        [[.id "x", .set, .int "3"], [.sub, .id "x"]] ⟨none, none, [], (), ()⟩ ∅ =
      .ok (([.silent, .value (.element (-3 : ℤ))], m), h) ∧
    Cleared 20 [[.id "x", .set, .int "3"], [.sub, .id "x"]] [.silent, .value (.element (-3 : ℤ))] m st
      garbage h := by
  have owned : varsOf (⟨none, none, [], (), ()⟩ : Machine integerLibrary)
      ⟨none, none, fun _ => none, (), ()⟩ ∅ := by
    have holds : Machine.Holds (⟨none, none, [], (), ()⟩ : Machine integerLibrary)
        ⟨none, none, fun _ => none, (), ()⟩ [] := ⟨rfl, rfl⟩
    exact varsAt_le holds ∅ rfl
  obtain ⟨-, ends⟩ := machineLines_eq (bumpAllocator (ValBlock integerLibrary)) 20
    [[.id "x", .set, .int "3"], [.sub, .id "x"]] _ _ ∅ owned
  obtain ⟨m, h, garbage, run, cleared⟩ := ends [.silent, .value (.element (-3 : ℤ))] _ rfl
  exact ⟨m, _, h, garbage, run, cleared⟩

end Lines

end Pbc.Calc
