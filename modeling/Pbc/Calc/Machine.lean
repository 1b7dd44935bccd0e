import Pbc.Calc.Execute
import Pbc.Misc.SymtabStore

/-!
# The values of the calculator in memory

The evaluation of a line with the blocks that it allocates and frees: values, the elements and
texts that they point to, and the arrays of arguments. A value that is read from a variable is
copied, and the caller of a function frees its arguments.
-/

open Pbc.Misc

namespace Pbc.Calc

variable {lib : Library}

section Blocks

/-- `struct val_s` with its pointer; the data of pairings and fields are never freed. -/
inductive PtrVal (lib : Library) where
  | element (data : ℕ)
  | pairing (data : lib.Pairing)
  | field (data : lib.Field)
  | string (data : ℕ)
  | err (i : RuntimeError)

/-- The blocks of the evaluation; that of an array holds pointers that nothing else holds. -/
inductive ValBlock (lib : Library) where
  | val (v : PtrVal lib)
  | element (e : lib.Element)
  | text (s : String)
  | items

/-- The programs of the evaluation. -/
abbrev ValProg (lib : Library) (α : Type) := HeapProg (ValBlock lib) Fault α

/-- The state of the calculator, with a table of pointers for the variables. -/
structure Machine (lib : Library) where
  lastparseerror : Option ParseError
  lastruntimeerror : Option RuntimeError
  var : List (List Char × ℕ)
  currentPairing : lib.Pairing
  world : lib.World

/-- The state with some values for the variables. -/
def Machine.state (m : Machine lib) (var : String → Option (Val lib)) : State lib where
  lastparseerror := m.lastparseerror
  lastruntimeerror := m.lastruntimeerror
  var := var
  currentPairing := m.currentPairing
  world := m.world

/-- The machine behind a function that does not change variables. -/
def Machine.after (m : Machine lib) (st : State lib) : Machine lib where
  lastparseerror := st.lastparseerror
  lastruntimeerror := st.lastruntimeerror
  var := m.var
  currentPairing := st.currentPairing
  world := st.world

/-- `symtab_put` on the variables. -/
def Machine.put (m : Machine lib) (p : ℕ) (key : String) : Machine lib :=
  { m with var := tablePut m.var p key.toList }

/-- `symtab_at` on the variables. -/
def Machine.at (m : Machine lib) (key : String) : Option ℕ := tableAt m.var key.toList

end Blocks

section Values

/-- A fault of the evaluation itself. -/
def stop {α : Type} (fault : Fault) : ValProg lib α := lift (.error fault)

/-- A value with its data. -/
def loadVal (p : ℕ) : ValProg lib (Val lib) := do
  match ← load p with
  | .val (.element d) =>
    match ← load d with
    | .element e => return .element e
    | _ => stop .cast
  | .val (.string d) =>
    match ← load d with
    | .text s => return .string s
    | _ => stop .cast
  | .val (.pairing data) => return .pairing data
  | .val (.field data) => return .field data
  | .val (.err i) => return .err i
  | _ => stop .cast

/-- `v->type`. -/
def valType (p : ℕ) : ValProg lib ValType := do
  match ← load p with
  | .val (.element _) => return .element
  | .val (.string _) => return .string
  | .val (.pairing _) => return .pairing
  | .val (.field _) => return .field
  | .val (.err _) => return .err
  | _ => stop .cast

variable (allocator : Allocator (ValBlock lib))

/-- `val_new` of a value, behind the allocation of its data. -/
def valNew (v : Val lib) : ValProg lib ℕ := do
  match v with
  | .element e =>
    let d ← alloc allocator (.element e)
    alloc allocator (.val (.element d))
  | .string s =>
    let d ← alloc allocator (.text s)
    alloc allocator (.val (.string d))
  | .pairing data => alloc allocator (.val (.pairing data))
  | .field data => alloc allocator (.val (.field data))
  | .err i => alloc allocator (.val (.err i))

/-- `val_copy`: new data for an element and for a text. -/
def valCopy (p : ℕ) : ValProg lib ℕ := do
  let v ← loadVal p
  valNew allocator v

/-- `val_delete`. -/
def valDelete (p : ℕ) : ValProg lib Unit := do
  match ← load p with
  | .val (.element d) =>
    free d
    free p
  | .val (.string d) =>
    free d
    free p
  | .val _ => free p
  | _ => stop .cast

/-- The loop that deletes the values of an array. -/
def deleteAll : List ℕ → ValProg lib Unit
  | [] => return ()
  | p :: ps => do
    valDelete p
    deleteAll ps

/-- The loop that reads the values of an array. -/
def loadAll : List ℕ → ValProg lib (List (Val lib))
  | [] => return []
  | p :: ps => do
    let v ← loadVal p
    let vs ← loadAll ps
    return v :: vs

/-- `newruntimeerror`. -/
def newError (i : RuntimeError) (m : Machine lib) : ValProg lib (Option ℕ × Machine lib) := do
  let p ← valNew allocator (.err i)
  return (some p, { m with lastruntimeerror := some i })

/-- A variable of `set_pairing_groups`; what it was before is not deleted. -/
def putNew (v : Val lib) (key : String) (m : Machine lib) : ValProg lib (Machine lib) := do
  let p ← valNew allocator v
  return m.put p key

/-- `set_pairing_groups`. -/
def machineSetGroups (p : lib.Pairing) (m : Machine lib) : ValProg lib (Machine lib) := do
  let m ← putNew allocator (.field (lib.G1 p)) "G1" m
  let m ← putNew allocator (.field (lib.G2 p)) "G2" m
  let m ← putNew allocator (.field (lib.GT p)) "GT" m
  let m ← putNew allocator (.field (lib.Zr p)) "Zr" m
  let m ← putNew allocator (.pairing p) "current_pairing" m
  return { m with currentPairing := p }

/-- A call of a built-in function. `init_pairing` of a pairing is the only one that gives no value,
and the only one that changes variables. -/
def callBuiltin (fn : Fun lib) (args : List ℕ) (m : Machine lib) :
    ValProg lib (Option ℕ × Machine lib) := do
  let vs ← loadAll args
  let (v, st) ← lift (fn vs (m.state fun _ => none))
  match v, vs with
  | some v, _ =>
    let p ← valNew allocator v
    return (some p, m.after st)
  | none, [.pairing p] =>
    let m ← machineSetGroups allocator p m
    return (none, m)
  | none, _ => stop .null

end Values

section Evaluation

variable (allocator : Allocator (ValBlock lib))

/-- The end of an assignment, which clears what is there first. -/
def machineAssign (v : ℕ) (word : String) (m : Machine lib) :
    ValProg lib (Option ℕ × Machine lib) := do
  match m.at word with
  | some res => valDelete res
  | none => pure ()
  let m := m.put v word
  match m.at word with
  | none => stop .null
  | some v =>
    let res ← valCopy allocator v
    return (some res, m)

mutual

/-- `execute_tree`. -/
def machineTree : Tree → Machine lib → ValProg lib (Option ℕ × Machine lib)
  | .null, _ => stop .null
  | .id word, m =>
    match m.at word with
    | none => newError allocator .varnotfound m
    | some v => do
      let res ← valCopy allocator v
      return (some res, m)
  | .set t1 t2, m =>
    match t1 with
    | .null => stop .null
    | .id word => do
      let (v, m) ← machineTree t2 m
      match v with
      | none => stop .null
      | some v =>
        let type ← valType v
        if type = .err then return (some v, m)
        machineAssign allocator v word m
    | _ => newError allocator .badlvalue m
  | .function word child, m =>
    match builtin lib word with
    | none => newError allocator .funnotfound m
    | some fn => do
      let arg ← alloc allocator .items
      let (res, m) ← machineArgs child [] m
      match res with
      -- The array of the arguments is not cleared here.
      | .inl v => return (some v, m)
      | .inr args =>
        let (res, m) ← callBuiltin allocator fn args m
        deleteAll args
        free arg
        return (res, m)
  | .int word, m => do
    let v ← valNew allocator (.element (lib.setZ (decimal word)))
    return (some v, m)
  | .string word, m => do
    let v ← valNew allocator (.string word)
    return (some v, m)

/-- The loop of `execute_tree` over the arguments of a function: those in front of an error are
deleted. -/
def machineArgs : List Tree → List ℕ → Machine lib → ValProg lib ((ℕ ⊕ List ℕ) × Machine lib)
  | [], args, m => return (.inr args, m)
  | t :: child, args, m => do
    let (v, m) ← machineTree t m
    match v with
    | none => stop .null
    | some v =>
      let type ← valType v
      if type = .err then
        deleteAll args
        return (.inl v, m)
      machineArgs child (args ++ [v]) m

end

/-- What is printed for a value. -/
def machineReport (t : Tree) (v : ℕ) (m : Machine lib) : ValProg lib (Report lib) := do
  let type ← valType v
  if type = .err then return .runtimeError m.lastruntimeerror
  match t with
  | .set _ _ => return .silent
  | _ =>
    let v ← loadVal v
    return .value v

/-- `parseline`. -/
def machineLine (fuel : ℕ) (tokens : List Token) (m : Machine lib) :
    ValProg lib (Report lib × Machine lib) := do
  let (line, r) ← lift (parseInput fuel ⟨tokens, m.lastparseerror⟩)
  let m := { m with lastparseerror := r.lastparseerror }
  match line with
  | .silent => return (.silent, m)
  | .parseError code => return (.parseError code, m)
  | .tree t =>
    let (v, m) ← machineTree allocator t m
    match v with
    | none =>
      lift (treeDelete t)
      return (.silent, m)
    | some v =>
      let printed ← machineReport t v m
      valDelete v
      lift (treeDelete t)
      return (printed, m)

/-- The loop of `main`. -/
def machineLines (fuel : ℕ) :
    List (List Token) → Machine lib → ValProg lib (List (Report lib) × Machine lib)
  | [], m => return ([], m)
  | tokens :: lines, m => do
    let (printed, m) ← machineLine allocator fuel tokens m
    let (reports, m) ← machineLines fuel lines m
    return (printed :: reports, m)

end Evaluation

end Pbc.Calc
