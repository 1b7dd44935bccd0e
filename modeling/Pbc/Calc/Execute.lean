import Pbc.Calc.Values

/-!
# The evaluation of a line

The trees of a line are evaluated from the leaves up, until an argument is an error. The
result of a function may be the null pointer; where it is an argument or is assigned, the
evaluation follows it.
-/

open Pbc.Misc

namespace Pbc.Calc

variable {lib : Library}

/-- The integer that the digits of a token stand for. -/
def decimal (word : String) : ℤ :=
  word.toList.foldl (fun z cp => z * 10 + (cp.toNat - '0'.toNat : ℤ)) 0

mutual

/-- `execute_tree`. -/
def executeTree : Tree → State lib → Except Fault (Option (Val lib) × State lib)
  | .null, _ => .error .null
  | .id word, st =>
      match st.var word with
      | none => .ok (newruntimeerror .varnotfound st)
      | some v => .ok (some v, st)
  | .set t1 t2, st =>
      match t1 with
      | .null => .error .null
      | .id word => do
          let (v, st) ← executeTree t2 st
          match v with
          | none => .error .null
          | some v =>
              if v.type = .err then return (some v, st)
              return (some v, st.put v word)
      | _ => .ok (newruntimeerror .badlvalue st)
  | .function word child, st =>
      match builtin lib word with
      | none => .ok (newruntimeerror .funnotfound st)
      | some fn => do
          let (res, st) ← executeArgs child [] st
          match res with
          | .inl v => return (some v, st)
          | .inr arg => fn arg st
  | .int word, st => .ok (some (.element (lib.setZ (decimal word))), st)
  | .string word, st => .ok (some (.string word), st)

/-- The loop of `execute_tree` over the arguments of a function: the first error, or the values
of all. -/
def executeArgs :
    List Tree → List (Val lib) → State lib → Except Fault ((Val lib ⊕ List (Val lib)) × State lib)
  | [], arg, st => .ok (.inr arg, st)
  | t :: child, arg, st => do
      let (v, st) ← executeTree t st
      match v with
      | none => .error .null
      | some v =>
          if v.type = .err then return (.inl v, st)
          executeArgs child (arg ++ [v]) st

end

/-- What a line ends in. -/
inductive Report (lib : Library) where
  | silent
  | value (v : Val lib)
  | runtimeError (code : Option RuntimeError)
  | parseError (code : Option ParseError)

/-- What is printed for the value of a tree. -/
def report (t : Tree) (v : Option (Val lib)) (st : State lib) : Report lib :=
  match v with
  | none => .silent
  | some v =>
      if v.type = .err then .runtimeError st.lastruntimeerror
      else match t with
        | .set _ _ => .silent
        | _ => .value v

/-- `parseline`. -/
def parseline (fuel : ℕ) (tokens : List Token) (st : State lib) :
    Except Fault (Report lib × State lib) := do
  let (line, r) ← parseInput fuel ⟨tokens, st.lastparseerror⟩
  let st := { st with lastparseerror := r.lastparseerror }
  match line with
  | .silent => return (.silent, st)
  | .parseError code => return (.parseError code, st)
  | .tree t =>
      let (v, st) ← executeTree t st
      treeDelete t
      return (report t v st, st)

/-- The loop of `main`: what the lines end in. -/
def runLines (fuel : ℕ) : List (List Token) → State lib → Except Fault (List (Report lib) × State lib)
  | [], st => .ok ([], st)
  | tokens :: lines, st => do
      let (report, st) ← parseline fuel tokens st
      let (reports, st) ← runLines fuel lines st
      return (report :: reports, st)

end Pbc.Calc
