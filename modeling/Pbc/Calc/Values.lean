import Pbc.Calc.Parse
import Pbc.Gmp.Mpz
import Mathlib.Logic.Function.Basic

/-!
# The values and functions of the calculator

The functions work on values that hold data of the library. The library is a parameter: its
operations work on a world (its memory and random source) and need not return.
-/

open Pbc.Gmp Pbc.Misc

namespace Pbc.Calc

/-- The operations of the library that the calculator calls. Fields are compared as pointers. -/
structure Library where
  World : Type
  Field : Type
  Element : Type
  Pairing : Type
  sameField : DecidableEq Field
  Z : Field
  field : Element → Field
  order : Field → ℤ
  G1 : Pairing → Field
  G2 : Pairing → Field
  GT : Pairing → Field
  Zr : Pairing → Field
  setZ : ℤ → Element
  dataZ : Element → ℤ
  toMpz : Element → World → Option (ℤ × World)
  setMpz : Field → ℤ → World → Option (Element × World)
  setStr : Field → String → World → Option (Element × World)
  random : Field → World → Option (Element × World)
  invert : Element → World → Option (Element × World)
  neg : Element → World → Option (Element × World)
  add : Element → Element → World → Option (Element × World)
  sub : Element → Element → World → Option (Element × World)
  mul : Element → Element → World → Option (Element × World)
  div : Element → Element → World → Option (Element × World)
  powMpz : Element → ℤ → World → Option (Element × World)
  pairingApply : Pairing → Element → Element → World → Option (Element × World)
  fieldInitFp : ℤ → World → Option (Field × World)
  genA : ℕ → ℕ → World → Option (Pairing × World)
  bruteForceDlog : Element → Element → World → Option (Element × World)
  pollardRho : Field → Element → Element → World → Option (Element × World)
  indexCalculusDlog : ℤ → ℤ → ℤ → World → Option (ℤ × World)

instance Library.instDecidableEqField (lib : Library) : DecidableEq lib.Field := lib.sameField

/-- The codes of runtime errors. -/
inductive RuntimeError where
  | varnotfound
  | badlvalue
  | funnotfound
  | unimplemented
  | badargcount
  | badarg
  | fieldmismatch
  deriving DecidableEq

/-- The types of values. -/
inductive ValType where
  | element
  | pairing
  | field
  | string
  | err
  deriving DecidableEq

/-- `struct val_s`. A value that may be the null pointer is an `Option` of it. -/
inductive Val (lib : Library) where
  | element (data : lib.Element)
  | pairing (data : lib.Pairing)
  | field (data : lib.Field)
  | string (data : String)
  | err (i : RuntimeError)

/-- The state of the calculator between lines. -/
structure State (lib : Library) where
  lastparseerror : Option ParseError
  lastruntimeerror : Option RuntimeError
  var : String → Option (Val lib)
  currentPairing : lib.Pairing
  world : lib.World

variable {lib : Library}

/-- The type of a value. -/
def Val.type : Val lib → ValType
  | .element _ => .element
  | .pairing _ => .pairing
  | .field _ => .field
  | .string _ => .string
  | .err _ => .err

section Data

/-- The element that a value points to. -/
def Val.elementData : Val lib → Except Fault lib.Element
  | .element data => .ok data
  | _ => .error .cast

/-- The pairing that a value points to. -/
def Val.pairingData : Val lib → Except Fault lib.Pairing
  | .pairing data => .ok data
  | _ => .error .cast

/-- The field that a value points to. -/
def Val.fieldData : Val lib → Except Fault lib.Field
  | .field data => .ok data
  | _ => .error .cast

/-- The text that a value points to. -/
def Val.stringData : Val lib → Except Fault String
  | .string data => .ok data
  | _ => .error .cast

/-- `arg->item[i]`. -/
def item (arg : List (Val lib)) (i : ℕ) : Except Fault (Val lib) :=
  match arg[i]? with
  | some v => .ok v
  | none => .error .slot

/-- A call of the library. -/
def call {α : Type} (operation : lib.World → Option (α × lib.World)) (st : State lib) :
    Except Fault (α × State lib) :=
  match operation st.world with
  | some (a, world) => .ok (a, { st with world })
  | none => .error .library

/-- `newruntimeerror`. -/
def newruntimeerror (i : RuntimeError) (st : State lib) : Option (Val lib) × State lib :=
  (some (.err i), { st with lastruntimeerror := some i })

/-- `symtab_put` on the table of variables. -/
def State.put (st : State lib) (v : Val lib) (key : String) : State lib :=
  { st with var := Function.update st.var key (some v) }

/-- `check_arg`: the error, if there is one. -/
def checkArg (arg : List (Val lib)) (types : List ValType) : Option RuntimeError :=
  if arg.length ≠ types.length then some .badargcount
  else if arg.map Val.type ≠ types then some .badarg
  else none

end Data

/-- What the functions of the calculator are: `fun`. -/
abbrev Fun (lib : Library) : Type :=
  List (Val lib) → State lib → Except Fault (Option (Val lib) × State lib)

section Functions

/-- A function that starts with `check_arg`. -/
def checked (types : List ValType) (body : Fun lib) : Fun lib := fun arg st =>
  match checkArg arg types with
  | some i => .ok (newruntimeerror i st)
  | none => body arg st

/-- A call whose element is the result. -/
def callElement (operation : lib.World → Option (lib.Element × lib.World)) (st : State lib) :
    Except Fault (Option (Val lib) × State lib) := do
  let (e, st) ← call operation st
  return (some (.element e), st)

/-- `f_pairing_get_group`. -/
def fPairingGetGroup (getGroup : lib.Pairing → lib.Field) : Fun lib :=
  checked [.pairing] fun arg st => do
    let a0 ← item arg 0
    let pairing ← a0.pairingData
    return (some (.field (getGroup pairing)), st)

/-- `f_pairing_G1`. -/
def fPairingG1 : Fun lib := fPairingGetGroup lib.G1

/-- `f_pairing_G2`. -/
def fPairingG2 : Fun lib := fPairingGetGroup lib.G2

/-- `f_pairing_GT`. -/
def fPairingGT : Fun lib := fPairingGetGroup lib.GT

/-- `f_pairing_Zr`. -/
def fPairingZr : Fun lib := fPairingGetGroup lib.Zr

/-- `f_random`. -/
def fRandom : Fun lib := checked [.field] fun arg st => do
  let a0 ← item arg 0
  let f ← a0.fieldData
  callElement (lib.random f) st

/-- `f_order`. -/
def fOrder : Fun lib := checked [.field] fun arg st => do
  let a0 ← item arg 0
  let f ← a0.fieldData
  return (some (.element (lib.setZ (lib.order f))), st)

/-- `f_unary`. -/
def fUnary (unary : lib.Element → lib.World → Option (lib.Element × lib.World)) : Fun lib :=
  checked [.element] fun arg st => do
    let a0 ← item arg 0
    let e0 ← a0.elementData
    callElement (unary e0) st

/-- `f_bin_op`. -/
def fBinOp (binop : lib.Element → lib.Element → lib.World → Option (lib.Element × lib.World)) :
    Fun lib := checked [.element, .element] fun arg st => do
  let a0 ← item arg 0
  let a1 ← item arg 1
  let e0 ← a0.elementData
  let e1 ← a1.elementData
  if lib.field e0 ≠ lib.field e1 then return newruntimeerror .fieldmismatch st
  callElement (binop e0 e1) st

/-- `f_add`. -/
def fAdd : Fun lib := fBinOp lib.add

/-- `f_mul`. -/
def fMul : Fun lib := fBinOp lib.mul

/-- `f_sub`. -/
def fSub : Fun lib := fBinOp lib.sub

/-- `f_div`. -/
def fDiv : Fun lib := fBinOp lib.div

/-- `f_inv`. -/
def fInv : Fun lib := fUnary lib.invert

/-- `f_neg`. -/
def fNeg : Fun lib := fUnary lib.neg

/-- `f_pow`. -/
def fPow : Fun lib := checked [.element, .element] fun arg st => do
  let a0 ← item arg 0
  let a1 ← item arg 1
  let e0 ← a0.elementData
  let e1 ← a1.elementData
  let (z, st) ← call (lib.toMpz e1) st
  callElement (lib.powMpz e0 z) st

/-- The end of `f_pairing`, with the pairing `p`. -/
def fPairingApply (p : lib.Pairing) (a0 a1 : Val lib) (st : State lib) :
    Except Fault (Option (Val lib) × State lib) := do
  let e0 ← a0.elementData
  let e1 ← a1.elementData
  if lib.field e0 ≠ lib.G1 p then return newruntimeerror .badarg st
  if lib.field e1 ≠ lib.G2 p then return newruntimeerror .badarg st
  callElement (lib.pairingApply p e0 e1) st

/-- `f_pairing`. -/
def fPairing : Fun lib := fun arg st =>
  if arg.length < 2 then .ok (newruntimeerror .badargcount st)
  else if arg.length > 3 then .ok (newruntimeerror .badargcount st)
  else do
    let a0 ← item arg 0
    let a1 ← item arg 1
    -- The third argument is read whether it is there or not.
    let a2 ← item arg 2
    if a0.type ≠ .element then return newruntimeerror .badarg st
    if a1.type ≠ .element then return newruntimeerror .badarg st
    if arg.length = 3 then
      if a2.type ≠ .pairing then return newruntimeerror .badarg st
      let p ← a2.pairingData
      fPairingApply p a0 a1 st
    else fPairingApply st.currentPairing a0 a1 st

/-- `set_pairing_groups`. -/
def setPairingGroups (p : lib.Pairing) (st : State lib) : State lib :=
  let st := st.put (.field (lib.G1 p)) "G1"
  let st := st.put (.field (lib.G2 p)) "G2"
  let st := st.put (.field (lib.GT p)) "GT"
  let st := st.put (.field (lib.Zr p)) "Zr"
  let st := st.put (.pairing p) "current_pairing"
  { st with currentPairing := p }

/-- `f_init_pairing`. -/
def fInitPairing : Fun lib := checked [.pairing] fun arg st => do
  let a0 ← item arg 0
  let p ← a0.pairingData
  return (none, setPairingGroups p st)

/-- `f_nextprime`. -/
def fNextprime : Fun lib := checked [.element] fun arg st => do
  let a0 ← item arg 0
  let e0 ← a0.elementData
  if lib.field e0 ≠ lib.Z then return newruntimeerror .badarg st
  let (p, st) ← call (lib.toMpz e0) st
  return (some (.element (lib.setZ (mpzNextprime p))), st)

/-- `f_brute_force_dlog`. -/
def fBruteForceDlog : Fun lib := checked [.element, .element] fun arg st => do
  let a0 ← item arg 0
  let a1 ← item arg 1
  let e0 ← a0.elementData
  let e1 ← a1.elementData
  if lib.field e0 ≠ lib.field e1 then return newruntimeerror .badarg st
  callElement (lib.bruteForceDlog e0 e1) st

/-- `f_pollard_rho`. -/
def fPollardRho : Fun lib := checked [.element, .element, .field] fun arg st => do
  let a0 ← item arg 0
  let a1 ← item arg 1
  let a2 ← item arg 2
  let e0 ← a0.elementData
  let e1 ← a1.elementData
  if lib.field e0 ≠ lib.field e1 then return newruntimeerror .badarg st
  let f ← a2.fieldData
  callElement (lib.pollardRho f e0 e1) st

/-- `f_zz`. -/
def fZz : Fun lib := checked [.element] fun arg st => do
  let a0 ← item arg 0
  let e0 ← a0.elementData
  if lib.field e0 ≠ lib.Z then return newruntimeerror .badarg st
  let (p, st) ← call (lib.toMpz e0) st
  let (f, st) ← call (lib.fieldInitFp p) st
  return (some (.field f), st)

/-- `f_gen_A`. -/
def fGenA : Fun lib := checked [.element, .element] fun arg st => do
  let a0 ← item arg 0
  let a1 ← item arg 1
  let e0 ← a0.elementData
  if lib.field e0 ≠ lib.Z then return newruntimeerror .badarg st
  let e1 ← a1.elementData
  if lib.field e1 ≠ lib.Z then return newruntimeerror .badarg st
  let (rbits, st) ← call (lib.toMpz e0) st
  let (qbits, st) ← call (lib.toMpz e1) st
  let (p, st) ← call (lib.genA (mpzGetUi rbits) (mpzGetUi qbits)) st
  return (some (.pairing p), st)

/-- `f_fromZZ`. -/
def fFromZZ : Fun lib := checked [.element, .field] fun arg st => do
  let a0 ← item arg 0
  let a1 ← item arg 1
  let e ← a0.elementData
  let f ← a1.fieldData
  if lib.field e ≠ lib.Z then return newruntimeerror .badarg st
  callElement (lib.setMpz f (lib.dataZ e)) st

/-- `f_fromstr`. -/
def fFromstr : Fun lib := checked [.string, .field] fun arg st => do
  let a0 ← item arg 0
  let a1 ← item arg 1
  let f ← a1.fieldData
  let s ← a0.stringData
  callElement (lib.setStr f s) st

/-- `f_index_calculus`. -/
def fIndexCalculus : Fun lib := checked [.element, .element] fun arg st => do
  let a0 ← item arg 0
  let a1 ← item arg 1
  let e0 ← a0.elementData
  let e1 ← a1.elementData
  let q1 := lib.order (lib.field e0) - 1
  let (g, st) ← call (lib.toMpz e0) st
  let (h, st) ← call (lib.toMpz e1) st
  let (x, st) ← call (lib.indexCalculusDlog g h q1) st
  return (some (.element (lib.setZ x)), st)

/-- The table of the built-in functions. -/
def builtin (lib : Library) : String → Option (Fun lib)
  | "init_pairing" => some fInitPairing
  | "get_G1" => some fPairingG1
  | "get_G2" => some fPairingG2
  | "get_GT" => some fPairingGT
  | "get_Zr" => some fPairingZr
  | "random" => some fRandom
  | "rand" => some fRandom
  | "rnd" => some fRandom
  | "order" => some fOrder
  | "ord" => some fOrder
  | "neg" => some fNeg
  | "sub" => some fSub
  | "add" => some fAdd
  | "pow" => some fPow
  | "mul" => some fMul
  | "inv" => some fInv
  | "invert" => some fInv
  | "div" => some fDiv
  | "pairing" => some fPairing
  | "nextprime" => some fNextprime
  | "brute_force_dlog" => some fBruteForceDlog
  | "pollard_rho" => some fPollardRho
  | "index_calculus" => some fIndexCalculus
  | "ZZ" => some fZz
  | "gen_A" => some fGenA
  | "fromZZ" => some fFromZZ
  | "fromstr" => some fFromstr
  | _ => none

end Functions

end Pbc.Calc
