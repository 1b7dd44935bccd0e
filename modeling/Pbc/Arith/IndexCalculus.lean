import Pbc.Arith.NaiveFp
import Pbc.Arith.TrialDivide

/-!
# Discrete logarithms by index calculus

`index_calculus_step1` looks for smooth powers of a generator and solves for the logarithms of
the first primes modulo each factor of `q - 1`, `index_calculus_step2` finds a smooth multiple of
an element, and `index_calculus_dlog` puts these together. A search takes fuel, and what
`mpz_invert` leaves where there is no inverse is a parameter.
-/

open Pbc.Gmp

namespace Pbc.Arith

section Relations

/-- A cell of a relation: an index into the prime table and a multiplicity. -/
structure Cell where
  ind : ℕ
  data : ℤ

/-- The entries of the prime table, from a prime on. They are unsigned integers of 32 bits. -/
def primeEntries : ℕ → ℤ → List ℤ
  | 0, _ => []
  | r + 1, z => ((mpzGetUi z % 2 ^ 32 : ℕ) : ℤ) :: primeEntries r (mpzNextprime z)

/-- The prime table of the first step. -/
def primeTable (r : ℕ) : List ℤ := primeEntries r 2

/-- Divisions by a part of the prime table go on until nothing is left to divide. -/
inductive Divided where
  | found (rel : List Cell)
  | rest (z1 : ℤ) (rel : List Cell)

/-- What follows unless nothing is left to divide. -/
def Divided.andThen : Divided → (ℤ → List Cell → Option Divided) → Option Divided
  | .found rel, _ => some (.found rel)
  | .rest z1 rel, next => next z1 rel

/-- The divisions by consecutive primes of the table, the first of index `i`. -/
def dividePrimes : List ℤ → ℕ → ℤ → List Cell → Option Divided
  | [], _, z1, rel => some (.rest z1 rel)
  | p :: prime, i, z1, rel =>
    (divideWhile p z1).bind fun left =>
      if left.2 = 0 then dividePrimes prime (i + 1) left.1 rel
      else if left.1 = 1 then some (.found (rel ++ [⟨i, left.2⟩]))
      else dividePrimes prime (i + 1) left.1 (rel ++ [⟨i, left.2⟩])

/-- The primes of a bundle: twenty entries of the table, after the first ten. -/
def bundlePrimes (prime : List ℤ) (i : ℕ) : List ℤ := (prime.drop (10 + 20 * i)).take 20

/-- The product of the primes of a bundle. -/
def bundle (prime : List ℤ) (i : ℕ) : ℤ := (bundlePrimes prime i).foldl (· * ·) 1

/-- The divisions by the bundles from index `i` on that have a factor in common. -/
def divideBundles (prime : List ℤ) : ℕ → ℕ → ℤ → List Cell → Option Divided
  | 0, _, z1, rel => some (.rest z1 rel)
  | count + 1, i, z1, rel =>
    if Int.gcd (bundle prime i) z1 = 1 then divideBundles prime count (i + 1) z1 rel
    else
      (dividePrimes (bundlePrimes prime i) (10 + 20 * i) z1 rel).bind fun divided =>
        divided.andThen (divideBundles prime count (i + 1))

/-- The divisions of a power of the generator by the whole table. -/
def divideTable (prime : List ℤ) (z : ℤ) : Option Divided :=
  (dividePrimes (prime.take 10) 0 z []).bind fun divided =>
    divided.andThen (divideBundles prime ((prime.length + 9) / 20) 0)

end Relations

section Elimination

/-- A row: the constant of its first cell, which has no index, and its other cells. -/
structure Row where
  log : ℤ
  cells : List Cell

/-- The rows for one factor of `q - 1`. All rows below `minfound` are there. -/
structure Matrix where
  order : ℤ
  row : List (Option Row)
  minfound : ℕ

variable (undefined : ℤ → ℤ → ℤ)

/-- The value that `mpz_invert` leaves. -/
def mpzInvertOr (a m : ℤ) : ℤ := (mpzInvert m.natAbs a).getD (undefined a m)

/-- The cells of a relation modulo a factor. -/
def reduceCells (order : ℤ) (rel : List Cell) : List Cell :=
  (rel.map fun c => ⟨c.ind, c.data % order⟩).filter fun c => decide (c.data ≠ 0)

/-- The cells of a relation less `z0` times those of a row, both without their last one. -/
def subCells (order z0 : ℤ) : List Cell → List Cell → List Cell
  | [], row => row.map fun c => ⟨c.ind, order - z0 * c.data % order⟩
  | rel, [] => rel
  | ci :: rel, cj :: row =>
    if ci.ind = cj.ind then
      if z0 * cj.data % order = ci.data then subCells order z0 rel row
      else if z0 * cj.data % order > ci.data then
        ⟨ci.ind, ci.data + (order - z0 * cj.data % order)⟩ :: subCells order z0 rel row
      else ⟨ci.ind, ci.data - z0 * cj.data % order⟩ :: subCells order z0 rel row
    else if ci.ind > cj.ind then
      ⟨cj.ind, order - z0 * cj.data % order⟩ :: subCells order z0 (ci :: rel) row
    else ci :: subCells order z0 rel (cj :: row)
termination_by rel row => rel.length + row.length

/-- The constant of a relation less `z0` times that of a row. -/
def subLog (order z0 km log : ℤ) : ℤ :=
  if km ≥ z0 * log % order then km - z0 * log % order else km + (order - z0 * log % order)

/-- The row at an index. -/
def Matrix.rowAt (M : Matrix) (i : ℕ) : Option Row := (M.row[i]?).join

/-- The first empty row after an index. -/
def nextMissing (row : List (Option Row)) (i : ℕ) : ℕ :=
  i + 1 + ((row.drop (i + 1)).takeWhile Option.isSome).length

/-- A relation becomes the row of its last cell. -/
def Matrix.addRow (M : Matrix) (last : Cell) (km : ℤ) (relm : List Cell) : Matrix :=
  let z0 := mpzInvertOr undefined last.data M.order
  let rp : Row := ⟨km * z0 % M.order, relm.map fun c => ⟨c.ind, c.data * z0 % M.order⟩⟩
  let row := M.row.set last.ind (some rp)
  { M with row := row
           minfound := if last.ind = M.minfound then nextMissing row last.ind else M.minfound }

/-- A relation is reduced by the rows until it is redundant or becomes a row. -/
def Matrix.addRelation (M : Matrix) : ℕ → ℤ → List Cell → ℕ → Option (Matrix × ℕ)
  | 0, _, _, _ => none
  | fuel + 1, km, relm, count =>
    match relm.getLast? with
    | none => some (M, count)
    | some last =>
      if last.ind < M.minfound then some (M, count)
      else
        match M.rowAt last.ind with
        | none => some (M.addRow undefined last km relm, count + 1)
        | some rp =>
          M.addRelation fuel (subLog M.order last.data km rp.log)
            (subCells M.order last.data relm.dropLast rp.cells.dropLast) count

/-- A relation goes to the matrices of all factors. -/
def addRelations (fuel : ℕ) (k : ℤ) (rel : List Cell) :
    List Matrix → ℕ → Option (List Matrix × ℕ)
  | [], count => some ([], count)
  | M :: matrix, count =>
    (M.addRelation undefined fuel (k % M.order) (reduceCells M.order rel) count).bind fun added =>
      (addRelations fuel k rel matrix added.2).map fun rest => (added.1 :: rest.1, rest.2)

/-- What becomes of the matrices after the divisions of one power of the generator. -/
def useRelation (fuel : ℕ) (k : ℤ) (matrix : List Matrix) (count : ℕ) :
    Divided → Option (List Matrix × ℕ)
  | .found rel => addRelations undefined fuel k rel matrix count
  | .rest _ _ => some (matrix, count)

/-- The search for relations, up to the last row of the last matrix. -/
def searchRelations (prime : List ℤ) (g q : ℤ) :
    ℕ → ℤ → ℤ → List Matrix → ℕ → Option (List Matrix)
  | 0, _, _, _, _ => none
  | fuel + 1, z, k, matrix, count =>
    (divideTable prime (z * g % q)).bind fun divided =>
      (useRelation undefined fuel (k + 1) matrix count divided).bind fun added =>
        if added.2 < prime.length * added.1.length then
          searchRelations prime g q fuel (z * g % q) (k + 1) added.1 added.2
        else some added.1

end Elimination

section Logarithms

variable (undefined : ℤ → ℤ → ℤ)

/-- The constant of a row. -/
def Matrix.log (M : Matrix) (i : ℕ) : ℤ := (M.rowAt i).elim 0 Row.log

/-- A row with another constant. -/
def Matrix.setLog (M : Matrix) (i : ℕ) (c0 : ℤ) : Matrix :=
  { M with row := M.row.modify i (Option.map fun rp => { rp with log := c0 }) }

/-- The constant of one row after the rows below it. -/
def Matrix.substitute (M : Matrix) (i : ℕ) : Matrix :=
  ((M.rowAt i).elim [] Row.cells).dropLast.foldl
    (fun M c => M.setLog i ((M.log i - c.data * M.log c.ind) % M.order)) M

/-- The constants of all rows become logarithms, from the second row on. -/
def Matrix.backSubstitute (M : Matrix) : Matrix :=
  (List.range' 1 (M.row.length - 1)).foldl Matrix.substitute M

/-- The inverse of the product of the moduli before one. -/
def crtCoefficient (m : ℤ) (before : List ℤ) : ℤ :=
  before.foldl (fun C mj => C * mpzInvertOr undefined mj m % m) 1

/-- The steps of `CRT`, with the moduli before each one. -/
def crtLoop : List ℤ → ℤ → List (ℤ × ℤ) → ℤ
  | _, x, [] => x
  | before, x, v :: rest =>
    let u := (v.1 - x) * crtCoefficient undefined v.2 before % v.2
    crtLoop (before ++ [v.2]) (x + before.foldl (· * ·) u) rest

/-- `CRT`, of at least one residue, each with its modulus. -/
def crt : List (ℤ × ℤ) → ℤ
  | [] => 0
  | v :: rest => crtLoop undefined [v.2] v.1 rest

/-- The logarithm at an index, from the constants for all factors. -/
def logAt (fac : List (ℤ × ℕ)) (matrix : List Matrix) (i : ℕ) : ℤ :=
  crt undefined ((matrix.map fun M => M.log i).zip (fac.map fun f => f.1 ^ f.2))

/-- The matrices before the search. -/
def emptyMatrices (r : ℕ) (fac : List (ℤ × ℕ)) : List Matrix :=
  fac.map fun f => ⟨f.1, List.replicate r none, 0⟩

/-- `index_calculus_step1`. The number of rows is an `int`. -/
def indexCalculusStep1 (fuel r : ℕ) (g q : ℤ) (fac : List (ℤ × ℕ)) : Option (List ℤ) :=
  if r * fac.length < 2 ^ 31 then
    (searchRelations undefined (primeTable r) g q fuel 1 0 (emptyMatrices r fac) 0).map fun found =>
      (List.range r).map (logAt undefined fac (found.map Matrix.backSubstitute))
  else none

end Logarithms

section Individual

/-- The divisions of `index_calculus_step2` by the primes after one, and how many there are of
each. -/
def divideNext : ℕ → ℤ → ℤ → Option (ℤ × List ℕ)
  | 0, _, z1 => some (z1, [])
  | r + 1, p, z1 =>
    (divideWhile (mpzNextprime p) z1).bind fun left =>
      (divideNext r (mpzNextprime p) left.1).map fun rest => (rest.1, left.2 :: rest.2)

/-- `index_calculus_step2`, from a multiple `z` by the `s`-th power of the generator. -/
def indexCalculusStep2 (ind : List ℤ) (g q : ℤ) : ℕ → ℤ → ℤ → Option ℤ
  | 0, _, _ => none
  | fuel + 1, z, s =>
    (divideNext ind.length 1 (z * g % q)).bind fun left =>
      if left.1 = 1 then
        some ((((left.2.zip ind).foldl (fun x c => x + (c.1 : ℤ) * c.2) 0) - (s + 1)) % (q - 1))
      else indexCalculusStep2 ind g q fuel (z * g % q) (s + 1)

end Individual

section Dlog

variable (undefined inexact : ℤ → ℤ → ℤ)

/-- The quotient that `mpz_divexact` leaves. -/
def mpzDivexactOr (n d : ℤ) : ℤ := if n % d = 0 then n / d else inexact n d

/-- The random elements up to one that passes for a generator. -/
def drawGenerator {W : Type} (random : ℤ → W → ℤ × W) (q : ℤ) (fac : List (ℤ × ℕ)) :
    ℕ → W → Option (ℤ × W)
  | 0, _ => none
  | fuel + 1, w =>
    if isGen (random q w).1 q fac then some (random q w)
    else drawGenerator random q fac fuel (random q w).2

/-- The exponents from `x` on in steps of `q1`, up to one that matches. -/
def matchLog (g h q q1 : ℤ) : ℕ → ℤ → ℤ
  | 0, x => x
  | d + 1, x => if mpzPowm g x q = h then x else matchLog g h q q1 d (x + q1)

/-- The logarithm to the base `g`, from those of `g` and `h` to the base of a generator. -/
def quotientLog (g h q x y : ℤ) : ℤ :=
  let d : ℤ := Int.gcd x (q - 1)
  let q1 := mpzDivexactOr inexact (q - 1) d
  let x := mpzInvertOr undefined (mpzDivexactOr inexact x d) q1
  matchLog g h q q1 d.natAbs (mpzDivexactOr inexact y d * x % q1)

/-- The logarithms to the base `z` of the primes of the table, and with these those of `g` and
`h`. -/
def dlogByGenerator (size : ℤ → ℕ) (fuel : ℕ) (g h q : ℤ) (fac : List (ℤ × ℕ)) (z : ℤ) :
    Option ℤ :=
  (indexCalculusStep1 undefined fuel (size q) z q fac).bind fun ind =>
    (indexCalculusStep2 ind z q fuel g 0).bind fun x =>
      (indexCalculusStep2 ind z q fuel h 0).map fun y => quotientLog undefined inexact g h q x y

/-- `index_calculus_dlog`. The message that p-adics are not implemented is `none`. -/
def indexCalculusDlog {W : Type} (size : ℤ → ℕ) (random : ℤ → W → ℤ × W) (fuel : ℕ) (g h q : ℤ)
    (w : W) : Option (Option ℤ × W) :=
  (trialDivide (q - 1) (some dlogLimit)).bind fun fac =>
    if fac.any fun f => decide (f.2 ≠ 1) then some (none, w)
    else if isGen g q fac then
      (indexCalculusStep1 undefined fuel (size q) g q fac).bind fun ind =>
        (indexCalculusStep2 ind g q fuel h 0).map fun x => (some x, w)
    else
      (drawGenerator random q fac fuel w).bind fun drawn =>
        (dlogByGenerator undefined inexact size fuel g h q fac drawn.1).map fun x => (some x, drawn.2)

end Dlog

end Pbc.Arith
