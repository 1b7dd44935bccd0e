import Mathlib.Algebra.Field.Basic
import Pbc.Ecc.Curve

/-!
# What the pairings share

A Miller loop keeps the coefficients of a line; preprocessing stores them in a
table for one point. A loop in Jacobian coordinates keeps a point object whose
coordinates are scaled by powers of a third one.
-/

namespace Pbc.Ecc

/-- The coefficients of the line `a X + b Y + c`, kept in a `pp_coeff_s`. -/
structure PpCoeff (F : Type*) where
  a : F
  b : F
  c : F
  deriving DecidableEq, Repr

/-- The block of `pp_coeff_s` that a preprocessing routine allocates, and the triples
it writes from its start; those at or beyond `allocated` lie outside the block. -/
structure PpTable (F : Type*) where
  allocated : ℕ
  triples : List (PpCoeff F)

/-- Every triple was written inside the block. -/
def PpTable.InBounds (table : PpTable F) : Prop := table.triples.length ≤ table.allocated

/-- Reading a triple of the block that was written. -/
def PpTable.read (table : PpTable F) (i : ℕ) : Option (PpCoeff F) :=
  if i < table.allocated then table.triples[i]? else none

/-- Inside its block the table is read as it was written. -/
theorem PpTable.InBounds.read_eq {F : Type*} {table : PpTable F} (inside : table.InBounds) {i : ℕ}
    (written : i < table.triples.length) : table.read i = table.triples[i]? :=
  if_pos (written.trans_le inside)

/-- The point object and the scale of a loop in Jacobian coordinates. -/
structure ProjState (F : Type*) where
  Z : PointS F
  z : F
  z2 : F
  deriving DecidableEq, Repr

/-- The Jacobian coordinates `(x z^2, y z^3, z)` of a finite point. -/
structure ProjState.Projects {F : Type*} [Field F] (s : ProjState F) (x y : F) : Prop where
  nonzero : s.z ≠ 0
  square : s.z2 = s.z ^ 2
  abscissa : s.Z.x = x * s.z ^ 2
  ordinate : s.Z.y = y * s.z ^ 3

/-- An affine point with the scale one. -/
theorem ProjState.projects_one {F : Type*} [Field F] (p : PointS F) :
    ProjState.Projects ⟨p, 1, 1⟩ p.x p.y := by
  constructor
  · exact one_ne_zero
  · exact (one_pow 2).symm
  · simp only [one_pow, mul_one]
  · simp only [one_pow, mul_one]

end Pbc.Ecc
