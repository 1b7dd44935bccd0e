import Mathlib.Tactic.NormNum.Prime
import Pbc.Arith.Text
import Pbc.Ecc.Curve

/-!
# Points as text

`curve_snprint` and `curve_set_str`, and the structures that are built from residues by
quadratic and polynomial extensions and by curves, nested in any way. In all of them what
is printed is read back.
-/

open Pbc.Arith

namespace Pbc.Ecc

/-- The coefficients of a curve, and the methods of its field that `curve_is_valid_point`
calls. -/
structure CurveTest (V : Type) where
  a : V
  b : V
  square : V → V
  add : V → V → V
  mul : V → V → V
  cmp : V → V → ℤ

/-- `curve_is_valid_point`, for a finite point. -/
def CurveTest.isValidPoint {V : Type} (m : CurveTest V) (x y : V) : Bool :=
  let t0 := m.square x
  let t0 := m.add t0 m.a
  let t0 := m.mul t0 x
  let t0 := m.add t0 m.b
  let t1 := m.square y
  m.cmp t0 t1 = 0

section Operations

variable (k : TextField) (m : CurveTest k.Value)

/-- `curve_snprint`; for a finite point its text is that of `fq_snprint`. -/
def curveSnprint (size : ℕ) (p : PointS k.Element) : List Char × ℕ :=
  if p.infFlag then ((snprintf ['O'] size).1, 1)
  else fqSnprint k size (p.x, p.y)

/-- `curve_set_str`. -/
def curveSetStr (p : PointS k.Element) (s : List Char) (base : ℤ) : PointS k.Element × ℕ :=
  let p := { p with infFlag := true }
  match skipSpaces s with
  | 'O' :: cp => (p, s.length - (cp.length + 1) + 1)
  | '[' :: cp =>
      let p := { p with infFlag := false }
      let (x, count) := k.setStr p.x cp base
      let p := { p with x := x }
      match skipSpaces (cp.drop count) with
      | ',' :: cp =>
          let (y, count) := k.setStr p.y cp base
          let p := { p with y := y }
          match cp.drop count with
          | ']' :: cp =>
              if m.isValidPoint (k.value p.x) (k.value p.y) then
                (p, s.length - (cp.length + 1) + 1)
              else ({ p with infFlag := true }, 0)
          | _ => (p, 0)
      | _ => (p, 0)
  | _ => ({ p with infFlag := false }, 0)

/-- The group of points of a curve over a structure. -/
def curveText : TextField where
  Element := PointS k.Element
  Value := Option (k.Value × k.Value)
  value p := if p.infFlag then none else some (k.value p.x, k.value p.y)
  Canonical v := ∀ x y, v = some (x, y) →
    k.Canonical x ∧ k.Canonical y ∧ m.isValidPoint x y = true
  set0 p := { p with infFlag := true }
  snprint := curveSnprint k
  setStr := curveSetStr k m

end Operations

/-- The structures built over `F_p`. -/
inductive Tower : TextField → Prop where
  | fp (p : ℕ) (prime : p.Prime) : Tower (zpText p)
  | quadratic {k : TextField} (base : Tower k) : Tower (fqText k)
  | polymod {k : TextField} (base : Tower k) (n : ℕ) : Tower (polymodText k n)
  | curve {k : TextField} (base : Tower k) (m : CurveTest k.Value) : Tower (curveText k m)

section Values

variable {k : TextField}

/-- Points are read back. -/
theorem curveText_readsBack (base : k.ReadsBack) (m : CurveTest k.Value) :
    (curveText k m).ReadsBack := by
  rintro (⟨infFlag, x, y⟩ : PointS k.Element) canonical
  cases infFlag with
  | true =>
    refine ⟨['O'], fun size => rfl, fun c spaces tail blank _ => ?_⟩
    have whole : spaces ++ ['O'] ++ tail = spaces ++ 'O' :: tail := by simp
    refine ⟨{ c with infFlag := true }, ?_, rfl⟩
    show curveSetStr k m c _ 10 = _
    rw [whole]
    simp only [curveSetStr, skipSpaces_append blank (c := 'O') rfl]
    refine Prod.ext rfl ?_
    simp only [List.length_append, List.length_cons, List.length_nil]
    omega
  | false =>
    obtain ⟨reducedX, reducedY, valid⟩ := canonical (k.value x) (k.value y) rfl
    obtain ⟨text, print, nonempty, read⟩ := base.pair reducedX reducedY
    refine ⟨text, print, fun c spaces tail blank _ => ?_⟩
    obtain ⟨cp, x', count, cp', y', count', bracket, run, comma, run', close, value, value'⟩ :=
      read c.x c.y spaces tail blank
    refine ⟨⟨false, x', y'⟩, ?_, ?_⟩
    · show curveSetStr k m c _ 10 = _
      simp only [curveSetStr, bracket, run, comma, run', close, value, value', valid, if_true]
      refine Prod.ext rfl ?_
      simp only [List.length_append]
      omega
    · exact congrArg some (Prod.ext value value')

/-- Whatever is built over `F_p` is read back. -/
theorem Tower.readsBack (tower : Tower k) : k.ReadsBack := by
  induction tower with
  | fp p prime => exact zpText_readsBack p
  | quadratic base ih => exact fqText_readsBack ih
  | polymod base n ih => exact polymodText_readsBack ih n
  | curve base m ih => exact curveText_readsBack ih m

/-- What `element_snprint` writes into a buffer that is large enough is read back by
`element_set_str` in base 10, in front of every text that stops it: the target holds the
same element, and the number of characters read is the length of what was printed. -/
theorem printed_reads_back (tower : Tower k) {e : k.Element} (canonical : k.Canonical (k.value e))
    {size : ℕ} (large : (k.snprint size e).2 < size) (target : k.Element) {tail : List Char}
    (stops : Stops tail) :
    k.value (k.setStr target ((k.snprint size e).1 ++ tail) 10).1 = k.value e ∧
      (k.setStr target ((k.snprint size e).1 ++ tail) 10).2 = (k.snprint size e).1.length ∧
      (k.snprint size e).2 = (k.snprint size e).1.length := by
  obtain ⟨text, print, read⟩ := tower.readsBack e canonical
  obtain ⟨x, run, value⟩ := read target [] tail nofun stops
  rw [print, snprintf] at large
  have whole : (k.snprint size e).1 = text := by
    rw [print, snprintf]
    exact List.take_of_length_le (by omega)
  rw [List.nil_append, List.length_nil, Nat.zero_add] at run
  rw [whole, run, print, snprintf]
  exact ⟨value, rfl, rfl⟩

end Values

section Small

/-- The curve `y^2 = x^3 + x` over `F_5`. -/
private def smallTest : CurveTest ℤ where
  a := 1
  b := 0
  square a := zpSquare 5 a
  add := zpAdd 5
  mul := zpMul 5
  cmp := zpCmp

/-- Two points of the curve, as the coordinates of an element of a polynomial extension. -/
private def smallPoints : Fin 2 → PointS ℤ := ![⟨false, 2, 0⟩, ⟨true, 3, 3⟩]

theorem printed_reads_back_small :
    let k := polymodText (curveText (zpText 5) smallTest) 2
    (k.snprint 80 smallPoints).1 = ['[', '[', '2', ',', ' ', '0', ']', ',', ' ', 'O', ']'] ∧
      k.value (k.setStr smallPoints ((k.snprint 80 smallPoints).1 ++ [';']) 10).1 =
        k.value smallPoints ∧
      (k.setStr smallPoints ((k.snprint 80 smallPoints).1 ++ [';']) 10).2 = 11 := by
  intro k
  have tower : Tower k := .polymod (.curve (.fp 5 (by decide)) smallTest) 2
  have canonical : k.Canonical (k.value smallPoints) := by
    intro i x y coordinates
    fin_cases i
    · obtain ⟨rfl, rfl⟩ := Prod.mk.inj (Option.some.inj coordinates)
      have reduced : (0 ≤ (2 : ℤ) ∧ (2 : ℤ) < 5) ∧ 0 ≤ (0 : ℤ) ∧ (0 : ℤ) < 5 := by decide
      exact ⟨reduced.1, reduced.2, rfl⟩
    · cases coordinates
  have stops : Stops [';'] := by
    rintro _ ⟨⟩
    exact ⟨rfl, rfl⟩
  have large : (k.snprint 80 smallPoints).2 < 80 := by decide
  obtain ⟨value, count, -⟩ := printed_reads_back tower canonical large smallPoints stops
  exact ⟨rfl, value, count⟩

end Small

end Pbc.Ecc
