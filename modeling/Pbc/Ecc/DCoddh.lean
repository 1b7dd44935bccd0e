import Pbc.Ecc.DTatepower

/-!
# The co-DDH test of type D

`cc_is_almost_coddh` hands the data of its first two arguments, which are point
objects, to the Miller loop in place of elements. The loop reads the first word of
a point, its flag for infinity, as the address of a field. Memory is therefore
modelled by its words, with the values of the coordinates beside them; a read of
an unmapped address has no result.
-/

open Pbc.Arith

namespace Pbc.Ecc

variable {F : Type} [Field F] [DecidableEq F] [FpMethods F] {n : ℕ} {poly : Fin n → F} {nqr : F}

/-- Memory by words, and the values of the coefficient elements at addresses. -/
structure Heap {F : Type} {n : ℕ} (poly : Fin n → F) where
  word : ℕ → Option ℕ
  fq : ℕ → Option F
  fqd : ℕ → Option (Polymod poly)

section Operations

variable (heap : Heap poly)

/-- `e->field`. -/
def elementField (e : ℕ) : Option ℕ := heap.word e

/-- `e->data`. -/
def elementData (e : ℕ) : Option ℕ := heap.word (e + 1)

/-- `f->data`, the last member of `struct field_s`. -/
def fieldData (f : ℕ) : Option ℕ := heap.word (f + 45)

/-- `curve_a_coeff`: the address of the member `a` of the curve data. -/
def curveACoeff (e : ℕ) : Option ℕ := do
  let f ← elementField heap e
  let cdp ← fieldData heap f
  return cdp + 1

/-- `curve_x_coord`: the address of the member `x` of the point. -/
def curveXCoord (e : ℕ) : Option ℕ := do
  let p ← elementData heap e
  return p + 1

/-- `curve_y_coord`. -/
def curveYCoord (e : ℕ) : Option ℕ := do
  let p ← elementData heap e
  return p + 3

/-- `inf_flag` of the point of an element. -/
def infFlagOf (e : ℕ) : Option Bool := do
  let p ← elementData heap e
  let flag ← heap.word p
  return flag != 0

/-- A call of the Miller loop on the element at `P`. -/
def ccMillerNoDenomFnAt (method : MillerMethod) (nqr : F) (r P : ℕ) (Qx Qy : Polymod poly) :
    Option (Except Exit (DGt poly nqr)) := do
  let cca ← curveACoeff heap P
  let px ← curveXCoord heap P
  let py ← curveYCoord heap P
  let flag ← infFlagOf heap P
  let a ← heap.fq cca
  let x ← heap.fq px
  let y ← heap.fq py
  return ccMillerNoDenomFn method nqr a r ⟨flag, x, y⟩ Qx Qy

/-- `cc_pairing` on the elements at two addresses. -/
def ccPairingAt (method : MillerMethod) (p : MntPairingData poly nqr) (in1 in2 : ℕ) :
    Option (Except Exit (DGt poly nqr)) := do
  let x ← heap.fqd (← curveXCoord heap in2)
  let y ← heap.fqd (← curveYCoord heap in2)
  let out ← ccMillerNoDenomFnAt heap method nqr p.r in1 (x * p.nqrinv) (y * p.nqrinv2)
  return (do
    let out ← out
    let values ← ccTatepower p out
    return values.1)

/-- `generic_is_almost_coddh` after its two pairings. -/
def genericCompare (t0 t1 : DGt poly nqr) : ℤ :=
  if t0 = t1 then 1
  else
    let t0 := fqMul t0 t1
    if t0 = 1 then 1 else 0

/-- `generic_is_almost_coddh`. -/
def genericIsAlmostCoddh (method : MillerMethod) (p : MntPairingData poly nqr) (a b c d : ℕ) :
    Option (Except Exit ℤ) := do
  let t0 ← ccPairingAt heap method p a d
  let t1 ← ccPairingAt heap method p b c
  return (do
    let t0 ← t0
    let t1 ← t1
    return genericCompare t0 t1)

/-- `cc_is_almost_coddh` after its two final powerings. -/
def ccCompare (t0 t1 : DGt poly nqr) : Except Exit ℤ := do
  let t2 := fqMul t0 t1
  if t2 = 1 then return 1
  else
    let t1 ← fqInvert t1
    let t2 := fqMul t0 t1
    if t2 = 1 then return 1 else return 0

/-- `cc_is_almost_coddh`: the Miller loop is called on the data of `a` and `b`. -/
def ccIsAlmostCoddh (method : MillerMethod) (p : MntPairingData poly nqr) (a b c d : ℕ) :
    Option (Except Exit ℤ) := do
  let cx := (← heap.fqd (← curveXCoord heap c)) * p.nqrinv
  let dx := (← heap.fqd (← curveXCoord heap d)) * p.nqrinv
  let cy := (← heap.fqd (← curveYCoord heap c)) * p.nqrinv2
  let dy := (← heap.fqd (← curveYCoord heap d)) * p.nqrinv2
  let t0 ← ccMillerNoDenomFnAt heap method nqr p.r (← elementData heap a) dx dy
  let t1 ← ccMillerNoDenomFnAt heap method nqr p.r (← elementData heap b) cx cy
  return (do
    let t0 ← t0
    let t1 ← t1
    let t0 ← ccTatepower p t0
    let t1 ← ccTatepower p t1
    ccCompare t0.1 t1.1)

end Operations

/-- The element at an address is the point `P` of a curve with the coefficient `cca`. -/
structure Heap.HoldsG1 (heap : Heap poly) (cca : F) (e : ℕ) (P : PointS F) : Prop where
  curve : ∃ address, curveACoeff heap e = some address ∧ heap.fq address = some cca
  flag : infFlagOf heap e = some P.infFlag
  x : ∃ address, curveXCoord heap e = some address ∧ heap.fq address = some P.x
  y : ∃ address, curveYCoord heap e = some address ∧ heap.fq address = some P.y

/-- The element at an address is the point `Q` of the twist. -/
structure Heap.HoldsG2 (heap : Heap poly) (e : ℕ) (Q : PointS (Polymod poly)) : Prop where
  flag : infFlagOf heap e = some Q.infFlag
  x : ∃ address, curveXCoord heap e = some address ∧ heap.fqd address = some Q.x
  y : ∃ address, curveYCoord heap e = some address ∧ heap.fqd address = some Q.y

/-- The first page, which holds the null address, is not mapped. -/
def Heap.NullPage (heap : Heap poly) : Prop := ∀ address, address < 1024 → heap.word address = none

section Agreement

variable {heap : Heap poly} {method : MillerMethod} {p : MntPairingData poly nqr}

theorem ccMillerNoDenomFnAt_eq {e : ℕ} {P : PointS F} (holds : heap.HoldsG1 p.a e P)
    (Qx Qy : Polymod poly) :
    ccMillerNoDenomFnAt heap method nqr p.r e Qx Qy =
      some (ccMillerNoDenomFn method nqr p.a p.r P Qx Qy) := by
  obtain ⟨cca, curve, coefficient⟩ := holds.curve
  obtain ⟨px, addressX, valueX⟩ := holds.x
  obtain ⟨py, addressY, valueY⟩ := holds.y
  simp only [ccMillerNoDenomFnAt, curve, addressX, addressY, holds.flag, coefficient, valueX, valueY,
    bind, Option.bind]
  rfl

/-- The pairing of the elements at two addresses is the pairing of their points. -/
theorem ccPairingAt_eq {e e' : ℕ} {P : PointS F} {Q : PointS (Polymod poly)}
    (holdsP : heap.HoldsG1 p.a e P) (holdsQ : heap.HoldsG2 e' Q) :
    ccPairingAt heap method p e e' = some (ccPairing method p P Q) := by
  obtain ⟨qx, addressX, valueX⟩ := holdsQ.x
  obtain ⟨qy, addressY, valueY⟩ := holdsQ.y
  simp only [ccPairingAt, addressX, addressY, valueX, valueY, ccMillerNoDenomFnAt_eq holdsP, bind,
    Option.bind]
  rfl

/-- The generic test answers by the equality of the two pairings or by their product. -/
theorem genericIsAlmostCoddh_eq {a b c d : ℕ} {A B : PointS F} {C D : PointS (Polymod poly)}
    (holdsA : heap.HoldsG1 p.a a A) (holdsB : heap.HoldsG1 p.a b B) (holdsC : heap.HoldsG2 c C)
    (holdsD : heap.HoldsG2 d D) {e0 e1 : DGt poly nqr} (first : ccPairing method p A D = .ok e0)
    (second : ccPairing method p B C = .ok e1) :
    genericIsAlmostCoddh heap method p a b c d =
      some (.ok (if e0 = e1 ∨ e0 * e1 = 1 then 1 else 0)) := by
  simp only [genericIsAlmostCoddh, ccPairingAt_eq holdsA holdsD, ccPairingAt_eq holdsB holdsC, first,
    second, bind, Option.bind, Except.bind, genericCompare, fqMul_eq]
  by_cases equal : e0 = e1
  · simp [equal, pure, Except.pure]
  · simp [equal, pure, Except.pure]

omit [Field F] [DecidableEq F] [FpMethods F] in
/-- Reading the first word of a finite point as a field ends at the null address. -/
theorem curveACoeff_data {e q : ℕ} (page : heap.NullPage) (data : elementData heap e = some q)
    (finite : infFlagOf heap e = some false) : curveACoeff heap q = none := by
  have flag : heap.word q = some 0 := by
    simp only [infFlagOf, data, bind, Option.bind] at finite
    cases value : heap.word q with
    | none =>
      rw [value] at finite
      cases finite
    | some flag =>
      rw [value] at finite
      simpa [pure] using finite
  simp only [curveACoeff, elementField, flag, fieldData, bind, Option.bind]
  rw [page _ (by norm_num)]

/-- With a finite first argument the specialised test faults. -/
theorem ccIsAlmostCoddh_faults (b : ℕ) {a c d : ℕ} {C D : PointS (Polymod poly)}
    (page : heap.NullPage) (finite : infFlagOf heap a = some false) (holdsC : heap.HoldsG2 c C)
    (holdsD : heap.HoldsG2 d D) : ccIsAlmostCoddh heap method p a b c d = none := by
  obtain ⟨cx, addressCx, valueCx⟩ := holdsC.x
  obtain ⟨cy, addressCy, valueCy⟩ := holdsC.y
  obtain ⟨dx, addressDx, valueDx⟩ := holdsD.x
  obtain ⟨dy, addressDy, valueDy⟩ := holdsD.y
  simp only [ccIsAlmostCoddh, addressCx, addressCy, addressDx, addressDy, valueCx, valueCy, valueDx,
    valueDy, bind, Option.bind]
  cases data : elementData heap a with
  | none => rfl
  | some q =>
    simp only [ccMillerNoDenomFnAt, curveACoeff_data page data finite, bind, Option.bind]

/-- On finite points the specialised test never gives the answer of the generic
one. -/
theorem ccIsAlmostCoddh_never {a b c d : ℕ} {A B : PointS F} {C D : PointS (Polymod poly)}
    (page : heap.NullPage) (holdsA : heap.HoldsG1 p.a a A) (finiteA : A.infFlag = false)
    (_holdsB : heap.HoldsG1 p.a b B) (holdsC : heap.HoldsG2 c C) (holdsD : heap.HoldsG2 d D) :
    ¬∃ answer, ccIsAlmostCoddh heap method p a b c d = some (.ok answer) ∧
      genericIsAlmostCoddh heap method p a b c d = some (.ok answer) ∧
      ∀ e0 e1, ccPairing method p A D = .ok e0 → ccPairing method p B C = .ok e1 →
        (answer = 1 ↔ e0 = e1 ∨ e0 * e1 = 1) := by
  rintro ⟨answer, answered, -⟩
  rw [ccIsAlmostCoddh_faults b page (holdsA.flag.trans (congrArg some finiteA)) holdsC holdsD]
    at answered
  cases answered

end Agreement

section Small

/-- A memory with a point and a twist point of order seven of the small parameters:
the curve at 2000, the two elements at 3000 and 3100, their points at 4000 and 4100. -/
def smallHeap : Heap (![1, 1, 0] : Fin 3 → ZMod 5) where
  word address :=
    match address with
    | 2045 => some 2100
    | 3000 => some 2000
    | 3001 => some 4000
    | 3100 => some 2000
    | 3101 => some 4100
    | 4000 => some 0
    | 4100 => some 0
    | _ => none
  fq address :=
    match address with
    | 2101 => some 2
    | 4001 => some 0
    | 4003 => some 1
    | _ => none
  fqd address :=
    match address with
    | 4101 => some ⟨![0, 2, 3]⟩
    | 4103 => some ⟨![2, 1, 4]⟩
    | _ => none

private theorem smallHeap_nullPage : smallHeap.NullPage := by
  intro address below
  dsimp only [smallHeap]
  split
  all_goals first | rfl | omega

private theorem smallHeap_holdsG1 : smallHeap.HoldsG1 smallD.a 3000 ⟨false, 0, 1⟩ :=
  ⟨⟨2101, rfl, rfl⟩, rfl, ⟨4001, rfl, rfl⟩, ⟨4003, rfl, rfl⟩⟩

private theorem smallHeap_holdsG2 :
    smallHeap.HoldsG2 3100 ⟨false, ⟨![0, 2, 3]⟩, ⟨![2, 1, 4]⟩⟩ :=
  ⟨rfl, ⟨4101, rfl, rfl⟩, ⟨4103, rfl, rfl⟩⟩

/-- On two equal pairs of points there is no answer. -/
theorem ccIsAlmostCoddh_small :
    ¬∃ answer,
      ccIsAlmostCoddh smallHeap .millerAffine smallD 3000 3000 3100 3100 = some (.ok answer) ∧
      genericIsAlmostCoddh smallHeap .millerAffine smallD 3000 3000 3100 3100 =
        some (.ok answer) ∧
      ∀ e0 e1,
        ccPairing .millerAffine smallD ⟨false, 0, 1⟩ ⟨false, ⟨![0, 2, 3]⟩, ⟨![2, 1, 4]⟩⟩ =
          .ok e0 →
        ccPairing .millerAffine smallD ⟨false, 0, 1⟩ ⟨false, ⟨![0, 2, 3]⟩, ⟨![2, 1, 4]⟩⟩ =
          .ok e1 → (answer = 1 ↔ e0 = e1 ∨ e0 * e1 = 1) :=
  ccIsAlmostCoddh_never smallHeap_nullPage smallHeap_holdsG1 rfl smallHeap_holdsG1
    smallHeap_holdsG2 smallHeap_holdsG2

/-- There the generic test answers one and the specialised one faults. -/
theorem coddh_disagree :
    genericIsAlmostCoddh smallHeap .millerAffine smallD 3000 3000 3100 3100 = some (.ok 1) ∧
      ccIsAlmostCoddh smallHeap .millerAffine smallD 3000 3000 3100 3100 = none := by
  constructor
  · decide +kernel
  · exact ccIsAlmostCoddh_faults 3000 smallHeap_nullPage rfl smallHeap_holdsG2 smallHeap_holdsG2

end Small

end Pbc.Ecc
