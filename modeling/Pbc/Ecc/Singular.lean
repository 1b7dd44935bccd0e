import Pbc.Arith.Fp
import Pbc.Ecc.CurveStore
import Pbc.Elliptic.Node

/-!
# The curve with a node

The group of the points of `y^2 = x^3 + x^2` other than the node, and its maps to and from the
nonzero elements of the field. The routines take objects by reference, any of which may coincide.
A random point is looked for among random abscissas.
-/

open Pbc.Arith Pbc.Elliptic

namespace Pbc.Ecc

section Operations

variable {ι : Type} {K : Type*} [DecidableEq ι] [CommRing K]

/-- `sn_set` on objects. -/
def snSetAt (s : CurveStore ι K) (c a : ι) : CurveStore ι K :=
  if (s a).infFlag then s.setFlag c true
  else
    let s := s.setFlag c false
    let s := s.setX c (s a).x
    s.setY c (s a).y

/-- `sn_invert` on objects. -/
def snInvertAt (s : CurveStore ι K) (c a : ι) : CurveStore ι K :=
  if (s a).infFlag then s.setFlag c true
  else
    let s := s.setFlag c false
    let s := s.setX c (s a).x
    s.setY c (-(s a).y)

variable [FieldMethods K]

/-- `sn_double_no_check` on objects. -/
def snDoubleNoCheckAt (s : CurveStore ι K) (r p : ι) : Except Exit (CurveStore ι K) := do
  let lambda := 3 • (s p).x
  let e0 := 2
  let lambda := lambda + e0
  let lambda := lambda * (s p).x
  let e0 := (s p).y + (s p).y
  let e0 ← FieldMethods.invert e0
  let lambda := lambda * e0
  let e1 := (s p).x + (s p).x
  let e0 := FieldMethods.square lambda
  let e0 := e0 - e1
  let e1 := 1
  let e0 := e0 - e1
  let e1 := (s p).x - e0
  let e1 := e1 * lambda
  let e1 := e1 - (s p).y
  let s := s.setX r e0
  let s := s.setY r e1
  return s.setFlag r false

variable [DecidableEq K]

/-- `sn_double` on objects. -/
def snDoubleAt (s : CurveStore ι K) (c a : ι) : Except Exit (CurveStore ι K) :=
  if (s a).infFlag then .ok (s.setFlag c true)
  else if (s a).y = 0 then .ok (s.setFlag c true)
  else snDoubleNoCheckAt s c a

/-- `sn_add` on objects. -/
def snAddAt (s : CurveStore ι K) (c a b : ι) : Except Exit (CurveStore ι K) :=
  if (s a).infFlag then .ok (snSetAt s c b)
  else if (s b).infFlag then .ok (snSetAt s c a)
  else if (s a).x = (s b).x then
    if (s a).y = (s b).y then
      if (s a).y = 0 then .ok (s.setFlag c true) else snDoubleNoCheckAt s c a
    else .ok (s.setFlag c true)
  else do
    let e0 := (s b).x - (s a).x
    let e0 ← FieldMethods.invert e0
    let lambda := (s b).y - (s a).y
    let lambda := lambda * e0
    let e0 := FieldMethods.square lambda
    let e0 := e0 - (s a).x
    let e0 := e0 - (s b).x
    let e1 := 1
    let e0 := e0 - e1
    let e1 := (s a).x - e0
    let e1 := e1 * lambda
    let e1 := e1 - (s a).y
    let s := s.setX c e0
    let s := s.setY c e1
    return s.setFlag c false

omit [DecidableEq K] in
/-- `sn_point_to_field`. -/
def snPointToField (P : PointS K) : Except Exit K :=
  if P.infFlag then .ok 1
  else do
    let e0 := P.y + P.x
    let e1 := P.y - P.x
    let e1 ← FieldMethods.invert e1
    return e0 * e1

/-- The element that a routine reads: one of its own, or a coordinate of a point. -/
inductive FieldCell (ι K : Type*) where
  | apart (a : K)
  | x (i : ι)
  | y (i : ι)

omit [DecidableEq ι] [CommRing K] [FieldMethods K] [DecidableEq K] in
/-- The content of an element. -/
def FieldCell.read (s : CurveStore ι K) : FieldCell ι K → K
  | .apart a => a
  | .x i => (s i).x
  | .y i => (s i).y

/-- `sn_field_to_point` on objects. -/
def snFieldToPointAt (s : CurveStore ι K) (P : ι) (cell : FieldCell ι K) :
    Except Exit (CurveStore ι K) :=
  if cell.read s = 1 then .ok (s.setFlag P true)
  else do
    let e1 := 1
    let e0 := cell.read s - e1
    let e0 ← FieldMethods.invert e0
    let e2 := 4 • cell.read s
    let s := s.setY P (cell.read s + e1)
    let e1 := e0 * e0
    let s := s.setX P (e1 * e2)
    let s := s.setY P ((s P).y * e2)
    let s := s.setY P ((s P).y * e0)
    let s := s.setY P ((s P).y * e1)
    return s.setFlag P false

end Operations

section Points

variable {K : Type*} [Field K]

/-- A point of the curve that is not the node, or the point at infinity. -/
def PointS.OnNode (e : PointS K) : Prop :=
  e.infFlag = true ∨ e.infFlag = false ∧ (nodeCurve K).Nonsingular e.x e.y

/-- The object holds the point of a number. -/
def PointS.Node (e : PointS K) (a : K) : Prop :=
  a ≠ 0 ∧ (a = 1 ∧ e.infFlag = true ∨ a ≠ 1 ∧ e = ⟨false, nodeX a, nodeY a⟩)

/-- Two objects hold one point. -/
def PointS.Same (e e' : PointS K) : Prop :=
  e.infFlag = true ∧ e'.infFlag = true ∨ e.infFlag = false ∧ e = e'

variable {e e' : PointS K} {a : K}

/-- The point at infinity is the point of one. -/
theorem PointS.infinite_node (c : PointS K) : PointS.Node { c with infFlag := true } 1 :=
  ⟨one_ne_zero, Or.inl ⟨rfl, rfl⟩⟩

theorem PointS.Node.eq_one (node : e.Node a) (infinite : e.infFlag = true) : a = 1 := by
  rcases node.2 with ⟨one, -⟩ | ⟨-, value⟩
  · exact one
  · rw [value] at infinite
    cases infinite

theorem PointS.Node.finite (node : e.Node a) (finite : ¬e.infFlag = true) :
    a ≠ 1 ∧ e = ⟨false, nodeX a, nodeY a⟩ := by
  rcases node.2 with ⟨-, flag⟩ | value
  · exact absurd flag finite
  · exact value

theorem PointS.Node.same (node : e.Node a) (node' : e'.Node a) : e.Same e' := by
  obtain ⟨-, ⟨one, flag⟩ | ⟨finite, value⟩⟩ := node
  · rcases node'.2 with ⟨-, flag'⟩ | ⟨finite, -⟩
    · exact Or.inl ⟨flag, flag'⟩
    · exact absurd one finite
  · rcases node'.2 with ⟨one, -⟩ | ⟨-, value'⟩
    · exact absurd one finite
    · exact Or.inr ⟨by rw [value], by rw [value, value']⟩

variable (two : (2 : K) ≠ 0)

include two

/-- The points are the points of the nonzero numbers. -/
theorem PointS.onNode_iff : e.OnNode ↔ ∃ a, e.Node a := by
  constructor
  · rintro (flag | ⟨flag, on⟩)
    · exact ⟨1, one_ne_zero, Or.inl ⟨rfl, flag⟩⟩
    · obtain ⟨a, nonzero, finite, abscissa, ordinate⟩ := exists_nodePoint two on
      refine ⟨a, nonzero, Or.inr ⟨finite, ?_⟩⟩
      rw [← abscissa, ← ordinate, ← flag]
  · rintro ⟨a, nonzero, ⟨-, flag⟩ | ⟨finite, rfl⟩⟩
    · exact Or.inl flag
    · exact Or.inr ⟨rfl, nodePoint_nonsingular two nonzero finite⟩

variable [FieldMethods K] [InvertsNonzero K]

/-- The number of the point that an object holds. -/
theorem PointS.Node.pointToField (node : e.Node a) : snPointToField e = .ok a := by
  obtain ⟨nonzero, ⟨rfl, flag⟩ | ⟨finite, rfl⟩⟩ := node
  · rw [snPointToField, if_pos flag]
  · obtain ⟨denominator, number⟩ := nodePoint_number two nonzero finite
    rw [snPointToField, if_neg Bool.false_ne_true]
    simp only [InvertsNonzero.invert_ok denominator, bind, Except.bind, pure, Except.pure, number]

end Points

section Copies

variable {ι : Type} {K : Type*} [DecidableEq ι] [Field K] {s : CurveStore ι K} {a : ι} {A : K}

/-- A copy holds the same point. -/
theorem snSetAt_node (c : ι) (node : (s a).Node A) :
    ∃ r, snSetAt s c a = Function.update s c r ∧ r.Node A := by
  refine ⟨_, curveSetAt_eq s c a, node.1, ?_⟩
  obtain ⟨-, ⟨one, flag⟩ | ⟨finite, value⟩⟩ := node
  · exact Or.inl ⟨one, by rw [curveSet, if_pos flag]⟩
  · refine Or.inr ⟨finite, ?_⟩
    rw [curveSet, value, if_neg Bool.false_ne_true]

/-- The opposite point. -/
theorem snInvertAt_node (c : ι) (node : (s a).Node A) :
    ∃ r, snInvertAt s c a = Function.update s c r ∧ r.Node A⁻¹ := by
  refine ⟨_, curveInvertAt_eq s c a, inv_ne_zero node.1, ?_⟩
  obtain ⟨nonzero, ⟨one, flag⟩ | ⟨finite, value⟩⟩ := node
  · exact Or.inl ⟨by rw [one, inv_one], by rw [curveInvert, if_pos flag]⟩
  · refine Or.inr ⟨inv_ne_one.mpr finite, ?_⟩
    rw [curveInvert, value, if_neg Bool.false_ne_true, nodeX_inv nonzero finite,
      nodeY_inv nonzero finite]

end Copies

section Numbers

variable {ι : Type} {K : Type*} [DecidableEq ι] [Field K] [DecidableEq K] [FieldMethods K]
  [InvertsNonzero K]

/-- The point of a nonzero element. -/
theorem snFieldToPointAt_node (s : CurveStore ι K) (P : ι) (cell : FieldCell ι K)
    (nonzero : cell.read s ≠ 0) :
    ∃ r, snFieldToPointAt s P cell = .ok (Function.update s P r) ∧ r.Node (cell.read s) := by
  by_cases one : cell.read s = 1
  · refine ⟨{ s P with infFlag := true }, ?_, ?_⟩
    · rw [snFieldToPointAt, if_pos one]
      rfl
    · rw [one]
      exact (s P).infinite_node
  · have denominator := sub_ne_zero.mpr one
    refine ⟨_, ?_, nonzero, Or.inr ⟨one, rfl⟩⟩
    simp only [snFieldToPointAt, if_neg one, InvertsNonzero.invert_ok denominator, bind, Except.bind,
      pure, Except.pure, CurveStore.setX, CurveStore.setY, CurveStore.setFlag, Function.update_idem,
      Function.update_self]
    rw [nodeX_eq one, nodeY_eq one, nsmul_eq_mul, Nat.cast_ofNat]
    congr 3
    · field_simp
    · field_simp

end Numbers

section Law

variable {ι : Type} {K : Type*} [DecidableEq ι] [Field K] [FieldMethods K] [InvertsNonzero K]
  {s : CurveStore ι K} {a b : ι} {A B : K}

variable (two : (2 : K) ≠ 0)

include two

/-- The tangent at a point that is not its own opposite. -/
theorem snDoubleNoCheckAt_node (c : ι) (nonzero : A ≠ 0) (finite : A ≠ 1)
    (value : s a = ⟨false, nodeX A, nodeY A⟩) (ordinate : nodeY A ≠ 0) :
    ∃ r, snDoubleNoCheckAt s c a = .ok (Function.update s c r) ∧ r.Node (A * A) := by
  have double : nodeY A + nodeY A ≠ 0 := by
    rw [← two_mul]
    exact mul_ne_zero two ordinate
  have other : A * A ≠ 1 := mt (nodeY_eq_zero_iff two nonzero finite).mpr ordinate
  have line := node_tangent two nonzero finite ordinate
  obtain ⟨third, height⟩ := nodePoint_mul finite finite two other line
  refine ⟨⟨false, nodeX (A * A), nodeY (A * A)⟩, ?_, mul_ne_zero nonzero nonzero,
    Or.inr ⟨other, rfl⟩⟩
  simp only [snDoubleNoCheckAt, value, InvertsNonzero.invert_ok double, bind, Except.bind, pure,
    Except.pure, CurveStore.setXYFlag, FieldMethods.square_eq]
  rw [← pow_two, ← sub_sub _ (nodeX A), third, height]

variable [DecidableEq K]

/-- The double of a point. -/
theorem snDoubleAt_node (c : ι) (node : (s a).Node A) :
    ∃ r, snDoubleAt s c a = .ok (Function.update s c r) ∧ r.Node (A * A) := by
  obtain ⟨nonzero, ⟨rfl, flag⟩ | ⟨finite, value⟩⟩ := node
  · refine ⟨{ s c with infFlag := true }, ?_, ?_⟩
    · rw [snDoubleAt, if_pos flag]
      rfl
    · rw [one_mul]
      exact (s c).infinite_node
  · have flag : ¬(s a).infFlag = true := by rw [value]; exact Bool.false_ne_true
    have height : (s a).y = nodeY A := by rw [value]
    rw [snDoubleAt, if_neg flag, height]
    split
    · next zero =>
      refine ⟨{ s c with infFlag := true }, rfl, ?_⟩
      rw [(nodeY_eq_zero_iff two nonzero finite).mp zero]
      exact (s c).infinite_node
    · next ordinate => exact snDoubleNoCheckAt_node two c nonzero finite value ordinate

/-- The sum of two points with one abscissa. -/
theorem snAddAt_vertical (c : ι) (nonzero : A ≠ 0) (finite : A ≠ 1) (finite' : B ≠ 1)
    (value : s a = ⟨false, nodeX A, nodeY A⟩) (value' : s b = ⟨false, nodeX B, nodeY B⟩)
    (abscissa : A = B ∨ A * B = 1) :
    ∃ r, snAddAt s c a b = .ok (Function.update s c r) ∧ r.Node (A * B) := by
  have opposite (one : A * B = 1) : ({ s c with infFlag := true } : PointS K).Node (A * B) := by
    rw [one]
    exact (s c).infinite_node
  have level : nodeX A = nodeX B := (nodeX_eq_iff finite finite' two).mpr abscissa
  rw [snAddAt, value, value', if_neg Bool.false_ne_true, if_neg Bool.false_ne_true, if_pos level]
  split
  · next ordinate =>
    have same : A = B ∨ A * B = 1 ∧ nodeY A = 0 := by
      rcases abscissa with same | one
      · exact Or.inl same
      · refine Or.inr ⟨one, ?_⟩
        rw [eq_inv_of_mul_eq_one_right one, nodeY_inv nonzero finite] at ordinate
        have twice : 2 * nodeY A = 0 := by linear_combination ordinate
        exact (mul_eq_zero.mp twice).resolve_left two
    split
    · next zero =>
      refine ⟨_, rfl, opposite ?_⟩
      rcases same with same | ⟨one, -⟩
      · rw [← same]
        exact (nodeY_eq_zero_iff two nonzero finite).mp zero
      · exact one
    · next nonvertical =>
      rcases same with same | ⟨-, zero⟩
      · rw [← same]
        exact snDoubleNoCheckAt_node two c nonzero finite value nonvertical
      · exact absurd zero nonvertical
  · next ordinate =>
    refine ⟨_, rfl, opposite ?_⟩
    rcases abscissa with same | one
    · exact absurd (congrArg nodeY same) ordinate
    · exact one

/-- The sum of two points with different abscissas. -/
theorem snAddAt_chord (c : ι) (nonzero : A ≠ 0) (nonzero' : B ≠ 0) (finite : A ≠ 1) (finite' : B ≠ 1)
    (value : s a = ⟨false, nodeX A, nodeY A⟩) (value' : s b = ⟨false, nodeX B, nodeY B⟩)
    (distinct : A ≠ B) (other : A * B ≠ 1) :
    ∃ r, snAddAt s c a b = .ok (Function.update s c r) ∧ r.Node (A * B) := by
  have abscissa : nodeX A ≠ nodeX B := by
    rw [Ne, nodeX_eq_iff finite finite' two, not_or]
    exact ⟨distinct, other⟩
  obtain ⟨apart, line⟩ := node_chord finite finite' two distinct other
  obtain ⟨third, height⟩ := nodePoint_mul finite finite' two other line
  refine ⟨⟨false, nodeX (A * B), nodeY (A * B)⟩, ?_, mul_ne_zero nonzero nonzero',
    Or.inr ⟨other, rfl⟩⟩
  rw [snAddAt, value, value', if_neg Bool.false_ne_true, if_neg Bool.false_ne_true, if_neg abscissa]
  simp only [InvertsNonzero.invert_ok apart, bind, Except.bind, pure, Except.pure,
    CurveStore.setXYFlag, FieldMethods.square_eq]
  rw [← pow_two, third, height]

/-- The sum of two points. -/
theorem snAddAt_node (c : ι) (node : (s a).Node A) (node' : (s b).Node B) :
    ∃ r, snAddAt s c a b = .ok (Function.update s c r) ∧ r.Node (A * B) := by
  by_cases infinite : (s a).infFlag = true
  · obtain ⟨r, run, holds⟩ := snSetAt_node c node'
    refine ⟨r, by rw [snAddAt, if_pos infinite, run], ?_⟩
    rwa [node.eq_one infinite, one_mul]
  by_cases infinite' : (s b).infFlag = true
  · obtain ⟨r, run, holds⟩ := snSetAt_node c node
    refine ⟨r, by rw [snAddAt, if_neg infinite, if_pos infinite', run], ?_⟩
    rwa [node'.eq_one infinite', mul_one]
  obtain ⟨finite, value⟩ := node.finite infinite
  obtain ⟨finite', value'⟩ := node'.finite infinite'
  by_cases abscissa : A = B ∨ A * B = 1
  · exact snAddAt_vertical two c node.1 finite finite' value value' abscissa
  · obtain ⟨distinct, other⟩ := not_or.mp abscissa
    exact snAddAt_chord two c node.1 node'.1 finite finite' value value' distinct other

end Law

section Group

variable (ι : Type) (K : Type*) [DecidableEq ι] [Field K] [DecidableEq K] [FieldMethods K]

/-- The maps between the points and the nonzero elements are inverse to each other, and turn the
operations into those of the field, whatever objects coincide. -/
structure SnMultiplicative : Prop where
  point_field_point : ∀ e : PointS K, e.OnNode → ∃ A, A ≠ 0 ∧ snPointToField e = .ok A ∧
    ∀ (s : CurveStore ι K) (P : ι) (cell : FieldCell ι K), cell.read s = A →
      ∃ r, snFieldToPointAt s P cell = .ok (Function.update s P r) ∧ r.Same e
  field_point_field : ∀ (s : CurveStore ι K) (P : ι) (cell : FieldCell ι K), cell.read s ≠ 0 →
    ∃ r, snFieldToPointAt s P cell = .ok (Function.update s P r) ∧ r.OnNode ∧
      snPointToField r = .ok (cell.read s)
  add : ∀ (s : CurveStore ι K) (c a b : ι), (s a).OnNode → (s b).OnNode → ∃ r A B,
    snAddAt s c a b = .ok (Function.update s c r) ∧ r.OnNode ∧ snPointToField (s a) = .ok A ∧
      snPointToField (s b) = .ok B ∧ snPointToField r = .ok (A * B)
  double : ∀ (s : CurveStore ι K) (c a : ι), (s a).OnNode → ∃ r A,
    snDoubleAt s c a = .ok (Function.update s c r) ∧ r.OnNode ∧ snPointToField (s a) = .ok A ∧
      snPointToField r = .ok (A ^ 2)
  invert : ∀ (s : CurveStore ι K) (c a : ι), (s a).OnNode → ∃ r A,
    snInvertAt s c a = Function.update s c r ∧ r.OnNode ∧ snPointToField (s a) = .ok A ∧
      snPointToField r = .ok A⁻¹

variable {K} [InvertsNonzero K]

/-- The points other than the node are the multiplicative group. -/
theorem sn_multiplicative (two : (2 : K) ≠ 0) : SnMultiplicative ι K where
  point_field_point e on := by
    obtain ⟨A, node⟩ := (PointS.onNode_iff two).mp on
    refine ⟨A, node.1, node.pointToField two, ?_⟩
    intro s P cell value
    obtain ⟨r, run, holds⟩ := snFieldToPointAt_node s P cell (value ▸ node.1)
    rw [value] at holds
    exact ⟨r, run, holds.same node⟩
  field_point_field s P cell nonzero := by
    obtain ⟨r, run, holds⟩ := snFieldToPointAt_node s P cell nonzero
    exact ⟨r, run, (PointS.onNode_iff two).mpr ⟨_, holds⟩, holds.pointToField two⟩
  add s c a b on on' := by
    obtain ⟨A, node⟩ := (PointS.onNode_iff two).mp on
    obtain ⟨B, node'⟩ := (PointS.onNode_iff two).mp on'
    obtain ⟨r, run, holds⟩ := snAddAt_node two c node node'
    exact ⟨r, A, B, run, (PointS.onNode_iff two).mpr ⟨_, holds⟩, node.pointToField two,
      node'.pointToField two, holds.pointToField two⟩
  double s c a on := by
    obtain ⟨A, node⟩ := (PointS.onNode_iff two).mp on
    obtain ⟨r, run, holds⟩ := snDoubleAt_node two c node
    rw [← sq] at holds
    exact ⟨r, A, run, (PointS.onNode_iff two).mpr ⟨_, holds⟩, node.pointToField two,
      holds.pointToField two⟩
  invert s c a on := by
    obtain ⟨A, node⟩ := (PointS.onNode_iff two).mp on
    obtain ⟨r, run, holds⟩ := snInvertAt_node c node
    exact ⟨r, A, run, (PointS.onNode_iff two).mpr ⟨_, holds⟩, node.pointToField two,
      holds.pointToField two⟩

/-- The points over the field of five elements. -/
theorem sn_multiplicative_five : SnMultiplicative Bool (ZMod 5) :=
  sn_multiplicative Bool (by decide)

end Group

section Random

variable {p : ℕ} [prime : Fact p.Prime]

/-- The methods of `F_p` that square roots are taken with. -/
def residueTable (p : ℕ) [Fact p.Prime] : FpTable (ZMod p) where
  mul a b := a * b
  invert a := if a = 0 then none else some (zpInvert a)
  powMpz a n := a ^ n
  is1 a := a = 1

/-- `element_is_sqr` in `F_p`. -/
def residueIsSqr (a : ZMod p) : Bool := if a = 0 then true else legendreSym p a.val = 1

/-- The loop of `sn_random`, from some turn on. A `continue` goes to the condition, which looks at
the `t` of an earlier turn. -/
def snRandomLoop (draws : ℕ → ZMod p) : ℕ → ℕ → ZMod p → Option (ZMod p × ZMod p)
  | 0, _, _ => none
  | fuel + 1, turn, t =>
    let x := draws turn
    let t :=
      if x = 0 then t
      else
        let t := FieldMethods.square x
        let t := t + x
        t * x
    if residueIsSqr t then some (x, t) else snRandomLoop draws fuel (turn + 1) t

/-- `sn_random`, with the nonresidue that the field keeps. -/
def snRandom (nqr : ZMod p) (draws : ℕ → ZMod p) (fuel : ℕ) : Option (PointS (ZMod p)) := do
  let (x, t) ← snRandomLoop draws fuel 0 0
  let y ← fpTonelli (residueTable p) p nqr t
  return ⟨false, x, y⟩

theorem residueTable_implements : (residueTable p).Implements (id : ZMod p → ZMod p) where
  mul _ _ := rfl
  invert _ nonzero := ⟨_, if_neg nonzero, zpInvert_eq nonzero⟩
  powMpz _ _ _ := rfl
  is1 _ _ _ := decide_eq_true_iff

theorem residueIsSqr_iff (a : ZMod p) : residueIsSqr a = true ↔ IsSquare a := by
  by_cases zero : a = 0
  · rw [residueIsSqr, if_pos zero]
    exact iff_of_true rfl (zero ▸ IsSquare.zero)
  · have cast : ((a.val : ℤ) : ZMod p) = a := by
      rw [Int.cast_natCast, ZMod.natCast_zmod_val]
    rw [residueIsSqr, if_neg zero, decide_eq_true_iff, legendreSym.eq_one_iff p (by rwa [cast]),
      cast]

/-- After a rejected turn, or from a turn that draws another number than zero, the loop ends with
an abscissa that is not zero. -/
theorem snRandomLoop_sound {draws : ℕ → ZMod p} {fuel turn : ℕ} {t x t' : ZMod p}
    (start : ¬IsSquare t ∨ draws turn ≠ 0)
    (run : snRandomLoop draws fuel turn t = some (x, t')) :
    x ≠ 0 ∧ t' = x ^ 3 + x ^ 2 ∧ IsSquare t' := by
  induction fuel generalizing turn t with
  | zero => cases run
  | succ fuel ih =>
    rw [snRandomLoop] at run
    by_cases zero : draws turn = 0
    · have rejected := start.resolve_right (not_not.mpr zero)
      rw [if_pos zero, if_neg (mt (residueIsSqr_iff t).mp rejected)] at run
      exact ih (Or.inl rejected) run
    · rw [if_neg zero] at run
      split at run
      · next square =>
        cases run
        refine ⟨zero, ?_, (residueIsSqr_iff _).mp square⟩
        rw [FieldMethods.square_eq]
        ring
      · next square => exact ih (Or.inl (mt (residueIsSqr_iff _).mpr square)) run

/-- What is drawn first decides whether the point can be the node. -/
theorem snRandom_iff (large : 3 < p) {nqr : ZMod p} (nonresidue : ¬IsSquare nqr)
    (draws : ℕ → ZMod p) :
    (∀ fuel r, snRandom nqr draws fuel = some r → r.infFlag = false ∧
      (nodeCurve (ZMod p)).Nonsingular r.x r.y ∧ r.y - r.x ≠ 0) ↔ draws 0 ≠ 0 := by
  have odd : p ≠ 2 := by omega
  have two : (2 : ZMod p) ≠ 0 := by
    intro zero
    have divides := (ZMod.natCast_eq_zero_iff 2 p).mp (by exact_mod_cast zero)
    exact absurd (Nat.le_of_dvd (by decide) divides) (by omega)
  constructor
  · intro right zero
    obtain ⟨y, root, -⟩ := fpTonelli_sq residueTable_implements odd nonresidue
      (IsSquare.zero : IsSquare (id (0 : ZMod p)))
    have loop : snRandomLoop draws 1 0 0 = some (0, 0) := by
      rw [snRandomLoop, zero, if_pos rfl, if_pos ((residueIsSqr_iff 0).mpr IsSquare.zero)]
    have run : snRandom nqr draws 1 = some ⟨false, 0, y⟩ := by
      simp only [snRandom, loop, bind, Option.bind, pure]
      rw [root]
    obtain ⟨-, smooth, -⟩ := right 1 _ run
    exact ((nodeCurve_nonsingular_iff two).mp smooth).2 rfl
  · intro first fuel r run
    obtain ⟨⟨x, t⟩, loop, run⟩ := Option.bind_eq_some_iff.mp run
    obtain ⟨y, tonelli, run⟩ := Option.bind_eq_some_iff.mp run
    cases run
    obtain ⟨nonzero, value, square⟩ := snRandomLoop_sound (Or.inr first) loop
    obtain ⟨y', root, right⟩ := fpTonelli_sq residueTable_implements odd nonresidue square
    cases root.symm.trans tonelli
    have equation : y ^ 2 = x ^ 3 + x ^ 2 := by
      rw [← value]
      exact right
    refine ⟨rfl, (nodeCurve_nonsingular_iff two).mpr ⟨equation, nonzero⟩, ?_⟩
    intro same
    have cube : x ^ 3 = 0 := by
      have equal : y = x := sub_eq_zero.mp same
      rw [equal] at equation
      linear_combination -equation
    exact nonzero (pow_eq_zero_iff three_ne_zero |>.mp cube)

/-- The numbers 1, 3 and so on over the field of five elements. -/
theorem snRandom_five :
    (∀ fuel r, snRandom (2 : ZMod 5) (fun turn => (2 * turn + 1 : ℕ)) fuel = some r →
      r.infFlag = false ∧ (nodeCurve (ZMod 5)).Nonsingular r.x r.y ∧ r.y - r.x ≠ 0) ↔
      ((2 * 0 + 1 : ℕ) : ZMod 5) ≠ 0 :=
  snRandom_iff (by decide) (by decide) fun turn => ((2 * turn + 1 : ℕ) : ZMod 5)

/-- A first zero gives the node. -/
theorem snRandom_node : snRandom (2 : ZMod 5) (fun _ => 0) 1 = some ⟨false, 0, 0⟩ ∧
    ¬(nodeCurve (ZMod 5)).Nonsingular (0 : ZMod 5) 0 := by
  refine ⟨by decide, ?_⟩
  rw [nodeCurve_nonsingular_iff (by decide)]
  rintro ⟨-, nonzero⟩
  exact nonzero rfl

end Random

end Pbc.Ecc
