import Mathlib.Algebra.BigOperators.Group.List.Basic
import Pbc.Arith.IndexCalculus

/-!
# Sparse elimination modulo a prime

The rows of a matrix hold true congruences between the logarithms of the factor base. A relation
stays true as rows are subtracted from it, so it is a true row when it is added, and the rows
count up to a triangular system that the back substitution solves.
-/

open Pbc.Gmp

namespace Pbc.Arith

variable {l : ℕ}

/-- The sum of a list of cells at the logarithms of the factor base. -/
def cellSum (L : ℕ → ZMod l) (cells : List Cell) : ZMod l :=
  (cells.map fun c => (c.data : ZMod l) * L c.ind).sum

@[simp] theorem cellSum_nil (L : ℕ → ZMod l) : cellSum L [] = 0 := rfl

@[simp] theorem cellSum_cons (L : ℕ → ZMod l) (c : Cell) (cells : List Cell) :
    cellSum L (c :: cells) = c.data * L c.ind + cellSum L cells := by
  simp only [cellSum, List.map_cons, List.sum_cons]

@[simp] theorem cellSum_append (L : ℕ → ZMod l) (cells cells' : List Cell) :
    cellSum L (cells ++ cells') = cellSum L cells + cellSum L cells' := by
  simp only [cellSum, List.map_append, List.sum_append]

theorem cellSum_congr {L L' : ℕ → ZMod l} {cells : List Cell}
    (same : ∀ c ∈ cells, L c.ind = L' c.ind) : cellSum L cells = cellSum L' cells :=
  congrArg List.sum (List.map_congr_left fun c member => by rw [same c member])

/-- Cells in the order of their indices, with reduced and nonzero multiplicities. -/
structure ReducedCells (l : ℕ) (good : ℕ → Prop) (cells : List Cell) : Prop where
  sorted : cells.Pairwise fun c d => c.ind < d.ind
  range : ∀ c ∈ cells, 0 < c.data ∧ c.data < l
  good : ∀ c ∈ cells, good c.ind

variable {good : ℕ → Prop} {L : ℕ → ZMod l} {cells rel row : List Cell} {c : Cell}

theorem reduced_cons : ReducedCells l good (c :: cells) ↔
    (∀ d ∈ cells, c.ind < d.ind) ∧ (0 < c.data ∧ c.data < l) ∧ good c.ind ∧ ReducedCells l good cells := by
  constructor
  · rintro ⟨sorted, range, fine⟩
    rw [List.pairwise_cons] at sorted
    rw [List.forall_mem_cons] at range fine
    exact ⟨sorted.1, range.1, fine.1, sorted.2, range.2, fine.2⟩
  · rintro ⟨before, inside, fine, reduced⟩
    exact ⟨List.pairwise_cons.mpr ⟨before, reduced.sorted⟩,
      List.forall_mem_cons.mpr ⟨inside, reduced.range⟩,
      List.forall_mem_cons.mpr ⟨fine, reduced.good⟩⟩

theorem ReducedCells.sublist {cells' : List Cell} (reduced : ReducedCells l good cells)
    (sub : cells'.Sublist cells) : ReducedCells l good cells' :=
  ⟨reduced.sorted.sublist sub, fun c member => reduced.range c (sub.subset member),
    fun c member => reduced.good c (sub.subset member)⟩

/-- The cells of a relation modulo a factor have the sum of the relation. -/
theorem reduceCells_sum (rel : List Cell) : cellSum L (reduceCells l rel) = cellSum L rel := by
  induction rel with
  | nil => rfl
  | cons c rel ih =>
    rw [reduceCells] at ih ⊢
    rw [List.map_cons, cellSum_cons, ← ih]
    by_cases zero : c.data % l = 0
    · have vanish : (c.data : ZMod l) = 0 := by
        rw [ZMod.intCast_zmod_eq_zero_iff_dvd]
        exact Int.dvd_of_emod_eq_zero zero
      rw [List.filter_cons_of_neg (by simp [zero]), vanish, zero_mul, zero_add]
    · rw [List.filter_cons_of_pos (by simp [zero]), cellSum_cons, ZMod.intCast_mod]

theorem reduceCells_reduced (positive : 0 < l) (sorted : rel.Pairwise fun c d => c.ind < d.ind)
    (fine : ∀ c ∈ rel, good c.ind) : ReducedCells l good (reduceCells l rel) := by
  refine ⟨?_, fun c member => ?_, fun c member => ?_⟩
  · refine List.Pairwise.filter _ (List.pairwise_map.mpr sorted)
  all_goals
    obtain ⟨member, nonzero⟩ := List.mem_filter.mp member
    obtain ⟨d, source, rfl⟩ := List.mem_map.mp member
  · have lower := Int.emod_nonneg d.data (b := l) (by omega)
    exact ⟨lt_of_le_of_ne lower (Ne.symm (of_decide_eq_true nonzero)),
      Int.emod_lt_of_pos _ (by omega)⟩
  · exact fine d source

/-- Subtraction of a multiple of a row from a relation. -/
theorem subCells_sum (z0 : ℤ) (rel row : List Cell) :
    cellSum L (subCells l z0 rel row) = cellSum L rel - z0 * cellSum L row := by
  have multiple (c : Cell) : ((z0 * c.data % l : ℤ) : ZMod l) = z0 * c.data := by
    rw [ZMod.intCast_mod, Int.cast_mul]
  have order : ((l : ℤ) : ZMod l) = 0 := by rw [Int.cast_natCast, ZMod.natCast_self]
  fun_induction subCells l z0 rel row with
  | case1 row =>
    induction row with
    | nil => simp
    | cons c row ih =>
      simp only [List.map_cons, cellSum_cons, cellSum_nil, Int.cast_sub, multiple, order] at ih ⊢
      rw [ih]
      ring
  | case2 rel _ => simp
  | case3 ci rel cj row same equal ih =>
    have equal := congrArg (Int.cast : ℤ → ZMod l) equal
    rw [multiple] at equal
    rw [ih, cellSum_cons, cellSum_cons, ← equal, same]
    ring
  | case4 ci rel cj row same differ above ih =>
    simp only [cellSum_cons, ih, Int.cast_add, Int.cast_sub, multiple, order, same]
    ring
  | case5 ci rel cj row same differ above ih =>
    simp only [cellSum_cons, ih, Int.cast_sub, multiple, same]
    ring
  | case6 ci rel cj row differ above ih =>
    simp only [cellSum_cons, ih, Int.cast_sub, multiple, order]
    ring
  | case7 ci rel cj row differ above ih =>
    simp only [cellSum_cons, ih]
    ring

/-- Subtraction of a multiple of the constant of a row. -/
theorem subLog_cast (z0 km log : ℤ) : (subLog l z0 km log : ZMod l) = km - z0 * log := by
  have order : ((l : ℤ) : ZMod l) = 0 := by rw [Int.cast_natCast, ZMod.natCast_self]
  rw [subLog]
  split
  · rw [Int.cast_sub, ZMod.intCast_mod, Int.cast_mul]
  · rw [Int.cast_add, Int.cast_sub, ZMod.intCast_mod, Int.cast_mul, order]
    ring

/-- The cells of the difference are cells of the relation or of the row. -/
theorem subCells_ind {order z0 : ℤ} {inside : ℕ → Prop} (rel row : List Cell)
    (left : ∀ c ∈ rel, inside c.ind) (right : ∀ c ∈ row, inside c.ind) :
    ∀ c ∈ subCells order z0 rel row, inside c.ind := by
  fun_induction subCells order z0 rel row with
  | case1 row =>
    intro c member
    obtain ⟨d, source, rfl⟩ := List.mem_map.mp member
    exact right d source
  | case2 rel _ => exact left
  | case3 ci rel cj row same equal ih =>
    exact ih (List.forall_mem_cons.mp left).2 (List.forall_mem_cons.mp right).2
  | case4 ci rel cj row same differ more ih =>
    rw [List.forall_mem_cons] at left right ⊢
    exact ⟨left.1, ih left.2 right.2⟩
  | case5 ci rel cj row same differ more ih =>
    rw [List.forall_mem_cons] at left right ⊢
    exact ⟨left.1, ih left.2 right.2⟩
  | case6 ci rel cj row differ more ih =>
    rw [List.forall_mem_cons]
    exact ⟨(List.forall_mem_cons.mp right).1, ih left (List.forall_mem_cons.mp right).2⟩
  | case7 ci rel cj row differ more ih =>
    rw [List.forall_mem_cons]
    exact ⟨(List.forall_mem_cons.mp left).1, ih (List.forall_mem_cons.mp left).2 right⟩

/-- A row for an index: its last cell is one, and its constant is the sum of its cells. -/
structure RowFor (l : ℕ) (good : ℕ → Prop) (L : ℕ → ZMod l) (i : ℕ) (rp : Row) : Prop where
  reduced : ReducedCells l good rp.cells
  last : ∃ before c, rp.cells = before ++ [c] ∧ c.ind = i ∧ (c.data : ZMod l) = 1
  sum : (rp.log : ZMod l) = cellSum L rp.cells

/-- All cells of a row but its last one. -/
theorem RowFor.log_eq {i : ℕ} {rp : Row} (row : RowFor l good L i rp) :
    (rp.log : ZMod l) = cellSum L rp.cells.dropLast + L i := by
  obtain ⟨before, c, cells, rfl, one⟩ := row.last
  rw [row.sum, cells, List.dropLast_concat, cellSum_append, cellSum_cons, cellSum_nil, one, one_mul,
    add_zero]

/-- The cells before the last one have smaller indices. -/
theorem RowFor.before {i : ℕ} {rp : Row} (row : RowFor l good L i rp) :
    ∀ c ∈ rp.cells.dropLast, c.ind < i := by
  obtain ⟨before, c, cells, rfl, -⟩ := row.last
  have sorted := row.reduced.sorted
  rw [cells, List.pairwise_append] at sorted
  intro d member
  rw [cells, List.dropLast_concat] at member
  exact sorted.2.2 d member c (List.mem_singleton_self c)

theorem RowFor.good_ind {i : ℕ} {rp : Row} (row : RowFor l good L i rp) : good i := by
  obtain ⟨before, c, cells, rfl, -⟩ := row.last
  exact row.reduced.good c (cells ▸ List.mem_concat_self)

/-- The matrix of a factor: rows of the right length that hold true congruences. -/
structure Matrix.Holds (M : Matrix) (l r : ℕ) (good : ℕ → Prop) (L : ℕ → ZMod l) : Prop where
  order : M.order = l
  length : M.row.length = r
  rows : ∀ i rp, M.rowAt i = some rp → RowFor l good L i rp

/-- The number of rows of a matrix. -/
def Matrix.filled (M : Matrix) : ℕ := M.row.countP Option.isSome

variable {M M' : Matrix} {r : ℕ}

section Prime

variable [prime : Fact l.Prime]

private theorem cell_ne_zero (inside : 0 < c.data ∧ c.data < l) : (c.data : ZMod l) ≠ 0 := by
  rw [Ne, ZMod.intCast_zmod_eq_zero_iff_dvd]
  exact fun divides => absurd (Int.le_of_dvd inside.1 divides) (not_le.mpr inside.2)

private theorem multiple_range {z0 : ℤ} (unit : (z0 : ZMod l) ≠ 0) (inside : 0 < c.data ∧ c.data < l) :
    0 < z0 * c.data % l ∧ z0 * c.data % l < l := by
  have positive : 0 < (l : ℤ) := by exact_mod_cast prime.out.pos
  refine ⟨lt_of_le_of_ne (Int.emod_nonneg _ positive.ne') fun zero => ?_, Int.emod_lt_of_pos _ positive⟩
  have vanish := (ZMod.intCast_zmod_eq_zero_iff_dvd _ l).mpr (Int.dvd_of_emod_eq_zero zero.symm)
  rw [Int.cast_mul] at vanish
  exact mul_ne_zero unit (cell_ne_zero inside) vanish

/-- The difference is reduced as the relation and the row are. -/
theorem subCells_reduced {z0 : ℤ} (unit : (z0 : ZMod l) ≠ 0) (rel row : List Cell)
    (left : ReducedCells l good rel) (right : ReducedCells l good row) :
    ReducedCells l good (subCells l z0 rel row) := by
  fun_induction subCells l z0 rel row with
  | case1 row =>
    refine ⟨List.pairwise_map.mpr right.sorted, fun c member => ?_, fun c member => ?_⟩
    all_goals obtain ⟨d, source, rfl⟩ := List.mem_map.mp member
    · have := multiple_range unit (right.range d source)
      exact ⟨by dsimp only; omega, by dsimp only; omega⟩
    · exact right.good d source
  | case2 rel _ => exact left
  | case3 ci rel cj row same equal ih =>
    exact ih (reduced_cons.mp left).2.2.2 (reduced_cons.mp right).2.2.2
  | case4 ci rel cj row same differ more ih | case5 ci rel cj row same differ more ih =>
    obtain ⟨below, inside, fine, left⟩ := reduced_cons.mp left
    obtain ⟨below', inside', -, right⟩ := reduced_cons.mp right
    have := multiple_range unit inside'
    refine reduced_cons.mpr ⟨?_, ⟨by dsimp only; omega, by dsimp only; omega⟩, fine, ih left right⟩
    exact subCells_ind rel row below (by rwa [same])
  | case6 ci rel cj row differ more ih =>
    obtain ⟨below', inside', fine', right⟩ := reduced_cons.mp right
    have := multiple_range unit inside'
    refine reduced_cons.mpr ⟨?_, ⟨by dsimp only; omega, by dsimp only; omega⟩, fine', ih left right⟩
    refine subCells_ind _ row (List.forall_mem_cons.mpr ⟨more, fun d member => ?_⟩) below'
    exact more.trans ((reduced_cons.mp left).1 d member)
  | case7 ci rel cj row differ more ih =>
    obtain ⟨below, inside, fine, left⟩ := reduced_cons.mp left
    have before : ci.ind < cj.ind := by omega
    refine reduced_cons.mpr ⟨?_, inside, fine, ih left right⟩
    refine subCells_ind rel _ below (List.forall_mem_cons.mpr ⟨before, fun d member => ?_⟩)
    exact before.trans ((reduced_cons.mp right).1 d member)

/-- A new row holds a true congruence if the relation is true. -/
theorem Matrix.Holds.addRow {undefined : ℤ → ℤ → ℤ} (holds : M.Holds l r good L) {last : Cell}
    {before : List Cell} {km : ℤ} (reduced : ReducedCells l good (before ++ [last]))
    (sum : (km : ZMod l) = cellSum L (before ++ [last])) :
    (M.addRow undefined last km (before ++ [last])).Holds l r good L := by
  have inside := reduced.range last List.mem_concat_self
  obtain ⟨z0, inverted, value⟩ := mpzInvert_cast (cell_ne_zero inside)
  have inverse : mpzInvertOr undefined last.data M.order = z0 := by
    rw [mpzInvertOr, holds.order, Int.natAbs_natCast, inverted, Option.getD_some]
  have unit : (z0 : ZMod l) ≠ 0 := value ▸ inv_ne_zero (cell_ne_zero inside)
  have scaled (cells : List Cell) :
      cellSum L (cells.map fun c => ⟨c.ind, c.data * z0 % l⟩) = cellSum L cells * z0 := by
    induction cells with
    | nil => rw [List.map_nil, cellSum_nil, zero_mul]
    | cons c cells ih =>
      rw [List.map_cons, cellSum_cons, ih, cellSum_cons, ZMod.intCast_mod, Int.cast_mul]
      ring
  have row : RowFor l good L last.ind
      ⟨km * z0 % l, (before ++ [last]).map fun c => ⟨c.ind, c.data * z0 % l⟩⟩ := by
    refine ⟨⟨?_, fun c member => ?_, fun c member => ?_⟩, ?_, ?_⟩
    · exact List.pairwise_map.mpr reduced.sorted
    · obtain ⟨d, source, rfl⟩ := List.mem_map.mp member
      have range := multiple_range unit (reduced.range d source)
      rwa [mul_comm] at range
    · obtain ⟨d, source, rfl⟩ := List.mem_map.mp member
      exact reduced.good d source
    · refine ⟨_, _, List.map_append, rfl, ?_⟩
      rw [ZMod.intCast_mod, Int.cast_mul, value, mul_inv_cancel₀ (cell_ne_zero inside)]
    · dsimp only
      rw [scaled, ZMod.intCast_mod, Int.cast_mul, sum]
  refine ⟨holds.order, ?_, fun i rp found => ?_⟩
  · rw [Matrix.addRow, List.length_set, holds.length]
  · rw [Matrix.addRow, inverse, holds.order] at found
    rw [Matrix.rowAt, List.getElem?_set] at found
    split at found
    · next same =>
      split at found
      · rw [Option.join_some] at found
        obtain rfl := Option.some.inj found
        exact same ▸ row
      · exact absurd found nofun
    · exact holds.rows i rp found

/-- A new row counts. -/
theorem Matrix.filled_addRow {undefined : ℤ → ℤ → ℤ} {last : Cell} {km : ℤ} {relm : List Cell}
    (small : last.ind < M.row.length) (empty : M.rowAt last.ind = none) :
    (M.addRow undefined last km relm).filled = M.filled + 1 := by
  have entry : M.row[last.ind] = none := by
    rw [Matrix.rowAt, List.getElem?_eq_getElem small, Option.join_some] at empty
    exact empty
  rw [Matrix.filled, Matrix.filled, Matrix.addRow, List.countP_set small, entry]
  rfl

/-- What one turn does with a relation: it is redundant, it becomes a row, or a row reduces it. -/
theorem Matrix.addRelation_cases {undefined : ℤ → ℤ → ℤ} {fuel count count' : ℕ} {km : ℤ}
    {relm : List Cell} (run : M.addRelation undefined (fuel + 1) km relm count = some (M', count')) :
    (M' = M ∧ count' = count) ∨ ∃ before last, relm = before ++ [last] ∧
      ((M.rowAt last.ind = none ∧ M' = M.addRow undefined last km relm ∧ count' = count + 1) ∨
        ∃ rp, M.rowAt last.ind = some rp ∧
          M.addRelation undefined fuel (subLog M.order last.data km rp.log)
            (subCells M.order last.data before rp.cells.dropLast) count = some (M', count')) := by
  rw [Matrix.addRelation] at run
  rcases List.eq_nil_or_concat relm with rfl | ⟨before, last, rfl⟩
  · obtain ⟨rfl, rfl⟩ := Prod.mk.inj (Option.some.inj run)
    exact .inl ⟨rfl, rfl⟩
  rw [List.concat_eq_append] at run ⊢
  rw [List.getLast?_concat] at run
  dsimp only at run
  split at run
  · obtain ⟨rfl, rfl⟩ := Prod.mk.inj (Option.some.inj run)
    exact .inl ⟨rfl, rfl⟩
  refine .inr ⟨before, last, rfl, ?_⟩
  split at run
  · next empty =>
    obtain ⟨rfl, rfl⟩ := Prod.mk.inj (Option.some.inj run)
    exact .inl ⟨empty, rfl, rfl⟩
  · next rp found =>
    rw [List.dropLast_concat] at run
    exact .inr ⟨rp, found, run⟩

/-- One relation keeps the rows true and counts the new row. -/
theorem Matrix.Holds.addRelation {undefined : ℤ → ℤ → ℤ} (inside : ∀ i, good i → i < r)
    {fuel count count' : ℕ} {km : ℤ} {relm : List Cell} (holds : M.Holds l r good L)
    (reduced : ReducedCells l good relm) (sum : (km : ZMod l) = cellSum L relm)
    (run : M.addRelation undefined fuel km relm count = some (M', count')) :
    M'.Holds l r good L ∧ M'.filled + count = M.filled + count' := by
  induction fuel generalizing km relm with
  | zero => exact absurd run nofun
  | succ fuel ih =>
    obtain ⟨rfl, rfl⟩ | ⟨before, last, rfl, ⟨empty, rfl, rfl⟩ | ⟨rp, found, rest⟩⟩ :=
      Matrix.addRelation_cases run
    · exact ⟨holds, rfl⟩
    · have small : last.ind < M.row.length := by
        rw [holds.length]
        exact inside _ (reduced.good last List.mem_concat_self)
      refine ⟨holds.addRow reduced sum, ?_⟩
      rw [Matrix.filled_addRow small empty]
      omega
    · have row := holds.rows _ rp found
      have unit := cell_ne_zero (reduced.range last List.mem_concat_self)
      rw [holds.order] at rest
      refine ih ?_ ?_ rest
      · refine subCells_reduced unit _ _ (reduced.sublist (List.sublist_append_left _ _)) ?_
        exact row.reduced.sublist (List.dropLast_sublist _)
      · rw [subLog_cast, subCells_sum, sum, row.log_eq, cellSum_append, cellSum_cons, cellSum_nil]
        ring

end Prime

section Substitution

variable {M N : Matrix} {r i : ℕ}

/-- A matrix with as many rows as there are indices has a row for each. -/
theorem Matrix.Holds.row_of_filled (holds : M.Holds l r good L) (full : M.filled = r) (small : i < r) :
    ∃ rp, M.rowAt i = some rp ∧ RowFor l good L i rp := by
  have inside : i < M.row.length := holds.length ▸ small
  have all := List.countP_eq_length.mp (full.trans holds.length.symm) _ (List.getElem_mem inside)
  obtain ⟨rp, entry⟩ := Option.isSome_iff_exists.mp all
  have found : M.rowAt i = some rp := by
    rw [Matrix.rowAt, List.getElem?_eq_getElem inside, entry, Option.join_some]
  exact ⟨rp, found, holds.rows i rp found⟩

/-- The rows of a matrix up to the constants. -/
def Matrix.SameCells (M N : Matrix) : Prop :=
  N.order = M.order ∧ N.row.length = M.row.length ∧
    ∀ i, (N.rowAt i).map Row.cells = (M.rowAt i).map Row.cells

theorem Matrix.SameCells.refl (M : Matrix) : M.SameCells M := ⟨rfl, rfl, fun _ => rfl⟩

theorem Matrix.SameCells.trans {M₁ M₂ M₃ : Matrix} (first : M₁.SameCells M₂)
    (second : M₂.SameCells M₃) : M₁.SameCells M₃ :=
  ⟨second.1.trans first.1, second.2.1.trans first.2.1, fun i => (second.2.2 i).trans (first.2.2 i)⟩

theorem Matrix.rowAt_setLog (M : Matrix) (i j : ℕ) (c0 : ℤ) :
    (M.setLog i c0).rowAt j =
      if i = j then (M.rowAt j).map fun rp => { rp with log := c0 } else M.rowAt j := by
  rw [Matrix.rowAt, Matrix.rowAt, Matrix.setLog, List.getElem?_modify]
  split
  · cases M.row[j]? with
    | none => rfl
    | some entry => cases entry <;> rfl
  · rw [id_map']

theorem Matrix.sameCells_setLog (M : Matrix) (i : ℕ) (c0 : ℤ) : M.SameCells (M.setLog i c0) := by
  refine ⟨rfl, List.length_modify _ _ _, fun j => ?_⟩
  rw [Matrix.rowAt_setLog]
  split
  · cases M.rowAt j <;> rfl
  · rfl

theorem Matrix.log_setLog_ne (M : Matrix) {i j : ℕ} (apart : i ≠ j) (c0 : ℤ) :
    (M.setLog i c0).log j = M.log j := by
  rw [Matrix.log, Matrix.rowAt_setLog, if_neg apart, Matrix.log]

theorem Matrix.log_setLog_self {rp : Row} (found : M.rowAt i = some rp) (c0 : ℤ) :
    (M.setLog i c0).log i = c0 := by
  rw [Matrix.log, Matrix.rowAt_setLog, if_pos rfl, found]
  rfl

/-- One row after the subtraction of rows with smaller indices. -/
private theorem foldl_setLog {rp : Row} (cells : List Cell) (order : M.order = l)
    (found : M.rowAt i = some rp) (before : ∀ c ∈ cells, c.ind < i) :
    ∃ N, cells.foldl (fun M c => M.setLog i ((M.log i - c.data * M.log c.ind) % M.order)) M = N ∧
      M.SameCells N ∧ (∀ j, j ≠ i → N.log j = M.log j) ∧
      (N.log i : ZMod l) = M.log i - cellSum (fun j => (M.log j : ZMod l)) cells := by
  induction cells generalizing M rp with
  | nil => exact ⟨M, rfl, Matrix.SameCells.refl M, fun _ _ => rfl, by rw [cellSum_nil, sub_zero]⟩
  | cons c cells ih =>
    obtain ⟨below, before⟩ := List.forall_mem_cons.mp before
    set M' := M.setLog i ((M.log i - c.data * M.log c.ind) % M.order) with changed
    have found' : M'.rowAt i = some { rp with log := (M.log i - c.data * M.log c.ind) % M.order } := by
      rw [changed, Matrix.rowAt_setLog, if_pos rfl, found]
      rfl
    obtain ⟨N, run, same, others, value⟩ := ih (M := M') order found' before
    have logs : ∀ j, j ≠ i → M'.log j = M.log j := fun j apart => M.log_setLog_ne apart.symm _
    refine ⟨N, run, (M.sameCells_setLog i _).trans same, fun j apart => ?_, ?_⟩
    · rw [others j apart, logs j apart]
    · have sum : cellSum (fun j => (M'.log j : ZMod l)) cells =
          cellSum (fun j => (M.log j : ZMod l)) cells :=
        cellSum_congr fun d member => congrArg Int.cast (logs d.ind (before d member).ne)
      rw [value, sum, changed, Matrix.log_setLog_self found, order, ZMod.intCast_mod, cellSum_cons]
      push_cast
      ring

/-- One row is solved by the rows below it. -/
private theorem Matrix.Holds.substitute (holds : M.Holds l r good L) (full : M.filled = r)
    (small : i < r) (same : M.SameCells N) (fresh : ∀ j, i ≤ j → N.log j = M.log j)
    (solved : ∀ j, j < i → (N.log j : ZMod l) = L j) :
    M.SameCells (N.substitute i) ∧ (∀ j, i + 1 ≤ j → (N.substitute i).log j = M.log j) ∧
      ∀ j, j < i + 1 → ((N.substitute i).log j : ZMod l) = L j := by
  obtain ⟨rp, found, row⟩ := holds.row_of_filled full small
  obtain ⟨rp', found', cells⟩ : ∃ rp', N.rowAt i = some rp' ∧ rp'.cells = rp.cells := by
    have equal := same.2.2 i
    rw [found] at equal
    exact Option.map_eq_some_iff.mp equal
  have before : ∀ c ∈ rp'.cells.dropLast, c.ind < i := cells ▸ row.before
  obtain ⟨N', run, same', others, value⟩ :=
    foldl_setLog rp'.cells.dropLast (same.1.trans holds.order) found' before
  have result : N.substitute i = N' := by
    rw [Matrix.substitute, found', ← run]
    rfl
  rw [result]
  refine ⟨same.trans same', fun j above => ?_, fun j below => ?_⟩
  · rw [others j (by omega), fresh j (by omega)]
  rcases Nat.lt_succ_iff_lt_or_eq.mp below with below | rfl
  · rw [others j below.ne, solved j below]
  · have sum : cellSum (fun j => (N.log j : ZMod l)) rp'.cells.dropLast =
        cellSum L rp.cells.dropLast := by
      rw [← cells]
      exact cellSum_congr fun d member => solved d.ind (before d member)
    have start : (M.log j : ZMod l) = rp.log := by rw [Matrix.log, found]; rfl
    rw [value, sum, fresh j le_rfl, start, row.log_eq, add_sub_cancel_left]

/-- Back substitution in a full matrix gives the logarithms. -/
theorem Matrix.Holds.backSubstitute (holds : M.Holds l r good L) (full : M.filled = r)
    (small : i < r) : (M.backSubstitute.log i : ZMod l) = L i := by
  have first : (M.log 0 : ZMod l) = L 0 := by
    obtain ⟨rp, found, row⟩ := holds.row_of_filled full (Nat.zero_lt_of_lt small)
    have none : rp.cells.dropLast = [] := List.eq_nil_iff_forall_not_mem.mpr fun c member =>
      absurd (row.before c member) (Nat.not_lt_zero _)
    rw [Matrix.log, found, Option.elim_some, row.log_eq, none, cellSum_nil, zero_add]
  have run (n : ℕ) (inside : n + 1 ≤ r) : ∃ N,
      (List.range' 1 n).foldl Matrix.substitute M = N ∧ M.SameCells N ∧
        (∀ j, n + 1 ≤ j → N.log j = M.log j) ∧ ∀ j, j < n + 1 → (N.log j : ZMod l) = L j := by
    induction n with
    | zero =>
      refine ⟨M, rfl, Matrix.SameCells.refl M, fun _ _ => rfl, fun j below => ?_⟩
      obtain rfl : j = 0 := by omega
      exact first
    | succ n ih =>
      obtain ⟨N, run, same, fresh, solved⟩ := ih (by omega)
      refine ⟨N.substitute (n + 1), ?_, holds.substitute full inside same fresh solved⟩
      rw [List.range'_concat, List.foldl_append, run, one_mul, add_comm 1 n]
      rfl
  obtain ⟨N, run, -, -, solved⟩ := run (r - 1) (by omega)
  rw [Matrix.backSubstitute, holds.length, run]
  exact solved i (by omega)

end Substitution

end Pbc.Arith
