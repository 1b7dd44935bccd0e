import Mathlib.Data.List.Basic
import Mathlib.Logic.Equiv.Basic
import Mathlib.SetTheory.Cardinal.Finite

/-!
# Rejection sampling

A sampler reads blocks of symbols from a tape and keeps the first value it accepts. A
rearrangement of the blocks that exchanges two accepted values rearranges the tapes, so as many
tapes of one length lead to the one value as to the other.
-/

namespace Pbc.Number

variable {α β : Type}

/-- The first accepted value, or else the last one; `last` where there is none. -/
def firstGood (good : β → Bool) : β → List β → β
  | last, [] => last
  | _, value :: values => if good value then value else firstGood good value values

/-- The values of the blocks of `k` symbols at the front of a tape, `count` of them at most. -/
def blockValues (value : List α → β) (k : ℕ) : ℕ → List α → List β
  | 0, _ => []
  | count + 1, tape =>
    if tape.length < k then [] else
      value (tape.take k) :: blockValues value k count (tape.drop k)

/-- A tape with the blocks at its front rearranged. -/
def mapBlocks (f : List α → List α) (k : ℕ) : ℕ → List α → List α
  | 0, tape => tape
  | count + 1, tape =>
    if tape.length < k then tape else f (tape.take k) ++ mapBlocks f k count (tape.drop k)

theorem firstGood_cons (good : β → Bool) (last value : β) (values : List β) :
    firstGood good last (value :: values) =
      if good value then value else firstGood good value values := rfl

/-- The result is accepted as soon as one of the values is. -/
theorem firstGood_good (good : β → Bool) (last : β) (values : List β) :
    good (firstGood good last values) = true ↔
      (∃ value ∈ values, good value = true) ∨ values = [] ∧ good last = true := by
  induction values generalizing last with
  | nil => simp [firstGood]
  | cons value values ih =>
    rw [firstGood_cons]
    by_cases accepted : good value = true
    · simp [accepted]
    · rw [if_neg accepted, ih]
      simp [accepted]

/-- The result is one of the values, where there is a value at all. -/
theorem firstGood_mem (good : β → Bool) (last : β) (values : List β) :
    firstGood good last values ∈ last :: values := by
  induction values generalizing last with
  | nil => exact List.mem_cons_self
  | cons value values ih =>
    rw [firstGood_cons]
    by_cases accepted : good value = true
    · rw [if_pos accepted]
      exact List.mem_cons_of_mem _ List.mem_cons_self
    · rw [if_neg accepted]
      exact List.mem_cons_of_mem _ (ih _)

/-- The same value again and again. -/
theorem firstGood_replicate (good : β → Bool) (last value : β) {count : ℕ} (positive : 0 < count) :
    firstGood good last (List.replicate count value) = value := by
  have member := firstGood_mem good value (List.replicate (count - 1) value)
  obtain ⟨count, rfl⟩ := Nat.exists_eq_succ_of_ne_zero positive.ne'
  rw [List.replicate_succ, firstGood_cons]
  by_cases accepted : good value = true
  · rw [if_pos accepted]
  · rw [if_neg accepted]
    rw [Nat.succ_sub_one, List.mem_cons] at member
    exact member.elim id List.eq_of_mem_replicate

/-- A map that respects the test carries the result along, where there is a value at all. -/
theorem firstGood_map {good : β → Bool} {g : β → β} (respects : ∀ b, good (g b) = good b)
    (last : β) {values : List β} (some : values ≠ []) :
    firstGood good last (values.map g) = g (firstGood good last values) := by
  induction values generalizing last with
  | nil => exact absurd rfl some
  | cons value values ih =>
    rw [List.map_cons, firstGood_cons, firstGood_cons, respects]
    by_cases accepted : good value = true
    · rw [if_pos accepted, if_pos accepted]
    · rw [if_neg accepted, if_neg accepted]
      cases values with
      | nil => rfl
      | cons value' values =>
        have rest (last : β) := ih last (List.cons_ne_nil _ _)
        rw [List.map_cons, firstGood_cons, ← firstGood_cons, ← List.map_cons, rest (g value)]
        rfl

section Blocks

variable {f : List α → List α} {k : ℕ}

theorem mapBlocks_succ (count : ℕ) (tape : List α) : mapBlocks f k (count + 1) tape =
    if tape.length < k then tape else f (tape.take k) ++ mapBlocks f k count (tape.drop k) := rfl

theorem blockValues_succ (value : List α → β) (count : ℕ) (tape : List α) :
    blockValues value k (count + 1) tape = if tape.length < k then [] else
      value (tape.take k) :: blockValues value k count (tape.drop k) := rfl

theorem length_mapBlocks (keeps : ∀ block, (f block).length = block.length) (count : ℕ)
    (tape : List α) : (mapBlocks f k count tape).length = tape.length := by
  induction count generalizing tape with
  | zero => rfl
  | succ count ih =>
    rw [mapBlocks_succ]
    by_cases short : tape.length < k
    · rw [if_pos short]
    · rw [if_neg short, List.length_append, keeps, ih, ← List.length_append, List.take_append_drop]

/-- The rearranged block stands where the block stood. -/
theorem take_mapBlocks (keeps : ∀ block, (f block).length = block.length) {tape : List α}
    (long : k ≤ tape.length) (rest : List α) :
    (f (tape.take k) ++ rest).take k = f (tape.take k) ∧
      (f (tape.take k) ++ rest).drop k = rest := by
  have width : (f (tape.take k)).length = k := by rw [keeps, List.length_take, min_eq_left long]
  exact ⟨List.take_left' width, List.drop_left' width⟩

theorem mapBlocks_involutive (keeps : ∀ block, (f block).length = block.length)
    (involutive : ∀ block, block.length = k → f (f block) = block) (count : ℕ) (tape : List α) :
    mapBlocks f k count (mapBlocks f k count tape) = tape := by
  induction count generalizing tape with
  | zero => rfl
  | succ count ih =>
    have width := length_mapBlocks (f := f) (k := k) keeps (count + 1) tape
    rw [mapBlocks_succ, width]
    by_cases short : tape.length < k
    · rw [if_pos short, mapBlocks_succ, if_pos short]
    · have long := Nat.le_of_not_lt short
      obtain ⟨front, back⟩ := take_mapBlocks keeps long (mapBlocks f k count (tape.drop k))
      have block : (tape.take k).length = k := by rw [List.length_take, min_eq_left long]
      rw [if_neg short, mapBlocks_succ, if_neg short, front, back, involutive _ block, ih,
        List.take_append_drop]

/-- The values of the rearranged tape are the rearranged values. -/
theorem blockValues_mapBlocks {value : List α → β} {g : β → β}
    (keeps : ∀ block, (f block).length = block.length)
    (carries : ∀ block, block.length = k → value (f block) = g (value block)) (count : ℕ)
    (tape : List α) :
    blockValues value k count (mapBlocks f k count tape) =
      (blockValues value k count tape).map g := by
  induction count generalizing tape with
  | zero => rfl
  | succ count ih =>
    have width := length_mapBlocks (f := f) (k := k) keeps (count + 1) tape
    rw [blockValues_succ, blockValues_succ, width]
    by_cases short : tape.length < k
    · rw [if_pos short, if_pos short, List.map_nil]
    · have long := Nat.le_of_not_lt short
      obtain ⟨front, back⟩ := take_mapBlocks keeps long (mapBlocks f k count (tape.drop k))
      have block : (tape.take k).length = k := by rw [List.length_take, min_eq_left long]
      rw [if_neg short, if_neg short, mapBlocks_succ, if_neg short, front, back, carries _ block, ih,
        List.map_cons]

theorem blockValues_ne_nil {value : List α → β} {count : ℕ} {tape : List α} (positive : 0 < count)
    (long : k ≤ tape.length) : blockValues value k count tape ≠ [] := by
  obtain ⟨count, rfl⟩ := Nat.exists_eq_succ_of_ne_zero positive.ne'
  rw [blockValues_succ, if_neg (Nat.not_lt.2 long)]
  exact List.cons_ne_nil _ _

theorem blockValues_comp {γ : Type} (g : β → γ) (value : List α → β) (k count : ℕ)
    (tape : List α) :
    blockValues (fun block => g (value block)) k count tape =
      (blockValues value k count tape).map g := by
  induction count generalizing tape with
  | zero => rfl
  | succ count ih =>
    rw [blockValues_succ, blockValues_succ, ih]
    split_ifs
    · rfl
    · rfl

/-- **Uniformity.** Where some rearrangement of the blocks exchanges two accepted values, equally
many tapes lead to the one and to the other. -/
theorem card_firstGood_eq [DecidableEq β] {value : List α → β} {good : β → Bool} {v w : β}
    (accepted : good v = true) (accepted' : good w = true)
    (keeps : ∀ block, (f block).length = block.length)
    (involutive : ∀ block, block.length = k → f (f block) = block)
    (exchanges : ∀ block, block.length = k → value (f block) = Equiv.swap v w (value block))
    {count : ℕ} (positive : 0 < count) (last : β) {length : ℕ} (long : k ≤ length) :
    Nat.card {tape : List α // tape.length = length ∧
        firstGood good last (blockValues value k count tape) = v} =
      Nat.card {tape : List α // tape.length = length ∧
        firstGood good last (blockValues value k count tape) = w} := by
  have respects (b : β) : good (Equiv.swap v w b) = good b := by
    rcases eq_or_ne b v with rfl | notV
    · rw [Equiv.swap_apply_left, accepted, accepted']
    · rcases eq_or_ne b w with rfl | notW
      · rw [Equiv.swap_apply_right, accepted, accepted']
      · rw [Equiv.swap_apply_of_ne_of_ne notV notW]
  have rearrange := mapBlocks_involutive (k := k) keeps involutive count
  refine Nat.card_congr ((Function.Involutive.toPerm _ rearrange).subtypeEquiv fun tape => ?_)
  change _ ↔ (mapBlocks f k count tape).length = length ∧
    firstGood good last (blockValues value k count (mapBlocks f k count tape)) = w
  rw [length_mapBlocks keeps]
  refine and_congr_right fun width => ?_
  rw [blockValues_mapBlocks keeps exchanges, firstGood_map respects last
    (blockValues_ne_nil positive (long.trans width.ge)), Equiv.swap_apply_eq_iff,
    Equiv.swap_apply_right]

end Blocks

end Pbc.Number
