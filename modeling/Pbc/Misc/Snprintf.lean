import Mathlib.Data.Int.Basic
import Mathlib.Logic.Function.Basic
import Mathlib.Tactic.Ring

/-!
# Bounded printing

`snprintf` as C99 describes it stores as many characters of a text as fit in front of a
final zero, and returns the length of the whole text. Texts that are printed one behind the
other, each into what the ones before have left of a buffer, make up one text.
-/

namespace Pbc.Misc

/-- A memory of characters. -/
abbrev CharMemory := ℕ → Char

/-- The character that ends a string. -/
def nul : Char := Char.ofNat 0

/-- Characters stored one behind the other. -/
def storeChars (m : CharMemory) (s : ℕ) : List Char → CharMemory
  | [] => m
  | c :: text => storeChars (Function.update m s c) (s + 1) text

/-- What is in memory after a text is printed into a buffer of some size. -/
def printed (m : CharMemory) (s size : ℕ) (text : List Char) : CharMemory :=
  if size = 0 then m else storeChars m s (text.take (size - 1) ++ [nul])

/-- A length as an `int` that is negative for an error. -/
def lengthStatus (length : ℕ) : ℤ := if length < 2 ^ 31 then length else -1

/-- A function that prints into a buffer, and returns a length or an error. -/
abbrev Printer := CharMemory → ℕ → ℕ → CharMemory × ℤ

/-- `snprintf` of a text. -/
def snprintfAt (text : List Char) : Printer := fun m s size =>
  (printed m s size text, lengthStatus text.length)

/-- A buffer that is filled piece by piece. -/
structure Room where
  memory : CharMemory
  result : ℕ
  left : ℕ

/-- `clip_sub`, and `next` of `element_vsnprintf`. -/
def Room.clipSub (p : Room) (size : ℕ) (status : ℤ) : Room :=
  let result := p.result + status.toNat
  { p with result := result, left := if result ≥ size then 0 else size - result }

/-- One more piece, and its status. -/
def Room.print (p : Room) (s size : ℕ) (print : Printer) : Room × ℤ :=
  let (memory, status) := print p.memory (s + p.result) p.left
  let p := { p with memory := memory }
  if status < 0 then (p, status) else (p.clipSub size status, status)

/-- A length that is an `int` stays what it is as one. -/
theorem bmod_length {length : ℕ} (fits : length < 2 ^ 31) :
    Int.bmod (length : ℤ) (2 ^ 32) = length := by
  apply Int.bmod_eq_of_le_mul_two
  · omega
  · omega

section Storing

variable {m : CharMemory} {s : ℕ}

theorem storeChars_cons (c : Char) (text : List Char) :
    storeChars m s (c :: text) = storeChars (Function.update m s c) (s + 1) text := rfl

theorem storeChars_append (first second : List Char) : storeChars m s (first ++ second) =
    storeChars (storeChars m s first) (s + first.length) second := by
  induction first generalizing m s with
  | nil => rfl
  | cons c first ih =>
    rw [List.cons_append, storeChars_cons, storeChars_cons, ih, List.length_cons]
    congr 1
    omega

/-- Nothing changes in front of what is stored. -/
theorem storeChars_below {text : List Char} {i : ℕ} (below : i < s) : storeChars m s text i = m i := by
  induction text generalizing m s with
  | nil => rfl
  | cons c text ih =>
    rw [storeChars_cons, ih (Nat.lt_succ_of_lt below)]
    exact Function.update_of_ne (Nat.ne_of_lt below) _ _

/-- Nothing changes behind what is stored. -/
theorem storeChars_above {text : List Char} {i : ℕ} (above : s + text.length ≤ i) :
    storeChars m s text i = m i := by
  induction text generalizing m s with
  | nil => rfl
  | cons c text ih =>
    rw [List.length_cons] at above
    rw [storeChars_cons, ih (by omega)]
    exact Function.update_of_ne (by omega) _ _

theorem storeChars_get {text : List Char} {i : ℕ} (inside : i < text.length) :
    text[i]? = some (storeChars m s text (s + i)) := by
  induction text generalizing m s i with
  | nil => exact absurd inside (Nat.not_lt_zero i)
  | cons c text ih =>
    rw [storeChars_cons]
    cases i with
    | zero => rw [storeChars_below (by omega), Nat.add_zero, Function.update_self, List.getElem?_cons_zero]
    | succ i =>
      have address : s + (i + 1) = s + 1 + i := by omega
      rw [List.getElem?_cons_succ, address]
      exact ih (Nat.lt_of_succ_lt_succ inside)

/-- What is printed later is stored over the final zero. -/
theorem storeChars_over (first second : List Char) (c d : Char) :
    storeChars (storeChars m s (first ++ [c])) (s + first.length) (d :: second) =
      storeChars m s (first ++ d :: second) := by
  rw [storeChars_append, storeChars_append, storeChars_cons, storeChars_cons, storeChars_cons]
  exact congrArg (storeChars · _ _) (Function.update_idem _ _ _)

end Storing

section Printing

variable {m : CharMemory} {s size : ℕ}

/-- Two texts that are printed one behind the other are printed as one. -/
theorem printed_append (first second : List Char) :
    printed (printed m s size first) (s + first.length) (size - first.length) second =
      printed m s size (first ++ second) := by
  rcases Nat.eq_zero_or_pos size with zero | positive
  · subst zero
    rw [Nat.zero_sub]
    rfl
  rw [printed, printed, printed, if_neg (Nat.ne_of_gt positive), if_neg (Nat.ne_of_gt positive)]
  rcases Nat.lt_or_ge first.length size with room | full
  · obtain ⟨d, rest, shape⟩ : ∃ d rest, second.take (size - first.length - 1) ++ [nul] = d :: rest := by
      cases second.take (size - first.length - 1) with
      | nil => exact ⟨nul, [], rfl⟩
      | cons d rest => exact ⟨d, rest ++ [nul], rfl⟩
    have remaining : size - 1 - first.length = size - first.length - 1 := by omega
    rw [if_neg (by omega), List.take_append, remaining, List.take_of_length_le (by omega), shape,
      List.append_assoc, shape, storeChars_over]
  · have none : size - 1 - first.length = 0 := by omega
    rw [if_pos (by omega), List.take_append, none, List.take_zero, List.append_nil]

/-- Printing stays inside the buffer. -/
theorem printed_outside {text : List Char} {i : ℕ} (outside : i < s ∨ s + size ≤ i) :
    printed m s size text i = m i := by
  rw [printed]
  split
  · rfl
  rcases outside with below | above
  · exact storeChars_below below
  · apply storeChars_above
    rw [List.length_append, List.length_take, List.length_singleton]
    omega

/-- The characters of the text that have room. -/
theorem printed_get {text : List Char} {i : ℕ} (inside : i < min text.length (size - 1)) :
    text[i]? = some (printed m s size text (s + i)) := by
  have stored : i < (text.take (size - 1) ++ [nul]).length := by
    rw [List.length_append, List.length_take]
    omega
  rw [printed, if_neg (by omega), ← storeChars_get stored, List.getElem?_append_left, List.getElem?_take_of_lt]
  · omega
  · rw [List.length_take]
    omega

/-- The zero behind them. -/
theorem printed_nul {text : List Char} (positive : 1 ≤ size) :
    printed m s size text (s + min text.length (size - 1)) = nul := by
  have length : (text.take (size - 1)).length = min text.length (size - 1) := by
    rw [List.length_take, Nat.min_comm]
  have stored : min text.length (size - 1) < (text.take (size - 1) ++ [nul]).length := by
    rw [List.length_append, length]
    exact Nat.lt_succ_self _
  rw [printed, if_neg (by omega)]
  have last := storeChars_get (m := m) (s := s) stored
  rw [← length, List.getElem?_concat_length] at last
  rw [← length]
  exact (Option.some.inj last).symm

end Printing

section Pieces

/-- What `snprintf` does with a text, done by another function. -/
def Printer.Prints (print : Printer) (text : List Char) : Prop := print = snprintfAt text

theorem snprintfAt_prints (text : List Char) : (snprintfAt text).Prints text := rfl

/-- A buffer at an address holds what fits of a text, unless nothing was printed yet. -/
structure Room.Holds (p : Room) (m : CharMemory) (s size : ℕ) (text : List Char) : Prop where
  memory : p.memory = printed m s size text ∨ text = [] ∧ p.memory = m
  result : p.result = text.length
  left : p.left = size - text.length

variable {p : Room} {m : CharMemory} {s size : ℕ} {text : List Char}

theorem Room.holds_start (m : CharMemory) (s size : ℕ) : Room.Holds ⟨m, 0, size⟩ m s size [] :=
  ⟨Or.inr ⟨rfl, rfl⟩, rfl, rfl⟩

/-- The memory that a further piece leaves. -/
theorem Room.Holds.printed (holds : p.Holds m s size text) (piece : List Char) :
    Pbc.Misc.printed p.memory (s + p.result) p.left piece = Pbc.Misc.printed m s size (text ++ piece) := by
  rw [holds.result, holds.left]
  rcases holds.memory with memory | ⟨empty, memory⟩
  · rw [memory, printed_append]
  · rw [memory, empty]
    rfl

/-- A piece is printed behind the text. -/
theorem Room.Holds.print (holds : p.Holds m s size text) {print : Printer} {piece : List Char}
    (prints : print.Prints piece) (fits : piece.length < 2 ^ 31) :
    ∃ p', p.print s size print = (p', (piece.length : ℤ)) ∧ p'.Holds m s size (text ++ piece) ∧
      p'.memory = Pbc.Misc.printed m s size (text ++ piece) := by
  refine ⟨Room.clipSub { p with memory := Pbc.Misc.printed p.memory (s + p.result) p.left piece } size
    piece.length, ?_, ⟨?_, ?_, ?_⟩, holds.printed piece⟩
  · rw [Room.print, prints, snprintfAt, lengthStatus, if_pos fits]
    exact if_neg (by omega)
  · exact Or.inl (holds.printed piece)
  · rw [List.length_append, ← holds.result]
    rfl
  · rw [List.length_append, ← holds.result]
    simp only [Room.clipSub, Int.toNat_natCast]
    split
    · omega
    · rfl

end Pieces

end Pbc.Misc
