import Mathlib.Data.ZMod.Basic

/-! # Numerals

The conditions of the small numerals, as instances with a name: a definition that writes
a numeral of its field, or an index of its coefficients, then refers to one of these.
-/

namespace Pbc

instance atLeastTwo_two : Nat.AtLeastTwo 2 := ⟨by decide⟩

instance atLeastTwo_three : Nat.AtLeastTwo 3 := ⟨by decide⟩

instance atLeastTwo_four : Nat.AtLeastTwo 4 := ⟨by decide⟩

instance atLeastTwo_five : Nat.AtLeastTwo 5 := ⟨by decide⟩

instance atLeastTwo_six : Nat.AtLeastTwo 6 := ⟨by decide⟩

instance atLeastTwo_eight : Nat.AtLeastTwo 8 := ⟨by decide⟩

instance neZero_six : NeZero 6 := ⟨by decide⟩

end Pbc
