import Pbc.Arith.TinyExact

/-!
# Signs of field elements

The sign of a residue of an odd modulus is its parity, and that of an element of an extension is
the sign of its first coordinate that has one. Negation turns the parity of every nonzero residue,
so it turns the sign in every structure that is built from the residues by quadratic extensions,
polynomial extensions and polynomial rings.
-/

namespace Pbc.Arith

/-- The methods of a structure that take part in its signs. -/
structure SignMethods (O : Type) where
  set0 : O
  neg : O → O
  sgn : O → ℤ

section Operations

/-- `fp_sgn_odd` of the tiny implementation. -/
def tinySgnOdd (a : ℕ) : ℤ := if a = 0 then 0 else if a % 2 = 1 then 1 else -1

/-- The methods of the naive implementation of `F_p` for an odd modulus. -/
def zpSigns (p : ℕ) : SignMethods ℤ where
  set0 := 0
  neg := zpNeg p
  sgn := zpSgnOdd

/-- The methods of the tiny implementation. -/
def tinySigns (f : TinyField) : SignMethods ℕ where
  set0 := 0
  neg := tinyNeg f
  sgn := tinySgnOdd

variable {O : Type} (m : SignMethods O)

/-- `fq_sign`. -/
def fqSign (n : O × O) : ℤ :=
  let res := m.sgn n.1
  if res = 0 then m.sgn n.2 else res

/-- The methods of a quadratic extension. -/
def fqSigns : SignMethods (O × O) where
  set0 := (m.set0, m.set0)
  neg a := (m.neg a.1, m.neg a.2)
  sgn := fqSign m

/-- The loop of `polymod_sgn` and `poly_sgn`, which stops at a coefficient with a sign. -/
def sgnLoop : List O → ℤ
  | [] => 0
  | a :: rest =>
      let res := m.sgn a
      if res ≠ 0 then res else sgnLoop rest

/-- `polymod_sgn`. -/
def polymodSgn {n : ℕ} (e : Fin n → O) : ℤ := sgnLoop m (List.ofFn e)

/-- The methods of a polynomial extension. -/
def polymodSigns (n : ℕ) : SignMethods (Fin n → O) where
  set0 _ := m.set0
  neg e i := m.neg (e i)
  sgn := polymodSgn m

/-- `poly_sgn`. -/
def polySgn (f : List O) : ℤ := sgnLoop m f

/-- The methods of a polynomial ring. -/
def polySigns : SignMethods (List O) where
  set0 := []
  neg g := g.map m.neg
  sgn := polySgn m

end Operations

/-- The least nonnegative residues. -/
def LeastResidue (p : ℕ) (a : ℤ) : Prop := 0 ≤ a ∧ a < p

/-- Residues below the modulus. -/
def BelowOrder (f : TinyField) (a : ℕ) : Prop := a < f.order

/-- A polynomial without a leading zero. -/
def NormalCoeffs {O : Type} (m : SignMethods O) (normal : O → Prop) (f : List O) : Prop :=
  (∀ a ∈ f, normal a) ∧ ∀ a ∈ f.getLast?, a ≠ m.set0

/-- The implementations of `F_p` at the bottom. -/
inductive SignField where
  | naive (p : ℕ)
  | tiny (f : TinyField)

namespace SignField

def order : SignField → ℕ
  | naive p => p
  | tiny f => f.order

/-- What an element of the field holds. -/
def Object : SignField → Type
  | naive _ => ℤ
  | tiny _ => ℕ

def signs : (k : SignField) → SignMethods k.Object
  | naive p => zpSigns p
  | tiny f => tinySigns f

/-- The reduced residues. -/
def Normal : (k : SignField) → k.Object → Prop
  | naive p => LeastResidue p
  | tiny f => BelowOrder f

end SignField

/-- The structures built on a field. -/
inductive SignTower where
  | base
  | quadratic (t : SignTower)
  | polymod (n : ℕ) (t : SignTower)
  | poly (t : SignTower)

namespace SignTower

variable {O : Type}

/-- What an element of a structure holds. -/
def Object (O : Type) : SignTower → Type
  | base => O
  | quadratic t => t.Object O × t.Object O
  | polymod n t => Fin n → t.Object O
  | poly t => List (t.Object O)

/-- The methods of a structure. -/
def signs (m : SignMethods O) : (t : SignTower) → SignMethods (t.Object O)
  | base => m
  | quadratic t => fqSigns (t.signs m)
  | polymod n t => polymodSigns (t.signs m) n
  | poly t => polySigns (t.signs m)

/-- The normal forms: reduced residues, and no leading zero in a polynomial. -/
def Normal (m : SignMethods O) (reduced : O → Prop) : (t : SignTower) → t.Object O → Prop
  | base, a => reduced a
  | quadratic t, a => t.Normal m reduced a.1 ∧ t.Normal m reduced a.2
  | polymod _ t, e => ∀ i, t.Normal m reduced (e i)
  | poly t, f => NormalCoeffs (t.signs m) (t.Normal m reduced) f

end SignTower

/-- The law of signs, with values that negation keeps in normal form. -/
structure SignMethods.Lawful {O : Type} (m : SignMethods O) (normal : O → Prop) : Prop where
  values : ∀ a, normal a → m.sgn a = -1 ∨ m.sgn a = 0 ∨ m.sgn a = 1
  zero : ∀ a, normal a → (m.sgn a = 0 ↔ a = m.set0)
  turns : ∀ a, normal a → m.sgn (m.neg a) = -m.sgn a
  normal : ∀ a, normal a → normal (m.neg a)

section Residues

/-- Negation modulo an odd number turns the parity. -/
theorem zpSigns_lawful {p : ℕ} (odd : p % 2 = 1) :
    (zpSigns p).Lawful (LeastResidue p) where
  values a _ := by
    simp only [zpSigns, zpSgnOdd]
    split_ifs <;> simp
  zero a _ := by
    simp only [zpSigns, zpSgnOdd]
    split_ifs with zero <;> simp [zero]
  turns a reduced := by
    obtain ⟨lower, upper⟩ := reduced
    simp only [zpSigns, zpSgnOdd, zpNeg]
    split_ifs <;> omega
  normal _ reduced := zpNeg_reduced reduced

theorem tinySigns_lawful (f : TinyField) (odd : f.order % 2 = 1) :
    (tinySigns f).Lawful (BelowOrder f) where
  values a _ := by
    simp only [tinySigns, tinySgnOdd]
    split_ifs <;> simp
  zero a _ := by
    simp only [tinySigns, tinySgnOdd]
    split_ifs with zero <;> simp [zero]
  turns a reduced := by
    have word := f.order_lt_word
    have below : a < f.order := reduced
    have value : tinyNeg f a = if a ≠ 0 then f.order - a else 0 := by
      have whole : f.order + f.word - a = f.order - a + f.word := by omega
      rw [tinyNeg, whole, Nat.add_mod_right, Nat.mod_eq_of_lt (by omega)]
    simp only [tinySigns, tinySgnOdd, value]
    split_ifs <;> omega
  normal a reduced := (tinyNeg_holds reduced).small

theorem SignField.lawful (k : SignField) (odd : k.order % 2 = 1) : k.signs.Lawful k.Normal := by
  cases k with
  | naive p => exact zpSigns_lawful odd
  | tiny f => exact tinySigns_lawful f odd

end Residues

section Extensions

variable {O : Type} {m : SignMethods O} {normal : O → Prop}

/-- The sign of a pair. -/
theorem SignMethods.Lawful.quadratic (lawful : m.Lawful normal) :
    (fqSigns m).Lawful fun a => normal a.1 ∧ normal a.2 where
  values a holds := by
    simp only [fqSigns, fqSign]
    split
    · exact lawful.values a.2 holds.2
    · exact lawful.values a.1 holds.1
  zero a holds := by
    simp only [fqSigns, fqSign]
    rw [Prod.ext_iff, ← lawful.zero a.1 holds.1, ← lawful.zero a.2 holds.2]
    split
    · next first => exact (and_iff_right first).symm
    · next first => exact iff_of_false first fun both => first both.1
  turns a holds := by
    simp only [fqSigns, fqSign, lawful.turns a.1 holds.1, lawful.turns a.2 holds.2, neg_eq_zero]
    split <;> rfl
  normal a holds := ⟨lawful.normal a.1 holds.1, lawful.normal a.2 holds.2⟩

theorem sgnLoop_values (lawful : m.Lawful normal) (f : List O) (holds : ∀ a ∈ f, normal a) :
    sgnLoop m f = -1 ∨ sgnLoop m f = 0 ∨ sgnLoop m f = 1 := by
  induction f with
  | nil => exact Or.inr (Or.inl rfl)
  | cons a rest ih =>
    obtain ⟨first, others⟩ := List.forall_mem_cons.mp holds
    rw [sgnLoop]
    split
    · exact lawful.values a first
    · exact ih others

theorem sgnLoop_eq_zero_iff (lawful : m.Lawful normal) (f : List O) (holds : ∀ a ∈ f, normal a) :
    sgnLoop m f = 0 ↔ ∀ a ∈ f, a = m.set0 := by
  induction f with
  | nil => exact iff_of_true rfl fun a member => absurd member List.not_mem_nil
  | cons a rest ih =>
    obtain ⟨first, others⟩ := List.forall_mem_cons.mp holds
    rw [sgnLoop, List.forall_mem_cons, ← lawful.zero a first, ← ih others]
    split
    · next sign => exact iff_of_false sign fun both => sign both.1
    · next none => exact (and_iff_right (not_not.mp none)).symm

theorem sgnLoop_neg (lawful : m.Lawful normal) (f : List O) (holds : ∀ a ∈ f, normal a) :
    sgnLoop m (f.map m.neg) = -sgnLoop m f := by
  induction f with
  | nil => rfl
  | cons a rest ih =>
    obtain ⟨first, others⟩ := List.forall_mem_cons.mp holds
    rw [List.map_cons, sgnLoop, sgnLoop, lawful.turns a first, ih others]
    simp only [ne_eq, neg_eq_zero]
    split <;> rfl

/-- The sign of an array of coefficients. -/
theorem SignMethods.Lawful.polymod (lawful : m.Lawful normal) (n : ℕ) :
    (polymodSigns m n).Lawful fun e => ∀ i, normal (e i) where
  values e holds := sgnLoop_values lawful _ (List.forall_mem_ofFn_iff.mpr holds)
  zero e holds := by
    have loop := sgnLoop_eq_zero_iff lawful _ (List.forall_mem_ofFn_iff.mpr holds)
    rw [List.forall_mem_ofFn_iff] at loop
    exact loop.trans funext_iff.symm
  turns e holds := by
    have loop := sgnLoop_neg lawful _ (List.forall_mem_ofFn_iff.mpr holds)
    rw [List.map_ofFn] at loop
    exact loop
  normal e holds i := lawful.normal (e i) (holds i)

/-- The sign of a polynomial, whose leading coefficient is not zero. -/
theorem SignMethods.Lawful.poly (lawful : m.Lawful normal) :
    (polySigns m).Lawful (NormalCoeffs m normal) where
  values f holds := sgnLoop_values lawful f holds.1
  zero f holds := by
    refine (sgnLoop_eq_zero_iff lawful f holds.1).trans ?_
    constructor
    · intro all
      cases last : f.getLast? with
      | none => exact List.getLast?_eq_none_iff.mp last
      | some a => exact absurd (all a (List.mem_of_getLast? last)) (holds.2 a last)
    · rintro rfl a member
      exact absurd member List.not_mem_nil
  turns f holds := sgnLoop_neg lawful f holds.1
  normal f holds := by
    constructor
    · intro b member
      obtain ⟨a, listed, rfl⟩ := List.mem_map.mp member
      exact lawful.normal a (holds.1 a listed)
    · intro b last zero
      rw [polySigns, List.getLast?_map, Option.mem_def, Option.map_eq_some_iff] at last
      obtain ⟨a, last, rfl⟩ := last
      have whole := holds.1 a (List.mem_of_getLast? last)
      have sign := (lawful.zero _ (lawful.normal a whole)).mpr zero
      rw [lawful.turns a whole, neg_eq_zero] at sign
      exact holds.2 a last ((lawful.zero a whole).mp sign)

/-- The law of signs goes up the tower. -/
theorem SignTower.lawful (lawful : m.Lawful normal) (t : SignTower) :
    (t.signs m).Lawful (t.Normal m normal) := by
  induction t with
  | base => exact lawful
  | quadratic t ih => exact ih.quadratic
  | polymod n t ih => exact ih.polymod n
  | poly t ih => exact ih.poly

end Extensions

/-- In every structure over an odd modulus negation turns the sign, which has three values and
vanishes for zero only. -/
theorem elementSgn_neg (k : SignField) (odd : k.order % 2 = 1) (t : SignTower) (a : t.Object k.Object)
    (normal : t.Normal k.signs k.Normal a) :
    (t.signs k.signs).sgn ((t.signs k.signs).neg a) = -(t.signs k.signs).sgn a ∧
      ((t.signs k.signs).sgn a = -1 ∨ (t.signs k.signs).sgn a = 0 ∨ (t.signs k.signs).sgn a = 1) ∧
        ((t.signs k.signs).sgn a = 0 ↔ a = (t.signs k.signs).set0) := by
  have law := t.lawful (k.lawful odd)
  exact ⟨law.turns a normal, law.values a normal, law.zero a normal⟩

theorem elementSgn_neg_five :
    (polySigns (fqSigns (zpSigns 5))).sgn ((polySigns (fqSigns (zpSigns 5))).neg [(0, 3)]) =
        -(polySigns (fqSigns (zpSigns 5))).sgn [(0, 3)] ∧
      ((polySigns (fqSigns (zpSigns 5))).sgn [(0, 3)] = -1 ∨
        (polySigns (fqSigns (zpSigns 5))).sgn [(0, 3)] = 0 ∨
          (polySigns (fqSigns (zpSigns 5))).sgn [(0, 3)] = 1) ∧
        ((polySigns (fqSigns (zpSigns 5))).sgn [(0, 3)] = 0 ↔
          [(0, 3)] = (polySigns (fqSigns (zpSigns 5))).set0) := by
  have reduced : LeastResidue 5 0 ∧ LeastResidue 5 3 := by
    constructor <;> constructor <;> decide
  have normal : NormalCoeffs (fqSigns (zpSigns 5))
      (fun a : ℤ × ℤ => LeastResidue 5 a.1 ∧ LeastResidue 5 a.2) [(0, 3)] := by
    constructor
    · intro a member
      rw [List.mem_singleton.mp member]
      exact reduced
    · intro a last
      obtain rfl := Option.some.inj last
      decide
  exact elementSgn_neg (.naive 5) rfl (.poly (.quadratic .base)) ([(0, 3)] : List (ℤ × ℤ)) normal

end Pbc.Arith
