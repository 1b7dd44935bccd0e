import Pbc.Arith.Degenerate
import Pbc.Calc.Values

/-!
# The command for discrete logarithms

`index_calculus` works on two elements of a prime field, but the modulus that it passes on is one
less than the order of the field. So the logarithm belongs to the residues modulo `p - 1`, a
composite number, and is one in the field only by chance.
-/

open Pbc.Algebra Pbc.Arith Pbc.Gmp

namespace Pbc.Calc

section Command

variable {lib : Library} {undefined inexact : ℤ → ℤ → ℤ} {size : ℤ → ℕ}
  {random : ℤ → lib.World → ℤ × lib.World} {fuel : ℕ}

/-- A library with `index_calculus_dlog`. Where it prints a message, the logarithm stays zero. -/
def Library.withDlog (lib : Library) (undefined inexact : ℤ → ℤ → ℤ) (size : ℤ → ℕ)
    (random : ℤ → lib.World → ℤ × lib.World) (fuel : ℕ) : Library :=
  { lib with indexCalculusDlog := fun g h q w =>
      (Arith.indexCalculusDlog undefined inexact size random fuel g h q w).map fun res =>
        (res.1.getD 0, res.2) }

/-- A call that has a result, and what follows it. -/
private theorem call_bind_ok {α β : Type} {operation : lib.World → Option (α × lib.World)}
    {st : State lib} {next : α × State lib → Except Fault β} {out : β}
    (run : call operation st >>= next = .ok out) :
    ∃ a w, operation st.world = some (a, w) ∧ next (a, { st with world := w }) = .ok out := by
  rw [call] at run
  cases result : operation st.world with
  | none =>
    rw [result] at run
    exact absurd run nofun
  | some res =>
    rw [result] at run
    exact ⟨res.1, res.2, rfl, run⟩

private theorem call_bind_some {α β : Type} {operation : lib.World → Option (α × lib.World)}
    {st : State lib} (next : α × State lib → Except Fault β) {a : α} {w : lib.World}
    (result : operation st.world = some (a, w)) :
    call operation st >>= next = next (a, { st with world := w }) := by
  rw [call, result]
  rfl

/-- The command calls the library with one less than the order. -/
private theorem fIndexCalculus_elements (e0 e1 : lib.Element) (st : State lib) :
    fIndexCalculus [.element e0, .element e1] st =
      call (lib.toMpz e0) st >>= fun first => call (lib.toMpz e1) first.2 >>= fun second =>
        call (lib.indexCalculusDlog first.1 second.1 (lib.order (lib.field e0) - 1)) second.2 >>=
          fun third => .ok (some (Val.element (lib.setZ third.1)), third.2) := rfl

/-- The result of the command is what the library returns. -/
theorem fIndexCalculus_eq {e0 e1 : lib.Element} {st : State lib} {g h x : ℤ} {w₁ w₂ w₃ : lib.World}
    (read0 : lib.toMpz e0 st.world = some (g, w₁)) (read1 : lib.toMpz e1 w₁ = some (h, w₂))
    (log : lib.indexCalculusDlog g h (lib.order (lib.field e0) - 1) w₂ = some (x, w₃)) :
    fIndexCalculus [.element e0, .element e1] st =
      .ok (some (.element (lib.setZ x)), { st with world := w₃ }) := by
  rw [fIndexCalculus_elements, call_bind_some _ read0, call_bind_some _ read1, call_bind_some _ log]

/-- A result of the command is the logarithm modulo one less than the order. -/
theorem fIndexCalculus_ok {e0 e1 : lib.Element} {st st' : State lib} {v : Option (Val lib)}
    (run : fIndexCalculus [.element e0, .element e1] st = .ok (v, st')) :
    ∃ g w₁ h w₂ x w₃, lib.toMpz e0 st.world = some (g, w₁) ∧ lib.toMpz e1 w₁ = some (h, w₂) ∧
      lib.indexCalculusDlog g h (lib.order (lib.field e0) - 1) w₂ = some (x, w₃) ∧
        v = some (.element (lib.setZ x)) := by
  rw [fIndexCalculus_elements] at run
  obtain ⟨g, w₁, first, run⟩ := call_bind_ok run
  obtain ⟨h, w₂, second, run⟩ := call_bind_ok run
  obtain ⟨x, w₃, third, run⟩ := call_bind_ok run
  exact ⟨g, w₁, h, w₂, x, w₃, first, second, third, (Prod.mk.inj (Except.ok.inj run)).1.symm⟩

/-- The command is right about two elements: all that it returns is a logarithm. -/
def IndexCalculusRight (lib : Library) (p : ℕ) [Fact p.Prime] (e0 e1 : lib.Element) (g h : ℤ) : Prop :=
  ∀ st v st', fIndexCalculus [.element e0, .element e1] st = .ok (v, st') →
    ∃ x : ℤ, v = some (.element (lib.setZ x)) ∧ (g : ZMod p) ^ x = h

end Command

section Small

/-- The integers modulo `p`, read as `element_to_mpz` does. -/
private def residueLibrary (p : ℤ) : Library where
  World := Unit
  Field := Unit
  Element := ℤ
  Pairing := Unit
  sameField := inferInstance
  Z := ()
  field _ := ()
  order _ := p
  G1 := id
  G2 := id
  GT := id
  Zr := id
  setZ := id
  dataZ := id
  toMpz a w := some (a % p, w)
  setMpz _ a w := some (a % p, w)
  setStr _ _ _ := none
  random _ _ := none
  invert _ _ := none
  neg _ _ := none
  add _ _ _ := none
  sub _ _ _ := none
  mul _ _ _ := none
  div _ _ _ := none
  powMpz _ _ _ := none
  pairingApply _ _ _ _ := none
  fieldInitFp _ _ := none
  genA _ _ _ := none
  bruteForceDlog _ _ _ := none
  pollardRho _ _ _ _ := none
  indexCalculusDlog _ _ _ _ := none

private theorem trialDivide_five : trialDivide ((6 : ℕ) - 1) (some dlogLimit) = some [(5, 1)] :=
  trialDivideLoop_last (p := 2) (m := 5) (some dlogLimit) 4 [] (by decide) (by decide)
    (Or.inl Nat.prime_five)

/-- The primes up to 41, each with the next one. -/
private theorem mpzNextprime_table : ∀ s ∈ [(1, 2), (2, 3), (3, 5), (5, 7), (7, 11), (11, 13), (13, 17),
    (17, 19), (19, 23), (23, 29), (29, 31), (31, 37), (37, 41)],
      mpzNextprime (s.1 : ℕ) = (s.2 : ℕ) := by
  have table : ∀ s ∈ [(1, 2), (2, 3), (3, 5), (5, 7), (7, 11), (11, 13), (13, 17), (17, 19), (19, 23),
      (23, 29), (29, 31), (31, 37), (37, 41)], s.2.Prime ∧ s.1 < s.2 ∧
        ∀ l ∈ List.range' (s.1 + 1) (s.2 - s.1 - 1), ¬l.Prime := by decide
  intro s member
  obtain ⟨prime, above, none⟩ := table s member
  exact mpzNextprime_eq prime above fun l more less => none l (List.mem_range'_1.mpr (by omega))

private theorem trialDivide_105 : trialDivide ((106 : ℕ) - 1) (some dlogLimit) =
    some [(3, 1), (5, 1), (7, 1)] := by
  have two := trialDivideLoop_skips (p := 2) (m := 105) (l := some dlogLimit) 105 [] (by decide)
    (by decide) (by decide) (by decide)
  have three := trialDivideLoop_divides (p := 3) (k := 0) (c := 35) (l := some dlogLimit) 104 []
    (by decide) (by decide) (by decide) (by decide) (by decide)
  have five := trialDivideLoop_divides (p := 5) (k := 0) (c := 7) (l := some dlogLimit) 103 [(3, 1)]
    (by decide) (by decide) (by decide) (by decide) (by decide)
  have seven := trialDivideLoop_last (p := 7) (m := 7) (some dlogLimit) 101 [(3, 1), (5, 1)]
    (by decide) (by decide) (Or.inl Nat.prime_seven)
  rw [mpzNextprime_table (2, 3) (by decide)] at two
  rw [mpzNextprime_table (3, 5) (by decide)] at three
  rw [mpzNextprime_table (5, 7) (by decide)] at five
  exact two.trans (three.trans (five.trans seven))

private theorem step1_106 : indexCalculusStep1 (fun _ _ => 0) 70 13 2 (106 : ℕ) [(3, 1), (5, 1), (7, 1)] =
    some [1, 17, 100, 14, 6, 24, 10, 37, 39, 46, 33, 30, 45] := by
  have next := mpzNextprime_table
  simp only [List.forall_mem_cons, Nat.cast_ofNat] at next
  have table : primeTable 13 = [2, 3, 5, 7, 11, 13, 17, 19, 23, 29, 31, 37, 41] := by
    simp only [primeTable, primeEntries, next]
    rfl
  rw [indexCalculusStep1, table]
  decide +kernel

private theorem step2_106 : indexCalculusStep2 [1, 17, 100, 14, 6, 24, 10, 37, 39, 46, 33, 30, 45] 2
    (106 : ℕ) 70 3 0 = some 17 := by
  have next := mpzNextprime_table
  simp only [List.forall_mem_cons, Nat.cast_ofNat, Nat.cast_one] at next
  have left : divideNext 13 1 (3 * 2 % (106 : ℕ)) = some (1, [1, 1, 0, 0, 0, 0, 0, 0, 0, 0, 0, 0, 0]) := by
    simp only [divideNext, next]
    decide
  rw [indexCalculusStep2]
  change (divideNext 13 1 (3 * 2 % (106 : ℕ))).bind _ = _
  rw [left]
  rfl

private theorem two_generates : ∃ _ : Fact (Nat.Prime 107), Generates ((2 : ℤ) : ZMod 107) := by
  have nonzero : ((2 : ℤ) : ZMod 107) ≠ 0 := by decide
  have minus : ((2 : ℤ) : ZMod 107) ^ 53 = -1 := by decide
  have whole : ((2 : ℤ) : ZMod 107) ^ 106 = 1 := by
    rw [show 106 = 53 * 2 from rfl, pow_mul, minus, neg_one_sq]
  have half : ((2 : ℤ) : ZMod 107) ^ 53 ≠ 1 := by decide
  have square : ((2 : ℤ) : ZMod 107) ^ 2 ≠ 1 := by decide
  have prime := Fact.mk (by norm_num : Nat.Prime 107)
  refine ⟨prime, (generates_iff_orderOf nonzero).mpr ?_⟩
  rw [ZMod.card]
  refine orderOf_eq_of_pow_and_pow_div_prime (by decide) whole fun l prime' divides => ?_
  rw [show 107 - 1 = 2 * 53 from rfl, prime'.dvd_mul] at divides
  rcases divides with divides | divides
  · obtain rfl := (Nat.prime_dvd_prime_iff_eq prime' Nat.prime_two).mp divides
    exact half
  · obtain rfl := (Nat.prime_dvd_prime_iff_eq prime' (by norm_num)).mp divides
    exact square

end Small

end Pbc.Calc
