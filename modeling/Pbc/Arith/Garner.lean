import Mathlib.Data.Int.ModEq
import Pbc.Arith.IndexCalculus

/-!
# Garner's recombination

`CRT` adds one residue at a time. The sum so far is right modulo the moduli before, what is added
is a multiple of their product, and the coefficient makes it right modulo the next one.
-/

open Pbc.Gmp

namespace Pbc.Arith

variable (undefined : ℤ → ℤ → ℤ)

/-- The inverse modulo a positive integer. -/
theorem mpzInvertOr_mul {a m : ℤ} (positive : 0 < m) (coprime : IsCoprime a m) :
    mpzInvertOr undefined a m * a ≡ 1 [ZMOD m] := by
  lift m to ℕ using positive.le
  have coprime : Int.gcd a m = 1 := Int.isCoprime_iff_gcd_eq_one.mp coprime
  obtain ⟨b, inverted, -, product⟩ := mpzInvert_mul (Int.natCast_pos.mp positive) coprime
  rw [mpzInvertOr, Int.natAbs_natCast, inverted, Option.getD_some, ← ZMod.intCast_eq_intCast_iff]
  push_cast
  exact product

/-- The coefficient inverts the product of the moduli before. -/
theorem crtCoefficient_mul {m : ℤ} {before : List ℤ} (positive : 0 < m)
    (coprime : ∀ m' ∈ before, IsCoprime m' m) :
    crtCoefficient undefined m before * before.prod ≡ 1 [ZMOD m] := by
  have run (C : ℤ) : before.foldl (fun C mj => C * mpzInvertOr undefined mj m % m) C * before.prod ≡
      C [ZMOD m] := by
    induction before generalizing C with
    | nil => rw [List.foldl_nil, List.prod_nil, mul_one]
    | cons m' before ih =>
      obtain ⟨first, coprime⟩ := List.forall_mem_cons.mp coprime
      have inverse := mpzInvertOr_mul undefined positive first
      rw [List.foldl_cons, List.prod_cons, mul_left_comm]
      calc m' * (before.foldl _ _ * before.prod)
          ≡ m' * (C * mpzInvertOr undefined m' m % m) [ZMOD m] := (ih coprime _).mul_left m'
        _ ≡ m' * (C * mpzInvertOr undefined m' m) [ZMOD m] := (Int.mod_modEq _ _).mul_left m'
        _ = C * (mpzInvertOr undefined m' m * m') := by ring
        _ ≡ C * 1 [ZMOD m] := inverse.mul_left C
        _ = C := mul_one C
  exact run 1

private theorem foldl_mul (u : ℤ) (before : List ℤ) :
    before.foldl (· * ·) u = u * before.prod := by
  induction before generalizing u with
  | nil => rw [List.foldl_nil, List.prod_nil, mul_one]
  | cons m before ih => rw [List.foldl_cons, ih, List.prod_cons, mul_assoc]

/-- One step keeps the residues before and adds the next one. -/
private theorem crtStep_modEq {x : ℤ} {old : List (ℤ × ℤ)} {v : ℤ × ℤ} (positive : 0 < v.2)
    (coprime : ∀ w ∈ old, IsCoprime w.2 v.2) (right : ∀ w ∈ old, x ≡ w.1 [ZMOD w.2]) :
    ∀ w ∈ old ++ [v], x + (old.map Prod.snd).foldl (· * ·)
      ((v.1 - x) * crtCoefficient undefined v.2 (old.map Prod.snd) % v.2) ≡ w.1 [ZMOD w.2] := by
  set C := crtCoefficient undefined v.2 (old.map Prod.snd) with coefficient
  have inverse : C * (old.map Prod.snd).prod ≡ 1 [ZMOD v.2] := by
    refine crtCoefficient_mul undefined positive fun m' member => ?_
    obtain ⟨w, inside, rfl⟩ := List.mem_map.mp member
    exact coprime w inside
  intro w member
  rw [foldl_mul]
  rcases List.mem_append.mp member with inside | inside
  · have multiple : w.2 ∣ (old.map Prod.snd).prod := List.dvd_prod (List.mem_map_of_mem inside)
    calc x + (v.1 - x) * C % v.2 * (old.map Prod.snd).prod
        ≡ x + 0 [ZMOD w.2] := (Int.modEq_zero_iff_dvd.mpr (multiple.mul_left _)).add_left x
      _ = x := add_zero x
      _ ≡ w.1 [ZMOD w.2] := right w inside
  · obtain rfl := List.mem_singleton.mp inside
    calc x + (w.1 - x) * C % w.2 * (old.map Prod.snd).prod
        ≡ x + (w.1 - x) * C * (old.map Prod.snd).prod [ZMOD w.2] :=
          ((Int.mod_modEq _ _).mul_right _).add_left x
      _ = x + (w.1 - x) * (C * (old.map Prod.snd).prod) := by ring
      _ ≡ x + (w.1 - x) * 1 [ZMOD w.2] := (inverse.mul_left _).add_left x
      _ = w.1 := by ring

/-- The steps keep the residues before and add the others. -/
theorem crtLoop_modEq {x : ℤ} {old rest : List (ℤ × ℤ)} (positive : ∀ v ∈ rest, 0 < v.2)
    (coprime : (old ++ rest).Pairwise fun v w => IsCoprime v.2 w.2)
    (right : ∀ v ∈ old, x ≡ v.1 [ZMOD v.2]) :
    ∀ v ∈ old ++ rest, crtLoop undefined (old.map Prod.snd) x rest ≡ v.1 [ZMOD v.2] := by
  induction rest generalizing x old with
  | nil =>
    rw [List.append_nil]
    exact right
  | cons v rest ih =>
    obtain ⟨first, positive⟩ := List.forall_mem_cons.mp positive
    rw [List.append_cons] at coprime ⊢
    have before := (List.pairwise_append.mp (List.pairwise_append.mp coprime).1).2.2
    have step := crtStep_modEq undefined first
      (fun w member => before w member v (List.mem_singleton_self v)) right
    have later := ih positive coprime step
    rw [List.map_append] at later
    exact later

/-- The recombination has all residues. -/
theorem crt_modEq {residues : List (ℤ × ℤ)} (positive : ∀ v ∈ residues, 0 < v.2)
    (coprime : residues.Pairwise fun v w => IsCoprime v.2 w.2) :
    ∀ v ∈ residues, crt undefined residues ≡ v.1 [ZMOD v.2] := by
  cases residues with
  | nil => exact List.forall_mem_nil _
  | cons v rest =>
    apply @crtLoop_modEq undefined v.1 [v] rest (List.forall_mem_cons.mp positive).2 coprime
    intro w member
    obtain rfl := List.mem_singleton.mp member
    exact Int.ModEq.refl _

/-- The steps keep the sum below the product of the moduli. -/
theorem crtLoop_bounds {x : ℤ} {before : List ℤ} {rest : List (ℤ × ℤ)}
    (positive : ∀ v ∈ rest, 0 < v.2) (nonneg : 0 ≤ x) (below : x < before.prod) :
    0 ≤ crtLoop undefined before x rest ∧
      crtLoop undefined before x rest < before.prod * (rest.map Prod.snd).prod := by
  induction rest generalizing x before with
  | nil =>
    rw [crtLoop, List.map_nil, List.prod_nil, mul_one]
    exact ⟨nonneg, below⟩
  | cons v rest ih =>
    obtain ⟨first, positive⟩ := List.forall_mem_cons.mp positive
    have product : 0 < before.prod := nonneg.trans_lt below
    rw [crtLoop, foldl_mul]
    generalize (v.1 - x) * crtCoefficient undefined v.2 before = u
    have digit : 0 ≤ u % v.2 := Int.emod_nonneg u first.ne'
    have small : u % v.2 + 1 ≤ v.2 := Int.emod_lt_of_pos u first
    have whole : (before ++ [v.2]).prod = v.2 * before.prod := by
      rw [List.prod_append, List.prod_singleton, mul_comm]
    have room : x + u % v.2 * before.prod < (before ++ [v.2]).prod := by
      rw [whole]
      calc x + u % v.2 * before.prod < before.prod + u % v.2 * before.prod := by linarith
        _ = (u % v.2 + 1) * before.prod := by ring
        _ ≤ v.2 * before.prod := mul_le_mul_of_nonneg_right small product.le
    have later := ih positive (add_nonneg nonneg (mul_nonneg digit product.le)) room
    rw [whole, mul_comm v.2, mul_assoc] at later
    rw [List.map_cons, List.prod_cons]
    exact later

theorem isCoprime_prod {a : ℤ} {m : List ℤ} (coprime : ∀ b ∈ m, IsCoprime a b) :
    IsCoprime a m.prod := by
  induction m with
  | nil =>
    rw [List.prod_nil]
    exact isCoprime_one_right
  | cons b m ih =>
    obtain ⟨first, coprime⟩ := List.forall_mem_cons.mp coprime
    rw [List.prod_cons]
    exact first.mul_right (ih coprime)

/-- The product of coprime divisors is a divisor. -/
theorem prod_dvd_of_pairwise {m : List ℤ} {d : ℤ} (coprime : m.Pairwise IsCoprime)
    (divides : ∀ a ∈ m, a ∣ d) : m.prod ∣ d := by
  induction m with
  | nil =>
    rw [List.prod_nil]
    exact one_dvd d
  | cons a m ih =>
    obtain ⟨first, coprime⟩ := List.pairwise_cons.mp coprime
    obtain ⟨divides', divides⟩ := List.forall_mem_cons.mp divides
    rw [List.prod_cons]
    exact (isCoprime_prod first).mul_dvd divides' (ih coprime divides)

/-- Numbers below the product are told apart by their residues. -/
theorem eq_of_residues {m : List ℤ} {x y : ℤ} (coprime : m.Pairwise IsCoprime)
    (lower : 0 ≤ x ∧ x < m.prod) (lower' : 0 ≤ y ∧ y < m.prod)
    (same : ∀ a ∈ m, x % a = y % a) : x = y := by
  have divides : m.prod ∣ x - y := by
    refine prod_dvd_of_pairwise coprime ?_
    intro a member
    exact Int.ModEq.dvd (same a member).symm
  have congruent : y % m.prod = x % m.prod := Int.modEq_iff_dvd.mpr divides
  rwa [Int.emod_eq_of_lt lower.1 lower.2, Int.emod_eq_of_lt lower'.1 lower'.2, eq_comm] at congruent

/-- The recombination is the one number below the product with all residues. -/
theorem crt_unique {residues : List (ℤ × ℤ)} (some : residues ≠ [])
    (large : ∀ v ∈ residues, 1 < v.2) (reduced : ∀ v ∈ residues, 0 ≤ v.1 ∧ v.1 < v.2)
    (coprime : residues.Pairwise fun v w => IsCoprime v.2 w.2) (x : ℤ) :
    (0 ≤ x ∧ x < (residues.map Prod.snd).prod ∧ ∀ v ∈ residues, x % v.2 = v.1) ↔
      x = crt undefined residues := by
  have positive : ∀ v ∈ residues, 0 < v.2 := fun v member => Int.zero_lt_one.trans (large v member)
  have right : ∀ v ∈ residues, crt undefined residues % v.2 = v.1 := by
    intro v member
    have congruent : crt undefined residues % v.2 = v.1 % v.2 :=
      crt_modEq undefined positive coprime v member
    rw [congruent, Int.emod_eq_of_lt (reduced v member).1 (reduced v member).2]
  have bounds : 0 ≤ crt undefined residues ∧
      crt undefined residues < (residues.map Prod.snd).prod := by
    cases residues with
    | nil => exact absurd rfl some
    | cons v rest =>
      obtain ⟨nonneg, below⟩ := reduced v List.mem_cons_self
      have start : v.1 < [v.2].prod := by rwa [List.prod_singleton]
      have whole := crtLoop_bounds undefined (List.forall_mem_cons.mp positive).2 nonneg start
      rw [List.prod_singleton] at whole
      rw [List.map_cons, List.prod_cons]
      exact whole
  constructor
  · rintro ⟨nonneg, below, residue⟩
    refine eq_of_residues (List.pairwise_map.mpr coprime) ⟨nonneg, below⟩ bounds ?_
    intro a member
    obtain ⟨v, inside, rfl⟩ := List.mem_map.mp member
    rw [residue v inside, right v inside]
  · rintro rfl
    exact ⟨bounds.1, bounds.2, right⟩

/-- Three moduli. -/
theorem crt_unique_three :
    (0 ≤ (23 : ℤ) ∧ (23 : ℤ) < ([(2, 3), (3, 5), (2, 7)].map (Prod.snd : ℤ × ℤ → ℤ)).prod ∧
        ∀ v ∈ [((2 : ℤ), (3 : ℤ)), (3, 5), (2, 7)], (23 : ℤ) % v.2 = v.1) ↔
      23 = crt (fun _ _ => 0) [(2, 3), (3, 5), (2, 7)] := by
  refine crt_unique (fun _ _ => 0) (by decide) (by decide) (by decide) ?_ 23
  simp only [List.pairwise_cons, Int.isCoprime_iff_gcd_eq_one]
  decide

end Pbc.Arith
