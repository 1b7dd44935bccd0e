import Mathlib.Tactic.Abel
import Mathlib.Tactic.LinearCombination
import Pbc.Schemes.Ibces

/-!
# Signatures under an identity

The schemes of three demonstration programs over a symmetric pairing, with the hash of messages
and the map of the target group to numbers as parameters: which signatures the verifiers accept,
and what the signer of a blind signature learns of it.
-/

open Pbc.Algebra

namespace Pbc.Schemes

section Operations

variable {n : ℕ} {G T Message : Type*} [AddCommGroup G] [CommGroup T]

/-- `zero_to_mpz`: what the group of points has for `element_to_mpz`. -/
def zeroToMpz (_ : G) : ℤ := 0

/-- `element_mul_mpz` on residues. -/
def residueMulMpz (a : ZMod n) (z : ℤ) : ZMod n := a * z

/-- What setup and the extraction of a key leave in the variables. -/
structure IdentityKeys (G : Type*) where
  P : G
  Ppub : G
  Qid : G
  Did : G

/-- Setup and extraction with the random `s` and `P`. -/
def identityKeys (s : ZMod n) (P Qid : G) : IdentityKeys G where
  P := P
  Ppub := elementMulZn P s
  Qid := Qid
  Did := elementMulZn Qid s

/-- The verdict behind `element_cmp`. -/
def verdict {A : Type*} [DecidableEq A] (a b : A) : Verdict :=
  if elementCmp a b = 0 then .valid else .invalid

variable (e : SymmetricPairing n G T) (hash : Message → ZMod n) (toMpz : T → ℤ)
  (keys : IdentityKeys G)

/-- The signature `R`, `S` of `paterson.c` with the coin `k`. -/
def patersonSign (m : Message) (k : ZMod n) : G × G :=
  let R := elementMulZn keys.P k
  let t1 := hash m
  let t2 := elementMulZn keys.P t1
  let t3 := zeroToMpz R
  let t4 := t3 • keys.Did
  let t5 := t4 + t2
  let k := k⁻¹
  (R, elementMulZn t5 k)

/-- The verification of `paterson.c`. -/
def patersonVerify [DecidableEq T] (m : Message) (R S : G) : Verdict :=
  let t1 := hash m
  let t7 := elementMulZn keys.P t1
  let t6 := e.pair keys.P t7
  let t8 := e.pair keys.Ppub keys.Qid
  let t3 := zeroToMpz R
  let t9 := t8 ^ t3
  let t10 := t6 * t9
  let t11 := e.pair R S
  verdict t10 t11

/-- The signature `u`, `v` of `hess.c` with the point `P1` and the coin `k`. -/
def hessSign (m : Message) (P1 : G) (k : ZMod n) : G × ZMod n :=
  let t1 := e.pair P1 keys.P
  let r := elementPowZn t1 k
  let v := residueMulMpz (hash m) (toMpz r)
  let t4 := elementMulZn keys.Did v
  let t5 := elementMulZn P1 k
  (t4 + t5, v)

/-- The verification of `hess.c`. -/
def hessVerify (m : Message) (u : G) (v : ZMod n) : Verdict :=
  let t6 := e.pair u keys.P
  let Ppub := -keys.Ppub
  let t7 := e.pair keys.Qid Ppub
  let t7 := elementPowZn t7 v
  let r := t6 * t7
  let t8 := residueMulMpz (hash m) (toMpz r)
  verdict t8 v

/-- The message of the user of `zhangkim.c` to the signer, who has sent `R`, with the blinding
coins `a` and `b`. -/
def zhangKimBlind (m : Message) (R : G) (a b : ZMod n) : ZMod n :=
  let t1 := elementMulZn keys.P a
  let t1 := R + t1
  let t2 := elementMulZn keys.Qid b
  let t2 := t2 + t1
  let t3 := e.pair t2 keys.Ppub
  let t6 := residueMulMpz (hash m) (toMpz t3)
  t6 + b

/-- The answer of the signer. -/
def zhangKimSign (r c : ZMod n) : G :=
  let t7 := elementMulZn keys.Ppub r
  let t8 := elementMulZn keys.Did c
  t8 + t7

/-- The signature that the user makes of the answer. -/
def zhangKimUnblind (S : G) (c a b : ZMod n) : G × ZMod n :=
  let t9 := elementMulZn keys.Ppub a
  (S + t9, c - b)

/-- The verification of `zhangkim.c`. -/
def zhangKimVerify (m : Message) (S : G) (c : ZMod n) : Verdict :=
  let t10 := e.pair keys.Qid keys.Ppub
  let t10 := elementPowZn t10 (-c)
  let t11 := e.pair S keys.P
  let t12 := t11 * t10
  let t14 := residueMulMpz (hash m) (toMpz t12)
  verdict t14 c

/-- What the parties of `zhangkim.c` send to each other. -/
structure ZhangKimView (n : ℕ) (G : Type*) where
  R : G
  c : ZMod n
  S : G

/-- A run of `zhangkim.c` with the coin `r` of the signer and the coins of the user: the messages
between them, and the signature. -/
def zhangKimRun (m : Message) (r : ZMod n) (coins : ZMod n × ZMod n) :
    ZhangKimView n G × (G × ZMod n) :=
  let R := elementMulZn keys.P r
  let c := zhangKimBlind e hash toMpz keys m R coins.1 coins.2
  let S := zhangKimSign keys r c
  (⟨R, c, S⟩, zhangKimUnblind keys S c coins.1 coins.2)

end Operations

section Signatures

variable {n : ℕ} {G T Message : Type*} [AddCommGroup G] [CommGroup T]
  (e : SymmetricPairing n G T) (hash : Message → ZMod n) (toMpz : T → ℤ)

theorem verdict_eq_valid {A : Type*} [DecidableEq A] (a b : A) : verdict a b = .valid ↔ a = b := by
  rw [← elementCmp_eq_zero a b, verdict]
  split
  · next same => exact iff_of_true rfl same
  · next differ =>
    refine iff_of_false (fun same => ?_) differ
    cases same

variable [prime : Fact n.Prime]

/-- The challenge of a signature is taken away from its point. -/
theorem pair_challenge (s v : ZMod n) (P Qid u : G) :
    e.pair u P * elementPowZn (e.pair Qid (elementMulZn P s)) (-v) =
      e.pair (u - elementMulZn (elementMulZn Qid s) v) P := by
  have : NeZero n := ⟨prime.out.ne_zero⟩
  rw [elementPowZn, ← e.zmodMul_left, ← e.zmodMul_comm, ← e.add_left, ← zmodMul_mul e.card,
    mul_comm (-v), zmodMul_mul e.card, zmodMul_neg e.card, sub_eq_add_neg]

theorem pair_challenge_neg (s v : ZMod n) (P Qid u : G) :
    e.pair u P * elementPowZn (e.pair Qid (-elementMulZn P s)) v =
      e.pair (u - elementMulZn (elementMulZn Qid s) v) P := by
  have : NeZero n := ⟨prime.out.ne_zero⟩
  have negates : elementPowZn (e.pair Qid (-elementMulZn P s)) v =
      elementPowZn (e.pair Qid (elementMulZn P s)) (-v) := calc
    e.pair Qid (-elementMulZn P s) ^ v.val = (e.pair (zmodMul Qid v) (elementMulZn P s))⁻¹ := by
      rw [e.symm, e.neg_left, e.symm, inv_pow, e.zmodMul_left]
    _ = e.pair Qid (elementMulZn P s) ^ (-v).val := by
      rw [← e.neg_left, ← zmodMul_neg e.card, e.zmodMul_left]
  rw [negates, pair_challenge]

/-- The verifier of `paterson.c` accepts for an identity and a master key exactly what any
identity signs under any master key: the identity does not matter. -/
theorem patersonVerify_iff [DecidableEq T] {P : G} (generator : P ≠ 0) (s s' : ZMod n) (Qid Qid' : G)
    (m : Message) {k : ZMod n} (unit : k ≠ 0) (S : G) :
    patersonVerify e hash (identityKeys s P Qid) m (elementMulZn P k) S = .valid ↔
      patersonSign hash (identityKeys s' P Qid') m k = (elementMulZn P k, S) := by
  have : NeZero n := ⟨prime.out.ne_zero⟩
  have signs : patersonSign hash (identityKeys s' P Qid') m k =
      (elementMulZn P k, zmodMul (zmodMul P (hash m)) k⁻¹) := by
    simp only [patersonSign, identityKeys, zeroToMpz, zero_smul, zero_add]
  have moves : e.pair P (elementMulZn P (hash m)) =
      e.pair (elementMulZn P k) (zmodMul P (hash m * k⁻¹)) := by
    rw [e.zmodMul_comm, ← zmodMul_mul e.card, inv_mul_cancel_right₀ unit]
  rw [signs, Prod.mk.injEq, eq_self, true_and, ← zmodMul_mul e.card]
  simp only [patersonVerify, identityKeys, zeroToMpz, zpow_zero, mul_one, verdict_eq_valid]
  rw [moves, e.pair_eq_iff (zmodMul_ne_zero e.card generator unit)]

/-- The verifier of `hess.c` accepts exactly what the signer can make, each with one coin. -/
theorem hessVerify_iff {P1 : G} (generator : P1 ≠ 0) (s : ZMod n) (P Qid : G) (m : Message) (u : G)
    (v : ZMod n) :
    hessVerify e hash toMpz (identityKeys s P Qid) m u v = .valid ↔
      ∃! k, hessSign e hash toMpz (identityKeys s P Qid) m P1 k = (u, v) := by
  have signs (k : ZMod n) : hessSign e hash toMpz (identityKeys s P Qid) m P1 k = (u, v) ↔
      residueMulMpz (hash m) (toMpz (e.pair (elementMulZn P1 k) P)) = v ∧
        elementMulZn P1 k = u - elementMulZn (elementMulZn Qid s) v := by
    simp only [hessSign, identityKeys, elementPowZn, ← e.zmodMul_left, Prod.mk.injEq]
    constructor
    · rintro ⟨point, rfl⟩
      exact ⟨rfl, by rw [← point, add_sub_cancel_left]⟩
    · rintro ⟨rfl, point⟩
      exact ⟨by rw [point, add_sub_cancel], rfl⟩
  have verifies : hessVerify e hash toMpz (identityKeys s P Qid) m u v = .valid ↔
      residueMulMpz (hash m)
        (toMpz (e.pair (u - elementMulZn (elementMulZn Qid s) v) P)) = v := by
    simp only [hessVerify, identityKeys, verdict_eq_valid, pair_challenge_neg]
  obtain ⟨k, point, unique⟩ :=
    existsUnique_zmodMul e.card generator (u - elementMulZn (elementMulZn Qid s) v)
  simp only [verifies, signs]
  constructor
  · intro accepted
    exact ⟨k, ⟨by rwa [← point] at accepted, point⟩, fun k' other => unique k' other.2⟩
  · rintro ⟨k', ⟨challenge, point'⟩, -⟩
    rwa [← point']

/-- The verifier of `zhangkim.c` compares the challenge with the hash of a point. -/
theorem zhangKimVerify_valid (s c : ZMod n) (P Qid S : G) (m : Message) :
    zhangKimVerify e hash toMpz (identityKeys s P Qid) m S c = .valid ↔
      residueMulMpz (hash m)
        (toMpz (e.pair (S - elementMulZn (elementMulZn Qid s) c) P)) = c := by
  simp only [zhangKimVerify, identityKeys, verdict_eq_valid, pair_challenge]

/-- So does the user, before there is an answer. -/
theorem zhangKimBlind_eq (s r a b : ZMod n) (P Qid : G) (m : Message) :
    zhangKimBlind e hash toMpz (identityKeys s P Qid) m (elementMulZn P r) a b =
      residueMulMpz (hash m) (toMpz (e.pair (elementMulZn (elementMulZn Qid s) b +
        (elementMulZn (elementMulZn P s) r + elementMulZn (elementMulZn P s) a)) P)) + b := by
  have : NeZero n := ⟨prime.out.ne_zero⟩
  simp only [zhangKimBlind, identityKeys]
  rw [← e.zmodMul_comm, zmodMul_add_left, zmodMul_add_left]
  simp only [← zmodMul_mul e.card, mul_comm _ s]

/-- The runs of `zhangkim.c` with some messages and some signature. -/
theorem zhangKimRun_eq_iff (s r c c' a b : ZMod n) (P Qid S : G) (m : Message) :
    zhangKimRun e hash toMpz (identityKeys s P Qid) m r (a, b) =
        (⟨elementMulZn P r, c, zhangKimSign (identityKeys s P Qid) r c⟩, (S, c')) ↔
      zhangKimVerify e hash toMpz (identityKeys s P Qid) m S c' = .valid ∧ b = c - c' ∧
        elementMulZn (elementMulZn P s) a = S - zhangKimSign (identityKeys s P Qid) r c := by
  have : NeZero n := ⟨prime.out.ne_zero⟩
  -- With these coins the user and the verifier hash the same point.
  have hashes (challenge : b = c - c') (answer : elementMulZn (elementMulZn P s) a =
      S - zhangKimSign (identityKeys s P Qid) r c) :
      elementMulZn (elementMulZn Qid s) b +
          (elementMulZn (elementMulZn P s) r + elementMulZn (elementMulZn P s) a) =
        S - elementMulZn (elementMulZn Qid s) c' := by
    have parts : elementMulZn (elementMulZn Qid s) c =
        elementMulZn (elementMulZn Qid s) (c - c') + elementMulZn (elementMulZn Qid s) c' := by
      rw [← zmodMul_add e.card, sub_add_cancel]
    simp only [answer, challenge, zhangKimSign, identityKeys, parts]
    abel
  obtain ⟨sent, challenge⟩ : ∃ sent,
    zhangKimBlind e hash toMpz (identityKeys s P Qid) m (elementMulZn P r) a b = sent := ⟨_, rfl⟩
  have run : zhangKimRun e hash toMpz (identityKeys s P Qid) m r (a, b) =
      (⟨elementMulZn P r, sent, zhangKimSign (identityKeys s P Qid) r sent⟩,
        (zhangKimSign (identityKeys s P Qid) r sent + elementMulZn (elementMulZn P s) a, sent - b)) := by
    rw [← challenge]
    rfl
  rw [zhangKimBlind_eq] at challenge
  rw [run, zhangKimVerify_valid]
  constructor
  · intro same
    obtain ⟨view, signature⟩ := Prod.mk.inj same
    obtain ⟨-, rfl, -⟩ := ZhangKimView.mk.inj view
    obtain ⟨point, rest⟩ := Prod.mk.inj signature
    have blinding : b = sent - c' := by rw [← rest, sub_sub_cancel]
    have answer : elementMulZn (elementMulZn P s) a =
        S - zhangKimSign (identityKeys s P Qid) r sent := by
      rw [← point, add_sub_cancel_left]
    rw [hashes blinding answer] at challenge
    exact ⟨by linear_combination challenge - blinding, blinding, answer⟩
  · rintro ⟨accepted, blinding, answer⟩
    rw [hashes blinding answer, accepted, blinding, add_sub_cancel] at challenge
    rw [← challenge, answer, blinding, add_sub_cancel, sub_sub_cancel]

/-- The verifier of `zhangkim.c` accepts a signature exactly if it comes out of a run with any
given messages between signer and user, and then for one pair of blinding coins: whatever the
signer has seen, it says nothing about the signature. -/
theorem zhangKimVerify_iff {P : G} (generator : P ≠ 0) {s : ZMod n} (master : s ≠ 0) (Qid : G)
    (m : Message) (r c c' : ZMod n) (S : G) :
    zhangKimVerify e hash toMpz (identityKeys s P Qid) m S c' = .valid ↔
      ∃! coins, zhangKimRun e hash toMpz (identityKeys s P Qid) m r coins =
        (⟨elementMulZn P r, c, zhangKimSign (identityKeys s P Qid) r c⟩, (S, c')) := by
  obtain ⟨a, answer, unique⟩ := existsUnique_zmodMul e.card
    (zmodMul_ne_zero e.card generator master) (S - zhangKimSign (identityKeys s P Qid) r c)
  constructor
  · intro accepted
    refine ⟨(a, c - c'), (zhangKimRun_eq_iff ..).2 ⟨accepted, rfl, answer⟩, ?_⟩
    rintro ⟨a', b'⟩ same
    obtain ⟨-, rfl, answer'⟩ := (zhangKimRun_eq_iff ..).1 same
    rw [unique a' answer']
  · rintro ⟨coins, same, -⟩
    exact ((zhangKimRun_eq_iff ..).1 same).1

end Signatures

section Small

private local instance primeFiveIdentity : Fact (Nat.Prime 5) := ⟨by decide⟩

/-- A target group that is read as numbers. -/
private def residueToMpz (x : Multiplicative (ZMod 5)) : ℤ := (Multiplicative.toAdd x).val

/-- Over the residues modulo five, a signature of one identity is accepted for another one. -/
theorem patersonVerify_iff_five :
    patersonVerify (residuePairing 5) (fun m : ZMod 5 => m) (identityKeys (2 : ZMod 5) 1 3) 4
      (elementMulZn 1 (2 : ZMod 5)) (2 : ZMod 5) = .valid := by
  have inverse : (2 : ZMod 5)⁻¹ = 3 := inv_eq_of_mul_eq_one_right rfl
  refine (patersonVerify_iff (residuePairing 5) _ (by decide) 2 3 3 4 4 (by decide) 2).2 ?_
  rw [patersonSign, inverse]
  decide

theorem hessVerify_iff_five :
    ∃! k, hessSign (residuePairing 5) (fun m : ZMod 5 => m) residueToMpz
      (identityKeys (2 : ZMod 5) (1 : ZMod 5) 3) 4 (1 : ZMod 5) k = (0, 2) :=
  (hessVerify_iff (residuePairing 5) _ residueToMpz (by decide) 2 1 3 4 0 2).1 (by decide)

theorem zhangKimVerify_iff_five :
    ∃! coins : ZMod 5 × ZMod 5, zhangKimRun (residuePairing 5) (fun m : ZMod 5 => m) residueToMpz
      (identityKeys (2 : ZMod 5) (1 : ZMod 5) 3) 4 2 coins =
        (⟨elementMulZn 1 (2 : ZMod 5), 1,
          zhangKimSign (identityKeys (2 : ZMod 5) (1 : ZMod 5) 3) (2 : ZMod 5) 1⟩, (0, 2)) :=
  (zhangKimVerify_iff (residuePairing 5) (fun m : ZMod 5 => m) residueToMpz (by decide) (by decide)
    3 4 2 1 2 0).1 (by decide)

end Small

end Pbc.Schemes
