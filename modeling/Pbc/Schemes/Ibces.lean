import Pbc.Algebra.SymmetricPairing

/-!
# Encryption and signatures with one key

The scheme of the test program, over a symmetric pairing. The receiver decrypts and compares, and
the verifier compares `e(P, Z)` with `e(Ppub, X + h Qu)`; of the two tests one takes the result of
the comparison the other way round.
-/

open Pbc.Algebra

namespace Pbc.Schemes

section Operations

variable {n : ℕ} {G T : Type*} [AddCommGroup G] [CommGroup T]

/-- `element_cmp`: zero for equal elements. -/
def elementCmp {A : Type*} [DecidableEq A] (a b : A) : ℤ := if a = b then 0 else 1

/-- `element_mul_zn`. -/
abbrev elementMulZn (P : G) (z : ZMod n) : G := zmodMul P z

/-- `element_pow_zn`. -/
def elementPowZn (a : T) (z : ZMod n) : T := a ^ z.val

/-- What the program prints after a test. -/
inductive Verdict where
  | valid
  | invalid
  deriving DecidableEq, Repr

/-- What setup and key extraction leave in the variables. -/
structure IbcesKeys (G : Type*) where
  P : G
  Ppub : G
  Qu : G
  Su : G

/-- Setup and key extraction, with the random `s`, `P` and `Qu`. -/
def ibcesKeys (s : ZMod n) (P Qu : G) : IbcesKeys G where
  P := P
  Ppub := elementMulZn P s
  Qu := Qu
  Su := elementMulZn Qu s

variable (e : SymmetricPairing n G T) (keys : IbcesKeys G)

/-- Encryption with the coin `r`: `V`, and the mask `T1`. -/
def ibcesEncrypt (r : ZMod n) : G × T :=
  let V := elementMulZn keys.P r
  let T1 := e.pair keys.Ppub keys.Qu
  let T1 := elementPowZn T1 r
  (V, T1)

/-- Decryption: the mask `T2`, and whether it is taken to be right. -/
def ibcesDecrypt [DecidableEq G] (V : G) (r : ZMod n) : T × Verdict :=
  let T2 := e.pair V keys.Su
  let temp2 := elementMulZn keys.P r
  (T2, if elementCmp V temp2 = 0 then .valid else .invalid)

/-- The signature `X`, `Z` with the coins `r` and `h`. -/
def ibcesSign (r h : ZMod n) : G × G :=
  let X := elementMulZn keys.Qu r
  let temp1 := r + h
  let Z := elementMulZn keys.Su temp1
  (X, Z)

/-- The verification of a signature. -/
def ibcesVerify [DecidableEq T] (h : ZMod n) (X Z : G) : Verdict :=
  let T1 := e.pair keys.P Z
  let temp2 := elementMulZn keys.Qu h
  let temp2 := temp2 + X
  let T2 := e.pair keys.Ppub temp2
  if elementCmp T1 T2 ≠ 0 then .valid else .invalid

end Operations

section Schemes

variable {n : ℕ} {G T : Type*} [AddCommGroup G] [CommGroup T]
  (e : SymmetricPairing n G T)

theorem elementCmp_eq_zero {A : Type*} [DecidableEq A] (a b : A) : elementCmp a b = 0 ↔ a = b := by
  rw [elementCmp]
  split
  · next equal => exact iff_of_true rfl equal
  · next other => exact iff_of_false one_ne_zero other

/-- The receiver gets the mask of the sender. -/
theorem ibcesDecrypt_encrypt [DecidableEq G] (s r : ZMod n) (P Qu : G) :
    let keys := ibcesKeys s P Qu
    ibcesDecrypt e keys (ibcesEncrypt e keys r).1 r = ((ibcesEncrypt e keys r).2, .valid) := by
  intro keys
  have same : e.pair (elementMulZn P r) (elementMulZn Qu s) =
      elementPowZn (e.pair (elementMulZn P s) Qu) r := by
    rw [e.zmodMul_left, ← e.zmodMul_comm]
    rfl
  refine Prod.ext same ?_
  exact if_pos ((elementCmp_eq_zero _ _).mpr rfl)

/-- The signature that the holder of the key makes. -/
theorem ibcesSign_eq (card : Nat.card G = n) (s r h : ZMod n) (P Qu : G) :
    ibcesSign (ibcesKeys s P Qu) r h =
      (elementMulZn Qu r, elementMulZn Qu ((r + h) * s)) := by
  rw [mul_comm (r + h), elementMulZn, elementMulZn, zmodMul_mul card]
  rfl

variable [prime : Fact n.Prime]

/-- The two pairings agree exactly for the signature that the holder of the key makes. -/
theorem ibces_pairings_eq_iff {P : G} (generator : P ≠ 0) (s r h : ZMod n) (Qu Z : G) :
    e.pair P Z = e.pair (elementMulZn P s) (elementMulZn Qu h + elementMulZn Qu r) ↔
      Z = elementMulZn Qu ((r + h) * s) := by
  have : NeZero n := ⟨prime.out.ne_zero⟩
  rw [add_comm, ← zmodMul_add e.card, e.zmodMul_comm, ← zmodMul_mul e.card, e.pair_eq_iff generator]

/-- The verdict is the opposite of the equation. -/
theorem ibcesVerify_eq [DecidableEq T] {P : G} (generator : P ≠ 0) (s r h : ZMod n) (Qu Z : G) :
    ibcesVerify e (ibcesKeys s P Qu) h (elementMulZn Qu r) Z = .valid ↔
      Z ≠ elementMulZn Qu ((r + h) * s) := by
  rw [Ne, ← ibces_pairings_eq_iff e generator, ibcesVerify]
  split
  · next differ => exact iff_of_true rfl (mt (elementCmp_eq_zero _ _).mpr differ)
  · next same =>
    refine iff_of_false ?_ (not_not.mpr ((elementCmp_eq_zero _ _).mp (not_not.mp same)))
    intro verdict
    cases verdict

/-- For no signature is the verdict right. -/
theorem ibcesVerify_never [DecidableEq T] {P : G} (generator : P ≠ 0) (s r h : ZMod n) (Qu Z : G) :
    ¬(ibcesVerify e (ibcesKeys s P Qu) h (elementMulZn Qu r) Z = .valid ↔
      Z = elementMulZn Qu ((r + h) * s)) := by
  rw [ibcesVerify_eq e generator]
  exact not_iff_self

end Schemes

private local instance primeFiveIbces : Fact (Nat.Prime 5) := ⟨by decide⟩

/-- Over the residues modulo five the signature of the holder of the key is refused. -/
theorem ibcesVerify_never_five :
    ¬(ibcesVerify (residuePairing 5) (ibcesKeys (2 : ZMod 5) 1 3) 4 (elementMulZn 3 (1 : ZMod 5)) 0 =
        .valid ↔
      (0 : ZMod 5) = elementMulZn 3 ((1 + 4 : ZMod 5) * 2)) :=
  ibcesVerify_never (residuePairing 5) one_ne_zero 2 1 4 3 0

/-- The signature of the holder of the key is refused, and another one is accepted. -/
theorem ibcesVerify_wrong :
    let keys : IbcesKeys (ZMod 5) := ibcesKeys (2 : ZMod 5) 1 3
    let (X, Z) := ibcesSign keys (1 : ZMod 5) 1
    Z = elementMulZn keys.Qu ((1 + 1 : ZMod 5) * 2) ∧
      ibcesVerify (residuePairing 5) keys 1 X Z = .invalid ∧
      ibcesVerify (residuePairing 5) keys 1 X 0 = .valid := by
  decide

end Pbc.Schemes
