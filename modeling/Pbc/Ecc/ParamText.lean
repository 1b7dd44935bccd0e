import Pbc.Arith.Text
import Pbc.Misc.Parse

/-!
# Stored pairing parameters

The text in which the parameters of the types a, d and f are stored, one key and its value
a line, and the routines that read it back from a buffer or a stream.
-/

open Pbc.Arith Pbc.Misc

namespace Pbc.Ecc

section Integers

/-- The value of a character as a digit of any base; no base has that of other characters. -/
def digitValue (c : Char) : ℕ :=
  if '0' ≤ c ∧ c ≤ '9' then c.toNat - '0'.toNat
  else if 'A' ≤ c ∧ c ≤ 'Z' then c.toNat - 'A'.toNat + 10
  else if 'a' ≤ c ∧ c ≤ 'z' then c.toNat - 'a'.toNat + 10
  else 255

/-- The digits that `mpz_set_str` reads, with blanks between them; an invalid digit makes
it fail. -/
def mpzSetStrDigits (b : ℕ) : List Char → ℕ → Option ℕ
  | [], z => some z
  | c :: s, z =>
      if isSpace c then mpzSetStrDigits b s z
      else if digitValue c ≥ b then none
      else mpzSetStrDigits b s (b * z + digitValue c)

/-- `mpz_set_str` in base 0, which the first digits tell. -/
def mpzSetStr (s : List Char) : Option ℤ :=
  let s := skipSpaces s
  let (negative, s) : Bool × List Char :=
    match s with
    | '-' :: s => (true, s)
    | s => (false, s)
  match s with
  | [] => none
  | c :: digits =>
      if digitValue c ≥ 10 then none
      else
        let (b, digits) : ℕ × List Char :=
          if c = '0' then
            match digits with
            | 'x' :: digits | 'X' :: digits => (16, digits)
            | 'b' :: digits | 'B' :: digits => (2, digits)
            | digits => (8, digits)
          else (10, c :: digits)
        (mpzSetStrDigits b digits 0).map fun z : ℕ => if negative then -(z : ℤ) else z

/-- `mpz_get_si`, for a long of some bits. -/
def mpzGetSi (longBits : ℕ) (z : ℤ) : ℤ :=
  if z < 0 then -1 - ((z.natAbs - 1) % 2 ^ (longBits - 1) : ℕ)
  else (z.natAbs % 2 ^ (longBits - 1) : ℕ)

end Integers

section Operations

/-- `param_out_type`. -/
def paramOutType (s : List Char) : List Char := ['t', 'y', 'p', 'e', ' '] ++ s ++ ['\n']

/-- `param_out_mpz`. -/
def paramOutMpz (s : List Char) (z : ℤ) : List Char := s ++ [' '] ++ mpzOutStr z ++ ['\n']

/-- `param_out_int`. -/
def paramOutInt (s : List Char) (i : Int32) : List Char := paramOutMpz s i.toInt

/-- `lookup_mpz`: what the integer holds then. -/
def lookupMpz (z : ℤ) (tab : Symtab) (key : List Char) : ℤ :=
  match symtabAt tab key with
  | none => z
  | some data => (mpzSetStr data).getD z

/-- `lookup_int`. -/
def lookupInt (longBits : ℕ) (tab : Symtab) (key : List Char) : Int32 :=
  match symtabAt tab key with
  | none => 0
  | some data => Int32.ofInt (mpzGetSi longBits ((mpzSetStr data).getD 0))

/-- `struct a_param_s`. -/
structure AParamS where
  exp2 : Int32
  exp1 : Int32
  sign1 : Int32
  sign0 : Int32
  r : ℤ
  q : ℤ
  h : ℤ

/-- `struct d_param_s`, with as many coefficients as the routines use. -/
structure DParamS where
  q : ℤ
  n : ℤ
  h : ℤ
  r : ℤ
  a : ℤ
  b : ℤ
  k : Int32
  nk : ℤ
  hk : ℤ
  coeff : List ℤ
  nqr : ℤ
  nonnegative : 0 ≤ k.toInt
  sized : coeff.length = (k.toInt / 2).toNat

/-- `struct f_param_s`. -/
structure FParamS where
  q : ℤ
  r : ℤ
  b : ℤ
  beta : ℤ
  alpha0 : ℤ
  alpha1 : ℤ

/-- `a_param_out_str`. -/
def aParamOutStr (p : AParamS) : List Char :=
  paramOutType ['a'] ++
  paramOutMpz ['q'] p.q ++
  paramOutMpz ['h'] p.h ++
  paramOutMpz ['r'] p.r ++
  paramOutInt ['e', 'x', 'p', '2'] p.exp2 ++
  paramOutInt ['e', 'x', 'p', '1'] p.exp1 ++
  paramOutInt ['s', 'i', 'g', 'n', '1'] p.sign1 ++
  paramOutInt ['s', 'i', 'g', 'n', '0'] p.sign0

/-- The key of a coefficient, printed with `coeff%d`. -/
def coeffKey (i : ℕ) : List Char := ['c', 'o', 'e', 'f', 'f'] ++ Nat.toDigits 10 i

/-- `d_param_out_str`. -/
def dParamOutStr (p : DParamS) : List Char :=
  paramOutType ['d'] ++
  paramOutMpz ['q'] p.q ++
  paramOutMpz ['n'] p.n ++
  paramOutMpz ['h'] p.h ++
  paramOutMpz ['r'] p.r ++
  paramOutMpz ['a'] p.a ++
  paramOutMpz ['b'] p.b ++
  paramOutInt ['k'] p.k ++
  paramOutMpz ['n', 'k'] p.nk ++
  paramOutMpz ['h', 'k'] p.hk ++
  ((List.range (p.k.toInt / 2).toNat).flatMap fun i => paramOutMpz (coeffKey i) (p.coeff.getD i 0)) ++
  paramOutMpz ['n', 'q', 'r'] p.nqr

/-- `f_param_out_str`. -/
def fParamOutStr (p : FParamS) : List Char :=
  paramOutType ['f'] ++
  paramOutMpz ['q'] p.q ++
  paramOutMpz ['r'] p.r ++
  paramOutMpz ['b'] p.b ++
  paramOutMpz ['b', 'e', 't', 'a'] p.beta ++
  paramOutMpz ['a', 'l', 'p', 'h', 'a', '0'] p.alpha0 ++
  paramOutMpz ['a', 'l', 'p', 'h', 'a', '1'] p.alpha1

variable {σ : Type} (fops : FetchOps σ) (longBits fuel : ℕ)

/-- `a_param_inp_generic`, into what `p` holds. -/
def aParamInpGeneric (p : AParamS) (ctx : σ) : Option AParamS := do
  let (tab, _) ← paramReadGeneric fops fuel fuel [] ctx
  return { q := lookupMpz p.q tab ['q']
           r := lookupMpz p.r tab ['r']
           h := lookupMpz p.h tab ['h']
           exp2 := lookupInt longBits tab ['e', 'x', 'p', '2']
           exp1 := lookupInt longBits tab ['e', 'x', 'p', '1']
           sign1 := lookupInt longBits tab ['s', 'i', 'g', 'n', '1']
           sign0 := lookupInt longBits tab ['s', 'i', 'g', 'n', '0'] }

/-- `d_param_inp_generic`, into what `p` holds. The allocation fails for a negative number
of coefficients; that of none gives a pointer. -/
def dParamInpGeneric (p : DParamS) (ctx : σ) : Option DParamS := do
  let (tab, _) ← paramReadGeneric fops fuel fuel [] ctx
  let k := lookupInt longBits tab ['k']
  if nonnegative : 0 ≤ k.toInt then
    return { q := lookupMpz p.q tab ['q']
             n := lookupMpz p.n tab ['n']
             h := lookupMpz p.h tab ['h']
             r := lookupMpz p.r tab ['r']
             a := lookupMpz p.a tab ['a']
             b := lookupMpz p.b tab ['b']
             k := k
             nk := lookupMpz p.nk tab ['n', 'k']
             hk := lookupMpz p.hk tab ['h', 'k']
             nqr := lookupMpz p.nqr tab ['n', 'q', 'r']
             coeff := (List.range (k.toInt / 2).toNat).map fun i => lookupMpz 0 tab (coeffKey i)
             nonnegative := nonnegative
             sized := by rw [List.length_map, List.length_range] }
  else none

/-- `f_param_inp_generic`, into what `p` holds. -/
def fParamInpGeneric (p : FParamS) (ctx : σ) : Option FParamS := do
  let (tab, _) ← paramReadGeneric fops fuel fuel [] ctx
  return { q := lookupMpz p.q tab ['q']
           r := lookupMpz p.r tab ['r']
           b := lookupMpz p.b tab ['b']
           beta := lookupMpz p.beta tab ['b', 'e', 't', 'a']
           alpha0 := lookupMpz p.alpha0 tab ['a', 'l', 'p', 'h', 'a', '0']
           alpha1 := lookupMpz p.alpha1 tab ['a', 'l', 'p', 'h', 'a', '1'] }

/-- `a_param_init`; the machine integers hold anything. -/
def aParamInit (exp2 exp1 sign1 sign0 : Int32) : AParamS := ⟨exp2, exp1, sign1, sign0, 0, 0, 0⟩

private theorem dParamInit_nonnegative : 0 ≤ (0 : Int32).toInt := le_rfl

private theorem dParamInit_sized : ([] : List ℤ).length = ((0 : Int32).toInt / 2).toNat := rfl

/-- `d_param_init`. -/
def dParamInit : DParamS :=
  ⟨0, 0, 0, 0, 0, 0, 0, 0, 0, [], 0, dParamInit_nonnegative, dParamInit_sized⟩

/-- `f_param_init`. -/
def fParamInit : FParamS := ⟨0, 0, 0, 0, 0, 0⟩

/-- The parameters of a pairing. -/
inductive PairingParam where
  | a (p : AParamS)
  | d (p : DParamS)
  | f (p : FParamS)

/-- The name of a type in the text. -/
def PairingParam.type : PairingParam → List Char
  | a _ => ['a']
  | d _ => ['d']
  | f _ => ['f']

/-- The `out_str` routine of a type. -/
def PairingParam.outStr : PairingParam → List Char
  | a p => aParamOutStr p
  | d p => dParamOutStr p
  | f p => fParamOutStr p

/-- The `inp_generic` routine of the type `s`, into fresh parameters; the machine integers
of type a hold anything before. -/
def paramInpGeneric (garbage : Int32) (s : List Char) (ctx : σ) : Option PairingParam :=
  if s = ['a'] then
    (aParamInpGeneric fops longBits fuel (aParamInit garbage garbage garbage garbage) ctx).map .a
  else if s = ['d'] then (dParamInpGeneric fops longBits fuel dParamInit ctx).map .d
  else if s = ['f'] then (fParamInpGeneric fops fuel fParamInit ctx).map .f
  else none

/-- The parameters that `pairing_init_inp_generic` reads, behind the type line. -/
def pairingInitInpGeneric (garbage : Int32) (ctx : σ) : Option PairingParam := do
  let (tok, ctx) ← tokenGetGeneric fops fuel ctx
  match tok with
  | .word _ =>
      let (tok, ctx) ← tokenGetGeneric fops fuel ctx
      match tok with
      | .word s => paramInpGeneric fops longBits fuel garbage s ctx
      | _ => none
  | _ => none

end Operations

section Values

private theorem digitValue_of_isDigit {c : Char} (digit : c.isDigit = true) :
    digitValue c = c.toNat - '0'.toNat ∧ c.toNat - '0'.toNat < 10 ∧ isSpace c = false ∧
      endsWord c = false := by
  obtain ⟨range, bounds⟩ := digit_range digit
  have zero : '0'.toNat = 48 := rfl
  have other (d : Char) (outside : d.toNat < 48 ∨ 57 < d.toNat) : c ≠ d := by
    rintro rfl
    omega
  refine ⟨by rw [digitValue, if_pos bounds], by omega, ?_, ?_⟩
  · simp [isSpace, other ' ' (by decide), other '\t' (by decide), other '\n' (by decide),
      other '\r' (by decide)]
    omega
  · simp [endsWord, isBlank, other ' ' (by decide), other '\t' (by decide), other '\n' (by decide),
      other '\r' (by decide), other '<' (by decide), other '/' (by decide), other '>' (by decide)]
    omega

/-- Decimal digits are read as digits of the base ten. -/
private theorem mpzSetStrDigits_digits {digits : List Char}
    (decimal : ∀ c ∈ digits, c.isDigit = true) (z : ℕ) :
    mpzSetStrDigits 10 digits z = some (Nat.ofDigitChars 10 digits z) := by
  induction digits generalizing z with
  | nil => rfl
  | cons c digits ih =>
    obtain ⟨value, small, solid, -⟩ := digitValue_of_isDigit (decimal c List.mem_cons_self)
    rw [mpzSetStrDigits, if_neg (by simp [solid]), value, if_neg (by omega),
      ih fun x member => decimal x (List.mem_cons_of_mem c member), Nat.ofDigitChars_cons]

/-- The digits of a positive number do not start with a zero. -/
private theorem head_toDigits {n : ℕ} (positive : 0 < n) :
    ∃ c digits, Nat.toDigits 10 n = c :: digits ∧ c ≠ '0' := by
  induction n using Nat.strongRecOn with
  | ind n ih =>
    by_cases small : n < 10
    · refine ⟨n.digitChar, [], Nat.toDigits_of_lt_base small, ?_⟩
      interval_cases n <;> decide
    · obtain ⟨c, digits, shape, other⟩ := ih (n / 10) (by omega) (by omega)
      refine ⟨c, digits ++ [(n % 10).digitChar], ?_, other⟩
      rw [Nat.toDigits_of_base_le (by decide) (not_lt.mp small), shape, List.cons_append]

private theorem isDigit_toDigits (n : ℕ) : ∀ c ∈ Nat.toDigits 10 n, c.isDigit = true :=
  fun _ => Nat.isDigit_of_mem_toDigits (by decide) (by decide)

/-- What `mpz_out_str` writes, `mpz_set_str` reads. -/
theorem mpzSetStr_mpzOutStr (z : ℤ) : mpzSetStr (mpzOutStr z) = some z := by
  rcases Nat.eq_zero_or_pos z.natAbs with zero | positive
  · obtain rfl := Int.natAbs_eq_zero.mp zero
    rfl
  · obtain ⟨c, digits, shape, other⟩ := head_toDigits positive
    have decimal := isDigit_toDigits z.natAbs
    have value := mpzSetStrDigits_digits decimal 0
    rw [Nat.ofDigitChars_ten_toDigits, shape] at value
    rw [shape] at decimal
    obtain ⟨first, small, solid, -⟩ := digitValue_of_isDigit (decimal c List.mem_cons_self)
    have sign : c ≠ '-' := by
      rintro rfl
      exact absurd (decimal '-' List.mem_cons_self) (by decide)
    have valid : ¬digitValue c ≥ 10 := by omega
    by_cases negative : z < 0
    · have text : mpzOutStr z = '-' :: c :: digits := by rw [mpzOutStr, if_pos negative, shape]
      have skip : skipSpaces ('-' :: c :: digits) = '-' :: c :: digits := rfl
      rw [text, mpzSetStr, skip]
      simp only [if_neg other, if_neg valid, value, Option.map_some, if_true]
      rw [Int.ofNat_natAbs_of_nonpos negative.le, neg_neg]
    · have text : mpzOutStr z = c :: digits := by rw [mpzOutStr, if_neg negative, shape]
      have skip : skipSpaces (c :: digits) = c :: digits := by
        simp [skipSpaces, solid]
      rw [text, mpzSetStr, skip]
      simp [other, valid, value, sign, not_lt.mp negative]

/-- The machine integers that a long holds. -/
private theorem mpzGetSi_toInt {longBits : ℕ} (wide : 32 ≤ longBits) (i : Int32) :
    mpzGetSi longBits i.toInt = i.toInt := by
  have lower := i.le_toInt
  have upper := i.toInt_lt
  have range : 2 ^ 31 ≤ 2 ^ (longBits - 1) := Nat.pow_le_pow_right (by decide) (by omega)
  rw [mpzGetSi]
  split
  · rw [Nat.mod_eq_of_lt (by omega)]
    omega
  · rw [Nat.mod_eq_of_lt (by omega)]
    omega

theorem isWord_mpzOutStr (z : ℤ) : IsWord (mpzOutStr z) := by
  have decimal := isDigit_toDigits z.natAbs
  rw [mpzOutStr]
  split
  · refine ⟨List.cons_ne_nil _ _, ?_, by simp⟩
    intro c member
    rcases List.mem_cons.mp member with rfl | member
    · rfl
    · exact (digitValue_of_isDigit (decimal c member)).2.2.2
  · refine ⟨Nat.toDigits_ne_nil, fun c member => (digitValue_of_isDigit (decimal c member)).2.2.2, ?_⟩
    intro hash
    exact absurd (decimal '#' (List.mem_of_mem_head? hash)) (by decide)

theorem coeffKey_injective : Function.Injective coeffKey := by
  intro i j same
  have digits := List.append_cancel_left same
  have value := congrArg (Nat.ofDigitChars 10 · 0) digits
  simpa [Nat.ofDigitChars_ten_toDigits] using value

private theorem isWord_coeffKey (i : ℕ) : IsWord (coeffKey i) := by
  refine ⟨List.cons_ne_nil _ _, ?_, by simp [coeffKey]⟩
  intro c member
  rcases List.mem_append.mp member with letter | digit
  · exact (isWord_of_all (List.cons_ne_nil _ _) rfl nofun : IsWord ['c', 'o', 'e', 'f', 'f']).plain c
      letter
  · exact (digitValue_of_isDigit (isDigit_toDigits i c digit)).2.2.2

/-- The keys and the values in the text of some parameters, behind the type. -/
def PairingParam.lines : PairingParam → List (List Char × List Char)
  | a p =>
      [(['q'], mpzOutStr p.q), (['h'], mpzOutStr p.h), (['r'], mpzOutStr p.r),
        (['e', 'x', 'p', '2'], mpzOutStr p.exp2.toInt), (['e', 'x', 'p', '1'], mpzOutStr p.exp1.toInt),
        (['s', 'i', 'g', 'n', '1'], mpzOutStr p.sign1.toInt),
        (['s', 'i', 'g', 'n', '0'], mpzOutStr p.sign0.toInt)]
  | d p =>
      [(['q'], mpzOutStr p.q), (['n'], mpzOutStr p.n), (['h'], mpzOutStr p.h),
        (['r'], mpzOutStr p.r), (['a'], mpzOutStr p.a), (['b'], mpzOutStr p.b),
        (['k'], mpzOutStr p.k.toInt), (['n', 'k'], mpzOutStr p.nk), (['h', 'k'], mpzOutStr p.hk)] ++
      ((List.range (p.k.toInt / 2).toNat).map fun i => (coeffKey i, mpzOutStr (p.coeff.getD i 0))) ++
      [(['n', 'q', 'r'], mpzOutStr p.nqr)]
  | f p =>
      [(['q'], mpzOutStr p.q), (['r'], mpzOutStr p.r), (['b'], mpzOutStr p.b),
        (['b', 'e', 't', 'a'], mpzOutStr p.beta),
        (['a', 'l', 'p', 'h', 'a', '0'], mpzOutStr p.alpha0),
        (['a', 'l', 'p', 'h', 'a', '1'], mpzOutStr p.alpha1)]

private theorem paramText_cons (key : List Char) (z : ℤ) (lines : List (List Char × List Char)) :
    paramText ((key, mpzOutStr z) :: lines) = paramOutMpz key z ++ paramText lines := by
  simp [paramText, paramOutMpz]

private theorem paramText_nil : paramText [] = [] := rfl

private theorem length_le_paramText (lines : List (List Char × List Char)) :
    lines.length ≤ (paramText lines).length := by
  induction lines with
  | nil => exact le_rfl
  | cons line lines ih =>
    rw [paramText] at ih ⊢
    simp only [List.flatMap_cons, List.length_append, List.length_cons, List.length_nil]
    omega

/-- The text of some parameters. -/
theorem PairingParam.outStr_eq (p : PairingParam) :
    p.outStr = paramOutType p.type ++ paramText p.lines := by
  cases p with
  | a p =>
    simp only [outStr, aParamOutStr, type, lines, paramText_cons, paramText_nil, paramOutInt,
      List.append_assoc, List.append_nil]
  | f p =>
    simp only [outStr, fParamOutStr, type, lines, paramText_cons, paramText_nil, List.append_assoc,
      List.append_nil]
  | d p =>
    have coefficients (indices : List ℕ) (rest : List (List Char × List Char)) :
        paramText ((indices.map fun i => (coeffKey i, mpzOutStr (p.coeff.getD i 0))) ++ rest) =
          (indices.flatMap fun i => paramOutMpz (coeffKey i) (p.coeff.getD i 0)) ++
            paramText rest := by
      induction indices with
      | nil => rfl
      | cons i indices ih =>
        rw [List.map_cons, List.cons_append, paramText_cons, ih, List.flatMap_cons, List.append_assoc]
    simp only [outStr, dParamOutStr, type, lines, List.append_assoc, List.cons_append,
      List.nil_append, paramText_cons, paramText_nil, coefficients, paramOutInt, List.append_nil]

theorem PairingParam.isWord_lines (p : PairingParam) :
    ∀ line ∈ p.lines, IsWord line.1 ∧ IsWord line.2 := by
  have key (w : List Char)
      (plain : w ≠ [] ∧ w.all (fun c => !endsWord c) = true ∧ w.head? ≠ some '#') (z : ℤ) :
      IsWord w ∧ IsWord (mpzOutStr z) :=
    ⟨isWord_of_all plain.1 plain.2.1 plain.2.2, isWord_mpzOutStr z⟩
  intro line member
  cases p with
  | a p =>
    simp only [lines, List.mem_cons, List.not_mem_nil, or_false] at member
    rcases member with rfl | rfl | rfl | rfl | rfl | rfl | rfl <;>
      exact key _ (by dsimp only; decide) _
  | f p =>
    simp only [lines, List.mem_cons, List.not_mem_nil, or_false] at member
    rcases member with rfl | rfl | rfl | rfl | rfl | rfl <;>
      exact key _ (by dsimp only; decide) _
  | d p =>
    simp only [lines, List.mem_append, List.mem_map, List.mem_cons, List.not_mem_nil,
      or_false] at member
    rcases member with ((rfl | rfl | rfl | rfl | rfl | rfl | rfl | rfl | rfl) | ⟨i, -, rfl⟩) | rfl
    case inl.inr => exact ⟨isWord_coeffKey i, isWord_mpzOutStr _⟩
    all_goals exact key _ (by dsimp only; decide) _

/-- No key stands in two lines, and none is the word in front of the type. -/
theorem PairingParam.nodup_keys (p : PairingParam) :
    (['t', 'y', 'p', 'e'] :: p.lines.map Prod.fst).Nodup := by
  cases p with
  | a p => simp [lines]
  | f p => simp [lines]
  | d p =>
    have coefficients : ((List.range (p.k.toInt / 2).toNat).map coeffKey).Nodup :=
      List.nodup_range.map coeffKey_injective
    have other (i : ℕ) (key : List Char) (short : key.take 2 ≠ ['c', 'o']) : coeffKey i ≠ key := by
      rintro rfl
      exact short rfl
    simp [lines, List.nodup_append, coefficients, Function.comp_def]
    refine ⟨?_, ?_, ?_, ?_, ?_, ?_, ?_, ?_, ?_, ?_, ?_⟩ <;>
      exact fun i _ => other i _ (by decide)

section Lookups

variable {lines : List (List Char × List Char)} {key : List Char}

/-- What is looked up is found, where no key stands in two lines. -/
private theorem symtabAt_nodup (nodup : (lines.map Prod.fst).Nodup) {data : List Char}
    (member : (key, data) ∈ lines) :
    symtabAt (lines.foldl (fun tab line => symtabPut tab line.2 line.1) []) key = some data := by
  refine symtabAt_lines member fun line member' same => ?_
  have equal := List.inj_on_of_nodup_map nodup member' member same
  rw [equal]

private theorem lookupMpz_nodup (nodup : (lines.map Prod.fst).Nodup) {z : ℤ}
    (member : (key, mpzOutStr z) ∈ lines) (before : ℤ) :
    lookupMpz before (lines.foldl (fun tab line => symtabPut tab line.2 line.1) []) key = z := by
  rw [lookupMpz, symtabAt_nodup nodup member]
  simp only [mpzSetStr_mpzOutStr, Option.getD_some]

private theorem lookupInt_nodup (nodup : (lines.map Prod.fst).Nodup) {i : Int32}
    (member : (key, mpzOutStr i.toInt) ∈ lines) {longBits : ℕ} (wide : 32 ≤ longBits) :
    lookupInt longBits (lines.foldl (fun tab line => symtabPut tab line.2 line.1) []) key = i := by
  rw [lookupInt, symtabAt_nodup nodup member]
  simp only [mpzSetStr_mpzOutStr, Option.getD_some, mpzGetSi_toInt wide, Int32.ofInt_toInt]

end Lookups

section Reading

variable {σ : Type} {fops : FetchOps σ} {rest : σ → List Char}

/-- A table in which the values of some lines are looked up. -/
private def Holds (longBits : ℕ) (tab : Symtab) (lines : List (List Char × List Char)) : Prop :=
  (∀ key z before, (key, mpzOutStr z) ∈ lines → lookupMpz before tab key = z) ∧
    ∀ key (i : Int32), (key, mpzOutStr i.toInt) ∈ lines → lookupInt longBits tab key = i

/-- From a text that holds some lines a table is read that holds them. -/
private theorem paramReadGeneric_holds (reads : fops.Reads rest) {longBits fuel : ℕ}
    (wide : 32 ≤ longBits) {lines : List (List Char × List Char)}
    (words : ∀ line ∈ lines, IsWord line.1 ∧ IsWord line.2) (nodup : (lines.map Prod.fst).Nodup)
    {blanks : List Char} (blank : ∀ x ∈ blanks, isBlank x = true) {s : σ}
    (left : rest s = blanks ++ paramText lines) (enough : (rest s).length < fuel) :
    ∃ tab s', paramReadGeneric fops fuel fuel [] s = some (tab, s') ∧ Holds longBits tab lines := by
  have few : lines.length < fuel := by
    refine lt_of_le_of_lt ?_ enough
    rw [left, List.length_append]
    exact le_add_left (length_le_paramText lines)
  obtain ⟨s', read⟩ := paramReadGeneric_lines reads words blank left enough few []
  refine ⟨_, s', read, ?_, ?_⟩
  · intro key z before member
    exact lookupMpz_nodup nodup member before
  · intro key i member
    exact lookupInt_nodup nodup member wide

variable {longBits fuel : ℕ} {tab : Symtab} {s s' : σ}

private theorem aParamInpGeneric_holds {p : AParamS}
    (read : paramReadGeneric fops fuel fuel [] s = some (tab, s'))
    (holds : Holds longBits tab (PairingParam.a p).lines) (before : AParamS) :
    aParamInpGeneric fops longBits fuel before s = some p := by
  obtain ⟨mpz, int⟩ := holds
  simp only [aParamInpGeneric, read, Option.bind_eq_bind, Option.bind_some]
  refine congrArg some ((AParamS.mk.injEq ..).mpr ?_)
  refine ⟨int _ _ ?_, int _ _ ?_, int _ _ ?_, int _ _ ?_, mpz _ _ _ ?_, mpz _ _ _ ?_,
    mpz _ _ _ ?_⟩ <;>
    simp [PairingParam.lines]

private theorem dParamInpGeneric_holds {p : DParamS}
    (read : paramReadGeneric fops fuel fuel [] s = some (tab, s'))
    (holds : Holds longBits tab (PairingParam.d p).lines) (before : DParamS) :
    dParamInpGeneric fops longBits fuel before s = some p := by
  obtain ⟨mpz, int⟩ := holds
  have k : lookupInt longBits tab ['k'] = p.k := int _ _ (by simp [PairingParam.lines])
  have coeff : (List.range ((lookupInt longBits tab ['k']).toInt / 2).toNat).map
      (fun i => lookupMpz 0 tab (coeffKey i)) = p.coeff := by
    rw [k]
    refine List.ext_getElem (by simp [p.sized]) fun i inside inside' => ?_
    have line : (coeffKey i, mpzOutStr p.coeff[i]) ∈ (PairingParam.d p).lines := by
      refine List.mem_append_left _ (List.mem_append_right _ (List.mem_map.mpr ⟨i, ?_, ?_⟩))
      · rwa [List.length_map, List.length_range, ← List.mem_range] at inside
      · rw [List.getD_eq_getElem _ _ inside']
    rw [List.getElem_map, List.getElem_range, mpz _ _ _ line]
  simp only [dParamInpGeneric, read, Option.bind_eq_bind, Option.bind_some]
  rw [dif_pos (by rw [k]; exact p.nonnegative)]
  refine congrArg some ((DParamS.mk.injEq ..).mpr ?_)
  refine ⟨mpz _ _ _ ?_, mpz _ _ _ ?_, mpz _ _ _ ?_, mpz _ _ _ ?_, mpz _ _ _ ?_, mpz _ _ _ ?_,
    k, mpz _ _ _ ?_, mpz _ _ _ ?_, coeff, mpz _ _ _ ?_⟩ <;>
    simp [PairingParam.lines]

private theorem fParamInpGeneric_holds {p : FParamS}
    (read : paramReadGeneric fops fuel fuel [] s = some (tab, s'))
    (holds : Holds longBits tab (PairingParam.f p).lines) (before : FParamS) :
    fParamInpGeneric fops fuel before s = some p := by
  obtain ⟨mpz, -⟩ := holds
  simp only [fParamInpGeneric, read, Option.bind_eq_bind, Option.bind_some]
  refine congrArg some ((FParamS.mk.injEq ..).mpr ?_)
  refine ⟨mpz _ _ _ ?_, mpz _ _ _ ?_, mpz _ _ _ ?_, mpz _ _ _ ?_, mpz _ _ _ ?_, mpz _ _ _ ?_⟩ <;>
    simp [PairingParam.lines]

/-- Parameters are read from a text that holds their lines. -/
theorem paramInpGeneric_lines (reads : fops.Reads rest) (wide : 32 ≤ longBits) (p : PairingParam)
    (garbage : Int32) {lines : List (List Char × List Char)}
    (words : ∀ line ∈ lines, IsWord line.1 ∧ IsWord line.2) (nodup : (lines.map Prod.fst).Nodup)
    (all : ∀ line ∈ p.lines, line ∈ lines) {blanks : List Char}
    (blank : ∀ x ∈ blanks, isBlank x = true) (left : rest s = blanks ++ paramText lines)
    (enough : (rest s).length < fuel) :
    paramInpGeneric fops longBits fuel garbage p.type s = some p := by
  obtain ⟨tab, s', read, mpz, int⟩ := paramReadGeneric_holds reads wide words nodup blank left enough
  have holds : Holds longBits tab p.lines :=
    ⟨fun key z before member => mpz key z before (all _ member),
      fun key i member => int key i (all _ member)⟩
  cases p with
  | a p => exact congrArg (Option.map _) (aParamInpGeneric_holds read holds _)
  | d p => exact congrArg (Option.map _) (dParamInpGeneric_holds read holds _)
  | f p => exact congrArg (Option.map _) (fParamInpGeneric_holds read holds _)

private theorem isWord_type (p : PairingParam) : IsWord ['t', 'y', 'p', 'e'] ∧ IsWord p.type := by
  refine ⟨isWord_of_all (List.cons_ne_nil _ _) rfl (by decide), ?_⟩
  cases p <;> rw [PairingParam.type] <;>
    exact isWord_of_all (List.cons_ne_nil _ _) rfl (by decide)

/-- From a source that holds the text of some parameters, these are read, whether the line
of the type has been consumed before or not. -/
theorem outStr_reads (reads : fops.Reads rest) (wide : 32 ≤ longBits) (p : PairingParam)
    (garbage : Int32) (left : rest s = p.outStr) (enough : p.outStr.length < fuel) :
    paramInpGeneric fops longBits fuel garbage p.type s = some p ∧
      pairingInitInpGeneric fops longBits fuel garbage s = some p := by
  obtain ⟨key, type⟩ := isWord_type p
  have nodup := p.nodup_keys
  have whole : p.outStr = paramText ((['t', 'y', 'p', 'e'], p.type) :: p.lines) := by
    rw [p.outStr_eq]
    simp [paramText, paramOutType]
  constructor
  · have words : ∀ line ∈ (['t', 'y', 'p', 'e'], p.type) :: p.lines, IsWord line.1 ∧ IsWord line.2 := by
      intro line member
      rcases List.mem_cons.mp member with rfl | member
      · exact ⟨key, type⟩
      · exact p.isWord_lines line member
    have blank : ∀ x ∈ ([] : List Char), isBlank x = true := List.forall_mem_nil _
    exact paramInpGeneric_lines reads wide p garbage words nodup
      (fun line => List.mem_cons_of_mem _) blank (left.trans whole) (left ▸ enough)
  · have split : rest s = [] ++ (['t', 'y', 'p', 'e'] ++ ' ' :: (p.type ++ '\n' :: paramText p.lines)) := by
      rw [left, p.outStr_eq]
      simp [paramOutType]
    have room : (rest s).length < fuel := left ▸ enough
    rw [split] at room
    simp only [List.length_append, List.length_cons, List.length_nil] at room
    have space : ∀ x ∈ [' '], isBlank x = true := List.all_eq_true.mp rfl
    have newline : ∀ x ∈ ['\n'], isBlank x = true := List.all_eq_true.mp rfl
    obtain ⟨s₁, token, behind⟩ := tokenGetGeneric_word reads (List.forall_mem_nil _) key rfl split
      (show _ < fuel by simp; omega)
    obtain ⟨s₂, token', behind'⟩ := tokenGetGeneric_word reads space type (d := '\n') rfl behind
      (show _ < fuel by simp; omega)
    have read : paramInpGeneric fops longBits fuel garbage p.type s₂ = some p :=
      paramInpGeneric_lines reads wide p garbage p.isWord_lines (List.nodup_cons.mp nodup).2
        (fun line member => member) newline behind' (by rw [behind']; simp; omega)
    simp [pairingInitInpGeneric, token, token', read]

end Reading

/-- Stored parameters are read back, from a buffer and from a stream. -/
theorem params_read_back {longBits : ℕ} (wide : 32 ≤ longBits) (p : PairingParam) (garbage : Int32)
    {fuel : ℕ} (enough : p.outStr.length < fuel) :
    (paramInpGeneric fopsBuf longBits fuel garbage p.type (trackerInit p.outStr) = some p ∧
      paramInpGeneric fopsStr longBits fuel garbage p.type p.outStr = some p) ∧
    (pairingInitInpGeneric fopsBuf longBits fuel garbage (trackerInit p.outStr) = some p ∧
      pairingInitInpGeneric fopsStr longBits fuel garbage p.outStr = some p) := by
  have buffer := outStr_reads fopsBuf_reads wide p garbage (s := trackerInit p.outStr) rfl enough
  have stream := outStr_reads fopsStr_reads wide p garbage (s := p.outStr) rfl enough
  exact ⟨⟨buffer.1, stream.1⟩, buffer.2, stream.2⟩

private def smallParams : PairingParam := .f ⟨59, -7, 0, 3, 10, -20⟩

theorem params_read_back_small :
    (paramInpGeneric fopsBuf 64 (smallParams.outStr.length + 1) 5 smallParams.type
        (trackerInit smallParams.outStr) = some smallParams ∧
      paramInpGeneric fopsStr 64 (smallParams.outStr.length + 1) 5 smallParams.type
        smallParams.outStr = some smallParams) ∧
    (pairingInitInpGeneric fopsBuf 64 (smallParams.outStr.length + 1) 5
        (trackerInit smallParams.outStr) = some smallParams ∧
      pairingInitInpGeneric fopsStr 64 (smallParams.outStr.length + 1) 5
        smallParams.outStr = some smallParams) :=
  params_read_back (by decide) smallParams 5 (Nat.lt_succ_self _)

end Values

end Pbc.Ecc
