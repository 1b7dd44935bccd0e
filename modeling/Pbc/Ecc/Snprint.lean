import Pbc.Ecc.CurveText
import Pbc.Misc.Snprintf

/-!
# Truncated printing

`element_snprint` with the memory that it writes to, over quadratic and polynomial
extensions and curves nested in any way. As long as the length of a text is an `int`, an
element is printed as `snprintf` prints its full text.
-/

open Pbc.Arith
open Pbc.Misc (CharMemory Printer Room printed snprintfAt lengthStatus nul)

namespace Pbc.Ecc

section Operations

/-- A piece in the middle of a printing method, which an error ends. -/
def printPiece (s size : ℕ) (print : Printer) (p : Room) : Except (CharMemory × ℤ) Room :=
  let (p, status) := p.print s size print
  if status < 0 then .error (p.memory, status) else .ok p

/-- The last piece, with `return result + status` as an `int`. -/
def printLast (s : ℕ) (print : Printer) (p : Room) : CharMemory × ℤ :=
  let (memory, status) := print p.memory (s + p.result) p.left
  if status < 0 then (memory, status) else (memory, Int.bmod (p.result + status) (2 ^ 32))

/-- The value that a method returns, early or in the end. -/
def returned : Except (CharMemory × ℤ) (CharMemory × ℤ) → CharMemory × ℤ
  | .error early => early
  | .ok last => last

/-- `zp_snprint`. -/
def zpSnprintAt (e : ℤ) : Printer := snprintfAt (mpzOutStr e)

variable {α : Type}

/-- `fq_snprint`. -/
def fqSnprintAt (snprint : α → Printer) (e : α × α) : Printer := fun m s n =>
  returned do
    let p := ⟨m, 0, n⟩
    let p ← printPiece s n (snprintfAt ['[']) p
    let p ← printPiece s n (snprint e.1) p
    let p ← printPiece s n (snprintfAt [',', ' ']) p
    let p ← printPiece s n (snprint e.2) p
    return printLast s (snprintfAt [']']) p

/-- The loop of `polymod_snprint`. -/
def polymodSnprintAtLoop (snprint : α → Printer) (s size : ℕ) :
    Bool → List α → Room → Except (CharMemory × ℤ) Room
  | _, [], p => .ok p
  | first, e :: coeff, p => do
      let p ← if first then .ok p else printPiece s size (snprintfAt [',', ' ']) p
      let p ← printPiece s size (snprint e) p
      polymodSnprintAtLoop snprint s size false coeff p

/-- `polymod_snprint`. -/
def polymodSnprintAt (snprint : α → Printer) {n : ℕ} (coeff : Fin n → α) : Printer := fun m s size =>
  returned do
    let p := ⟨m, 0, size⟩
    let p ← printPiece s size (snprintfAt ['[']) p
    let p ← polymodSnprintAtLoop snprint s size true (List.ofFn coeff) p
    return printLast s (snprintfAt [']']) p

/-- `curve_snprint`; a finite point is printed as `fq_snprint` prints a pair. -/
def curveSnprintAt (snprint : α → Printer) (p : PointS α) : Printer := fun m s n =>
  if p.infFlag then
    let (memory, status) := snprintfAt ['O'] m s n
    (memory, if status < 0 then status else 1)
  else fqSnprintAt snprint (p.x, p.y) m s n

end Operations

/-- How a structure is built over `F_p`. -/
inductive Layers : TextField → Type 1 where
  | fp (p : ℕ) : Layers (zpText p)
  | quadratic {k : TextField} (base : Layers k) : Layers (fqText k)
  | polymod {k : TextField} (base : Layers k) (n : ℕ) : Layers (polymodText k n)
  | curve {k : TextField} (base : Layers k) (m : CurveTest k.Value) : Layers (curveText k m)

/-- `element_snprint`, by the methods of the structure. -/
def Layers.snprint : {k : TextField} → Layers k → k.Element → Printer
  | _, .fp _ => zpSnprintAt
  | _, .quadratic base => fqSnprintAt base.snprint
  | _, .polymod base _ => polymodSnprintAt base.snprint
  | _, .curve base _ => curveSnprintAt base.snprint

/-- The full text of a pair. -/
def pairText (x y : List Char) : List Char := '[' :: x ++ [',', ' '] ++ y ++ [']']

/-- The full text of an element. -/
def Layers.text : {k : TextField} → Layers k → k.Element → List Char
  | _, .fp _ => mpzOutStr
  | _, .quadratic base => fun e => pairText (base.text e.1) (base.text e.2)
  | _, .polymod base _ => fun coeff =>
      '[' :: [',', ' '].intercalate (List.ofFn fun i => base.text (coeff i)) ++ [']']
  | _, .curve base _ => fun p =>
      if p.infFlag then ['O'] else pairText (base.text p.x) (base.text p.y)

section Printing

variable {p : Room} {m : CharMemory} {s size : ℕ} {text piece : List Char} {print : Printer}

theorem printPiece_holds (holds : p.Holds m s size text) (prints : print.Prints piece)
    (fits : piece.length < 2 ^ 31) :
    ∃ p', printPiece s size print p = .ok p' ∧ p'.Holds m s size (text ++ piece) := by
  obtain ⟨p', run, holds', -⟩ := holds.print prints fits
  refine ⟨p', ?_, holds'⟩
  rw [printPiece, run]
  exact if_neg (by omega)

theorem printPiece_snprintf (holds : p.Holds m s size text) (fits : piece.length < 2 ^ 31) :
    ∃ p', printPiece s size (snprintfAt piece) p = .ok p' ∧ p'.Holds m s size (text ++ piece) :=
  printPiece_holds holds (Pbc.Misc.snprintfAt_prints piece) fits

/-- The last piece: the whole text is in memory, and its length becomes an `int`. -/
theorem printLast_holds (holds : p.Holds m s size text) (fits : piece.length < 2 ^ 31) :
    printLast s (snprintfAt piece) p =
      (printed m s size (text ++ piece), Int.bmod ((text ++ piece).length : ℤ) (2 ^ 32)) := by
  have memory := holds.printed piece
  have length : ((text ++ piece).length : ℤ) = p.result + (piece.length : ℤ) := by
    rw [List.length_append, holds.result, Nat.cast_add]
  rw [printLast, snprintfAt, memory, lengthStatus, if_pos fits, length]
  exact if_neg (by omega)

theorem length_pairText (x y : List Char) : (pairText x y).length = x.length + y.length + 4 := by
  simp only [pairText, List.length_append, List.length_cons, List.length_nil]
  omega

variable {α : Type} {snprint : α → Printer}

theorem fqSnprintAt_prints {e : α × α} {x y : List Char} (first : (snprint e.1).Prints x)
    (second : (snprint e.2).Prints y) (fits : (pairText x y).length < 2 ^ 31) :
    (fqSnprintAt snprint e).Prints (pairText x y) := by
  rw [length_pairText] at fits
  funext m s n
  obtain ⟨p, run, holds⟩ := printPiece_snprintf (Room.holds_start m s n)
    (by decide : ['['].length < 2 ^ 31)
  obtain ⟨p, run', holds⟩ := printPiece_holds holds first (by omega)
  obtain ⟨p, run'', holds⟩ := printPiece_snprintf holds (by decide : [',', ' '].length < 2 ^ 31)
  obtain ⟨p, run''', holds⟩ := printPiece_holds holds second (by omega)
  have last := printLast_holds holds (by decide : [']'].length < 2 ^ 31)
  have whole : [] ++ ['['] ++ x ++ [',', ' '] ++ y ++ [']'] = pairText x y := rfl
  rw [whole, Pbc.Misc.bmod_length (by rw [length_pairText]; omega)] at last
  have status : lengthStatus (pairText x y).length = (pairText x y).length :=
    if_pos (by rw [length_pairText]; omega)
  simp only [fqSnprintAt, run, run', run'', run''', last, bind, Except.bind, pure, Except.pure, returned,
    snprintfAt, status]

/-- The coefficients behind the first one, each behind a comma. -/
theorem polymodSnprintAtLoop_further {text' : α → List Char} {coeff : List α}
    (prints : ∀ e ∈ coeff, (snprint e).Prints (text' e))
    (fits : ∀ e ∈ coeff, (text' e).length < 2 ^ 31) (holds : p.Holds m s size text) :
    ∃ p', polymodSnprintAtLoop snprint s size false coeff p = .ok p' ∧
      p'.Holds m s size (text ++ coeff.flatMap fun e => [',', ' '] ++ text' e) := by
  induction coeff generalizing p text with
  | nil => exact ⟨p, rfl, by rwa [List.flatMap_nil, List.append_nil]⟩
  | cons e coeff ih =>
    obtain ⟨p, run, holds⟩ := printPiece_snprintf holds (by decide : [',', ' '].length < 2 ^ 31)
    obtain ⟨p, run', holds⟩ := printPiece_holds holds (prints e List.mem_cons_self)
      (fits e List.mem_cons_self)
    obtain ⟨p', rest, holds'⟩ := ih (fun e member => prints e (List.mem_cons_of_mem _ member))
      (fun e member => fits e (List.mem_cons_of_mem _ member)) holds
    refine ⟨p', ?_, ?_⟩
    · simp only [polymodSnprintAtLoop, Bool.false_eq_true, if_false, run, run', bind, Except.bind, rest]
    · rw [List.flatMap_cons, ← List.append_assoc, ← List.append_assoc]
      exact holds'

/-- The texts behind the first one, each behind a comma. -/
theorem intercalate_cons (first : List Char) (rest : List (List Char)) :
    [',', ' '].intercalate (first :: rest) = first ++ rest.flatMap fun text => [',', ' '] ++ text := by
  induction rest generalizing first with
  | nil => rw [List.intercalate_singleton, List.flatMap_nil, List.append_nil]
  | cons second rest ih =>
    rw [List.intercalate_cons_cons, ih, List.flatMap_cons, List.append_assoc, List.append_assoc]

/-- Each text is no longer than all of them. -/
theorem length_le_intercalate {texts : List (List Char)} {text : List Char} (member : text ∈ texts) :
    text.length ≤ ([',', ' '].intercalate texts).length := by
  cases texts with
  | nil => cases member
  | cons first rest =>
    rw [intercalate_cons, List.length_append]
    rcases List.mem_cons.mp member with rfl | member
    · exact Nat.le_add_right _ _
    · have behind : List.Sublist ([',', ' '] ++ text) (rest.flatMap fun text => [',', ' '] ++ text) :=
        List.sublist_flatten_of_mem (List.mem_map_of_mem member)
      have length := behind.length_le
      rw [List.length_append] at length
      omega

/-- All coefficients, between the brackets. -/
theorem polymodSnprintAtLoop_holds {text' : α → List Char} {coeff : List α}
    (prints : ∀ e ∈ coeff, (snprint e).Prints (text' e))
    (fits : ∀ e ∈ coeff, (text' e).length < 2 ^ 31) (holds : p.Holds m s size text) :
    ∃ p', polymodSnprintAtLoop snprint s size true coeff p = .ok p' ∧
      p'.Holds m s size (text ++ [',', ' '].intercalate (coeff.map text')) := by
  cases coeff with
  | nil => exact ⟨p, rfl, by rwa [List.map_nil, List.intercalate_nil, List.append_nil]⟩
  | cons e coeff =>
    obtain ⟨p, run, holds⟩ := printPiece_holds holds (prints e List.mem_cons_self)
      (fits e List.mem_cons_self)
    obtain ⟨p', rest, holds'⟩ := polymodSnprintAtLoop_further
      (fun e member => prints e (List.mem_cons_of_mem _ member))
      (fun e member => fits e (List.mem_cons_of_mem _ member)) holds
    refine ⟨p', ?_, ?_⟩
    · simp only [polymodSnprintAtLoop, if_true, run, bind, Except.bind, rest]
    · rw [List.map_cons, intercalate_cons, List.flatMap_map, ← List.append_assoc]
      exact holds'

/-- What a polynomial extension prints: all of the text has been printed, whatever becomes of its
length. -/
theorem polymodSnprintAt_eq {text' : α → List Char} {n : ℕ} {coeff : Fin n → α}
    (prints : ∀ i, (snprint (coeff i)).Prints (text' (coeff i)))
    (fits : ∀ i, (text' (coeff i)).length < 2 ^ 31) (m : CharMemory) (s size : ℕ) :
    ∃ text, text = '[' :: [',', ' '].intercalate (List.ofFn fun i => text' (coeff i)) ++ [']'] ∧
      polymodSnprintAt snprint coeff m s size =
        (printed m s size text, Int.bmod (text.length : ℤ) (2 ^ 32)) := by
  obtain ⟨p, run, holds⟩ := printPiece_snprintf (Room.holds_start m s size)
    (by decide : ['['].length < 2 ^ 31)
  have prints' : ∀ e ∈ List.ofFn coeff, (snprint e).Prints (text' e) := by
    intro e member
    obtain ⟨i, rfl⟩ := (List.mem_ofFn' _ _).mp member
    exact prints i
  have fits' : ∀ e ∈ List.ofFn coeff, (text' e).length < 2 ^ 31 := by
    intro e member
    obtain ⟨i, rfl⟩ := (List.mem_ofFn' _ _).mp member
    exact fits i
  obtain ⟨p, run', holds⟩ := polymodSnprintAtLoop_holds prints' fits' holds
  have last := printLast_holds holds (by decide : [']'].length < 2 ^ 31)
  have texts : (List.ofFn coeff).map text' = List.ofFn fun i => text' (coeff i) := List.map_ofFn
  rw [texts] at last
  refine ⟨_, rfl, ?_⟩
  simp only [polymodSnprintAt, run, run', bind, Except.bind, pure, Except.pure, returned]
  exact last

end Printing

section Structures

variable {k : TextField}

/-- An element is printed as `snprintf` prints its full text. -/
theorem Layers.snprint_prints (layers : Layers k) {e : k.Element}
    (fits : (layers.text e).length < 2 ^ 31) : (layers.snprint e).Prints (layers.text e) := by
  induction layers with
  | fp p => rfl
  | quadratic base ih =>
    have length := fits
    rw [Layers.text, length_pairText] at length
    exact fqSnprintAt_prints (ih (by omega)) (ih (by omega)) fits
  | polymod base n ih =>
    have inside (i : Fin n) : (base.text (e i)).length < 2 ^ 31 := by
      have member : base.text (e i) ∈ List.ofFn fun i => base.text (e i) :=
        (List.mem_ofFn' _ _).mpr ⟨i, rfl⟩
      have shorter := length_le_intercalate member
      simp only [Layers.text, List.length_append, List.length_cons] at fits
      omega
    funext m s size
    obtain ⟨_, rfl, run⟩ := polymodSnprintAt_eq (fun i => ih (inside i)) inside m s size
    exact run.trans (congrArg _ ((Pbc.Misc.bmod_length fits).trans (if_pos fits).symm))
  | curve base test ih =>
    obtain ⟨infFlag, x, y⟩ : PointS _ := e
    cases infFlag with
    | true =>
      funext m s size
      rfl
    | false =>
      have length : (pairText (base.text x) (base.text y)).length < 2 ^ 31 := fits
      rw [length_pairText] at length
      have first : (base.snprint x).Prints (base.text x) := ih (by omega)
      have second : (base.snprint y).Prints (base.text y) := ih (by omega)
      have pair : (fqSnprintAt base.snprint (x, y)).Prints (pairText (base.text x) (base.text y)) :=
        fqSnprintAt_prints first second fits
      exact pair

/-- The coefficients behind the first one, as the model without memory prints them. -/
theorem polymodSnprintLoop_further {text' : k.Element → List Char}
    (print : ∀ e size, k.snprint size e = snprintf (text' e) size) (size : ℕ) {n : ℕ}
    (coeff : Fin n → k.Element) (before : List Char) :
    polymodSnprintLoop k size false (snprintf before size) coeff = snprintf (before ++
      (List.ofFn fun i => text' (coeff i)).flatMap fun text => [',', ' '] ++ text) size := by
  induction n generalizing before with
  | zero => rw [List.ofFn_zero, List.flatMap_nil, List.append_nil, polymodSnprintLoop]
  | succ n ih =>
    have step := ih (Fin.tail coeff) (before ++ [',', ' '] ++ text' (coeff 0))
    rw [List.ofFn_succ, List.flatMap_cons, ← List.append_assoc, ← List.append_assoc]
    simp only [polymodSnprintLoop, Bool.false_eq_true, if_false, print, clipSub_snprintf]
    exact step

/-- The model of printing without memory prints the same text. -/
theorem Layers.snprint_text (layers : Layers k) (e : k.Element) (size : ℕ) :
    k.snprint size e = snprintf (layers.text e) size := by
  induction layers generalizing size with
  | fp p => rfl
  | quadratic base ih =>
    obtain ⟨x, y⟩ : _ × _ := e
    have pair : fqSnprint _ size (x, y) = snprintf (pairText (base.text x) (base.text y)) size := by
      simp only [fqSnprint, ih, clipSub_snprintf]
      rfl
    exact pair
  | @polymod k base n ih =>
    have method : polymodSnprint k size e = snprintf ('[' :: [',', ' '].intercalate
        (List.ofFn fun i => base.text (e i)) ++ [']']) size := by
      cases n with
      | zero => exact clipSub_snprintf size ['['] [']']
      | succ n =>
        have rest := polymodSnprintLoop_further ih size (Fin.tail e) (['['] ++ base.text (e 0))
        have first : clipSub size (snprintf ['['] size) (fun left => k.snprint left (e 0)) =
            snprintf (['['] ++ base.text (e 0)) size := by
          simp only [ih, clipSub_snprintf]
        have loop : polymodSnprintLoop k size true (snprintf ['['] size) e =
            polymodSnprintLoop k size false (snprintf (['['] ++ base.text (e 0)) size) (Fin.tail e) :=
          congrArg (polymodSnprintLoop k size false · (Fin.tail e)) first
        have close : polymodSnprint k size e = clipSub size
            (polymodSnprintLoop k size true (snprintf ['['] size) e) (snprintf [']']) := rfl
        rw [close, loop, rest, clipSub_snprintf, List.ofFn_succ, intercalate_cons,
          List.append_assoc ['[']]
        rfl
    exact method
  | curve base test ih =>
    obtain ⟨infFlag, x, y⟩ : PointS _ := e
    cases infFlag with
    | true => rfl
    | false =>
      have pair : fqSnprint _ size (x, y) = snprintf (pairText (base.text x) (base.text y)) size := by
        simp only [fqSnprint, ih, clipSub_snprintf]
        rfl
      exact pair

/-- Printing in a structure of any layers: the length of the full text is returned, nothing is
written outside of the buffer, and in the buffer stand the characters of the text that fit in
front of a final zero. -/
theorem elementSnprint_truncates (layers : Layers k) {e : k.Element}
    (fits : (layers.text e).length < 2 ^ 31) (m : CharMemory) (s n : ℕ) :
    (layers.snprint e m s n).2 = (layers.text e).length ∧
      (∀ i, i < s ∨ s + n ≤ i → (layers.snprint e m s n).1 i = m i) ∧
      (1 ≤ n →
        (∀ i < min (layers.text e).length (n - 1),
          (layers.text e)[i]? = some ((layers.snprint e m s n).1 (s + i))) ∧
        (layers.snprint e m s n).1 (s + min (layers.text e).length (n - 1)) = nul) := by
  rw [layers.snprint_prints fits, snprintfAt, lengthStatus, if_pos fits]
  refine ⟨rfl, ?_, ?_⟩
  · intro i outside
    exact Pbc.Misc.printed_outside outside
  · intro positive
    refine ⟨?_, Pbc.Misc.printed_nul positive⟩
    intro i inside
    exact Pbc.Misc.printed_get inside

/-- A layer of polynomials over `F_2`. -/
def binaryLayers (n : ℕ) : Layers (polymodText (zpText 2) n) := (Layers.fp 2).polymod n

/-- Its zero. -/
def binaryZero (n : ℕ) : (polymodText (zpText 2) n).Element := fun _ => (0 : ℤ)

theorem binaryZero_text (n : ℕ) : (binaryLayers n).text (binaryZero n) =
    '[' :: [',', ' '].intercalate (List.replicate n (mpzOutStr 0)) ++ [']'] := by
  rw [← List.ofFn_const]
  rfl

/-- Each zero adds three characters to the text. -/
theorem length_binaryZero {n : ℕ} (positive : 0 < n) :
    ((binaryLayers n).text (binaryZero n)).length = 3 * n := by
  obtain ⟨n, rfl⟩ := Nat.exists_eq_succ_of_ne_zero (Nat.ne_of_gt positive)
  have zero : mpzOutStr 0 = ['0'] := by decide
  rw [binaryZero_text, zero, List.replicate_succ, intercalate_cons, List.flatMap_replicate]
  simp only [List.length_append, List.length_cons, List.length_nil, List.length_flatten,
    List.map_replicate, List.sum_replicate_nat]
  omega

/-- What is returned for it is no length from `2^31` on. -/
theorem binaryZero_status {n : ℕ} (m : CharMemory) (s size : ℕ) (long : 2 ^ 31 ≤ 3 * n) :
    ((binaryLayers n).snprint (binaryZero n) m s size).2 ≠
      ((binaryLayers n).text (binaryZero n)).length := by
  have short : (mpzOutStr 0).length < 2 ^ 31 := by decide
  obtain ⟨text, shape, run⟩ := @polymodSnprintAt_eq ℤ zpSnprintAt mpzOutStr n (fun _ => 0)
    (fun _ => rfl) (fun _ => short) m s size
  rw [List.ofFn_const, ← binaryZero_text] at shape
  have method : (binaryLayers n).snprint (binaryZero n) m s size =
      polymodSnprintAt zpSnprintAt (fun _ : Fin n => (0 : ℤ)) m s size := rfl
  have status : (polymodSnprintAt zpSnprintAt (fun _ : Fin n => (0 : ℤ)) m s size).2 =
      Int.bmod (text.length : ℤ) (2 ^ 32) := by rw [run]
  have below : Int.bmod (text.length : ℤ) (2 ^ 32) < (2 ^ 32 + 1) / 2 := Int.bmod_lt (by decide)
  have length : text.length = 3 * n := by rw [shape, length_binaryZero (by omega)]
  rw [method, status, ← shape]
  omega

/-- A text that is too long for an `int`: what is returned is not its length. -/
theorem elementSnprint_overflows : ((binaryLayers (2 ^ 30)).snprint (binaryZero (2 ^ 30))
    (fun _ => nul) 0 0).2 ≠ ((binaryLayers (2 ^ 30)).text (binaryZero (2 ^ 30))).length := by
  have long : 2 ^ 31 ≤ 3 * 2 ^ 30 := by norm_num
  exact binaryZero_status (fun _ => nul) 0 0 long

/-- The curve `y^2 = x^3 + x` over `F_5`. -/
private def smallCurve : CurveTest ℤ where
  a := 1
  b := 0
  square a := zpSquare 5 a
  add := zpAdd 5
  mul := zpMul 5
  cmp := zpCmp

/-- Pairs of its points. -/
private def smallLayers : Layers (polymodText (curveText (zpText 5) smallCurve) 2) :=
  ((Layers.fp 5).curve smallCurve).polymod 2

/-- A pair of points, `[[2, 0], O]`. -/
private def smallPair : Fin 2 → PointS ℤ := ![⟨false, 2, 0⟩, ⟨true, 3, 3⟩]

theorem elementSnprint_truncates_pair :
    (smallLayers.snprint smallPair (fun _ => 'x') 2 6).2 = 11 ∧
      (smallLayers.snprint smallPair (fun _ => 'x') 2 6).1 8 = 'x' ∧
      (smallLayers.snprint smallPair (fun _ => 'x') 2 6).1 7 = nul := by
  have length : (smallLayers.text smallPair).length = 11 := by decide
  have fits : (smallLayers.text smallPair).length < 2 ^ 31 := by
    rw [length]
    decide
  obtain ⟨status, outside, inside⟩ := elementSnprint_truncates smallLayers fits (fun _ => 'x') 2 6
  obtain ⟨-, last⟩ := inside (by decide)
  have address : 2 + min 11 (6 - 1) = 7 := by decide
  rw [length] at status last
  rw [address] at last
  exact ⟨status, outside 8 (by decide), last⟩

end Structures

end Pbc.Ecc
