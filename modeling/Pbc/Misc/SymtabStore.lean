import Mathlib.Data.Finset.Card
import Pbc.Misc.Darray
import Pbc.Misc.Heap
import Pbc.Misc.Parse

/-!
# Tables of symbols in memory

A table is an array of pointers to entries, and an entry points to a copy of its key. Any sequence
of operations gives the answers of a finite map, whatever addresses the allocator finds, and
behind `symtab_clear` no block of the table is left.
-/

namespace Pbc.Misc

open Assertion

section Operations

/-- `entry_s`, with fields that may not be written yet, and the copy of a key. -/
inductive TableBlock (D : Type) where
  | entry (key : Option ℕ) (data : Option D)
  | text (s : List Char)
  deriving DecidableEq

/-- An array stops, or a block is not what it is taken for. -/
inductive TableFault where
  | darray (fault : DarrayFault)
  | junk
  deriving DecidableEq, Repr

variable {D : Type}

/-- The programs of a table. -/
abbrev TableProg (D α : Type) := HeapProg (TableBlock D) TableFault α

/-- What is not what it is taken for. -/
def junk {α : Type} : TableProg D α := lift (.error .junk)

/-- `e->key`. -/
def entryKey (e : ℕ) : TableProg D ℕ := do
  match ← load e with
  | .entry (some k) _ => return k
  | _ => junk

/-- `e->data`. -/
def entryData (e : ℕ) : TableProg D D := do
  match ← load e with
  | .entry _ (some data) => return data
  | _ => junk

/-- `e->key = k`. -/
def setKey (e k : ℕ) : TableProg D Unit := do
  match ← load e with
  | .entry _ data => store e (.entry (some k) data)
  | _ => junk

/-- `e->data = data`. -/
def setData (e : ℕ) (data : D) : TableProg D Unit := do
  match ← load e with
  | .entry key _ => store e (.entry key (some data))
  | _ => junk

/-- The characters of a key. -/
def keyText (k : ℕ) : TableProg D (List Char) := do
  match ← load k with
  | .text s => return s
  | _ => junk

/-- `t->list->item[i]`. -/
def tableItem (t : Darray ℕ) (i : ℕ) : TableProg D ℕ := do
  match ← lift ((readSlot t.item i).mapError .darray) with
  | some e => return e
  | none => junk

/-- The loop that looks for a key from an index on: the entry that has it. -/
def findEntry (t : Darray ℕ) (key : List Char) : ℕ → ℕ → TableProg D (Option ℕ)
  | 0, _ => return none
  | steps + 1, i => do
    let e ← tableItem t i
    let k ← entryKey e
    let s ← keyText k
    if s = key then return some e
    findEntry t key steps (i + 1)

variable (allocator : Allocator (TableBlock D))

/-- `symtab_put`. -/
def storePut (t : Darray ℕ) (data : D) (key : List Char) : TableProg D (Darray ℕ) := do
  match ← findEntry t key t.count 0 with
  | some e =>
    setData e data
    return t
  | none =>
    let e ← alloc allocator (.entry none none)
    let k ← alloc allocator (.text key)
    setKey e k
    let t ← lift ((darrayAppend t e).mapError .darray)
    setData e data
    return t

/-- `symtab_has`. -/
def storeHas (t : Darray ℕ) (key : List Char) : TableProg D Bool := do
  let found ← findEntry t key t.count 0
  return found.isSome

/-- `symtab_at`. -/
def storeAt (t : Darray ℕ) (key : List Char) : TableProg D (Option D) := do
  match ← findEntry t key t.count 0 with
  | some e =>
    let data ← entryData e
    return some data
  | none => return none

/-- The loop of `symtab_clear` over the entries, which frees them with their keys. -/
def clearLoop (t : Darray ℕ) : ℕ → ℕ → TableProg D Unit
  | 0, _ => return ()
  | steps + 1, i => do
    let e ← tableItem t i
    let k ← entryKey e
    free k
    free e
    clearLoop t steps (i + 1)

/-- `symtab_clear`. -/
def storeClear (t : Darray ℕ) : TableProg D Unit := clearLoop t t.count 0

/-- The operations on a table. -/
inductive TableOp (D : Type) where
  | put (data : D) (key : List Char)
  | has (key : List Char)
  | at (key : List Char)

/-- What the operations answer. -/
inductive TableAnswer (D : Type) where
  | done
  | has (found : Bool)
  | at (data : Option D)

/-- One operation. -/
def TableOp.run (t : Darray ℕ) : TableOp D → TableProg D (TableAnswer D × Darray ℕ)
  | .put data key => do
    let t ← storePut allocator t data key
    return (.done, t)
  | .has key => do
    let found ← storeHas t key
    return (.has found, t)
  | .at key => do
    let data ← storeAt t key
    return (.at data, t)

/-- Some operations on a table, and `symtab_clear` behind them. -/
def runTable : List (TableOp D) → Darray ℕ → TableProg D (List (TableAnswer D))
  | [], t => do
    storeClear t
    return []
  | op :: ops, t => do
    let (answer, t) ← op.run allocator t
    let answers ← runTable ops t
    return answer :: answers

end Operations

section Lists

variable {D : Type}

/-- A table as a list of keys with their data. -/
def tablePut : List (List Char × D) → D → List Char → List (List Char × D)
  | [], data, key => [(key, data)]
  | x :: xs, data, key => if x.1 = key then (key, data) :: xs else x :: tablePut xs data key

def tableAt (xs : List (List Char × D)) (key : List Char) : Option D :=
  (xs.find? (·.1 = key)).map Prod.snd

/-- The tables of parameter texts are such lists. -/
theorem symtabPut_eq (t : Symtab) (data key : List Char) : symtabPut t data key = tablePut t data key := by
  induction t with
  | nil => rfl
  | cons e t ih => rw [symtabPut, tablePut, ih]

theorem tableAt_put (xs : List (List Char × D)) (data : D) (key : List Char) :
    tableAt (tablePut xs data key) = Function.update (tableAt xs) key (some data) := by
  funext key'
  rw [Function.update_apply]
  induction xs with
  | nil => by_cases same : key = key' <;> simp [tablePut, tableAt, same, eq_comm]
  | cons x xs ih =>
    rw [tablePut]
    by_cases first : x.1 = key
    · by_cases same : key = key' <;> simp [tableAt, first, same, eq_comm]
    · rw [if_neg first]
      by_cases other : x.1 = key'
      · have differ : key' ≠ key := fun same => first (other.trans same)
        simp [tableAt, other, differ]
      · simpa [tableAt, other] using ih

/-- The data of a key are replaced, or go to the end. -/
theorem tablePut_cases (xs : List (List Char × D)) (key : List Char) :
    (tableAt xs key = none ∧ ∀ data, tablePut xs data key = xs ++ [(key, data)]) ∨
      ∃ xs₁ old xs₂, tableAt xs key = some old ∧ xs = xs₁ ++ (key, old) :: xs₂ ∧
        ∀ data, tablePut xs data key = xs₁ ++ (key, data) :: xs₂ := by
  induction xs with
  | nil => exact .inl ⟨rfl, fun _ => rfl⟩
  | cons x xs ih =>
    by_cases same : x.1 = key
    · obtain ⟨_, old⟩ := x
      obtain rfl : _ = key := same
      exact .inr ⟨[], old, xs, by simp [tableAt], rfl, fun data => by simp [tablePut]⟩
    · have behind : tableAt (x :: xs) key = tableAt xs key := by simp [tableAt, same]
      have puts (data : D) : tablePut (x :: xs) data key = x :: tablePut xs data key := by
        rw [tablePut, if_neg same]
      rw [behind]
      rcases ih with ⟨value, ends⟩ | ⟨xs₁, old, xs₂, value, rfl, ends⟩
      · exact .inl ⟨value, fun data => by rw [puts, ends, List.cons_append]⟩
      · exact .inr ⟨x :: xs₁, old, xs₂, value, rfl, fun data => by rw [puts, ends, List.cons_append]⟩

theorem tableAt_map {D' : Type} (f : D → D') (xs : List (List Char × D)) (key : List Char) :
    tableAt (xs.map fun x => (x.1, f x.2)) key = (tableAt xs key).map f := by
  induction xs with
  | nil => rfl
  | cons x xs ih =>
    by_cases same : x.1 = key
    · simp [tableAt, same]
    · simpa [tableAt, same] using ih

theorem tablePut_map {D' : Type} (f : D → D') (xs : List (List Char × D)) (data : D)
    (key : List Char) : tablePut (xs.map fun x => (x.1, f x.2)) (f data) key =
      (tablePut xs data key).map fun x => (x.1, f x.2) := by
  induction xs with
  | nil => rfl
  | cons x xs ih =>
    rw [List.map_cons, tablePut, tablePut]
    by_cases same : x.1 = key
    · rw [if_pos same, if_pos same, List.map_cons]
    · rw [if_neg same, if_neg same, List.map_cons, ih]

/-- The addresses of the entries next to their contents: the entry of a key. -/
def findAddress : List ℕ → List (List Char × D) → List Char → Option ℕ
  | e :: es, x :: xs, key => if x.1 = key then some e else findAddress es xs key
  | _, _, _ => none

/-- The entry of a key splits the table. -/
theorem findAddress_some {es : List ℕ} {xs : List (List Char × D)} {key : List Char} {e : ℕ}
    (found : findAddress es xs key = some e) : ∃ es₁ es₂ xs₁ data xs₂, es = es₁ ++ e :: es₂ ∧
      xs = xs₁ ++ (key, data) :: xs₂ ∧ es₁.length = xs₁.length ∧ tableAt xs key = some data ∧
      ∀ data', tablePut xs data' key = xs₁ ++ (key, data') :: xs₂ := by
  induction es generalizing xs with
  | nil => cases found
  | cons e' es ih =>
    cases xs with
    | nil => cases found
    | cons x xs =>
      rw [findAddress] at found
      split_ifs at found with same
      · obtain rfl := Option.some.inj found
        obtain ⟨_, data⟩ := x
        obtain rfl : _ = key := same
        exact ⟨[], es, [], data, xs, rfl, rfl, rfl, by simp [tableAt], fun data' => by simp [tablePut]⟩
      · obtain ⟨es₁, es₂, xs₁, data, xs₂, rfl, rfl, lengths, value, puts⟩ := ih found
        refine ⟨e' :: es₁, es₂, x :: xs₁, data, xs₂, rfl, rfl, congrArg (· + 1) lengths, ?_,
          fun data' => ?_⟩
        · simpa [tableAt, same] using value
        · rw [tablePut, if_neg same, puts data']
          rfl

/-- A key without an entry goes to the end. -/
theorem findAddress_none {es : List ℕ} {xs : List (List Char × D)} {key : List Char}
    (lengths : es.length = xs.length) (missing : findAddress es xs key = none) :
    tableAt xs key = none ∧ key ∉ xs.map Prod.fst ∧ ∀ data, tablePut xs data key = xs ++ [(key, data)] := by
  induction es generalizing xs with
  | nil =>
    obtain rfl := List.length_eq_zero_iff.1 lengths.symm
    exact ⟨rfl, by simp, fun _ => rfl⟩
  | cons e es ih =>
    cases xs with
    | nil => cases lengths
    | cons x xs =>
      rw [findAddress] at missing
      split_ifs at missing with same
      obtain ⟨value, fresh, puts⟩ := ih (Nat.succ.inj lengths) missing
      refine ⟨by simpa [tableAt, same] using value, ?_, fun data => ?_⟩
      · rw [List.map_cons, List.mem_cons, not_or]
        exact ⟨Ne.symm same, fresh⟩
      · rw [tablePut, if_neg same, puts data]
        rfl

end Lists

section Triples

variable {D : Type} {es done : List ℕ} {xs : List (List Char × D)} {t : Darray ℕ} {key : List Char}
  {E : TableFault → Prop} {F : Assertion (TableBlock D)}

/-- An entry in memory, with the address of its key. -/
def entryWith (e : ℕ) (x : List Char × D) (k : ℕ) : Assertion (TableBlock D) :=
  pointsTo e (.entry (some k) (some x.2)) * pointsTo k (.text x.1)

/-- An entry in memory. -/
def entryAt (e : ℕ) (x : List Char × D) : Assertion (TableBlock D) := oneOf (entryWith e x)

/-- The entries of a table in memory. -/
def entriesAt : List ℕ → List (List Char × D) → Assertion (TableBlock D) := each entryAt

theorem entriesAt_append {es₁ es₂ : List ℕ} {xs₁ xs₂ : List (List Char × D)}
    (lengths : es₁.length = xs₁.length) :
    entriesAt (es₁ ++ es₂) (xs₁ ++ xs₂) = entriesAt es₁ xs₁ * entriesAt es₂ xs₂ :=
  each_append entryAt lengths

theorem entriesAt_cons {e : ℕ} {x : List Char × D} :
    entriesAt (e :: es) (x :: xs) = entryAt e x * entriesAt es xs := rfl

theorem entryKey_triple {e k : ℕ} {data : Option D} :
    Triple (pointsTo e (.entry (some k) data)) (entryKey e)
      (fun k' => fact (k' = k) * pointsTo e (.entry (some k) data)) E := by
  exact Triple.bind_value Triple.load (Triple.pure_fact rfl le_rfl)

theorem keyText_triple {k : ℕ} {s : List Char} :
    Triple (pointsTo k (.text s : TableBlock D)) (keyText k)
      (fun s' => fact (s' = s) * pointsTo k (.text s)) E := by
  exact Triple.bind_value Triple.load (Triple.pure_fact rfl le_rfl)

theorem tableItem_eq {e : ℕ} (holds : t.Holds (done ++ e :: es)) :
    (tableItem t done.length : TableProg D ℕ) = pure e := by
  have inside : done.length < (done ++ e :: es).length := by simp
  have slot := holds.readSlot inside
  rw [List.getElem_append_right le_rfl] at slot
  simp only [Nat.sub_self, List.getElem_cons_zero] at slot
  rw [tableItem, slot]
  rfl

/-- The loop finds the entry of a key, and leaves the entries as they are. -/
theorem findEntry_triple (holds : t.Holds (done ++ es)) (lengths : es.length = xs.length) :
    Triple (entriesAt es xs) (findEntry t key es.length done.length)
      (fun r => fact (r = findAddress es xs key) * entriesAt es xs) E := by
  induction es generalizing done xs with
  | nil =>
    exact Triple.pure_fact (by rw [findAddress]; exact nofun) le_rfl
  | cons e es ih =>
    cases xs with
    | nil => cases lengths
    | cons x xs =>
      rw [List.length_cons, findEntry, tableItem_eq holds, pure_bind, entriesAt_cons]
      refine Triple.of_oneOf_mul fun k => ?_
      rw [entryWith, mul_assoc]
      refine Triple.call_value entryKey_triple ?_
      rw [mul_left_comm]
      refine Triple.call_value keyText_triple ?_
      have folded : pointsTo k (.text x.1) * (pointsTo e (.entry (some k) (some x.2)) * entriesAt es xs) ≤
          entryAt e x * entriesAt es xs := by
        rw [← mul_assoc, mul_comm (pointsTo k _)]
        exact mul_le_mul_left (le_oneOf (entryWith e x) k) _
      by_cases same : x.1 = key
      · rw [if_pos same]
        rw [findAddress, if_pos same]
        exact Triple.pure_fact rfl folded
      · rw [if_neg same, findAddress, if_neg same]
        have rest := @ih (done ++ [e]) xs (by simpa using holds) (Nat.succ.inj lengths)
        rw [List.length_append, List.length_singleton] at rest
        refine (rest.frame (pointsTo k (.text x.1) * pointsTo e (.entry (some k) (some x.2)))).mono
          (le_of_eq ?_) fun r => ?_
        · rw [← mul_assoc, mul_comm]
        · rw [mul_assoc, mul_comm (entriesAt es xs), mul_assoc]
          exact mul_le_mul_right folded _

/-- A table in memory. -/
def tableIn (t : Darray ℕ) (xs : List (List Char × D)) : Assertion (TableBlock D) :=
  oneOf fun es => fact (t.Holds es ∧ es.length = xs.length) * entriesAt es xs

variable {α : Type} {prog : TableProg D α} {S : α → Assertion (TableBlock D)}

theorem Triple.of_tableIn (each : ∀ es, t.Holds es → es.length = xs.length →
    Triple (entriesAt es xs) prog S E) : Triple (tableIn t xs) prog S E := by
  refine Triple.of_oneOf fun es => ?_
  exact Triple.of_fact fun ⟨holds, lengths⟩ => each es holds lengths

theorem entriesAt_le_tableIn (holds : t.Holds es) (lengths : es.length = xs.length) :
    entriesAt es xs ≤ tableIn t xs := by
  have given : t.Holds es ∧ es.length = xs.length := ⟨holds, lengths⟩
  have le := le_oneOf (fun es => fact (t.Holds es ∧ es.length = xs.length) * entriesAt es xs) es
  simp only [fact_mul given] at le
  exact le

/-- What follows the search for a key. -/
theorem findEntry_bind {next : Option ℕ → TableProg D α} (holds : t.Holds es)
    (lengths : es.length = xs.length)
    (rest : Triple (entriesAt es xs) (next (findAddress es xs key)) S E) :
    Triple (entriesAt es xs) (findEntry t key t.count 0 >>= next) S E := by
  have search : Triple (entriesAt es xs) (findEntry t key es.length ([] : List ℕ).length)
      (fun r => fact (r = findAddress es xs key) * entriesAt es xs) E := findEntry_triple holds lengths
  rw [holds.count]
  exact Triple.bind_value search rest

theorem setKey_triple {e k : ℕ} {old : Option ℕ} {data : Option D} :
    Triple (pointsTo e (.entry old data)) (setKey e k)
      (fun _ => pointsTo e (.entry (some k) data)) E := by
  exact Triple.bind_value Triple.load Triple.store

theorem setData_triple {e : ℕ} {k : Option ℕ} {old : Option D} {data : D} :
    Triple (pointsTo e (.entry k old)) (setData e data)
      (fun _ => pointsTo e (.entry k (some data))) E := by
  exact Triple.bind_value Triple.load Triple.store

theorem setData_entryAt {e : ℕ} {old data : D} :
    Triple (entryAt e (key, old)) (setData e data) (fun _ => entryAt e (key, data)) E := by
  refine Triple.of_oneOf fun k => ?_
  rw [entryWith]
  exact (setData_triple.frame _).mono le_rfl fun _ => le_oneOf (entryWith e (key, data)) k

/-- `symtab_has` tells whether there is an entry. -/
theorem storeHas_triple : Triple (tableIn t xs) (storeHas t key)
    (fun found => fact (found = (tableAt xs key).isSome) * tableIn t xs) E := by
  refine Triple.of_tableIn fun es holds lengths => ?_
  refine findEntry_bind holds lengths (Triple.pure_fact ?_ (entriesAt_le_tableIn holds lengths))
  cases found : findAddress es xs key with
  | none =>
    rw [(findAddress_none lengths found).1]
    rfl
  | some e =>
    obtain ⟨_, _, _, data, _, -, -, -, value, -⟩ := findAddress_some found
    rw [value]
    rfl

/-- `symtab_at` finds the data. -/
theorem storeAt_triple : Triple (tableIn t xs) (storeAt t key)
    (fun data => fact (data = tableAt xs key) * tableIn t xs) E := by
  refine Triple.of_tableIn fun es holds lengths => ?_
  refine findEntry_bind holds lengths ?_
  cases found : findAddress es xs key with
  | none =>
    rw [(findAddress_none lengths found).1]
    exact Triple.pure_fact rfl (entriesAt_le_tableIn holds lengths)
  | some e =>
    have whole := entriesAt_le_tableIn holds lengths
    obtain ⟨es₁, es₂, xs₁, data, xs₂, rfl, rfl, fronts, value, -⟩ := findAddress_some found
    rw [entriesAt_append fronts, entriesAt_cons] at whole ⊢
    rw [mul_left_comm] at whole ⊢
    refine Triple.of_oneOf_mul fun k => ?_
    have folded : entryWith e (key, data) k * (entriesAt es₁ xs₁ * entriesAt es₂ xs₂) ≤
        tableIn t (xs₁ ++ (key, data) :: xs₂) :=
      (mul_le_mul_left (le_oneOf (entryWith e (key, data)) k) _).trans whole
    rw [entryWith, mul_assoc] at folded ⊢
    have reads : Triple (pointsTo e (.entry (some k) (some data))) (entryData e)
        (fun data' => fact (data' = data) * pointsTo e (.entry (some k) (some data))) E := by
      exact Triple.bind_value Triple.load (Triple.pure_fact rfl le_rfl)
    exact Triple.call_value reads (Triple.pure_fact value.symm folded)

/-- A new entry goes behind the others. -/
theorem entriesAt_concat {e : ℕ} {x : List Char × D} (lengths : es.length = xs.length) :
    entriesAt (es ++ [e]) (xs ++ [x]) = entryAt e x * entriesAt es xs := by
  rw [entriesAt_append lengths, mul_comm]
  exact congrArg (· * _) (mul_one _)

/-- `symtab_put` replaces the data of a key, or adds an entry. -/
theorem storePut_triple (allocator : Allocator (TableBlock D)) (data : D)
    (few : key ∉ xs.map Prod.fst → xs.length < 2 ^ 30) :
    Triple (tableIn t xs) (storePut allocator t data key)
      (fun t' => tableIn t' (tablePut xs data key)) E := by
  refine Triple.of_tableIn fun es holds lengths => ?_
  refine findEntry_bind holds lengths ?_
  cases found : findAddress es xs key with
  | some e =>
    obtain ⟨es₁, es₂, xs₁, old, xs₂, rfl, rfl, fronts, -, puts⟩ := findAddress_some found
    rw [entriesAt_append fronts, entriesAt_cons, mul_left_comm]
    refine Triple.call setData_entryAt fun _ => Triple.pure ?_
    have lengths' : (es₁ ++ e :: es₂).length = (xs₁ ++ (key, data) :: xs₂).length := by
      simpa using lengths
    have whole := entriesAt_le_tableIn holds lengths'
    rwa [entriesAt_append fronts, entriesAt_cons, mul_left_comm, ← puts data] at whole
  | none =>
    obtain ⟨-, fresh, puts⟩ := findAddress_none lengths found
    have counted : t.count = t.max → t.max * 2 < 2 ^ 31 := by
      have count := holds.count
      have room := few fresh
      omega
    rw [← one_mul (entriesAt es xs)]
    refine Triple.call (Triple.alloc allocator _) fun e => ?_
    rw [← one_mul (pointsTo e _ * _)]
    refine Triple.call (Triple.alloc allocator _) fun k => ?_
    rw [mul_left_comm]
    refine Triple.call setKey_triple fun _ => ?_
    obtain ⟨t', append, holds'⟩ := darrayAppend_holds holds e counted
    rw [append]
    change Triple _ (setData e data >>= fun _ => pure t') _ _
    refine Triple.call setData_triple fun _ => Triple.pure ?_
    have lengths' : (es ++ [e]).length = (xs ++ [(key, data)]).length := by
      simpa using lengths
    have whole := entriesAt_le_tableIn holds' lengths'
    rw [entriesAt_concat lengths, ← puts data] at whole
    rw [← mul_assoc]
    exact (mul_le_mul_left (le_oneOf (entryWith e (key, data)) k) _).trans whole

theorem clearLoop_triple (holds : t.Holds (done ++ es)) (lengths : es.length = xs.length) :
    Triple (entriesAt es xs) (clearLoop t es.length done.length) (fun _ => 1) E := by
  induction es generalizing done xs with
  | nil =>
    obtain rfl := List.length_eq_zero_iff.1 lengths.symm
    exact Triple.pure le_rfl
  | cons e es ih =>
    cases xs with
    | nil => cases lengths
    | cons x xs =>
      rw [List.length_cons, clearLoop, tableItem_eq holds, pure_bind, entriesAt_cons]
      refine Triple.of_oneOf_mul fun k => ?_
      rw [entryWith, mul_assoc]
      refine Triple.call_value entryKey_triple ?_
      rw [mul_left_comm]
      refine Triple.call Triple.free fun _ => ?_
      rw [one_mul]
      refine Triple.call Triple.free fun _ => ?_
      rw [one_mul]
      have rest := @ih (done ++ [e]) xs (by simpa using holds) (Nat.succ.inj lengths)
      rwa [List.length_append, List.length_singleton] at rest

/-- `symtab_clear` leaves no block. -/
theorem storeClear_triple : Triple (tableIn t xs) (storeClear t) (fun _ => 1) E := by
  refine Triple.of_tableIn fun es holds lengths => ?_
  have loop : Triple (entriesAt es xs) (clearLoop t es.length ([] : List ℕ).length)
      (fun _ => 1) E := clearLoop_triple holds lengths
  rwa [← holds.count] at loop

end Triples

section Runs

variable {D : Type}

/-- The answer of an operation on a map. -/
def TableOp.answer (m : List Char → Option D) : TableOp D → TableAnswer D
  | .put _ _ => .done
  | .has key => .has (m key).isSome
  | .at key => .at (m key)

/-- The map behind an operation. -/
def TableOp.perform (m : List Char → Option D) : TableOp D → List Char → Option D
  | .put data key => Function.update m key (some data)
  | .has _ | .at _ => m

/-- The answers of a map. -/
def mapAnswers : List (TableOp D) → (List Char → Option D) → List (TableAnswer D)
  | [], _ => []
  | op :: ops, m => op.answer m :: mapAnswers ops (op.perform m)

/-- The key that an operation puts data under. -/
def TableOp.putKey : TableOp D → Option (List Char)
  | .put _ key => some key
  | .has _ | .at _ => none

theorem map_fst_tablePut (xs : List (List Char × D)) (data : D) (key : List Char) :
    (tablePut xs data key).map Prod.fst =
      if key ∈ xs.map Prod.fst then xs.map Prod.fst else xs.map Prod.fst ++ [key] := by
  induction xs with
  | nil => rfl
  | cons x xs ih =>
    rw [tablePut]
    by_cases same : x.1 = key
    · simp [same]
    · rw [if_neg same, List.map_cons, ih, List.map_cons]
      by_cases member : key ∈ xs.map Prod.fst
      · rw [if_pos member, if_pos (List.mem_cons_of_mem _ member)]
      · have fresh : key ∉ x.1 :: xs.map Prod.fst := by
          rw [List.mem_cons, not_or]
          exact ⟨Ne.symm same, member⟩
        rw [if_neg member, if_neg fresh, List.cons_append]

/-- The keys of a table are different, and among some keys. -/
structure KeysIn (xs : List (List Char × D)) (keys : Finset (List Char)) : Prop where
  nodup : (xs.map Prod.fst).Nodup
  subset : ∀ key ∈ xs.map Prod.fst, key ∈ keys

variable {xs : List (List Char × D)} {keys : Finset (List Char)} {key : List Char}

theorem KeysIn.put (keysIn : KeysIn xs keys) (data : D) (member : key ∈ keys) :
    KeysIn (tablePut xs data key) keys := by
  constructor
  · rw [map_fst_tablePut]
    split_ifs with old
    · exact keysIn.nodup
    · exact List.nodup_append.2 ⟨keysIn.nodup, List.nodup_singleton _, by
        rintro a inside b single rfl
        rw [List.mem_singleton.1 single] at inside
        exact old inside⟩
  · rw [map_fst_tablePut]
    intro key' inside
    split_ifs at inside
    · exact keysIn.subset key' inside
    · rcases List.mem_append.1 inside with inside | single
      · exact keysIn.subset key' inside
      · rwa [List.mem_singleton.1 single]

/-- While a key is missing there is room for it. -/
theorem KeysIn.length_lt (keysIn : KeysIn xs keys) (member : key ∈ keys)
    (fresh : key ∉ xs.map Prod.fst) : xs.length < keys.card := by
  have more : (key :: xs.map Prod.fst).toFinset ⊆ keys := by
    intro key' inside
    rcases List.mem_cons.1 (List.mem_toFinset.1 inside) with rfl | inside
    · exact member
    · exact keysIn.subset key' inside
  have card := Finset.card_le_card more
  rw [List.toFinset_card_of_nodup (List.nodup_cons.2 ⟨fresh, keysIn.nodup⟩), List.length_cons,
    List.length_map] at card
  exact card

/-- The list behind an operation. -/
def TableOp.onList (xs : List (List Char × D)) : TableOp D → List (List Char × D)
  | .put data key => tablePut xs data key
  | .has _ | .at _ => xs

theorem tableAt_onList (op : TableOp D) : tableAt (op.onList xs) = op.perform (tableAt xs) := by
  cases op with
  | put data key => exact tableAt_put xs data key
  | has | «at» => rfl

theorem KeysIn.onList (keysIn : KeysIn xs keys) {op : TableOp D}
    (known : ∀ key ∈ op.putKey, key ∈ keys) : KeysIn (op.onList xs) keys := by
  cases op with
  | put data key => exact keysIn.put data (known key rfl)
  | has | «at» => exact keysIn

/-- An operation gives the answer of the map, and changes the table like it. -/
theorem TableOp.run_triple (allocator : Allocator (TableBlock D)) (few : keys.card ≤ 2 ^ 30)
    {op : TableOp D} (known : ∀ key ∈ op.putKey, key ∈ keys) (keysIn : KeysIn xs keys) {t : Darray ℕ}
    {E : TableFault → Prop} : Triple (tableIn t xs) (op.run allocator t)
      (fun out => fact (out.1 = op.answer (tableAt xs)) * tableIn out.2 (op.onList xs)) E := by
  cases op with
  | put data key =>
    have room (fresh : key ∉ xs.map Prod.fst) : xs.length < 2 ^ 30 :=
      (keysIn.length_lt (known key rfl) fresh).trans_le few
    exact (storePut_triple allocator data room).bind fun t' => Triple.pure_fact rfl le_rfl
  | has key =>
    refine storeHas_triple.bind fun found => Triple.of_fact fun same => Triple.pure_fact ?_ le_rfl
    rw [same, TableOp.answer]
  | «at» key =>
    refine storeAt_triple.bind fun data => Triple.of_fact fun same => Triple.pure_fact ?_ le_rfl
    rw [same, TableOp.answer]

theorem runTable_triple (allocator : Allocator (TableBlock D)) (few : keys.card ≤ 2 ^ 30)
    {ops : List (TableOp D)} (known : ∀ op ∈ ops, ∀ key ∈ op.putKey, key ∈ keys)
    {t : Darray ℕ} (keysIn : KeysIn xs keys) {E : TableFault → Prop} :
    Triple (tableIn t xs) (runTable allocator ops t)
      (fun answers => fact (answers = mapAnswers ops (tableAt xs))) E := by
  induction ops generalizing xs t with
  | nil =>
    exact storeClear_triple.bind fun _ => Triple.pure_closed rfl
  | cons op ops ih =>
    obtain ⟨first, others⟩ := List.forall_mem_cons.1 known
    refine (TableOp.run_triple allocator few first keysIn).bind fun out => Triple.of_fact fun same => ?_
    refine (ih others (keysIn.onList first)).bind fun answers => ?_
    rw [← mul_one (fact _)]
    refine Triple.of_fact fun rest => Triple.pure_closed ?_
    rw [same, rest, tableAt_onList, mapAnswers]

end Runs

end Pbc.Misc
