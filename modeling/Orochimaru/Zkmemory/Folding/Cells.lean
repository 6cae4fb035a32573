import Orochimaru.Lib.Loops
import Orochimaru.Zkmemory.Base

/-!
# The cells of a folding step

The arithmetic with which the Nova and SuperNova circuits select a cell by its address,
over any field, and the trace records they check. Where distinct words are distinct field
elements the selection reads and replaces the cell at the address.
-/

namespace Zkmemory.Folding

open Loops

variable {F : Type} [Field F] [DecidableEq F]

/-- `(i - address).is_zero().unwrap_u8()`. -/
def selector (i : Nat) (address : F) : Nat := if (i : F) - address = 0 then 1 else 0

/-- The number of selected cells, a `u8` in the source. -/
def lookupRes (memoryLen : Nat) (address : F) : Except Panic Nat :=
  (List.range memoryLen).foldlM (fun lookupRes i =>
    if lookupRes + selector i address < 256 then .ok (lookupRes + selector i address)
    else .error .arithmeticOverflow) 0

def getMemoryAddress (memory : List F) (address : F) : F :=
  memory.zipIdx.foldl (fun tmp item => tmp + (selector item.2 address : F) * item.1) 0

def getNewMemoryCell (item value : F) (i : Nat) (address : F) : F :=
  let d := selector i address
  ((1 - d : Nat) : F) * item + (d : F) * value

def newMemory (memory : List F) (value address : F) : List F :=
  memory.mapIdx fun i item => getNewMemoryCell item value i address

@[simp] theorem newMemory_length (memory : List F) (value address : F) :
    (newMemory memory value address).length = memory.length := by simp [newMemory]

/-- A vector of a run as its cells and its last element. -/
theorem exists_cells {α : Type} {z : List α} {n : Nat} (h : z.length = n + 1) :
    ∃ memory c, z = memory ++ [c] ∧ memory.length = n := by
  have hne : z ≠ [] := List.ne_nil_of_length_eq_add_one h
  exact ⟨z.dropLast, z.getLast hne, (List.dropLast_append_getLast hne).symm, by simp [h]⟩

/-! ## Addresses that are words -/

section Words

variable {p : Nat} [CharP F p]

theorem selector_natCast (hp : 2 ^ 64 < p) {i a : Nat} (hi : i < 2 ^ 64) (ha : a < 2 ^ 64) :
    selector i (a : F) = if i = a then 1 else 0 := by
  have hinj : (i : F) = (a : F) ↔ i = a :=
    ⟨fun h => CharP.natCast_injOn_Iio F p (hi.trans hp) (ha.trans hp) h, fun h => by rw [h]⟩
  simp only [selector, sub_eq_zero, hinj]

theorem lookupRes_natCast (hp : 2 ^ 64 < p) {n a : Nat} (hn : n ≤ 2 ^ 64) (ha : a < 2 ^ 64) :
    lookupRes n (a : F) = .ok (if a < n then 1 else 0) := by
  induction n with
  | zero => rfl
  | succ n ih =>
    have hstep : lookupRes (n + 1) (a : F) = lookupRes n (a : F) >>= fun res =>
        if res + selector n (a : F) < 256 then .ok (res + selector n (a : F))
        else .error .arithmeticOverflow := by
      rw [lookupRes, List.range_succ, List.foldlM_append]
      congr 1
      funext res
      rw [List.foldlM_cons]
      split <;> rfl
    rw [hstep, ih (by omega), ok_bind, selector_natCast hp (by omega) ha]
    rcases Nat.lt_trichotomy a n with h | h | h
    · simp [h, h.ne', h.trans (Nat.lt_succ_self n)]
    · simp [h]
    · simp [h.ne, h.not_gt, Nat.not_lt.mpr (Nat.succ_le_of_lt h)]

theorem getMemoryAddress_natCast (hp : 2 ^ 64 < p) {memory : List F} {a : Nat}
    (hm : memory.length ≤ 2 ^ 64) (ha : a < 2 ^ 64) :
    getMemoryAddress memory (a : F) = memory.getD a 0 := by
  induction memory using List.reverseRecOn with
  | nil => simp [getMemoryAddress]
  | append_singleton memory item ih =>
    rw [List.length_append, List.length_singleton] at hm
    have hstep : getMemoryAddress (memory ++ [item]) (a : F) =
        getMemoryAddress memory (a : F) + (selector memory.length (a : F) : F) * item := by
      rw [getMemoryAddress, List.zipIdx_append, List.foldl_append]
      simp [getMemoryAddress]
    rw [hstep, ih (by omega), selector_natCast hp (by omega) ha]
    rcases Nat.lt_trichotomy a memory.length with h | h | h
    · rw [if_neg (by omega), List.getD_append _ _ _ _ h]
      simp
    · subst h
      simp
    · rw [if_neg (by omega), List.getD_eq_default _ _ h.le,
        List.getD_eq_default _ _ (by simpa using Nat.succ_le_of_lt h)]
      simp

theorem newMemory_natCast (hp : 2 ^ 64 < p) {memory : List F} {a : Nat} (value : F)
    (hm : memory.length ≤ 2 ^ 64) (ha : a < 2 ^ 64) :
    newMemory memory value (a : F) = memory.set a value := by
  apply List.ext_getElem
  · simp
  · intro i hi hi'
    rw [newMemory_length] at hi
    rw [List.getElem_set]
    simp only [newMemory, List.getElem_mapIdx, getNewMemoryCell]
    rw [selector_natCast hp (by omega) ha]
    by_cases h : i = a
    · rw [if_pos h, if_pos h.symm]
      simp
    · rw [if_neg h, if_neg (Ne.symm h)]
      simp

end Words

/-! ## Trace records -/

/-- A record as `new` receives it: an instruction 0 reads, an instruction 1 writes. -/
structure Record where
  address : U64
  instruction : U64
  value : U64
  deriving DecidableEq

/-- The memory after one record. -/
def Record.apply (memory : List F) (r : Record) : List F :=
  if r.instruction.val = 1 then memory.set r.address.val (r.value.val : F) else memory

/-- The memory after the writes of a list of records, in order. -/
def execute (memory : List F) (records : List Record) : List F := records.foldl Record.apply memory

/-- A record that a memory accepts: a read returns the content of its cell. -/
structure Record.Valid (memory : List F) (r : Record) : Prop where
  address : r.address.val < memory.length
  instruction : r.instruction.val = 0 ∨ r.instruction.val = 1
  read : r.instruction.val = 0 → memory[r.address.val]? = some (r.value.val : F)

/-- Every record is valid in the memory its predecessors leave. -/
def Consistent (memory : List F) (records : List Record) : Prop :=
  ∀ (i : Nat) (r : Record), records[i]? = some r → r.Valid (execute memory (records.take i))

omit [DecidableEq F] in
@[simp] theorem Record.apply_length (memory : List F) (r : Record) :
    (r.apply memory).length = memory.length := by
  unfold Record.apply
  split <;> simp

omit [DecidableEq F] in
@[simp] theorem execute_nil (memory : List F) : execute memory [] = memory := rfl

omit [DecidableEq F] in
@[simp] theorem execute_cons (memory : List F) (r : Record) (records : List Record) :
    execute memory (r :: records) = execute (r.apply memory) records := rfl

omit [DecidableEq F] in
@[simp] theorem execute_length (memory : List F) (records : List Record) :
    (execute memory records).length = memory.length := by
  induction records generalizing memory with
  | nil => rfl
  | cons r records ih => rw [execute_cons, ih, Record.apply_length]

omit [DecidableEq F] in
theorem consistent_nil (memory : List F) : Consistent memory [] := by
  intro i r h
  simp at h

omit [DecidableEq F] in
theorem consistent_cons {memory : List F} {r : Record} {records : List Record} :
    Consistent memory (r :: records) ↔ r.Valid memory ∧ Consistent (r.apply memory) records := by
  constructor
  · intro h
    exact ⟨h 0 r rfl, fun i s hs => h (i + 1) s (by simpa using hs)⟩
  · rintro ⟨hr, hrest⟩ i s hs
    cases i with
    | zero =>
      obtain rfl : r = s := by simpa using hs
      exact hr
    | succ i => exact hrest i s (by simpa using hs)

omit [DecidableEq F] in
/-- The product form in which the circuit checks a record. -/
theorem Record.valid_iff {memory : List F} {r : Record} :
    r.Valid memory ↔ r.address.val < memory.length ∧
      (r.instruction.val : F) * (memory.getD r.address.val 0 - r.value.val) =
        memory.getD r.address.val 0 - r.value.val ∧
      (r.instruction.val = 0 ∨ r.instruction.val = 1) := by
  constructor
  · intro h
    refine ⟨h.address, ?_, h.instruction⟩
    rcases h.instruction with h0 | h1
    · rw [List.getD_eq_getElem?_getD, h.read h0, Option.getD_some, sub_self, mul_zero]
    · rw [h1, Nat.cast_one, one_mul]
  · rintro ⟨haddress, hproduct, hinstruction⟩
    refine ⟨haddress, hinstruction, fun h0 => ?_⟩
    rw [h0, Nat.cast_zero, zero_mul, eq_comm, sub_eq_zero] at hproduct
    rw [← hproduct, List.getD_eq_getElem _ _ haddress, List.getElem?_eq_getElem haddress]

omit [DecidableEq F] in
theorem execute_append (memory : List F) (records more : List Record) :
    execute memory (records ++ more) = execute (execute memory records) more :=
  List.foldl_append

omit [DecidableEq F] in
theorem consistent_append {memory : List F} {records more : List Record} :
    Consistent memory (records ++ more) ↔
      Consistent memory records ∧ Consistent (execute memory records) more := by
  induction records generalizing memory with
  | nil => simp [consistent_nil]
  | cons r records ih =>
    rw [List.cons_append, consistent_cons, consistent_cons, ih, and_assoc, execute_cons]

omit [DecidableEq F] in
theorem consistent_singleton {memory : List F} {r : Record} :
    Consistent memory [r] ↔ r.Valid memory := by
  simp [consistent_cons, consistent_nil]

/-- A write of five into the second cell, and a read of it. -/
def writeRead : List Record :=
  [⟨⟨1, by decide⟩, ⟨1, by decide⟩, ⟨5, by decide⟩⟩, ⟨⟨1, by decide⟩, .zero, ⟨5, by decide⟩⟩]

omit [DecidableEq F] in
theorem consistent_writeRead : Consistent ([0, 0] : List F) writeRead := by
  refine consistent_cons.mpr ⟨⟨one_lt_two, .inr rfl, fun h => absurd h one_ne_zero⟩, ?_⟩
  exact consistent_singleton.mpr ⟨one_lt_two, .inl rfl, fun _ => rfl⟩

section Words

variable {p : Nat} [CharP F p]

/-- Overwriting its cell leaves a valid read without effect. -/
theorem newMemory_valid (hp : 2 ^ 64 < p) {memory : List F} {r : Record}
    (hm : memory.length ≤ 2 ^ 64) (h : r.Valid memory) :
    newMemory memory (r.value.val : F) (r.address.val : F) = r.apply memory := by
  rw [newMemory_natCast hp _ hm r.address.isLt, Record.apply]
  rcases h.instruction with h0 | h1
  · rw [if_neg (by omega)]
    obtain ⟨hlt, hget⟩ := List.getElem?_eq_some_iff.mp (h.read h0)
    rw [← hget, List.set_getElem_self]
  · rw [if_pos h1]

omit [DecidableEq F] in
theorem mul_self_natCast (hp : 2 ^ 64 < p) {n : Nat} (hn : n < 2 ^ 64) :
    (n : F) * n = n ↔ n = 0 ∨ n = 1 := by
  have hinj : ∀ k : Nat, k < 2 ^ 64 → ((n : F) = (k : F) ↔ n = k) := fun k hk =>
    ⟨fun h => CharP.natCast_injOn_Iio F p (hn.trans hp) (hk.trans hp) h, fun h => by rw [h]⟩
  have h0 := hinj 0 (by decide)
  have h1 := hinj 1 (by decide)
  rw [Nat.cast_zero] at h0
  rw [Nat.cast_one] at h1
  rw [← h0, ← h1]
  exact IsIdempotentElem.iff_eq_zero_or_one

end Words

end Zkmemory.Folding
