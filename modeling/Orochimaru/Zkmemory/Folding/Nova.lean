import Orochimaru.Lib.R1cs
import Orochimaru.Zkmemory.Folding.Cells
import Orochimaru.Zkmemory.Folding.MerkleCommit

/-!
# The memory consistency circuit of Nova

One step reads `z_in`, the memory cells followed by the commitment to them, and runs one
iteration for each record of the step. The commitment hash is a parameter.
-/

namespace Zkmemory.Folding

open Loops R1cs

variable {F : Type}

structure TraceRecord (F : Type) where
  address : F
  instruction : F
  value : F

structure NovaMemoryConsistencyCircuit (F : Type) where
  memoryLen : U64
  numItersPerStep : Nat
  traceRecord : List (TraceRecord F)

/-- `xs[i]` of a vector. -/
def index {α : Type} (xs : List α) (i : Nat) : Except Panic α :=
  match xs[i]? with
  | some x => .ok x
  | none => .error .indexOutOfBounds

theorem index_ok {α : Type} {xs : List α} {i : Nat} {x : α} :
    index xs i = .ok x ↔ xs[i]? = some x := by
  unfold index
  cases xs[i]? <;> simp

namespace NovaMemoryConsistencyCircuit

section Circuit

variable [Field F] [DecidableEq F]

def new (memoryLen : U64) (numItersPerStep : Nat) (address instruction value : List U64) :
    Except Panic (NovaMemoryConsistencyCircuit F) := do
  let traceRecord ← (List.range numItersPerStep).mapM fun i => do
    let address ← index address i
    let instruction ← index instruction i
    let value ← index value i
    .ok (⟨address.val, instruction.val, value.val⟩ : TraceRecord F)
  .ok ⟨memoryLen, numItersPerStep, traceRecord⟩

variable (hash : F → F → F) (circuit : NovaMemoryConsistencyCircuit F)

/-- The body of the loop over the iterations of a step. -/
def iteration (zOut : List (AllocatedNum F)) (j : Nat) :
    Synthesis Panic F (List (AllocatedNum F)) := do
  let memory := zOut.take circuit.memoryLen.val
  let record ← index circuit.traceRecord j
  let value ← alloc record.value
  let instruction ← alloc record.instruction
  let memoryAddress ← alloc (getMemoryAddress (memory.map (·.value)) record.address)
  let commitment ← alloc (← merkleTreeCommit hash (memory.map (·.value)))
  let lookupRes ← lookupRes circuit.memoryLen.val record.address
  let lookupResAlloc ← alloc (lookupRes : F)
  enforce (.plus .zero lookupResAlloc.var) (.plus .zero .one) (.plus .zero .one)
  let root ← index zOut circuit.memoryLen.val
  enforce (.plus .zero commitment.var) (.plus .zero .one) (.plus .zero root.var)
  enforce (.plus .zero instruction.var)
    (.minus (.plus .zero memoryAddress.var) value.var)
    (.minus (.plus .zero memoryAddress.var) value.var)
  enforce (.plus .zero instruction.var) (.plus .zero instruction.var)
    (.plus .zero instruction.var)
  let cells ← (newMemory (memory.map (·.value)) value.value record.address).mapM alloc
  let newCommitment ← alloc (← merkleTreeCommit hash (cells.map (·.value)))
  let zOut := cells ++ [newCommitment]
  if zOut.length = circuit.memoryLen.val + 1 then pure zOut else throw .assertionFailed

/-- The vector after the first `n` iterations. -/
def iterations (zIn : List (AllocatedNum F)) (n : Nat) :
    Synthesis Panic F (List (AllocatedNum F)) :=
  (List.range n).foldlM (circuit.iteration hash) zIn

def synthesize (zIn : List (AllocatedNum F)) : Synthesis Panic F (List (AllocatedNum F)) :=
  if zIn.length = circuit.memoryLen.val + 1 then
    circuit.iterations hash zIn circuit.numItersPerStep
  else throw .assertionFailed

/-! ## One iteration -/

def memoryCells (zOut : List (AllocatedNum F)) : List F :=
  (zOut.take circuit.memoryLen.val).map (·.value)

/-- What the prover computes in an iteration. -/
structure Step (zOut : List (AllocatedNum F)) (j : Nat) where
  record : TraceRecord F
  commitment : F
  lookup : Nat
  root : AllocatedNum F
  newCommitment : F
  traceRecord_eq : circuit.traceRecord[j]? = some record
  commitment_eq : merkleTreeCommit hash (circuit.memoryCells zOut) = .ok commitment
  lookup_eq : lookupRes circuit.memoryLen.val record.address = .ok lookup
  root_eq : zOut[circuit.memoryLen.val]? = some root
  newCommitment_eq : merkleTreeCommit hash
    (newMemory (circuit.memoryCells zOut) record.value record.address) = .ok newCommitment

namespace Step

variable {hash circuit} {zOut : List (AllocatedNum F)} {j : Nat} (step : circuit.Step hash zOut j)

def output : List F :=
  newMemory (circuit.memoryCells zOut) step.record.value step.record.address ++ [step.newCommitment]

def aux : List F :=
  [step.record.value, step.record.instruction,
    getMemoryAddress (circuit.memoryCells zOut) step.record.address, step.commitment,
    (step.lookup : F)] ++ step.output

/-- The constraints of an iteration whose first variable is `base`. -/
def constraints (base : Nat) : List (Constraint F) :=
  let value := .aux base
  let instruction := .aux (base + 1)
  let memoryAddress := .aux (base + 2)
  let commitment := .aux (base + 3)
  let lookupRes := .aux (base + 4)
  [⟨.plus .zero lookupRes, .plus .zero .one, .plus .zero .one⟩,
    ⟨.plus .zero commitment, .plus .zero .one, .plus .zero step.root.var⟩,
    ⟨.plus .zero instruction, .minus (.plus .zero memoryAddress) value,
      .minus (.plus .zero memoryAddress) value⟩,
    ⟨.plus .zero instruction, .plus .zero instruction, .plus .zero instruction⟩]

include step

theorem length_take : (zOut.take circuit.memoryLen.val).length = circuit.memoryLen.val := by
  have := (List.getElem?_eq_some_iff.mp step.root_eq).1
  rw [List.length_take]
  omega

theorem memoryCells_length : (circuit.memoryCells zOut).length = circuit.memoryLen.val := by
  rw [memoryCells, List.length_map, step.length_take]

theorem memoryLen_pos : 0 < circuit.memoryLen.val := by
  by_contra h
  have hnil : circuit.memoryCells zOut = [] :=
    List.eq_nil_of_length_eq_zero (by rw [step.memoryCells_length]; omega)
  have hcommit := step.commitment_eq
  rw [hnil, merkleTreeCommit_nil] at hcommit
  cases hcommit

@[simp] theorem output_length : step.output.length = circuit.memoryLen.val + 1 := by
  rw [output, List.length_append, newMemory_length, step.memoryCells_length]
  rfl

@[simp] theorem aux_length : step.aux.length = circuit.memoryLen.val + 6 := by
  rw [aux, List.length_append, output_length]
  simp only [List.length_cons, List.length_nil]
  omega

omit step in
theorem aux_output (step : circuit.Step hash zOut j) (i : Nat) :
    step.aux[5 + i]? = step.output[i]? := by
  rw [aux, List.getElem?_append_right (by simp)]
  simp

end Step

theorem iteration_ok_iff {zOut : List (AllocatedNum F)} {j : Nat} {cs : ConstraintSystem F}
    {r : List (AllocatedNum F) × ConstraintSystem F} :
    circuit.iteration hash zOut j cs = .ok r ↔ ∃ step : circuit.Step hash zOut j,
      (numbered (cs.aux.length + 5) step.output,
        ⟨cs.aux ++ step.aux, cs.constraints ++ step.constraints cs.aux.length⟩) = r := by
  unfold iteration
  simp only [bind_apply, lift_apply, alloc_apply, enforce_apply, mapM_alloc, ok_bind, bind_assoc,
    numbered_values, bind_ok_iff, index_ok, List.append_assoc, List.length_append,
    List.length_singleton, numbered_length, newMemory_length, List.length_map]
  constructor
  · rintro ⟨record, hrecord, commitment, hcommitment, lookup, hlookup, root, hroot, newCommitment,
      hnew, hr⟩
    let step : circuit.Step hash zOut j :=
      ⟨record, commitment, lookup, root, newCommitment, hrecord, hcommitment, hlookup, hroot, hnew⟩
    refine ⟨step, ?_⟩
    rw [if_pos (by rw [step.length_take])] at hr
    simpa [pure_apply, Step.output, Step.aux, Step.constraints, numbered_snoc, memoryCells,
      step] using hr
  · rintro ⟨step, rfl⟩
    refine ⟨_, step.traceRecord_eq, _, step.commitment_eq, _, step.lookup_eq, _, step.root_eq, _,
      step.newCommitment_eq, ?_⟩
    rw [if_pos (by rw [step.length_take])]
    simp [pure_apply, Step.output, Step.aux, Step.constraints, numbered_snoc, memoryCells]

/-- What the constraints of an iteration say of an assignment. -/
theorem Step.constraints_hold_iff {zOut : List (AllocatedNum F)} {j : Nat}
    (step : circuit.Step hash zOut j) {w : Variable → F} (hw : w .one = 1) {base : Nat} :
    (∀ c ∈ step.constraints base, c.Holds w) ↔
      w (.aux (base + 4)) = 1 ∧ w (.aux (base + 3)) = w step.root.var ∧
        w (.aux (base + 1)) * (w (.aux (base + 2)) - w (.aux base)) =
          w (.aux (base + 2)) - w (.aux base) ∧
        w (.aux (base + 1)) * w (.aux (base + 1)) = w (.aux (base + 1)) := by
  simp [constraints, Constraint.Holds, hw]

theorem iterations_succ_ok {zIn : List (AllocatedNum F)} {n : Nat} {cs : ConstraintSystem F}
    {r : List (AllocatedNum F) × ConstraintSystem F} :
    circuit.iterations hash zIn (n + 1) cs = .ok r ↔
      ∃ s, circuit.iterations hash zIn n cs = .ok s ∧
        circuit.iteration hash s.1 n s.2 = .ok r := by
  have hstep : circuit.iterations hash zIn (n + 1) cs =
      circuit.iterations hash zIn n cs >>= fun s => circuit.iteration hash s.1 n s.2 := by
    rw [iterations, List.range_succ, List.foldlM_append, bind_apply]
    congr 1
    funext s
    rw [List.foldlM_cons, bind_apply]
    cases circuit.iteration hash s.1 n s.2 <;> rfl
  rw [hstep, bind_ok_iff]

/-- A run that reaches an iteration has passed the ones before it. -/
theorem iterations_ok_of_le {zIn : List (AllocatedNum F)} {n k : Nat} (hk : k ≤ n)
    {cs : ConstraintSystem F} {r : List (AllocatedNum F) × ConstraintSystem F}
    (h : circuit.iterations hash zIn n cs = .ok r) :
    ∃ s, circuit.iterations hash zIn k cs = .ok s := by
  induction n generalizing r with
  | zero => exact ⟨r, by rwa [Nat.le_zero.mp hk]⟩
  | succ n ih =>
    rcases Nat.le_succ_iff.mp hk with hk | rfl
    · obtain ⟨s, hs, _⟩ := (iterations_succ_ok hash circuit).mp h
      exact ih hk hs
    · exact ⟨r, h⟩

/-! ## Circuits of records -/

/-- The field elements of a record. -/
def traceOf (r : Record) : TraceRecord F := ⟨r.address.val, r.instruction.val, r.value.val⟩

/-- The circuit of a list of records, one iteration for each. -/
def ofRecords (memoryLen : U64) (records : List Record) : NovaMemoryConsistencyCircuit F :=
  ⟨memoryLen, records.length, records.map traceOf⟩

omit [DecidableEq F] in
theorem new_records (memoryLen : U64) (records : List Record) :
    (new memoryLen records.length (records.map Record.address) (records.map Record.instruction)
      (records.map Record.value) : Except Panic (NovaMemoryConsistencyCircuit F)) =
      .ok (ofRecords memoryLen records) := by
  have hrecord : ∀ i < records.length, ∃ t : TraceRecord F, (do
      let address ← index (records.map Record.address) i
      let instruction ← index (records.map Record.instruction) i
      let value ← index (records.map Record.value) i
      .ok (⟨address.val, instruction.val, value.val⟩ : TraceRecord F)) = .ok t ∧
        (ofRecords memoryLen records : NovaMemoryConsistencyCircuit F).traceRecord[i]? =
          some t := by
    intro i hi
    simp [index, ofRecords, traceOf, hi]
  obtain ⟨l, hl, hlen, hget⟩ := mapM_range_ok hrecord
  have heq : l = (ofRecords memoryLen records : NovaMemoryConsistencyCircuit F).traceRecord := by
    apply List.ext_getElem?
    intro i
    by_cases hi : i < records.length
    · obtain ⟨t, ht, ht'⟩ := hget i hi
      rw [ht, ht']
    · rw [List.getElem?_eq_none (by omega), List.getElem?_eq_none (by simpa [ofRecords] using hi)]
  rw [new, hl, ok_bind, heq]
  rfl

variable {p : Nat} [CharP F p]

/-- An iteration over records of words does not fail. -/
theorem exists_step (hp : 2 ^ 64 < p) {memoryLen : U64} (hm : 0 < memoryLen.val)
    {records : List Record} {zOut : List (AllocatedNum F)} (hz : zOut.length = memoryLen.val + 1)
    {j : Nat} (hj : j < records.length) :
    Nonempty ((ofRecords memoryLen records).Step hash zOut j) := by
  have hlen : ((ofRecords memoryLen records).memoryCells zOut).length = memoryLen.val := by
    simp only [memoryCells, ofRecords, List.length_map, List.length_take]
    omega
  have hcells : ∀ cells : List F, cells.length = memoryLen.val → cells ≠ [] := by
    intro cells h hnil
    rw [hnil, List.length_nil] at h
    omega
  have hroot : memoryLen.val < zOut.length := by omega
  obtain ⟨r, hr⟩ : ∃ r, records[j]? = some r := ⟨_, List.getElem?_eq_getElem hj⟩
  exact ⟨{
    record := traceOf r
    commitment := _
    lookup := _
    root := _
    newCommitment := _
    traceRecord_eq := by rw [ofRecords, List.getElem?_map, hr]; rfl
    commitment_eq := merkleTreeCommit_ok hash (hcells _ hlen)
    lookup_eq := lookupRes_natCast hp memoryLen.isLt.le r.address.isLt
    root_eq := List.getElem?_eq_getElem hroot
    newCommitment_eq := merkleTreeCommit_ok hash (hcells _ (by rw [newMemory_length, hlen])) }⟩

theorem iterations_run (hp : 2 ^ 64 < p) {memoryLen : U64} (hm : 0 < memoryLen.val)
    {records : List Record} {zIn : List (AllocatedNum F)} (hz : zIn.length = memoryLen.val + 1)
    {n : Nat} (hn : n ≤ records.length) (cs : ConstraintSystem F) :
    ∃ r, (ofRecords memoryLen records).iterations hash zIn n cs = .ok r ∧
      r.1.length = memoryLen.val + 1 := by
  induction n with
  | zero => exact ⟨_, rfl, hz⟩
  | succ n ih =>
    obtain ⟨s, hs, hlen⟩ := ih (by omega)
    obtain ⟨step⟩ := exists_step hash hp hm hlen (Nat.lt_of_succ_le hn)
    have hiter : (ofRecords memoryLen records).iteration hash s.1 n s.2 = .ok _ :=
      (iteration_ok_iff hash _).mpr ⟨step, rfl⟩
    refine ⟨_, (iterations_succ_ok hash _).mpr ⟨s, hs, hiter⟩, ?_⟩
    rw [numbered_length, step.output_length]
    rfl

end Circuit

end NovaMemoryConsistencyCircuit

end Zkmemory.Folding
