import Orochimaru.Lib.R1cs
import Orochimaru.Zkmemory.Folding.Cells
import Orochimaru.Zkmemory.Folding.MerkleCommit
import Orochimaru.Zkmemory.Folding.Nova

/-!
# The memory consistency circuits of SuperNova

A read circuit and a write circuit over the vector of memory cells and commitment, and the
list of circuits that `new` creates for a trace, with a read of the first cell in front.
-/

namespace Zkmemory.Folding.SuperNova

open Loops R1cs

variable {F : Type}

structure TraceRecord (F : Type) where
  address : F
  value : F

structure ReadCircuit (F : Type) where
  trace : Option (TraceRecord F)
  nextInstruction : Option F
  memorySize : Option U64

structure WriteCircuit (F : Type) where
  trace : Option (TraceRecord F)
  nextInstruction : Option F
  memorySize : Option U64

/-- `Option::expect`. -/
def expect {α : Type} : Option α → Except Panic α
  | some x => .ok x
  | none => .error .expectNone

theorem expect_ok {α : Type} {o : Option α} {x : α} : expect o = .ok x ↔ o = some x := by
  cases o <;> simp [expect]

/-- `assert_eq!` -/
def assertEq {α : Type} [DecidableEq α] (x y : α) : Except Panic Unit :=
  if x = y then .ok () else .error .assertionFailed

theorem assertEq_ok {α : Type} [DecidableEq α] {x y : α} {u : Unit} :
    assertEq x y = .ok u ↔ x = y := by
  unfold assertEq
  split <;> simp_all

section Circuits

variable [Field F] [DecidableEq F] (hash : F → F → F)

def ReadCircuit.synthesize (circuit : ReadCircuit F) (z : List (AllocatedNum F)) :
    Synthesis Panic F (AllocatedNum F × List (AllocatedNum F)) := do
  let trace ← expect circuit.trace
  let memorySize ← expect circuit.memorySize
  assertEq z.length (memorySize.val + 1)
  let lookupRes ← lookupRes memorySize.val trace.address
  let lookupResAlloc ← alloc (lookupRes : F)
  let memory := (z.take memorySize.val).map (·.value)
  let memoryAddress ← alloc (getMemoryAddress memory trace.address)
  let value ← alloc trace.value
  let commitment ← alloc (← merkleTreeCommit hash memory)
  let root ← index z memorySize.val
  enforce (.plus .zero commitment.var) (.plus .zero .one) (.plus .zero root.var)
  enforce (.plus .zero lookupResAlloc.var) (.plus .zero .one) (.plus .zero .one)
  enforce (.plus .zero .one) (.plus .zero memoryAddress.var) (.plus .zero value.var)
  let pcNext ← alloc (← expect circuit.nextInstruction)
  pure (pcNext, z)

def WriteCircuit.synthesize (circuit : WriteCircuit F) (z : List (AllocatedNum F)) :
    Synthesis Panic F (AllocatedNum F × List (AllocatedNum F)) := do
  let trace ← expect circuit.trace
  let memorySize ← expect circuit.memorySize
  assertEq z.length (memorySize.val + 1)
  let lookupRes ← lookupRes memorySize.val trace.address
  let lookupResAlloc ← alloc (lookupRes : F)
  let value ← alloc trace.value
  enforce (.plus .zero lookupResAlloc.var) (.plus .zero .one) (.plus .zero .one)
  let memory := (z.take memorySize.val).map (·.value)
  let cells ← (newMemory memory value.value trace.address).mapM alloc
  let newCommitment ← alloc (← merkleTreeCommit hash (cells.map (·.value)))
  let zOut := cells ++ [newCommitment]
  assertEq zOut.length (memorySize.val + 1)
  let pcNext ← alloc (← expect circuit.nextInstruction)
  pure (pcNext, zOut)

/-! ## Synthesis of one circuit -/

section Steps

variable {hash}

/-- What the prover computes in a read. -/
structure ReadCircuit.Step (hash : F → F → F) (circuit : ReadCircuit F)
    (z : List (AllocatedNum F)) where
  trace : TraceRecord F
  memorySize : U64
  nextInstruction : F
  lookup : Nat
  commitment : F
  root : AllocatedNum F
  trace_eq : circuit.trace = some trace
  memorySize_eq : circuit.memorySize = some memorySize
  nextInstruction_eq : circuit.nextInstruction = some nextInstruction
  length_eq : z.length = memorySize.val + 1
  lookup_eq : lookupRes memorySize.val trace.address = .ok lookup
  commitment_eq :
    merkleTreeCommit hash ((z.take memorySize.val).map (·.value)) = .ok commitment
  root_eq : z[memorySize.val]? = some root

namespace ReadCircuit.Step

variable {circuit : ReadCircuit F} {z : List (AllocatedNum F)} (step : circuit.Step hash z)

def aux : List F :=
  [(step.lookup : F), getMemoryAddress ((z.take step.memorySize.val).map (·.value))
    step.trace.address, step.trace.value, step.commitment, step.nextInstruction]

def constraints : List (Constraint F) :=
  [⟨.plus .zero (.aux 3), .plus .zero .one, .plus .zero step.root.var⟩,
    ⟨.plus .zero (.aux 0), .plus .zero .one, .plus .zero .one⟩,
    ⟨.plus .zero .one, .plus .zero (.aux 1), .plus .zero (.aux 2)⟩]

theorem constraints_hold_iff {w : Variable → F} (hw : w .one = 1) :
    (∀ c ∈ step.constraints, c.Holds w) ↔
      w (.aux 3) = w step.root.var ∧ w (.aux 0) = 1 ∧ w (.aux 1) = w (.aux 2) := by
  simp [constraints, Constraint.Holds, hw]

end ReadCircuit.Step

theorem ReadCircuit.synthesize_ok_iff {circuit : ReadCircuit F} {z : List (AllocatedNum F)}
    {r : (AllocatedNum F × List (AllocatedNum F)) × ConstraintSystem F} :
    circuit.synthesize hash z .empty = .ok r ↔ ∃ step : circuit.Step hash z,
      ((⟨step.nextInstruction, .aux 4⟩, z), ⟨step.aux, step.constraints⟩) = r := by
  unfold synthesize
  simp only [bind_apply, lift_apply, alloc_apply, enforce_apply, pure_apply, ok_bind, bind_assoc,
    bind_ok_iff, index_ok, expect_ok, assertEq_ok, ConstraintSystem.empty]
  constructor
  · rintro ⟨trace, htrace, memorySize, hsize, -, hlen, lookup, hlookup, commitment, hcommitment,
      root, hroot, nextInstruction, hnext, hr⟩
    exact ⟨⟨trace, memorySize, nextInstruction, lookup, commitment, root, htrace, hsize, hnext, hlen,
      hlookup, hcommitment, hroot⟩, Except.ok.inj hr⟩
  · rintro ⟨step, rfl⟩
    exact ⟨_, step.trace_eq, _, step.memorySize_eq, (), step.length_eq, _, step.lookup_eq, _,
      step.commitment_eq, _, step.root_eq, _, step.nextInstruction_eq, rfl⟩

/-- What the prover computes in a write. -/
structure WriteCircuit.Step (hash : F → F → F) (circuit : WriteCircuit F)
    (z : List (AllocatedNum F)) where
  trace : TraceRecord F
  memorySize : U64
  nextInstruction : F
  lookup : Nat
  newCommitment : F
  trace_eq : circuit.trace = some trace
  memorySize_eq : circuit.memorySize = some memorySize
  nextInstruction_eq : circuit.nextInstruction = some nextInstruction
  length_eq : z.length = memorySize.val + 1
  lookup_eq : lookupRes memorySize.val trace.address = .ok lookup
  newCommitment_eq : merkleTreeCommit hash
    (newMemory ((z.take memorySize.val).map (·.value)) trace.value trace.address) =
      .ok newCommitment

namespace WriteCircuit.Step

variable {circuit : WriteCircuit F} {z : List (AllocatedNum F)} (step : circuit.Step hash z)

def output : List F :=
  newMemory ((z.take step.memorySize.val).map (·.value)) step.trace.value step.trace.address ++
    [step.newCommitment]

def aux : List F :=
  [(step.lookup : F), step.trace.value] ++ (step.output ++ [step.nextInstruction])

@[simp] theorem output_length : step.output.length = step.memorySize.val + 1 := by
  simp [output, step.length_eq]

end WriteCircuit.Step

/-- The only constraint of a write. -/
def WriteCircuit.constraints : List (Constraint F) :=
  [⟨.plus .zero (.aux 0), .plus .zero .one, .plus .zero .one⟩]

omit [DecidableEq F] in
theorem WriteCircuit.constraints_hold_iff {w : Variable → F} (hw : w .one = 1) :
    (∀ c ∈ WriteCircuit.constraints, c.Holds w) ↔ w (.aux 0) = 1 := by
  simp [constraints, Constraint.Holds, hw]

theorem WriteCircuit.synthesize_ok_iff {circuit : WriteCircuit F} {z : List (AllocatedNum F)}
    {r : (AllocatedNum F × List (AllocatedNum F)) × ConstraintSystem F} :
    circuit.synthesize hash z .empty = .ok r ↔ ∃ step : circuit.Step hash z,
      ((⟨step.nextInstruction, .aux (step.memorySize.val + 3)⟩, numbered 2 step.output),
        ⟨step.aux, WriteCircuit.constraints⟩) = r := by
  unfold synthesize
  simp only [bind_apply, lift_apply, alloc_apply, enforce_apply, pure_apply, mapM_alloc, ok_bind,
    bind_assoc, bind_ok_iff, expect_ok, assertEq_ok, ConstraintSystem.empty, numbered_values]
  constructor
  · rintro ⟨trace, htrace, memorySize, hsize, -, hlen, lookup, hlookup, newCommitment, hnew,
      -, -, nextInstruction, hnext, hr⟩
    let step : circuit.Step hash z := ⟨trace, memorySize, nextInstruction, lookup, newCommitment,
      htrace, hsize, hnext, hlen, hlookup, hnew⟩
    refine ⟨step, ?_⟩
    rw [← Except.ok.inj hr]
    simp [WriteCircuit.Step.output, WriteCircuit.Step.aux, WriteCircuit.constraints, numbered_snoc,
      Nat.add_comm 2, hlen, step]
  · rintro ⟨step, rfl⟩
    refine ⟨_, step.trace_eq, _, step.memorySize_eq, (), step.length_eq, _, step.lookup_eq, _,
      step.newCommitment_eq, (), ?_, _, step.nextInstruction_eq, ?_⟩
    · simp [step.length_eq]
    · simp [WriteCircuit.Step.output, WriteCircuit.Step.aux, WriteCircuit.constraints,
        numbered_snoc, Nat.add_comm 2, step.length_eq]

/-! Circuits whose address is a word do not fail. -/

section Words

variable {p : Nat} [CharP F p] (hp : 2 ^ 64 < p) {m : U64} (hm : 0 < m.val) (address : U64)
  (value nextInstruction : F) {z : List (AllocatedNum F)} (hz : z.length = m.val + 1)
include hp hm hz

theorem exists_readStep : Nonempty (ReadCircuit.Step hash
    ⟨some ⟨address.val, value⟩, some nextInstruction, some m⟩ z) := by
  have hcells : (z.take m.val).map (·.value) ≠ [] := by
    apply List.ne_nil_of_length_pos
    rw [List.length_map, List.length_take]
    omega
  have hroot : m.val < z.length := by omega
  exact ⟨{
    trace := _
    memorySize := _
    nextInstruction := _
    lookup := _
    commitment := _
    root := _
    trace_eq := rfl
    memorySize_eq := rfl
    nextInstruction_eq := rfl
    length_eq := hz
    lookup_eq := lookupRes_natCast hp m.isLt.le address.isLt
    commitment_eq := merkleTreeCommit_ok hash hcells
    root_eq := List.getElem?_eq_getElem hroot }⟩

theorem exists_writeStep : Nonempty (WriteCircuit.Step hash
    ⟨some ⟨address.val, value⟩, some nextInstruction, some m⟩ z) := by
  have hcells : newMemory ((z.take m.val).map (·.value)) value (address.val : F) ≠ [] := by
    apply List.ne_nil_of_length_pos
    rw [newMemory_length, List.length_map, List.length_take]
    omega
  exact ⟨{
    trace := _
    memorySize := _
    nextInstruction := _
    lookup := _
    newCommitment := _
    trace_eq := rfl
    memorySize_eq := rfl
    nextInstruction_eq := rfl
    length_eq := hz
    lookup_eq := lookupRes_natCast hp m.isLt.le address.isLt
    newCommitment_eq := merkleTreeCommit_ok hash hcells }⟩

end Words

end Steps

inductive MemoryConsistencyCircuit (F : Type)
  | read (circuit : ReadCircuit F)
  | write (circuit : WriteCircuit F)

namespace MemoryConsistencyCircuit

def circuitIndex : MemoryConsistencyCircuit F → Nat
  | read _ => 0
  | write _ => 1

def synthesize (z : List (AllocatedNum F)) :
    MemoryConsistencyCircuit F → Synthesis Panic F (AllocatedNum F × List (AllocatedNum F))
  | read circuit => circuit.synthesize hash z
  | write circuit => circuit.synthesize hash z

/-- The circuit of record `i`. -/
def circuitAt (address value instruction : List U64) (memorySize : U64) (i : Nat) :
    Except Panic (MemoryConsistencyCircuit F) := do
  let kind ← index instruction i
  let address ← index address i
  let value ← index value i
  let nextInstruction ← index instruction (i + 1)
  let trace : TraceRecord F := ⟨address.val, value.val⟩
  if kind.val = 0 then
    .ok (read ⟨some trace, some nextInstruction.val, some memorySize⟩)
  else
    .ok (write ⟨some trace, some nextInstruction.val, some memorySize⟩)

def new (zPrimary : List F) (address value instruction : List U64) (numSteps : Nat)
    (memorySize : U64) : Except Panic (List (MemoryConsistencyCircuit F)) := do
  assertEq instruction.length (address.length + 1)
  let last ← index instruction address.length
  assertEq last.val 2
  let first ← index zPrimary 0
  let nextInstruction ← index instruction 0
  let leading := read ⟨some ⟨((0 : Nat) : F), first⟩, some nextInstruction.val, some memorySize⟩
  let circuits ← (List.range numSteps).mapM (circuitAt address value instruction memorySize)
  .ok (leading :: circuits)

end MemoryConsistencyCircuit

end Circuits

end Zkmemory.Folding.SuperNova
