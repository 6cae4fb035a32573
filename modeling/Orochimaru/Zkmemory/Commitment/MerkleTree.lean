import Orochimaru.Poseidon.OrchardNullifier
import Orochimaru.Poseidon.Soundness

/-!
# The Merkle opening circuit

The path from the leaf to the root, level by level. A level orders the running digest
and the sibling by an index bit and hashes the pair with the embedded gadget; the output
cell is the digest of the next level.
-/

namespace Zkmemory.Commitment

open Poseidon Layouter Loops Constraints

/-- `[digest, element, left, right]` and the index bit. -/
inductive MerkleColumn
  | advice (i : Fin 4)
  | indices
  deriving DecidableEq

inductive MerkleSelector
  | selector

section Circuit

variable {F : Type} [Field F] {R : Nat}

def merkleGate : Gate (Column R MerkleColumn) F := fun q =>
  let digest := q (.other (.advice 0)) .cur
  let element := q (.other (.advice 1)) .cur
  let left := q (.other (.advice 2)) .cur
  let right := q (.other (.advice 3)) .cur
  let bit := q (.other .indices) .cur
  [bit * (1 - bit),
    left - (digest + bit * (element - digest)),
    right - (element + bit * (digest - element))]

/-- The gates of the circuit, those of the hash among them. -/
def merkleGates (S : Spec F R) : Selector MerkleSelector → Gate (Column R MerkleColumn) F :=
  Poseidon.gates S fun _ => merkleGate

structure MerkleTreeCircuit (F : Type) where
  leaf : F
  elements : List F
  indices : List F

namespace MerkleTreeCircuit

/-- `assign_advice` at the first row of a region. -/
def assign (region : Nat) (column : MerkleColumn) (value : F) :
    Op (Selector MerkleSelector) (Column R MerkleColumn) F × Word F R MerkleColumn :=
  (.assignAdvice ⟨region, 0, .other column⟩ value, ⟨⟨region, 0, .other column⟩, value⟩)

/-- The row that copies the digest in and derives the inputs of the hash. -/
def swapRow [DecidableEq F] (digest : Word F R MerkleColumn) (index element : F) (region : Nat) :
    Ops F R MerkleColumn MerkleSelector × (Fin 2 → Word F R MerkleColumn) :=
  let digestCell := assign region (.advice 0) digest.value
  let elementCell := assign region (.advice 1) element
  let indexCell := assign (R := R) region .indices index
  let inputs := if index = 0 then (digest.value, element) else (element, digest.value)
  let left := assign region (.advice 2) inputs.1
  let right := assign region (.advice 3) inputs.2
  ([.enable (.other .selector) region 0, digestCell.1,
    .constrainEqual digestCell.2.cell digest.cell, elementCell.1, indexCell.1, left.1, right.1],
    ![left.2, right.2])

def level [DecidableEq F] (config : PoseidonConfig F R) (digest : Word F R MerkleColumn)
    (step : F × F) : Gadgets.Layouter F R MerkleColumn MerkleSelector (Word F R MerkleColumn) := do
  let inputs ← assignRegion (swapRow digest step.1 step.2)
  Gadgets.init 2 >>= fun hasher => Gadgets.hash config hasher inputs

/-- The indices with the elements of their levels. -/
def steps (circuit : MerkleTreeCircuit F) : List (F × F) := circuit.indices.zip circuit.elements

def synthesize [DecidableEq F] (circuit : MerkleTreeCircuit F) (config : PoseidonConfig F R) :
    Gadgets.Layouter F R MerkleColumn MerkleSelector Unit := do
  if circuit.indices.length ≠ circuit.elements.length then throw .assertionFailed
  let leaf ← assignRegion fun region =>
    ([(assign region (.advice 0) circuit.leaf).1], (assign region (.advice 0) circuit.leaf).2)
  constrainInstance leaf.cell 0
  let digest ← circuit.steps.foldlM (level config) leaf
  constrainInstance digest.cell 1

end MerkleTreeCircuit

end Circuit

/-! ## Witnesses -/

structure MerkleWitness where
  leaf : U64
  elements : List U64
  indices : List U64

/-- `Fp::from` of a `u64`. -/
def fpOfU64 (x : U64) : Fp := (x.val : Fp)

def MerkleWitness.toCircuitFormat (witness : MerkleWitness) : MerkleTreeCircuit Fp :=
  ⟨fpOfU64 witness.leaf, witness.elements.map fpOfU64, witness.indices.map fpOfU64⟩

/-- The root over `elements`; a missing index is out of bounds. -/
def merkleTreeCommitFp (leaf : U64) (elements indices : List U64) : Except Panic Fp :=
  (List.range elements.length).foldlM (fun digest i =>
    match indices[i]?, elements[i]? with
    | some index, some element =>
      hash orchardNullifier (if index.isZero then ![digest, fpOfU64 element]
        else ![fpOfU64 element, digest])
    | _, _ => .error .indexOutOfBounds) (fpOfU64 leaf)

end Zkmemory.Commitment
