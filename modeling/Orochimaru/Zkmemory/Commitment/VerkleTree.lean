import Orochimaru.Poseidon.Hash
import Orochimaru.Zkmemory.Commitment.Bn256
import Orochimaru.Zkmemory.Constraints.Gadgets

/-!
# The Verkle opening circuit

A row of the circuit holds a node of the path, the hash of the commitment that its parent
is to be, and its index among the children. The openings are verified natively, and only
the verdict is assigned. Row by row, the hash has to be the next node.
-/

namespace Zkmemory.Commitment

open Plonkish Rotation Constraints Poseidon

def omegaPower : List Fr := ([0x01, 0x07, 0x31, 0x0157, 0x0961] : List Nat).map Nat.cast

structure VerkleTreeConfig where
  advice : Fin 2 → Column Fr
  check : Column Fr
  indices : Column Fr
  selector : Column Fr
  selectorCheck : Column Fr
  table : Column Fr

namespace VerkleTreeConfig

variable (c : VerkleTreeConfig)

def gates : List (Gate Fr) := [
  fun row => [c.selector (row cur) * (c.advice 1 (row prev) - c.advice 0 (row cur))],
  fun row => [c.selectorCheck (row cur) * (c.check (row cur) - 1)]]

def configure : System Fr := rangeCheck c.table c.indices ++ { gates := c.gates }

end VerkleTreeConfig

/-- The cells of one level. -/
structure VerkleTreeRow where
  node : Fr
  parent : Fr
  index : Fr

structure VerkleTreeCircuit (Params : Type) where
  leaf : Fr
  commitment : List G1Affine
  proof : List Byte
  pathElements : List Fr
  indices : List Fr
  params : Params

section Synthesis

variable {R : Nat} (S : Spec Fr R)

/-- The Poseidon hash of the coordinates; a coordinate above the modulus is a panic. -/
def groupToScalar (commitment : G1Affine) : Except Panic Fr :=
  match frFromBytes commitment.x.toBytes, frFromBytes commitment.y.toBytes with
  | some x, some y => hash S ![x, y]
  | _, _ => .error .expectNone

/-- `OMEGA_POWER` at the first byte of an index. -/
def point (index : Fr) : Except Panic Fr :=
  match omegaPower[index.val % 256]? with
  | some x => .ok x
  | none => .error .indexOutOfBounds

namespace VerkleTreeCircuit

variable {Params : Type} (circuit : VerkleTreeCircuit Params)

def assign (node : Fr) (commitment : G1Affine) (index : Fr) : Except Panic VerkleTreeRow := do
  let parent ← groupToScalar S commitment
  .ok ⟨node, parent, index⟩

/-- The level `i` of the region "verkle proof". -/
def level (i : Nat) : Except Panic VerkleTreeRow :=
  match (circuit.leaf :: circuit.pathElements)[i]?, circuit.commitment[i]?, circuit.indices[i]? with
  | some node, some commitment, some index => assign S node commitment index
  | _, _, _ => .error .indexOutOfBounds

/-- The openings claimed: a node under its parent's commitment. -/
def polyList : List Fr := circuit.leaf :: circuit.pathElements.dropLast

/-- The region of the table begins below the leaf and ends above the root. -/
def rootRow (A : Nat) : Nat := 1 + max circuit.pathElements.length A

def columns (A : Nat) (rows : List VerkleTreeRow) (b : Bool) (root : Fr) : VerkleTreeConfig where
  advice := ![
    fun r => if r = 0 then circuit.leaf else if r = circuit.rootRow A then root
      else place 1 rows (·.node) r,
    place 1 rows (·.parent)]
  check := fun r => if r = 0 then (if b then 1 else 0) else 0
  indices := place 1 rows (·.index)
  selector := enabled 2 (1 + rows.length)
  selectorCheck := enabled 0 1
  table := load A 1 fun _ => 0

variable (verifyKzgProof : Params → List Fr → List Fr → List G1Affine → List Byte →
  Except Panic Bool)

def synthesize (A : Nat) : Except Panic VerkleTreeConfig := do
  if circuit.indices.length ≠ circuit.pathElements.length then throw .assertionFailed
  let rows ← (List.range circuit.pathElements.length).mapM (circuit.level S)
  match circuit.pathElements.getLast? with
  | none => .error .arithmeticOverflow
  | some root =>
    let pointList ← circuit.indices.mapM point
    let b ← verifyKzgProof circuit.params pointList circuit.polyList circuit.commitment
      circuit.proof
    .ok (circuit.columns A rows b root)

/-- The honest synthesis fits and satisfies every gate, lookup and public instance. -/
def Accepts (A : Nat) (D : Domain) (leaf root : Fr) : Prop :=
  ∃ config, circuit.synthesize S verifyKzgProof A = .ok config ∧
    circuit.rootRow A < D.usable ∧ config.configure.Holds D ∧
    config.advice 0 0 = leaf ∧ config.advice 0 (circuit.rootRow A) = root

end VerkleTreeCircuit

end Synthesis

end Zkmemory.Commitment
