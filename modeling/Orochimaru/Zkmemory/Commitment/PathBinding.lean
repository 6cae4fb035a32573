import Orochimaru.Lib.MerkleTree
import Orochimaru.Poseidon.Reference
import Orochimaru.Zkmemory.Commitment.MerkleSoundness

/-!
# Merkle roots bind their paths

`merkle_tree_commit_fp` climbs a path under the Poseidon hash of two words. The leaf and the
siblings are words of 64 bits, which the field keeps apart, so two openings at one position
agree or hash two different pairs to one digest.
-/

namespace Zkmemory.Commitment

open Poseidon Loops Constraints Merkle

/-! ## The commitment scheme -/

namespace MerkleTreeCircuit

def commit (witness : MerkleWitness) : Except Panic Fp :=
  merkleTreeCommitFp witness.leaf witness.elements witness.indices

/-- The root is only computed for an opening that is the one of the witness. -/
def verify (commitment : Fp) (opening : List U64) (witness : MerkleWitness) :
    Except Panic Bool := do
  if opening = witness.elements then
    let root ← merkleTreeCommitFp witness.leaf opening witness.indices
    .ok (commitment = root)
  else .ok false

theorem verify_ok_true {commitment : Fp} {opening : List U64} {witness : MerkleWitness} :
    verify commitment opening witness = .ok true ↔ opening = witness.elements ∧
      merkleTreeCommitFp witness.leaf opening witness.indices = .ok commitment := by
  unfold verify
  split
  case isTrue heq =>
    simp only [bind_ok_iff, Except.ok.injEq, decide_eq_true_eq, heq, true_and]
    constructor
    · rintro ⟨root, hroot, rfl⟩
      exact hroot
    · exact fun h => ⟨commitment, h, rfl⟩
  case isFalse hne => simp [hne]

end MerkleTreeCircuit

/-! ## Roots as climbs -/

/-- The hash of two words, which never fails. -/
def poseidonPair (a b : Fp) : Fp := referenceHash orchardNullifier ![a, b]

theorem hash_pair (a b : Fp) : hash orchardNullifier ![a, b] = .ok (poseidonPair a b) :=
  hash_eq_reference orchardNullifier two_pos two_pos _

/-- The siblings of a path, on the left where the index is set. -/
def merklePath (elements indices : List U64) : List (Bool × Fp) :=
  (indices.zip elements).map fun p => (!p.1.isZero, fpOfU64 p.2)

/-- The pairs hashed from the leaf to the root. -/
def merkleLevels (leaf : U64) (elements indices : List U64) : List (Fp × Fp) :=
  levels poseidonPair (fpOfU64 leaf) (merklePath elements indices)

theorem merkleTreeCommitFp_eq_climb {leaf : U64} {elements indices : List U64}
    (hlen : elements.length = indices.length) : merkleTreeCommitFp leaf elements indices =
      .ok (climb poseidonPair (fpOfU64 leaf) (merklePath elements indices)) := by
  have hup : ∀ digest (p : U64 × U64), hash orchardNullifier
      (if p.1.isZero then ![digest, fpOfU64 p.2] else ![fpOfU64 p.2, digest]) =
        .ok (up poseidonPair digest (!p.1.isZero, fpOfU64 p.2)) := by
    intro digest p
    cases hzero : p.1.isZero <;> exact hash_pair _ _
  have hpure : ∀ (path : List (Bool × Fp)) (digest : Fp),
      path.foldlM (fun d step => Except.ok (ε := Panic) (up poseidonPair d step)) digest =
        .ok (climb poseidonPair digest path) := by
    intro path
    induction path with
    | nil => exact fun _ => rfl
    | cons step path ih =>
      intro digest
      rw [List.foldlM_cons, ok_bind, climb_cons, ih]
  rw [merkleTreeCommitFp_zip hlen, merklePath, ← hpure, List.foldlM_map]
  simp only [hup]

/-! ## Binding -/

theorem fpOfU64_injective : Function.Injective fpOfU64 := fun x y h =>
  Uint.ext ((fpOfU64_eq_iff x y.isLt).mp h)

theorem merklePath_turns {elements indices : List U64} (hlen : elements.length = indices.length) :
    (merklePath elements indices).map Prod.fst = indices.map fun index => !index.isZero := by
  rw [merklePath, List.map_map]
  change (indices.zip elements).map ((fun index : U64 => !index.isZero) ∘ Prod.fst) = _
  rw [← List.map_map, List.map_fst_zip hlen.ge]

theorem merklePath_siblings {elements indices : List U64}
    (hlen : elements.length = indices.length) :
    (merklePath elements indices).map Prod.snd = elements.map fpOfU64 := by
  rw [merklePath, List.map_map]
  change (indices.zip elements).map (fpOfU64 ∘ Prod.snd) = _
  rw [← List.map_map, List.map_snd_zip hlen.le]

/-- Two paths at one position with one root are equal, leaf and all, or some level of both hashes
two different pairs to one digest. So a position opens to one leaf. -/
theorem merkleTreeCommitFp_binding (indices : List U64) (root : Fp) :
    (∀ leaf leaf' elements elements', elements.length = indices.length →
      elements'.length = indices.length →
      merkleTreeCommitFp leaf elements indices = .ok root →
      merkleTreeCommitFp leaf' elements' indices = .ok root →
      (leaf = leaf' ∧ elements = elements') ∨ Collision poseidonPair
        (merkleLevels leaf elements indices) (merkleLevels leaf' elements' indices)) ∧
    ∀ (witness witness' : MerkleWitness) (opening opening' : List U64),
      witness.indices = indices → witness'.indices = indices →
      opening.length = indices.length → opening'.length = indices.length →
      MerkleTreeCircuit.verify root opening witness = .ok true →
      MerkleTreeCircuit.verify root opening' witness' = .ok true →
      witness.leaf = witness'.leaf ∨ Collision poseidonPair
        (merkleLevels witness.leaf opening indices)
        (merkleLevels witness'.leaf opening' indices) := by
  have hpaths : ∀ leaf leaf' elements elements', elements.length = indices.length →
      elements'.length = indices.length →
      merkleTreeCommitFp leaf elements indices = .ok root →
      merkleTreeCommitFp leaf' elements' indices = .ok root →
      (leaf = leaf' ∧ elements = elements') ∨ Collision poseidonPair
        (merkleLevels leaf elements indices) (merkleLevels leaf' elements' indices) := by
    intro leaf leaf' elements elements' hlen hlen' hroot hroot'
    rw [merkleTreeCommitFp_eq_climb hlen] at hroot
    rw [merkleTreeCommitFp_eq_climb hlen'] at hroot'
    have hturns : (merklePath elements indices).map Prod.fst =
        (merklePath elements' indices).map Prod.fst := by
      rw [merklePath_turns hlen, merklePath_turns hlen']
    have heq := Except.ok.inj (hroot.trans hroot'.symm)
    refine (climb_binding hturns heq).imp (fun ⟨hleaf, hpath⟩ => ⟨fpOfU64_injective hleaf, ?_⟩) id
    have hsiblings := congrArg (List.map Prod.snd) hpath
    rw [merklePath_siblings hlen, merklePath_siblings hlen'] at hsiblings
    exact List.map_injective_iff.mpr fpOfU64_injective hsiblings
  refine ⟨hpaths, ?_⟩
  rintro witness witness' opening opening' hindices hindices' hlen hlen' hverify hverify'
  obtain ⟨-, hroot⟩ := MerkleTreeCircuit.verify_ok_true.mp hverify
  obtain ⟨-, hroot'⟩ := MerkleTreeCircuit.verify_ok_true.mp hverify'
  rw [hindices] at hroot
  rw [hindices'] at hroot'
  exact (hpaths _ _ _ _ hlen hlen' hroot hroot').imp And.left id

/-- A witness of two levels against itself. -/
theorem merkleTreeCommitFp_binding_two :
    let indices : List U64 := [.ofNat 0, .ofNat 1]
    let elements : List U64 := [.ofNat 3, .ofNat 4]
    let witness : MerkleWitness := ⟨.ofNat 7, elements, indices⟩
    ((Uint.ofNat 7 : U64) = .ofNat 7 ∧ elements = elements ∨ Collision poseidonPair
      (merkleLevels (.ofNat 7) elements indices) (merkleLevels (.ofNat 7) elements indices)) ∧
    (witness.leaf = witness.leaf ∨ Collision poseidonPair
      (merkleLevels witness.leaf elements indices)
      (merkleLevels witness.leaf elements indices)) := by
  intro indices elements witness
  have hroot : merkleTreeCommitFp witness.leaf elements indices = .ok (climb poseidonPair
      (fpOfU64 witness.leaf) (merklePath elements indices)) := merkleTreeCommitFp_eq_climb rfl
  have hverify : MerkleTreeCircuit.verify _ elements witness = .ok true :=
    MerkleTreeCircuit.verify_ok_true.mpr ⟨rfl, hroot⟩
  obtain ⟨hpaths, hopenings⟩ := merkleTreeCommitFp_binding indices _
  exact ⟨hpaths _ _ elements elements rfl rfl hroot hroot,
    hopenings witness witness elements elements rfl rfl rfl rfl hverify hverify⟩

end Zkmemory.Commitment
