import Orochimaru.Libecvrf.ContractProof
import Orochimaru.Node.SafeInsert

/-!
# The witness address

A proof for the chain stores the address hashed into its challenge as a scalar. The contract, the
digest and the table cut the address out of that scalar again.
-/

namespace Node

open Zkmemory Libecvrf

theorem Hex.take_encode (k : Nat) (bytes : List Byte) :
    String.ofList ((Hex.encode bytes).toList.take (2 * k)) = Hex.encode (bytes.take k) := by
  rw [Hex.encode, Hex.encode, String.toList_ofList]
  congr 1
  induction bytes generalizing k with
  | nil => simp
  | cons b bytes ih =>
    cases k with
    | zero => rfl
    | succ k => simp [Nat.mul_succ, ih]

/-- What the contract, the digest and the table read is the address `u`. -/
structure Transported (contractProof : ECVRFContractProof) (u : Bytes 20) : Prop where
  bytes : addressBytes contractProof.witnessAddress = List.ofFn u
  digits : String.ofList ((Hex.encode (Scalar.b32 contractProof.witnessAddress)).toList.take 40) =
    Hex.encode (List.ofFn u)

theorem transported_iff {contractProof : ECVRFContractProof} {u : Bytes 20}
    (h : contractProof.witnessAddress = Scalar.fromBytes u) :
    Transported contractProof u ↔ (Uint.fromBeBytes u).val * 256 ^ 12 < groupOrder := by
  rw [← addressBytes_fromBytes_iff, ← h]
  refine ⟨fun ht => ht.bytes, fun hb => ⟨hb, ?_⟩⟩
  rw [← hb]
  exact Hex.take_encode 20 _

/-- The address a challenge was made from, and when the readers of the proof see it. -/
theorem witnessAddress_transported_iff {keccak : List Byte → Bytes 32} {e : ECVRF} {alpha : Scalar}
    {fuel : Nat} {draws : Nat → Bytes 32} {contractProof : ECVRFContractProof}
    (hp : e.proveContract keccak alpha fuel draws = .ok contractProof) :
    ∃ h k, hashToCurvePrefix keccak fuel alpha e.publicKey = .ok h ∧ nonce draws 0 = .ok k ∧
      let u := calculateWitnessAddress keccak (ecmultGen k)
      contractProof.c = hashPointsPrefix keccak h e.publicKey contractProof.gamma u (ecmult h k) ∧
      (Transported contractProof u ↔ (Uint.fromBeBytes u).val * 256 ^ 12 < groupOrder) := by
  obtain ⟨h, k, hh, hk, rfl⟩ := ECVRF.proveContract_ok_iff.mp hp
  exact ⟨h, k, hh, hk, rfl, transported_iff rfl⟩

/-! ## One byte for every point -/

/-- A hash that sends every input to the generator and fills every other digest with `b`. -/
def filling (b : Byte) (l : List Byte) : Bytes 32 :=
  if l.length = 128 then (Uint.ofNat (generatorX.val : Scalar).val : Uint 32).toBeBytes
  else fun _ => b

def threes : Nat → Bytes 32 := fun _ => (Uint.ofNat (3 : Scalar).val : Uint 32).toBeBytes

theorem nonce_threes : nonce threes 0 = .ok 3 := by
  have hdraw : Scalar.randomize (threes 0) = 3 := Scalar.fromBytes_toBeBytes 3
  rw [nonce_of_ne_zero (hdraw ▸ by decide), hdraw]

theorem exists_proof_filling (b : Byte) : ∃ contractProof,
    (ECVRF.new ⟨1, one_ne_zero⟩).proveContract (filling b) 0 1 threes = .ok contractProof :=
  ⟨_, ECVRF.proveContract_ok_iff.mpr ⟨affineG, 3,
    ECVRF.hashToCurvePrefix_generator (fun _ hl => if_pos hl) _ _, nonce_threes, rfl⟩⟩

theorem calculateWitnessAddress_filling (b : Byte) (P : Affine) :
    calculateWitnessAddress (filling b) P = fun _ => b := by
  have hlen : P.b32.length ≠ 128 := by simp [Affine.b32, Field.b32]
  funext i
  rw [calculateWitnessAddress, Affine.keccak256, filling, if_neg hlen]

theorem witnessAddress_transported_ones : ∃ contractProof,
    (ECVRF.new ⟨1, one_ne_zero⟩).proveContract (filling 17) 0 1 threes = .ok contractProof ∧
      Transported contractProof fun _ => 17 := by
  obtain ⟨contractProof, hp⟩ := exists_proof_filling 17
  obtain ⟨h, k, -, -, -, hiff⟩ := witnessAddress_transported_iff hp
  rw [calculateWitnessAddress_filling] at hiff
  exact ⟨contractProof, hp, hiff.mpr (by decide)⟩

/-- The address of the largest bytes stands above the group order. -/
theorem not_transported_ones : ∃ contractProof,
    (ECVRF.new ⟨1, one_ne_zero⟩).proveContract (filling 255) 0 1 threes = .ok contractProof ∧
      ¬ Transported contractProof (calculateWitnessAddress (filling 255) (ecmultGen 3)) := by
  obtain ⟨contractProof, hp⟩ := exists_proof_filling 255
  refine ⟨contractProof, hp, ?_⟩
  obtain ⟨h, k, -, hk, rfl⟩ := ECVRF.proveContract_ok_iff.mp hp
  obtain rfl : (3 : Scalar) = k := Except.ok.inj (nonce_threes.symm.trans hk)
  rw [transported_iff rfl, calculateWitnessAddress_filling]
  decide

end Node
