import Orochimaru.Libecvrf.Helper

/-!
# The verifiable random function

A secret key with its public key proves outputs for scalars `alpha`: `prove` for the
verifier of this library, `prove_contract` for a verifier on chain. The nonce comes from
the operating system; its draws are an argument.
-/

namespace Libecvrf

open Zkmemory

def maxRetries : Nat := 100

/-- Why no proof is returned. -/
inductive Failure
  | retriesExceeded
  | panic (p : Panic)

/-- `Scalar::randomize`, on the bytes it draws. -/
def Scalar.randomize (buf : Bytes 32) : Scalar := Scalar.fromBytes buf

/-- The draws from the `retries`-th on, up to the first that can be a nonce. -/
def nonce (draws : Nat → Bytes 32) (retries : Nat) : Except Failure Scalar :=
  let k := Scalar.randomize (draws retries)
  if groupOrder ≤ k.val ∨ k = 0 then
    if maxRetries < retries then .error .retriesExceeded else nonce draws (retries + 1)
  else .ok k
termination_by maxRetries + 1 - retries

/-- A draw is below the order, so one that is not zero is taken. -/
theorem nonce_of_ne_zero {draws : Nat → Bytes 32} {retries : Nat}
    (h : Scalar.randomize (draws retries) ≠ 0) :
    nonce draws retries = .ok (Scalar.randomize (draws retries)) := by
  rw [nonce, if_neg]
  rintro (hle | h0)
  · exact absurd (ZMod.val_lt _) hle.not_gt
  · exact h h0

abbrev SecretKey := { sk : Scalar // sk ≠ 0 }

/-- `AFFINE_G` -/
def affineG : Affine := Affine.fromJacobian generator

theorem affineG_toJacobian : affineG.toJacobian = generator := Affine.toJacobian_fromJacobian _

/-- The fields are private and set by `new` alone. -/
structure ECVRF where
  secretKey : SecretKey
  publicKey : Affine
  publicKey_eq : publicKey = ecmultGen secretKey

structure ECVRFProof where
  gamma : Affine
  c : Scalar
  s : Scalar
  y : Scalar
  pk : Affine

structure ECVRFContractProof where
  pk : Affine
  gamma : Affine
  c : Scalar
  s : Scalar
  y : Scalar
  alpha : Scalar
  witnessAddress : Scalar
  witnessGamma : Affine
  witnessHash : Affine
  inverseZ : Field

namespace ECVRF

def new (secretKey : SecretKey) : ECVRF := ⟨secretKey, ecmultGen secretKey, rfl⟩

theorem toJacobian_publicKey (e : ECVRF) :
    e.publicKey.toJacobian = e.secretKey.val • generator := by
  rw [e.publicKey_eq, toJacobian_ecmultGen]

theorem isValidVar_publicKey (e : ECVRF) : e.publicKey.isValidVar = true := by
  rw [e.publicKey_eq]
  exact isValidVar_ecmultGen e.secretKey.property

section Proofs

variable (keccak : List Byte → Bytes 32) (e : ECVRF) (alpha : Scalar)

def proveContract (fuel : Nat) (draws : Nat → Bytes 32) :
    Except Failure ECVRFContractProof := do
  if ¬ e.publicKey.isValidVar then throw (.panic .assertionFailed)
  let h ← (hashToCurvePrefix keccak fuel alpha e.publicKey).mapError .panic
  let gamma := ecmult h e.secretKey
  let k ← nonce draws 0
  let kg := ecmultGen k
  let uWitness := calculateWitnessAddress keccak kg
  let kh := ecmult h k
  let c := hashPointsPrefix keccak h e.publicKey gamma uWitness kh
  let negC := -c
  let s := k + negC * e.secretKey
  let witnessGamma := ecmult gamma c
  let witnessHash := ecmult h s
  let v := projectiveEcAdd witnessGamma witnessHash
  let inverseZ := v.z⁻¹
  return {
    pk := e.publicKey
    gamma := gamma
    c := c
    s := s
    y := Scalar.fromBytes (gamma.keccak256 keccak)
    alpha := alpha
    witnessAddress := Scalar.fromBytes uWitness
    witnessGamma := witnessGamma
    witnessHash := witnessHash
    inverseZ := inverseZ }

def prove (draws : Nat → Bytes 32) : Except Failure ECVRFProof := do
  let h ← (hashToCurve alpha (some e.publicKey)).mapError .panic
  let gamma := ecmult h e.secretKey
  let k ← nonce draws 0
  let kg := ecmultGen k
  let kh := ecmult h k
  let c := hashPoints keccak affineG h e.publicKey gamma kg kh
  let negC := -c
  let s := k + negC * e.secretKey
  let y := Scalar.fromBytes (gamma.keccak256 keccak)
  return ⟨gamma, c, s, y, e.publicKey⟩

/-- The part of `verify` before the hashes: the point hashed to, and the two points the
challenge is recomputed from. -/
def verifyPoints (gamma : Affine) (c s : Scalar) : Except Panic (Affine × Point × Point) := do
  if ¬ e.publicKey.isValidVar then throw .assertionFailed
  if ¬ gamma.isValidVar then throw .assertionFailed
  let h ← hashToCurve alpha (some e.publicKey)
  let u := ecmultContext e.publicKey.toJacobian c s
  let witnessGamma := ecmult gamma c
  let witnessHash := ecmult h s
  let v ← addGe witnessGamma.toJacobian witnessHash
  return (h, u, v)

def verify (vrfProof : ECVRFProof) : Except Panic Bool := do
  let (h, u, v) ← e.verifyPoints alpha vrfProof.gamma vrfProof.c vrfProof.s
  let computedC := hashPoints keccak affineG h e.publicKey vrfProof.gamma
    (Affine.fromJacobian u) (Affine.fromJacobian v)
  let computedY := Scalar.fromBytes (vrfProof.gamma.keccak256 keccak)
  return computedC = vrfProof.c && computedY = vrfProof.y

end Proofs

end ECVRF

end Libecvrf
