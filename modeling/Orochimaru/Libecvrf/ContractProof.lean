import Orochimaru.Lib.DlogEquality
import Orochimaru.Lib.Loops
import Orochimaru.Libecvrf.Ecvrf

/-!
# Proofs for the chain

The chain does not multiply points: it checks multiples given to it, adds two of them as
fractions and recomputes the challenge from the address of one point and the coordinates
of another.
-/

namespace Libecvrf

open Zkmemory ShortWeierstrass DlogEquality Loops

section Checks

variable (keccak : List Byte → Bytes 32)

/-- What the chain checks of a proof for the point `h` with the nonce `k`. -/
structure ECVRFContractProof.Accepted (p : ECVRFContractProof) (h : Affine) (k : Scalar) :
    Prop where
  u : ecmultContext p.pk.toJacobian p.c p.s = k • generator
  witnessAddress : p.witnessAddress = Scalar.fromBytes (calculateWitnessAddress keccak
    (Affine.fromJacobian (ecmultContext p.pk.toJacobian p.c p.s)))
  witnessGamma : p.witnessGamma = ecmult p.gamma p.c
  witnessHash : p.witnessHash = ecmult h p.s
  inverse : (projectiveEcAdd p.witnessGamma p.witnessHash).z * p.inverseZ = 1
  sum : (⟨(projectiveEcAdd p.witnessGamma p.witnessHash).x * p.inverseZ,
    (projectiveEcAdd p.witnessGamma p.witnessHash).y * p.inverseZ, false⟩ : Affine) = ecmult h k
  challenge : hashPointsPrefix keccak h p.pk p.gamma
    (calculateWitnessAddress keccak
      (Affine.fromJacobian (ecmultContext p.pk.toJacobian p.c p.s)))
    ⟨(projectiveEcAdd p.witnessGamma p.witnessHash).x * p.inverseZ,
      (projectiveEcAdd p.witnessGamma p.witnessHash).y * p.inverseZ, false⟩ = p.c

end Checks

namespace ECVRF

variable {keccak : List Byte → Bytes 32} {e : ECVRF} {alpha : Scalar} {fuel : Nat}
  {draws : Nat → Bytes 32}

/-- A contract proof is made from a nonce and the point hashed to. -/
theorem proveContract_ok_iff {p : ECVRFContractProof} :
    e.proveContract keccak alpha fuel draws = .ok p ↔
      ∃ h k, hashToCurvePrefix keccak fuel alpha e.publicKey = .ok h ∧ nonce draws 0 = .ok k ∧
        let gamma := ecmult h e.secretKey
        let uWitness := calculateWitnessAddress keccak (ecmultGen k)
        let c := hashPointsPrefix keccak h e.publicKey gamma uWitness (ecmult h k)
        let s := response k c e.secretKey
        p = {
          pk := e.publicKey
          gamma := gamma
          c := c
          s := s
          y := Scalar.fromBytes (gamma.keccak256 keccak)
          alpha := alpha
          witnessAddress := Scalar.fromBytes uWitness
          witnessGamma := ecmult gamma c
          witnessHash := ecmult h s
          inverseZ := (projectiveEcAdd (ecmult gamma c) (ecmult h s)).z⁻¹ } := by
  have hpk := e.isValidVar_publicKey
  have hs : ∀ k c : Scalar, k + -c * e.secretKey = response k c e.secretKey := by
    intro k c
    rw [response, neg_mul, sub_eq_add_neg]
  rw [proveContract, if_neg (not_not.mpr hpk)]
  simp only [hs]
  constructor
  · intro h
    obtain ⟨pt, hpt, h⟩ := bind_ok_iff.mp h
    obtain ⟨k, hk, h⟩ := bind_ok_iff.mp h
    exact ⟨pt, k, mapError_ok_iff.mp hpt, hk, (Except.ok.inj h).symm⟩
  · rintro ⟨h, k, hh, hk, rfl⟩
    rw [hh, hk]
    rfl

theorem proveContract_accepted {p : ECVRFContractProof}
    (hp : e.proveContract keccak alpha fuel draws = .ok p)
    (hgamma : p.witnessGamma.infinity = false) (hhash : p.witnessHash.infinity = false)
    (hx : p.witnessGamma.x ≠ p.witnessHash.x) :
    ∃ h k, hashToCurvePrefix keccak fuel alpha e.publicKey = .ok h ∧ nonce draws 0 = .ok k ∧
      p.pk = e.publicKey ∧ p.gamma = ecmult h e.secretKey ∧ p.Accepted keccak h k := by
  obtain ⟨h, k, hh, hk, rfl⟩ := proveContract_ok_iff.mp hp
  refine ⟨h, k, hh, hk, rfl, rfl, ?_⟩
  dsimp only at hgamma hhash hx
  generalize hc : hashPointsPrefix keccak h e.publicKey (ecmult h e.secretKey)
    (calculateWitnessAddress keccak (ecmultGen k)) (ecmult h k) = c at *
  have hpoints := commitments_response generator h.toJacobian e.secretKey.val k c
  rw [commitments, Prod.mk.injEq] at hpoints
  obtain ⟨hu, hv⟩ := hpoints
  have hu' : ecmultContext e.publicKey.toJacobian c (response k c e.secretKey) = k • generator := by
    rw [ecmultContext, toJacobian_publicKey, hu]
  obtain ⟨hz, hsum⟩ := projectiveEcAdd_sum (isValidVar_ecmult hgamma) (isValidVar_ecmult hhash) hx
  have hsum' := hsum
  rw [toJacobian_ecmult, toJacobian_ecmult, toJacobian_ecmult, hv, ← ecmult_eq] at hsum'
  exact {
    u := hu'
    witnessAddress := by
      dsimp only
      rw [hu']
      rfl
    witnessGamma := rfl
    witnessHash := rfl
    inverse := mul_inv_cancel₀ hz
    sum := hsum'
    challenge := by
      dsimp only
      rw [hu', hsum']
      exact hc }

/-- The first candidate for a hash that gives the first coordinate of the generator. -/
theorem hashToCurvePrefix_generator {keccak : List Byte → Bytes 32}
    (hkeccak : ∀ l : List Byte, l.length = 128 →
      keccak l = (Uint.ofNat (generatorX.val : Scalar).val : Uint 32).toBeBytes)
    (alpha : Scalar) (pk : Affine) : hashToCurvePrefix keccak 1 alpha pk = .ok affineG := by
  have hsq := (nonsingular_iff curve_delta_ne_zero).mp generator_nonsingular
  have hcandidate : ∀ l : List Byte, l.length = 128 →
      newCandidatePoint keccak l = .ok affineG := by
    intro l hl
    have hlt : generatorX.val < groupOrder := by decide
    have hfield : fieldHash keccak l = .ok generatorX := by
      rw [fieldHash_eq, hkeccak l hl, Scalar.fromBytes_toBeBytes, ZMod.val_cast_of_lt hlt,
        ZMod.natCast_zmod_val]
    refine newCandidatePoint_of_sq keccak hfield ?_ (by decide) (by decide)
    rw [hsq, ySquared]
    ring
  have hcurve : isOnCurve affineG = true := by
    rw [isOnCurve, decide_eq_true_eq, ySquared]
    change generatorX * generatorX * generatorX + 7 = generatorY * generatorY
    linear_combination -hsq
  rw [hashToCurvePrefix, hcandidate _ (by simp [Affine.b32, Field.b32, Scalar.b32]), ok_bind,
    hashToCurveLoop, if_pos hcurve]

/-- A hash that sends every input to the generator and gives every challenge as `1`: the
key `1` with the nonce `3`. -/
theorem proveContract_accepted_one :
    let keccak : List Byte → Bytes 32 := fun l =>
      (Uint.ofNat (if l.length = 128 then (generatorX.val : Scalar) else 1).val : Uint 32).toBeBytes
    let draws : Nat → Bytes 32 := fun _ => (Uint.ofNat (3 : Scalar).val : Uint 32).toBeBytes
    let e := new ⟨1, one_ne_zero⟩
    ∃ p h k, e.proveContract keccak 0 1 draws = .ok p ∧ p.Accepted keccak h k := by
  intro keccak draws e
  have hthree : (3 : Scalar) ≠ 0 := by decide
  have htwo : (2 : Scalar) ≠ 0 := by decide
  have hdraw : Scalar.randomize (draws 0) = 3 := Scalar.fromBytes_toBeBytes 3
  have hk : nonce draws 0 = .ok 3 := by
    rw [nonce_of_ne_zero (hdraw ▸ hthree), hdraw]
  have hpoint : hashToCurvePrefix keccak 1 0 e.publicKey = .ok affineG :=
    hashToCurvePrefix_generator (fun l hl => by simp only [keccak, if_pos hl]) _ _
  have hchallenge : ∀ h pk gamma w v, hashPointsPrefix keccak h pk gamma w v = 1 := by
    intro h pk gamma w v
    rw [hashPointsPrefix, Scalar.fromBytes_toBeBytes, if_neg]
    simp only [Affine.b32, Field.b32, Scalar.b32, List.flatMap_cons, List.flatMap_nil,
      List.length_append, List.length_ofFn, List.length_nil]
    decide
  have hp := proveContract_ok_iff.mpr ⟨affineG, 3, hpoint, hk, rfl⟩
  simp only [hchallenge] at hp
  have hgamma : ecmult (ecmult affineG e.secretKey) 1 = Affine.fromJacobian generator := by
    change ecmult (ecmult affineG (1 : Scalar)) 1 = _
    rw [ecmult_eq, toJacobian_ecmult, one_smul, one_smul, affineG_toJacobian]
  have hhash : ecmult affineG (response 3 1 e.secretKey) =
      Affine.fromJacobian ((2 : Scalar) • generator) := by
    have hresponse : response 3 1 (1 : Scalar) = 2 := by decide
    change ecmult affineG (response 3 1 (1 : Scalar)) = _
    rw [hresponse, ecmult_eq, affineG_toJacobian]
  obtain ⟨h, k, -, -, -, -, haccept⟩ := proveContract_accepted hp
    (by rw [hgamma, ← Bool.not_eq_true, Affine.infinity_fromJacobian]; exact generator_ne_zero)
    (by rw [hhash, ← Bool.not_eq_true, Affine.infinity_fromJacobian];
        exact smul_ne_zero htwo generator_ne_zero)
    (by
      rw [hgamma, hhash]
      intro hx
      rcases eq_or_eq_neg_of_x_eq generator_ne_zero (smul_ne_zero htwo generator_ne_zero) hx
        with h | h
      · apply generator_ne_zero
        calc generator = (2 : Scalar) • generator - generator := by module
          _ = 0 := sub_eq_zero.mpr h.symm
      · apply smul_ne_zero hthree generator_ne_zero
        calc (3 : Scalar) • generator = generator + (2 : Scalar) • generator := by module
          _ = 0 := add_eq_zero_iff_eq_neg.mpr h)
  exact ⟨_, h, k, hp, haccept⟩

end ECVRF

end Libecvrf
