import Orochimaru.Lib.DlogEquality
import Orochimaru.Lib.Loops
import Orochimaru.Libecvrf.Ecvrf

/-!
# What an output certifies

Prover and verifier run the equality proof of `DlogEquality` for the bases `G` and `H`:
the nonce's multiples are the two points the verifier recomputes, and two answers to the
same points fix `gamma`. The point `H` is a public affine function of `alpha`, so outputs
are affine in one another.
-/

namespace Libecvrf

open Zkmemory DlogEquality Loops

/-! ## One lemma per function -/

theorem infinity_of_isValidVar {a : Affine} (h : a.isValidVar = true) : a.infinity = false := by
  simp only [Affine.isValidVar, Bool.and_eq_true, Bool.not_eq_true'] at h
  exact h.1

theorem addGe_ok_iff {a : Point} {b : Affine} {r : Point} :
    addGe a b = .ok r ↔ b.infinity = false ∧ r = a + b.toJacobian := by
  unfold addGe
  split
  case isTrue h => simp [h]
  case isFalse h => simp [h, eq_comm]

namespace ECVRF

variable {keccak : List Byte → Bytes 32} {e : ECVRF} {alpha : Scalar}

/-- The point hashed to is a known multiple of the generator plus the public key. -/
theorem hashToCurve_publicKey (e : ECVRF) (alpha : Scalar) :
    hashToCurve alpha (some e.publicKey) =
      .ok (Affine.fromJacobian ((alpha + e.secretKey) • generator)) := by
  have hfin := infinity_of_isValidVar e.isValidVar_publicKey
  rw [hashToCurve]
  simp only [addGe, hfin, Bool.false_eq_true, if_false, ok_bind, toJacobian_publicKey]
  rw [add_smul]

/-- The key `1` and the input `0` hash to the generator. -/
theorem hashToCurve_one :
    hashToCurve 0 (some (new ⟨1, one_ne_zero⟩).publicKey) = .ok affineG := by
  have hone : (0 + (new ⟨1, one_ne_zero⟩).secretKey.val) • generator = generator := by
    change ((0 : Scalar) + 1) • generator = generator
    rw [zero_add, one_smul]
  rw [hashToCurve_publicKey, hone, affineG]

theorem isValidVar_affineG : affineG.isValidVar = true :=
  Affine.isValidVar_fromJacobian.mpr generator_ne_zero

theorem infinity_ecmult_affineG {s : Scalar} (hs : s ≠ 0) :
    (ecmult affineG s).infinity = false := by
  rw [← Bool.not_eq_true, ecmult_eq, Affine.infinity_fromJacobian, affineG_toJacobian]
  exact smul_ne_zero hs generator_ne_zero

theorem prove_of_nonce (keccak : List Byte → Bytes 32) {draws : Nat → Bytes 32} {h : Affine} {k : Scalar}
    (hh : hashToCurve alpha (some e.publicKey) = .ok h) (hk : nonce draws 0 = .ok k) :
    let gamma := ecmult h e.secretKey
    let c := hashPoints keccak affineG h e.publicKey gamma (ecmultGen k) (ecmult h k)
    e.prove keccak alpha draws = .ok ⟨gamma, c, response k c e.secretKey,
      Scalar.fromBytes (gamma.keccak256 keccak), e.publicKey⟩ := by
  intro gamma c
  have hs : response k c e.secretKey = k + -c * e.secretKey := by
    rw [response, neg_mul, sub_eq_add_neg]
  rw [hs, prove, hh]
  simp only [Except.mapError, ok_bind, hk]
  rfl

/-- A proof is made from a nonce and the point hashed to. -/
theorem of_prove {draws : Nat → Bytes 32} {proof : ECVRFProof}
    (h : e.prove keccak alpha draws = .ok proof) :
    ∃ k, nonce draws 0 = .ok k := by
  rw [prove, hashToCurve_publicKey] at h
  simp only [Except.mapError, ok_bind] at h
  obtain ⟨k, hk, -⟩ := bind_ok_iff.mp h
  exact ⟨k, hk⟩

theorem gamma_of_prove {draws : Nat → Bytes 32} {proof : ECVRFProof}
    (h : e.prove keccak alpha draws = .ok proof) :
    proof.gamma.toJacobian = e.secretKey.val • (alpha + e.secretKey) • generator := by
  obtain ⟨k, hk⟩ := of_prove h
  rw [prove_of_nonce _ (hashToCurve_publicKey e alpha) hk, Except.ok.injEq] at h
  rw [← h, toJacobian_ecmult, Affine.toJacobian_fromJacobian]

/-- The recomputed points are the commitments of the equality proof. -/
theorem verifyPoints_ok_iff {gamma h : Affine} {c s : Scalar} {u v : Point} :
    e.verifyPoints alpha gamma c s = .ok (h, u, v) ↔
      gamma.isValidVar = true ∧ hashToCurve alpha (some e.publicKey) = .ok h ∧
        (ecmult h s).infinity = false ∧
        (u, v) = commitments generator h.toJacobian (e.secretKey.val • generator)
          gamma.toJacobian c s := by
  have hpk := e.isValidVar_publicKey
  by_cases hg : gamma.isValidVar = true
  case neg =>
    rw [verifyPoints, if_neg (not_not.mpr hpk), if_pos hg]
    exact ⟨fun h0 => (nomatch h0), fun h0 => absurd h0.1 hg⟩
  rw [verifyPoints, if_neg (not_not.mpr hpk), if_neg (not_not.mpr hg), hashToCurve_publicKey]
  simp only [ok_bind, hg, true_and, Except.ok.injEq]
  rw [bind_ok_iff]
  simp only [addGe_ok_iff, toJacobian_ecmult, toJacobian_publicKey, commitments, ecmultContext]
  constructor
  · rintro ⟨v', ⟨hfin, rfl⟩, heq⟩
    obtain ⟨rfl, rfl, rfl⟩ := Except.ok.inj heq
    exact ⟨rfl, hfin, rfl⟩
  · rintro ⟨rfl, hfin, heq⟩
    obtain ⟨rfl, rfl⟩ := Prod.mk.inj heq
    exact ⟨_, ⟨hfin, rfl⟩, rfl⟩

theorem verify_ok_iff {p : ECVRFProof} {b : Bool} :
    e.verify keccak alpha p = .ok b ↔
      ∃ h u v, e.verifyPoints alpha p.gamma p.c p.s = .ok (h, u, v) ∧
        b = (decide (hashPoints keccak affineG h e.publicKey p.gamma
            (Affine.fromJacobian u) (Affine.fromJacobian v) = p.c) &&
          decide (Scalar.fromBytes (p.gamma.keccak256 keccak) = p.y)) := by
  rw [verify, bind_ok_iff]
  constructor
  · rintro ⟨⟨h, u, v⟩, hp, hb⟩
    exact ⟨h, u, v, hp, (Except.ok.inj hb).symm⟩
  · rintro ⟨h, u, v, hp, rfl⟩
    exact ⟨(h, u, v), hp, rfl⟩

/-! ## The decision -/

/-- The verifier stops at its assertion for a `gamma` off the curve. Otherwise, where the second
point it adds is finite, it decides the two equations. -/
theorem verify_decides (keccak : List Byte → Bytes 32) (e : ECVRF) (alpha : Scalar)
    (p : ECVRFProof) :
    (p.gamma.isValidVar = false → e.verify keccak alpha p = .error .assertionFailed) ∧
      ∃ h, hashToCurve alpha (some e.publicKey) = .ok h ∧
        (p.gamma.isValidVar = true → (ecmult h p.s).infinity = false →
          ∃ b, e.verify keccak alpha p = .ok b ∧ (b = true ↔
            p.c = hashPoints keccak affineG h e.publicKey p.gamma
              (Affine.fromJacobian (p.c • e.publicKey.toJacobian + p.s • generator))
              (Affine.fromJacobian (p.c • p.gamma.toJacobian + p.s • h.toJacobian)) ∧
            p.y = Scalar.fromBytes (p.gamma.keccak256 keccak))) := by
  refine ⟨fun hoff => ?_, _, hashToCurve_publicKey e alpha, fun hon hfin => ?_⟩
  · have hpk := e.isValidVar_publicKey
    have hgamma : ¬ p.gamma.isValidVar = true := by simp [hoff]
    rw [verify, verifyPoints, if_neg (not_not.mpr hpk), if_pos hgamma]
    rfl
  · refine ⟨_, verify_ok_iff.mpr ⟨_, _, _, verifyPoints_ok_iff.mpr
      ⟨hon, hashToCurve_publicKey e alpha, hfin, rfl⟩, rfl⟩, ?_⟩
    rw [Bool.and_eq_true, decide_eq_true_eq, decide_eq_true_eq, toJacobian_publicKey]
    exact and_congr eq_comm eq_comm

theorem verify_decides_one :
    ∃ b, (new ⟨1, one_ne_zero⟩).verify (fun _ => 0) 0
      ⟨affineG, 0, 1, 0, (new ⟨1, one_ne_zero⟩).publicKey⟩ = .ok b := by
  obtain ⟨-, h, hh, hdec⟩ := verify_decides (fun _ => 0) (new ⟨1, one_ne_zero⟩) 0
    ⟨affineG, 0, 1, 0, (new ⟨1, one_ne_zero⟩).publicKey⟩
  obtain rfl : affineG = h := Except.ok.inj (hashToCurve_one.symm.trans hh)
  obtain ⟨b, hb, -⟩ := hdec isValidVar_affineG (infinity_ecmult_affineG one_ne_zero)
  exact ⟨b, hb⟩

/-- The pair `(0, 0)` is no point of the curve. -/
theorem verify_panics_zero :
    ¬ ∀ (keccak : List Byte → Bytes 32) (e : ECVRF) (alpha : Scalar) (p : ECVRFProof),
      ∃ b, e.verify keccak alpha p = .ok b := by
  intro h
  let e := new ⟨1, one_ne_zero⟩
  obtain ⟨b, hb⟩ := h (fun _ => 0) e 0 ⟨⟨0, 0, false⟩, 0, 0, 0, e.publicKey⟩
  obtain ⟨_, _, _, hpoints, -⟩ := verify_ok_iff.mp hb
  exact absurd (verifyPoints_ok_iff.mp hpoints).1 (by decide)

/-! ## Completeness -/

/-- The verifier accepts what the prover returns, for every key, input and nonce, where the
points it adds are finite. -/
theorem verify_prove (keccak : List Byte → Bytes 32) (e : ECVRF) (alpha : Scalar)
    (draws : Nat → Bytes 32) (k : Scalar) (hk : nonce draws 0 = .ok k) :
    ∃ h proof, hashToCurve alpha (some e.publicKey) = .ok h ∧
      e.prove keccak alpha draws = .ok proof ∧
      (proof.gamma.infinity = false → (ecmult h proof.s).infinity = false →
        e.verify keccak alpha proof = .ok true) := by
  obtain ⟨h, hh⟩ : ∃ h, hashToCurve alpha (some e.publicKey) = .ok h :=
    ⟨_, hashToCurve_publicKey e alpha⟩
  refine ⟨h, _, hh, prove_of_nonce _ hh hk, fun hgamma hfin => ?_⟩
  rw [verify_ok_iff]
  refine ⟨_, _, _, verifyPoints_ok_iff.mpr ⟨isValidVar_ecmult hgamma, hh, hfin, rfl⟩, ?_⟩
  have hpoints := commitments_response generator h.toJacobian e.secretKey.val k
  simp only [commitments, Prod.mk.injEq] at hpoints
  simp only [toJacobian_ecmult, hpoints, ← ecmult_eq, decide_true, Bool.and_true]
  exact (decide_eq_true rfl).symm

/-- The key `1`, the input `0` and the nonce `5`, under a hash that is always `3`. -/
theorem verify_prove_one :
    let keccak : List Byte → Bytes 32 := fun _ => (Uint.ofNat (3 : Scalar).val : Uint 32).toBeBytes
    let draws : Nat → Bytes 32 := fun _ => (Uint.ofNat (5 : Scalar).val : Uint 32).toBeBytes
    let e := new ⟨1, one_ne_zero⟩
    ∃ proof, e.prove keccak 0 draws = .ok proof ∧ proof.c = 3 ∧
      e.verify keccak 0 proof = .ok true := by
  intro keccak draws e
  have hdraw : Scalar.randomize (draws 0) = 5 := Scalar.fromBytes_toBeBytes 5
  have hk : nonce draws 0 = .ok 5 := by
    rw [nonce_of_ne_zero (hdraw ▸ by decide), hdraw]
  obtain ⟨h, proof, hh, hprove, haccept⟩ := verify_prove keccak e 0 draws 5 hk
  have hthree : ∀ g h pk gamma kg kh, hashPoints keccak g h pk gamma kg kh = 3 :=
    fun _ _ _ _ _ _ => Scalar.fromBytes_toBeBytes 3
  have hG : h = affineG := Except.ok.inj (hh.symm.trans hashToCurve_one)
  have hproof := hprove.symm.trans (prove_of_nonce keccak hh hk)
  rw [Except.ok.injEq] at hproof
  refine ⟨proof, hprove, by rw [hproof, hthree], haccept ?_ ?_⟩
  · rw [hproof, hG]
    exact infinity_ecmult_affineG one_ne_zero
  · have hs : proof.s = 2 := by
      rw [hproof, hthree]
      change response 5 3 (1 : Scalar) = 2
      rw [response]
      norm_num
    rw [hs, hG]
    exact infinity_ecmult_affineG (by decide)

/-! ## Uniqueness -/

/-- Two different challenges with the same recomputed points: `gamma` is the point hashed
to under the secret key, and an accepted output is its hash. -/
theorem gamma_of_verifyPoints_eq {gamma h h' : Affine} {c s c' s' : Scalar} {u v : Point}
    (hc : c ≠ c') (hp : e.verifyPoints alpha gamma c s = .ok (h, u, v))
    (hp' : e.verifyPoints alpha gamma c' s' = .ok (h', u, v)) :
    hashToCurve alpha (some e.publicKey) = .ok h ∧ gamma = ecmult h e.secretKey ∧
      ∀ keccak y pk, e.verify keccak alpha ⟨gamma, c, s, y, pk⟩ = .ok true →
        y = Scalar.fromBytes ((ecmult h e.secretKey).keccak256 keccak) := by
  obtain ⟨hvalid, hh, -, heq⟩ := verifyPoints_ok_iff.mp hp
  obtain ⟨-, hh', -, heq'⟩ := verifyPoints_ok_iff.mp hp'
  obtain rfl : h = h' := Except.ok.inj (hh.symm.trans hh')
  have hdlog := eq_smul_of_commitments_eq generator_ne_zero hc (heq.symm.trans heq')
  have hgamma : gamma = ecmult h e.secretKey := by
    rw [ecmult_eq, ← hdlog, Affine.fromJacobian_toJacobian hvalid]
  refine ⟨hh, hgamma, fun keccak y pk hv => ?_⟩
  obtain ⟨_, _, _, _, hb⟩ := verify_ok_iff.mp hv
  rw [eq_comm, Bool.and_eq_true, decide_eq_true_eq, decide_eq_true_eq] at hb
  rw [← hgamma]
  exact hb.2.symm

/-- The answers `1` to `0` and `-1` to `2`, for the key `1` and the input `0`. -/
theorem gamma_of_verifyPoints_eq_one :
    let e := new ⟨1, one_ne_zero⟩
    hashToCurve 0 (some e.publicKey) = .ok affineG ∧ affineG = ecmult affineG 1 ∧
      ∀ keccak y pk, e.verify keccak 0 ⟨affineG, 0, 1, y, pk⟩ = .ok true →
        y = Scalar.fromBytes ((ecmult affineG 1).keccak256 keccak) := by
  intro e
  have hc : (0 : Scalar) ≠ 2 := by decide
  refine gamma_of_verifyPoints_eq (e := e) (u := generator) (v := generator) hc
    (verifyPoints_ok_iff.mpr
      ⟨isValidVar_affineG, hashToCurve_one, infinity_ecmult_affineG one_ne_zero, ?_⟩)
    (verifyPoints_ok_iff.mpr ⟨isValidVar_affineG, hashToCurve_one,
      infinity_ecmult_affineG (neg_ne_zero.mpr one_ne_zero), ?_⟩)
  · rw [commitments, affineG_toJacobian]
    change _ = ((0 : Scalar) • (1 : Scalar) • generator + _, _)
    refine Prod.ext ?_ ?_
    · module
    · module
  · rw [commitments, affineG_toJacobian]
    change _ = ((2 : Scalar) • (1 : Scalar) • generator + _, _)
    refine Prod.ext ?_ ?_
    · module
    · module

/-! ## One output determines another -/

/-- One key hashes an input to the point at infinity, its negative. -/
theorem infinity_hashToCurve {h : Affine} (hh : hashToCurve alpha (some e.publicKey) = .ok h) :
    h.infinity = true ↔ alpha + e.secretKey = 0 := by
  rw [hashToCurve_publicKey, Except.ok.injEq] at hh
  rw [← hh, Affine.infinity_fromJacobian, smul_eq_zero, or_iff_left generator_ne_zero]

/-- `gamma` for `alpha'` is `a` times `gamma` for `alpha` plus `b` times the public key, for
all nonces and every key that hashes both inputs to finite points; the others, `-alpha` and
`-alpha'`, `ecmult` does not take. -/
def GammaDetermined (keccak : List Byte → Bytes 32) (alpha alpha' a b : Scalar) : Prop :=
  ∀ (e : ECVRF) (h h' : Affine) (draws draws' : Nat → Bytes 32) (k k' : Scalar),
    hashToCurve alpha (some e.publicKey) = .ok h → h.infinity = false →
    hashToCurve alpha' (some e.publicKey) = .ok h' → h'.infinity = false →
    nonce draws 0 = .ok k → nonce draws' 0 = .ok k' →
    ∃ proof proof', e.prove keccak alpha draws = .ok proof ∧
      e.prove keccak alpha' draws' = .ok proof' ∧
      proof'.gamma.toJacobian = a • proof.gamma.toJacobian + b • e.publicKey.toJacobian

/-- No public coefficients express one output by another. -/
def Independent (keccak : List Byte → Bytes 32) (alpha alpha' : Scalar) : Prop :=
  ¬ ∃ a b, GammaDetermined keccak alpha alpha' a b

theorem gammaDetermined_sub (keccak : List Byte → Bytes 32) (alpha alpha' : Scalar) :
    GammaDetermined keccak alpha alpha' 1 (alpha' - alpha) := by
  intro e h h' draws draws' k k' hh _ hh' _ hk hk'
  have hprove := prove_of_nonce keccak hh hk
  have hprove' := prove_of_nonce keccak hh' hk'
  refine ⟨_, _, hprove, hprove', ?_⟩
  rw [gamma_of_prove hprove, gamma_of_prove hprove', toJacobian_publicKey]
  simp only [← mul_smul, ← add_smul]
  congr 1
  ring

/-- Some key hashes both inputs to finite points: only two do not. -/
theorem exists_finite (alpha alpha' : Scalar) : ∃ (e : ECVRF) (h h' : Affine),
    hashToCurve alpha (some e.publicKey) = .ok h ∧ h.infinity = false ∧
      hashToCurve alpha' (some e.publicKey) = .ok h' ∧ h'.infinity = false := by
  have hcard : ({0, -alpha, -alpha'} : Finset Scalar).card < (Finset.univ : Finset Scalar).card := by
    rw [Finset.card_univ, ZMod.card]
    exact Finset.card_le_three.trans_lt (by decide)
  obtain ⟨sk, -, hsk⟩ := Finset.exists_mem_notMem_of_card_lt_card hcard
  simp only [Finset.mem_insert, Finset.mem_singleton, not_or] at hsk
  obtain ⟨hzero, hne, hne'⟩ := hsk
  have hfinite : ∀ {alpha : Scalar} {h : Affine}, sk ≠ -alpha →
      hashToCurve alpha (some (new ⟨sk, hzero⟩).publicKey) = .ok h → h.infinity = false := by
    intro alpha h hne hh
    rw [← Bool.not_eq_true, infinity_hashToCurve hh]
    exact fun hsum => hne (eq_neg_of_add_eq_zero_right hsum)
  exact ⟨new ⟨sk, hzero⟩, _, _, hashToCurve_publicKey _ alpha,
    hfinite hne (hashToCurve_publicKey _ alpha), hashToCurve_publicKey _ alpha',
    hfinite hne' (hashToCurve_publicKey _ alpha')⟩

/-- The point hashed to carries no hash of `alpha`, so every pair of inputs is linked, and there
are keys to link them for. -/
theorem not_independent (keccak : List Byte → Bytes 32) (alpha alpha' : Scalar) :
    ¬ Independent keccak alpha alpha' ∧ ∃ (e : ECVRF) (h h' : Affine),
      hashToCurve alpha (some e.publicKey) = .ok h ∧ h.infinity = false ∧
        hashToCurve alpha' (some e.publicKey) = .ok h' ∧ h'.infinity = false :=
  ⟨not_not.mpr ⟨1, alpha' - alpha, gammaDetermined_sub keccak alpha alpha'⟩,
    exists_finite alpha alpha'⟩

/-- The output for `1` is the output for `0` plus the public key; the key `7` is one of those
that hash both to finite points. -/
theorem zero_one_dependent :
    (0 : Scalar) ≠ 1 ∧ ¬ Independent (fun _ _ => 0) 0 1 ∧
      ∃ (e : ECVRF) (h h' : Affine), e.secretKey.val = 7 ∧
        hashToCurve 0 (some e.publicKey) = .ok h ∧ h.infinity = false ∧
        hashToCurve 1 (some e.publicKey) = .ok h' ∧ h'.infinity = false := by
  have hdet := gammaDetermined_sub (fun _ _ => 0) 0 1
  refine ⟨zero_ne_one, not_not.mpr ⟨1, 1 - 0, hdet⟩, new ⟨7, by decide⟩, _, _, rfl,
    hashToCurve_publicKey _ 0, ?_, hashToCurve_publicKey _ 1, ?_⟩
  · rw [← Bool.not_eq_true, infinity_hashToCurve (hashToCurve_publicKey _ 0)]
    decide
  · rw [← Bool.not_eq_true, infinity_hashToCurve (hashToCurve_publicKey _ 1)]
    decide

end ECVRF

end Libecvrf
