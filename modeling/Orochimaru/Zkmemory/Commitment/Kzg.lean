import Orochimaru.Zkmemory.Commitment.Bn256
import Orochimaru.Zkmemory.Machine

/-!
# Trace records as polynomials

The KZG commitment of a trace record commits to the polynomial of degree below eight
through its fields. The interpolation is a parameter, exact on distinct points. The address
and the value enter the field by a conversion that fails from the modulus on.
-/

namespace Zkmemory.Commitment

open Loops Constraints

/-- Horner's rule, the constant coefficient first. -/
def evalPolynomial (poly : List Fr) (point : Fr) : Fr :=
  poly.foldr (fun c acc => acc * point + c) 0

/-- The domain has `2 ^ k` points. -/
structure KZGMemoryCommitment where
  k : Nat

namespace KZGMemoryCommitment

/-- `OMEGA_POWER` -/
def omegaPower : List Fr := [0x01, 0x07, 0x31, 0x0157, 0x0961, 0x041a7, 0x01cb91, 0x0c90f7]

def default : KZGMemoryCommitment := ⟨3⟩

/-- The three last elements are zero. -/
def traceToField {S T : Nat} (trace : TraceRecord S T) : Except Panic (List Fr) := do
  match trace.instruction with
  | .read => .ok [(trace.timeLog.val : Fr), (trace.stackDepth.val : Fr), 0,
      ← frFromWord trace.address, ← frFromWord trace.value, 0, 0, 0]
  | .write => .ok [(trace.timeLog.val : Fr), (trace.stackDepth.val : Fr), 1,
      ← frFromWord trace.address, ← frFromWord trace.value, 0, 0, 0]

/-- `coeff_from_vec` asserts the length. -/
def coeffFromVec (kzg : KZGMemoryCommitment) (values : List Fr) : Except Panic (List Fr) :=
  if values.length = 2 ^ kzg.k then .ok values else .error .assertionFailed

section

variable (lagrangeInterpolate : List Fr → List Fr → List Fr)

def polyFromEvals (kzg : KZGMemoryCommitment) (evals : List Fr) : Except Panic (List Fr) :=
  kzg.coeffFromVec (lagrangeInterpolate omegaPower evals)

def polyFromTrace {S T : Nat} (kzg : KZGMemoryCommitment) (trace : TraceRecord S T) :
    Except Panic (List Fr) := do
  kzg.polyFromEvals lagrangeInterpolate (← traceToField trace)

end

/-! ## The fields of a record -/

/-- The record as field elements, where they stand for its words. -/
def fields {S T : Nat} (trace : TraceRecord S T) : List Fr :=
  [(trace.timeLog.val : Fr), (trace.stackDepth.val : Fr),
    if trace.instruction = .write then 1 else 0, (trace.address.val : Fr), (trace.value.val : Fr),
    0, 0, 0]

/-- The words of a record that the field can hold. -/
def Reduced {S T : Nat} (trace : TraceRecord S T) : Prop :=
  trace.address.val < frModulus ∧ trace.value.val < frModulus

section Fields

variable {S T : Nat} {trace trace' : TraceRecord S T}

theorem traceToField_ok_iff (hS : S ≤ 32) (hT : T ≤ 32) {evals : List Fr} :
    traceToField trace = .ok evals ↔ Reduced trace ∧ fields trace = evals := by
  have hword : ∀ {n : Nat} (x : Uint n) (y : Fr), n ≤ 32 →
      (frFromWord x = .ok y ↔ x.val < frModulus ∧ (x.val : Fr) = y) := by
    intro n x y hn
    rw [frFromWord_eq hn]
    split <;> simp [*]
  cases hi : trace.instruction <;>
    simp only [traceToField, hi, bind_ok_iff, hword _ _ hS, hword _ _ hT, Except.ok.injEq, fields,
      Reduced, reduceCtorEq, ↓reduceIte]
  all_goals
    constructor
    · rintro ⟨_, ⟨ha, rfl⟩, _, ⟨hv, rfl⟩, rfl⟩
      exact ⟨⟨ha, hv⟩, rfl⟩
    · rintro ⟨⟨ha, hv⟩, rfl⟩
      exact ⟨_, ⟨ha, rfl⟩, _, ⟨hv, rfl⟩, rfl⟩

theorem natCast_inj_of_lt {a b : Nat} (ha : a < frModulus) (hb : b < frModulus)
    (h : (a : Fr) = (b : Fr)) : a = b := by
  rwa [ZMod.natCast_eq_natCast_iff', Nat.mod_eq_of_lt ha, Nat.mod_eq_of_lt hb] at h

/-- Reduced records are told apart by their fields. -/
theorem fields_inj (h : Reduced trace) (h' : Reduced trace')
    (heq : fields trace = fields trace') : trace = trace' := by
  have hu64 : ∀ x : U64, x.val < frModulus := fun x => x.isLt.trans (by norm_num [frModulus])
  obtain ⟨t, d, i, a, v⟩ := trace
  obtain ⟨t', d', i', a', v'⟩ := trace'
  simp only [fields, List.cons.injEq, and_true] at heq
  obtain ⟨ht, hd, hi, ha, hv⟩ := heq
  obtain rfl : t = t' := Uint.ext (natCast_inj_of_lt (hu64 t) (hu64 t') ht)
  obtain rfl : d = d' := Uint.ext (natCast_inj_of_lt (hu64 d) (hu64 d') hd)
  obtain rfl : a = a' := Uint.ext (natCast_inj_of_lt h.1 h'.1 ha)
  obtain rfl : v = v' := Uint.ext (natCast_inj_of_lt h.2 h'.2 hv)
  cases i <;> cases i' <;> simp_all

end Fields

/-! ## Polynomials of records -/

/-- Interpolation gives as many coefficients as points, and the values at the points. -/
structure Exact (lagrangeInterpolate : List Fr → List Fr → List Fr) : Prop where
  length : ∀ points evals : List Fr, points.Nodup → points.length = evals.length →
    (lagrangeInterpolate points evals).length = points.length
  eval : ∀ points evals : List Fr, points.Nodup → points.length = evals.length →
    points.map (evalPolynomial (lagrangeInterpolate points evals)) = evals

theorem omegaPower_nodup : omegaPower.Nodup := by
  decide +kernel

section Polynomials

variable {lagrangeInterpolate : List Fr → List Fr → List Fr} {S T : Nat}
  {trace : TraceRecord S T}

theorem polyFromTrace_ok_iff (h : Exact lagrangeInterpolate) (hS : S ≤ 32) (hT : T ≤ 32)
    {poly : List Fr} : default.polyFromTrace lagrangeInterpolate trace = .ok poly ↔
      Reduced trace ∧ lagrangeInterpolate omegaPower (fields trace) = poly := by
  have hlen : (lagrangeInterpolate omegaPower (fields trace)).length = 2 ^ default.k :=
    h.length _ _ omegaPower_nodup rfl
  simp only [polyFromTrace, bind_ok_iff, traceToField_ok_iff hS hT]
  constructor
  · rintro ⟨_, ⟨hred, rfl⟩, hpoly⟩
    rw [polyFromEvals, coeffFromVec, if_pos hlen] at hpoly
    exact ⟨hred, Except.ok.inj hpoly⟩
  · rintro ⟨hred, rfl⟩
    exact ⟨_, ⟨hred, rfl⟩, by rw [polyFromEvals, coeffFromVec, if_pos hlen]⟩

/-- A record of full words has field elements and a polynomial, shared by no other record,
exactly when its address and its value are below the modulus. -/
theorem polyFromTrace_total_binding_iff (h : Exact lagrangeInterpolate)
    (trace : TraceRecord 32 32) :
    (∃ evals poly, traceToField trace = .ok evals ∧
      default.polyFromTrace lagrangeInterpolate trace = .ok poly ∧
      ∀ trace' : TraceRecord 32 32,
        default.polyFromTrace lagrangeInterpolate trace' = .ok poly → trace' = trace) ↔
      trace.address.val < frModulus ∧ trace.value.val < frModulus := by
  constructor
  · rintro ⟨evals, poly, hevals, -⟩
    exact ((traceToField_ok_iff le_rfl le_rfl).mp hevals).1
  · intro hred
    refine ⟨_, _, (traceToField_ok_iff le_rfl le_rfl).mpr ⟨hred, rfl⟩,
      (polyFromTrace_ok_iff h le_rfl le_rfl).mpr ⟨hred, rfl⟩, fun trace' hpoly => ?_⟩
    obtain ⟨hred', heq⟩ := (polyFromTrace_ok_iff h le_rfl le_rfl).mp hpoly
    have hvalues := congrArg (fun poly => omegaPower.map (evalPolynomial poly)) heq
    rw [h.eval omegaPower (fields trace') omegaPower_nodup rfl,
      h.eval omegaPower (fields trace) omegaPower_nodup rfl] at hvalues
    exact fields_inj hred' hred hvalues

/-- Storing the largest word. -/
theorem traceToField_allOnes :
    traceToField (⟨.zero, .zero, .write, .zero, ⟨256 ^ 32 - 1, by norm_num⟩⟩ : TraceRecord 32 32) =
      .error .expectNone := by
  have haddress : frFromWord (Uint.zero : B256) = .ok 0 := by
    rw [frFromWord_eq le_rfl, if_pos (by norm_num [frModulus])]
    rfl
  have hvalue : frFromWord (⟨256 ^ 32 - 1, by norm_num⟩ : B256) = .error .expectNone := by
    rw [frFromWord_eq le_rfl, if_neg (by norm_num [frModulus])]
  simp only [traceToField, haddress, hvalue, ok_bind, error_bind]

end Polynomials

/-! ## An exact interpolation -/

theorem evalPolynomial_append (l : List Fr) (c x : Fr) :
    evalPolynomial (l ++ [c]) x = evalPolynomial l x + c * x ^ l.length := by
  induction l with
  | nil => simp [evalPolynomial]
  | cons a l ih =>
    have hcons : ∀ m, evalPolynomial (a :: m) x = evalPolynomial m x * x + a := fun _ => rfl
    rw [List.cons_append, hcons, hcons, ih, List.length_cons, pow_succ]
    ring

theorem evalPolynomial_range (c : Nat → Fr) (n : Nat) (x : Fr) :
    evalPolynomial ((List.range n).map c) x = ∑ i ∈ Finset.range n, c i * x ^ i := by
  induction n with
  | zero => rfl
  | succ n ih =>
    rw [List.range_succ, List.map_append, List.map_singleton, evalPolynomial_append, ih,
      List.length_map, List.length_range, Finset.sum_range_succ]

/-- The Lagrange polynomial with `evals` at `points`. -/
noncomputable def lagrangePolynomial (points evals : List Fr) : Polynomial Fr :=
  Lagrange.interpolate Finset.univ points.get fun i => evals.getD i.val 0

noncomputable def lagrangeCoefficients (points evals : List Fr) : List Fr :=
  (List.range points.length).map (lagrangePolynomial points evals).coeff

theorem lagrangeCoefficients_exact : Exact lagrangeCoefficients where
  length points evals _ _ := by simp [lagrangeCoefficients]
  eval points evals hnodup hlen := by
    have hinj : Set.InjOn points.get (Finset.univ : Finset (Fin points.length)) :=
      (List.nodup_iff_injective_get.mp hnodup).injOn
    apply List.ext_getElem (by rw [List.length_map, hlen])
    intro i hi hi'
    have hi : i < points.length := by simpa using hi
    have hnatDegree : (lagrangePolynomial points evals).natDegree < points.length := by
      by_cases hzero : lagrangePolynomial points evals = 0
      · rw [hzero, Polynomial.natDegree_zero]
        omega
      · have hdegree : (lagrangePolynomial points evals).degree < _ :=
          Lagrange.degree_interpolate_lt _ hinj
        rw [Finset.card_univ, Fintype.card_fin] at hdegree
        exact (Polynomial.natDegree_lt_iff_degree_lt hzero).mpr hdegree
    have heval : (lagrangePolynomial points evals).eval points[i] = evals.getD i 0 :=
      Lagrange.eval_interpolate_at_node _ hinj (Finset.mem_univ (⟨i, hi⟩ : Fin points.length))
    rw [List.getElem_map]
    change evalPolynomial ((List.range _).map _) _ = _
    rw [evalPolynomial_range, ← Polynomial.eval_eq_sum_range' hnatDegree, heval,
      List.getD_eq_getElem _ _ hi']

theorem polyFromTrace_total_binding_iff_lagrange :
    let trace : TraceRecord 32 32 := ⟨.ofNat 1, .ofNat 2, .read, .ofNat 5, .ofNat 7⟩
    (∃ evals poly, traceToField trace = .ok evals ∧
      default.polyFromTrace lagrangeCoefficients trace = .ok poly ∧
      ∀ trace' : TraceRecord 32 32,
        default.polyFromTrace lagrangeCoefficients trace' = .ok poly → trace' = trace) ↔
      trace.address.val < frModulus ∧ trace.value.val < frModulus :=
  polyFromTrace_total_binding_iff lagrangeCoefficients_exact _

end KZGMemoryCommitment

end Zkmemory.Commitment
