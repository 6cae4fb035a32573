import Mathlib
import Orochimaru.Lib.Literals

/-!
# Sizes that sums and products respect

A gauge bounds the size of a sum by the sum of the sizes and of a product by their
product. The sum of the absolute coefficients of an integer polynomial is one, the
absolute value at a point is another, and what is derived from the two rules holds of
both.
-/

open Polynomial

structure Gauge (R : Type*) [CommRing R] where
  size : R → Nat
  zero : size 0 = 0
  one_le : size 1 ≤ 1
  add_le : ∀ x y, size (x + y) ≤ size x + size y
  sub_le : ∀ x y, size (x - y) ≤ size x + size y
  mul_le : ∀ x y, size (x * y) ≤ size x * size y

namespace Gauge

section Bounds

variable {R : Type*} [CommRing R] (g : Gauge R) {x y : R} {a b : Nat}

theorem add_le_of (hx : g.size x ≤ a) (hy : g.size y ≤ b) : g.size (x + y) ≤ a + b :=
  (g.add_le x y).trans (Nat.add_le_add hx hy)

theorem sub_le_of (hx : g.size x ≤ a) (hy : g.size y ≤ b) : g.size (x - y) ≤ a + b :=
  (g.sub_le x y).trans (Nat.add_le_add hx hy)

theorem mul_le_of (hx : g.size x ≤ a) (hy : g.size y ≤ b) : g.size (x * y) ≤ a * b :=
  (g.mul_le x y).trans (Nat.mul_le_mul hx hy)

/-- One less than an element. -/
theorem sub_one_le_of (hx : g.size x ≤ a) : g.size (x - 1) ≤ a + 1 :=
  g.sub_le_of hx g.one_le

theorem sum_le {ι : Type*} (s : Finset ι) (f : ι → R) :
    g.size (∑ i ∈ s, f i) ≤ ∑ i ∈ s, g.size (f i) := by
  classical
  induction s using Finset.induction_on with
  | empty => rw [Finset.sum_empty, Finset.sum_empty, g.zero]
  | insert i s hi ih =>
    rw [Finset.sum_insert hi, Finset.sum_insert hi]
    exact (g.add_le _ _).trans (Nat.add_le_add_left ih _)

end Bounds

/-! ## The sum of the coefficients -/

/-- The polynomial of the absolute coefficients. -/
noncomputable def absolute (p : ℤ[X]) : ℕ[X] :=
  ∑ i ∈ p.support, monomial i (p.coeff i).natAbs

theorem coeff_absolute (p : ℤ[X]) (n : Nat) : (absolute p).coeff n = (p.coeff n).natAbs := by
  rw [absolute, finsetSum_coeff]
  simp only [coeff_monomial]
  rw [Finset.sum_ite_eq']
  split
  case isTrue => rfl
  case isFalse h => rw [notMem_support_iff.mp h, Int.natAbs_zero]

/-- The value at one adds up the coefficients. -/
theorem eval_one_mono {P Q : ℕ[X]} (h : ∀ n, P.coeff n ≤ Q.coeff n) : P.eval 1 ≤ Q.eval 1 := by
  rw [eval_eq_sum_range' (show P.natDegree < P.natDegree + Q.natDegree + 1 by omega),
    eval_eq_sum_range' (show Q.natDegree < P.natDegree + Q.natDegree + 1 by omega)]
  simp only [one_pow, mul_one]
  exact Finset.sum_le_sum fun n _ => h n

theorem coeff_le_eval_one (P : ℕ[X]) (n : Nat) : P.coeff n ≤ P.eval 1 := by
  rw [eval_eq_sum_range' (show P.natDegree < P.natDegree + n + 1 by omega)]
  simp only [one_pow, mul_one]
  exact Finset.single_le_sum (f := fun i => P.coeff i) (fun i _ => Nat.zero_le _)
    (Finset.mem_range.mpr (by omega))

/-- The sum of the absolute coefficients. -/
noncomputable def coefficients : Gauge ℤ[X] where
  size p := (absolute p).eval 1
  zero := by simp [absolute]
  one_le := by
    have h := eval_one_mono (P := absolute 1) (Q := 1) fun n => by
      rw [coeff_absolute, coeff_one, coeff_one]
      split <;> simp
    simpa using h
  add_le p q := by
    rw [← eval_add]
    refine eval_one_mono fun n => ?_
    rw [coeff_add, coeff_absolute, coeff_absolute, coeff_absolute, coeff_add]
    exact Int.natAbs_add_le _ _
  sub_le p q := by
    rw [← eval_add]
    refine eval_one_mono fun n => ?_
    rw [coeff_add, coeff_absolute, coeff_absolute, coeff_absolute, coeff_sub]
    exact Int.natAbs_sub_le _ _
  mul_le p q := by
    rw [← eval_mul]
    refine eval_one_mono fun n => ?_
    rw [coeff_mul, coeff_absolute, coeff_mul]
    refine (Int.natAbs_sum_le _ _).trans (Finset.sum_le_sum fun i _ => ?_)
    rw [coeff_absolute, coeff_absolute, Int.natAbs_mul]

theorem natAbs_coeff_le (p : ℤ[X]) (n : Nat) : (p.coeff n).natAbs ≤ coefficients.size p := by
  rw [← coeff_absolute]
  exact coeff_le_eval_one _ _

theorem coefficients_C (a : ℤ) : coefficients.size (C a) = a.natAbs := by
  have h : absolute (C a) = C a.natAbs := by
    ext n
    rw [coeff_absolute, coeff_C, coeff_C]
    split <;> simp
  change (absolute (C a)).eval 1 = _
  rw [h, eval_C]

theorem coefficients_X_pow (n : Nat) : coefficients.size (X ^ n) = 1 := by
  have h : absolute (X ^ n) = X ^ n := by
    ext m
    rw [coeff_absolute, coeff_X_pow, coeff_X_pow]
    split <;> simp
  change (absolute (X ^ n)).eval 1 = _
  rw [h, eval_pow, eval_X, one_pow]

/-- The absolute value at a point. -/
def valueAt (x : ℤ) : Gauge ℤ[X] where
  size p := (p.eval x).natAbs
  zero := by simp
  one_le := by simp
  add_le p q := by
    rw [eval_add]
    exact Int.natAbs_add_le _ _
  sub_le p q := by
    rw [eval_sub]
    exact Int.natAbs_sub_le _ _
  mul_le p q := by
    rw [eval_mul, Int.natAbs_mul]

end Gauge
