import Orochimaru.Lib.Positional

/-!
# Digits in a field

Recomposing digits by Horner's rule in a field agrees with recomposing them over the
naturals, and loses nothing while the result stays below the characteristic. A random
linear combination of a vector that is not zero vanishes at finitely many points only.
-/

namespace FieldDigits

open Positional

/-- Horner's rule over a list, first element most significant. -/
def horner {R : Type*} [Semiring R] (b : R) (l : List R) : R :=
  l.foldl (fun sum t => sum * b + t) 0

theorem horner_snoc {R : Type*} [Semiring R] (b : R) (l : List R) (t : R) :
    horner b (l ++ [t]) = horner b l * b + t := by
  rw [horner, List.foldl_append]
  rfl

/-- The digits of a number, each cast into the ring. -/
theorem horner_natCast {R : Type*} [Semiring R] (b n : Nat) (d : Nat → Nat) :
    horner (b : R) ((List.range n).map fun i => (d i : R)) = (beVal b n d : Nat) := by
  induction n with
  | zero => simp [horner]
  | succ n ih =>
    rw [List.range_succ, List.map_append, List.map_singleton, horner_snoc, ih, beVal_succ]
    push_cast
    rfl

section Prime

variable {p : Nat}

theorem natCast_inj_of_lt {a b : Nat} (ha : a < p) (hb : b < p) :
    (a : ZMod p) = (b : ZMod p) ↔ a = b := by
  constructor
  · intro h
    have hv := congrArg ZMod.val h
    rwa [ZMod.val_cast_of_lt ha, ZMod.val_cast_of_lt hb] at hv
  · exact fun h => congrArg _ h

/-- An element that is some number below `n` has that number as its value. -/
theorem exists_lt_iff_val {n : Nat} (hn : n ≤ p) [NeZero p] {x : ZMod p} :
    (∃ v < n, x = (v : ZMod p)) ↔ x.val < n := by
  constructor
  · rintro ⟨v, hv, rfl⟩
    rwa [ZMod.val_cast_of_lt (hv.trans_le hn)]
  · intro h
    exact ⟨x.val, h, (ZMod.natCast_zmod_val x).symm⟩

end Prime

/-! ## Random linear combinations -/

section Combination

variable {F : Type*} [Field F]

/-- A combination of `c 0, ..., c (k - 1)` with the powers of `alpha`. -/
def combination (alpha : F) (k : Nat) (c : Nat → F) : F := ∑ j ∈ Finset.range k, alpha ^ j * c j

theorem combination_of_zero (alpha : F) {k : Nat} {c : Nat → F} (h : ∀ j < k, c j = 0) :
    combination alpha k c = 0 := by
  apply Finset.sum_eq_zero
  intro j hj
  rw [h j (Finset.mem_range.mp hj), mul_zero]

/-- The combination as a polynomial in `alpha`. -/
noncomputable def combinationPoly (k : Nat) (c : Nat → F) : Polynomial F :=
  ∑ j ∈ Finset.range k, Polynomial.monomial j (c j)

theorem eval_combinationPoly (alpha : F) (k : Nat) (c : Nat → F) :
    (combinationPoly k c).eval alpha = combination alpha k c := by
  rw [combinationPoly, Polynomial.eval_finsetSum, combination]
  simp only [Polynomial.eval_monomial, mul_comm]

theorem combinationPoly_ne_zero {k : Nat} {c : Nat → F} (h : ∃ j < k, c j ≠ 0) :
    combinationPoly k c ≠ 0 := by
  obtain ⟨j, hj, hc⟩ := h
  have hcoeff : (combinationPoly k c).coeff j = c j := by
    simp [combinationPoly, Polynomial.coeff_monomial, hj]
  intro h0
  rw [h0, Polynomial.coeff_zero] at hcoeff
  exact hc hcoeff.symm

theorem natDegree_combinationPoly_le (k : Nat) (c : Nat → F) :
    (combinationPoly k c).natDegree ≤ k - 1 := by
  refine Polynomial.natDegree_sum_le_of_forall_le _ _ fun j hj => ?_
  have hlt := Finset.mem_range.mp hj
  exact (Polynomial.natDegree_monomial_le _).trans (by omega)

/-- A combination of elements that are not all zero vanishes at fewer points than it has
elements. -/
theorem encard_combination_eq_zero_le {k : Nat} {c : Nat → F} (h : ∃ j < k, c j ≠ 0) :
    {alpha : F | combination alpha k c = 0}.encard ≤ (k - 1 : Nat) := by
  classical
  have hroots : {alpha : F | combination alpha k c = 0} =
      ((combinationPoly k c).roots.toFinset : Set F) := by
    ext alpha
    rw [Set.mem_ofPred_eq, Finset.mem_coe, Multiset.mem_toFinset,
      Polynomial.mem_roots (combinationPoly_ne_zero h), Polynomial.IsRoot, eval_combinationPoly]
  rw [hroots, Set.encard_coe_eq_coe_finsetCard, Nat.cast_le]
  exact (Multiset.toFinset_card_le _).trans
    ((Polynomial.card_roots' _).trans (natDegree_combinationPoly_le k c))

theorem finite_combination_eq_zero {k : Nat} {c : Nat → F} (h : ∃ j < k, c j ≠ 0) :
    {alpha : F | combination alpha k c = 0}.Finite :=
  Set.finite_of_encard_le_coe (encard_combination_eq_zero_le h)

end Combination

end FieldDigits
