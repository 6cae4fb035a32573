import Mathlib
import Orochimaru.Lib.Literals

/-!
# Zeros of a linear form on a box

A linear form that is not zero has few zeros among the vectors whose entries are drawn
from a finite set: all entries but one determine the last one.
-/

namespace LinearForms

variable {ι σ F : Type} [Fintype ι] [DecidableEq ι] [Finite σ] [Field F]

/-- Where the form with coefficients `δ` vanishes. -/
def zeros (δ : ι → F) (f : σ → F) : Set (ι → σ) := {s | ∑ i, δ i * f (s i) = 0}

omit [DecidableEq ι] [Finite σ] in
theorem zeros_of_zero {δ : ι → F} (h : ∀ i, δ i = 0) (f : σ → F) : zeros δ f = Set.univ := by
  refine Set.eq_univ_of_forall fun s => ?_
  refine Finset.sum_eq_zero fun i _ => ?_
  rw [h i, zero_mul]

omit [Finite σ] in
/-- Two zeros that agree off a place where the coefficient is not zero are equal. -/
theorem eq_of_agree {δ : ι → F} {f : σ → F} (hf : Function.Injective f) {i : ι} (hi : δ i ≠ 0)
    {s t : ι → σ} (hs : s ∈ zeros δ f) (ht : t ∈ zeros δ f) (hagree : ∀ j, j ≠ i → s j = t j) :
    s = t := by
  have hrest : ∑ j ∈ Finset.univ.erase i, δ j * f (s j) =
      ∑ j ∈ Finset.univ.erase i, δ j * f (t j) := by
    refine Finset.sum_congr rfl fun j hj => ?_
    rw [hagree j (Finset.ne_of_mem_erase hj)]
  have hs' : δ i * f (s i) + ∑ j ∈ Finset.univ.erase i, δ j * f (s j) = 0 :=
    (Finset.add_sum_erase _ _ (Finset.mem_univ i)).trans hs
  have ht' : δ i * f (t i) + ∑ j ∈ Finset.univ.erase i, δ j * f (t j) = 0 :=
    (Finset.add_sum_erase _ _ (Finset.mem_univ i)).trans ht
  have hentry : δ i * f (s i) = δ i * f (t i) := by
    rw [← hrest] at ht'
    exact add_right_cancel (hs'.trans ht'.symm)
  ext j
  by_cases hj : j = i
  · subst hj
    exact hf (mul_left_cancel₀ hi hentry)
  · exact hagree j hj

theorem ncard_zeros_le {δ : ι → F} {f : σ → F} (hf : Function.Injective f) (h : ∃ i, δ i ≠ 0) :
    (zeros δ f).ncard ≤ Nat.card σ ^ (Fintype.card ι - 1) := by
  obtain ⟨i, hi⟩ := h
  have hinj : Set.InjOn (fun (s : ι → σ) (j : {j // j ≠ i}) => s j) (zeros δ f) := by
    intro s hs t ht hst
    exact eq_of_agree hf hi hs ht fun j hj => congrFun hst ⟨j, hj⟩
  have hcard : Nat.card ({j // j ≠ i} → σ) = Nat.card σ ^ (Fintype.card ι - 1) := by
    rw [Nat.card_fun, Nat.card_eq_fintype_card (α := {j // j ≠ i}), Fintype.card_subtype_compl,
      Fintype.card_subtype_eq]
  rw [← hcard, ← Set.ncard_univ]
  exact Set.ncard_le_ncard_of_injOn _ (fun _ _ => Set.mem_univ _) hinj

omit [DecidableEq ι] [Finite σ] in
theorem ncard_zeros_of_zero {δ : ι → F} (h : ∀ i, δ i = 0) (f : σ → F) :
    (zeros δ f).ncard = Nat.card σ ^ Fintype.card ι := by
  rw [zeros_of_zero h, Set.ncard_univ, Nat.card_fun, Nat.card_eq_fintype_card (α := ι)]

end LinearForms
