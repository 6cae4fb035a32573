import Orochimaru.Poseidon.OrchardNullifier

/-!
# The permutation is a permutation

A round adds constants, applies the S-box to some words and multiplies by the matrix. Each
of the three steps can be undone, and the permutation is a sequence of rounds.
-/

namespace Poseidon

open Zkmemory Function

/-- A sequence of steps that can be undone one by one. -/
theorem foldl_bijective {σ α : Type} {f : σ → α → σ} (hf : ∀ a, Bijective fun s => f s a)
    (l : List α) : Bijective fun s => l.foldl f s := by
  induction l with
  | nil => exact bijective_id
  | cons a l ih => exact ih.comp (hf a)

/-! ## Rounds -/

section Rounds

variable {F : Type} [Field F] {R : Nat} {S : Spec F R}

/-- A round that applies `box i` to word `i`. -/
theorem round_bijective (hmds : IsUnit S.mds) {box : Fin (R + 1) → F → F}
    (hbox : ∀ i, Bijective (box i)) (rcs : State F R) :
    Bijective fun state : State F R => S.mds.mulVec fun i => box i (state i + rcs i) := by
  have hadd : Bijective fun state : State F R => state + rcs := (Equiv.addRight rcs).bijective
  have hmix : Bijective S.mds.mulVec :=
    ⟨Matrix.mulVec_injective_iff_isUnit.mpr hmds, Matrix.mulVec_surjective_iff_isUnit.mpr hmds⟩
  exact hmix.comp ((Bijective.piMap hbox).comp hadd)

theorem fullRound_bijective (hsbox : Bijective S.sbox) (hmds : IsUnit S.mds) (rcs : State F R) :
    Bijective fun state => fullRound S state rcs :=
  round_bijective hmds (fun _ => hsbox) rcs

theorem partRound_bijective (hsbox : Bijective S.sbox) (hmds : IsUnit S.mds) (rcs : State F R) :
    Bijective fun state => partRound S state rcs := by
  have hbox : ∀ i : Fin (R + 1), Bijective fun x => if i = 0 then S.sbox x else x := by
    intro i
    by_cases hi : i = 0
    · simpa only [if_pos hi] using hsbox
    · simp only [if_neg hi]
      exact bijective_id
  exact round_bijective hmds hbox rcs

/-- However many constants there are, the rounds they are taken for can be undone. -/
theorem permute_bijective (hsbox : Bijective S.sbox) (hmds : IsUnit S.mds) :
    Bijective (permute S) := by
  have hfull := foldl_bijective (fullRound_bijective hsbox hmds)
  have hpart := foldl_bijective (partRound_bijective hsbox hmds)
  exact (hfull _).comp ((hpart _).comp (hfull _))

end Rounds

/-! ## The parameters in use -/

/-- A power coprime to the order of the units of a finite field. -/
theorem pow_bijective {p : Nat} [Fact p.Prime] {n : Nat} (hn : n ≠ 0) (h : (p - 1).Coprime n) :
    Bijective fun x : ZMod p => x ^ n := by
  rw [← Finite.injective_iff_bijective]
  intro x y (hxy : x ^ n = y ^ n)
  by_cases hx : x = 0
  · subst hx
    have hy : y ^ n = 0 := by rw [← hxy, zero_pow hn]
    exact (eq_zero_of_pow_eq_zero hy).symm
  · have hy : y ≠ 0 := by
      rintro rfl
      exact pow_ne_zero n hx (hxy.trans (zero_pow hn))
    have hcard : (Nat.card (ZMod p)ˣ).Coprime n := by
      rw [Nat.card_eq_fintype_card, ZMod.card_units]
      exact h
    have hunits : Units.mk0 x hx ^ n = Units.mk0 y hy ^ n := Units.ext hxy
    exact congrArg Units.val ((powCoprime hcard).injective hunits)

theorem orchardNullifier_sbox_bijective : Bijective orchardNullifier.sbox :=
  pow_bijective (by decide) (by norm_num [Constraints.pastaModulus])

theorem permute_bijective_orchardNullifier : Bijective (permute orchardNullifier) :=
  permute_bijective orchardNullifier_sbox_bijective
    (IsUnit.of_mul_eq_one_right mdsInv mdsInv_mul_mds)

end Poseidon
