import Orochimaru.Poseidon.Hash
import Orochimaru.Lib.Loops

/-!
# The reference sponge

The sponge as a formula: the zero-padded message in blocks of `R` words, each added to the
state before one permutation. The native sponge permutes only when a word finds its buffer
full, and once more at the end.
-/

namespace Poseidon

open Zkmemory Loops

variable {F : Type} [Field F] {R : Nat} (S : Spec F R)

/-- Word `j` of the message, zero behind its end. -/
def paddedWord {L : Nat} (message : Fin L → F) (j : Nat) : F :=
  if h : j < L then message ⟨j, h⟩ else 0

/-- Add a block to the words of the rate and permute. -/
def absorbBlock (word : Nat → F) (state : State F R) (block : Nat) : State F R :=
  permute S fun i => if i = Fin.last R then state i else state i + word (block * R + i)

/-- The state after the first `blocks` blocks. -/
def absorbBlocks (word : Nat → F) (capacity : F) (blocks : Nat) : State F R :=
  (List.range blocks).foldl (absorbBlock S word)
    fun i => if i = Fin.last R then capacity else 0

def referenceHash {L : Nat} (message : Fin L → F) : F :=
  absorbBlocks S (paddedWord message) ((L * 2 ^ 64 : Nat) : F) (L ⌈/⌉ R) 0

/-! ## Absorbing -/

variable {S} {word : Nat → F} {capacity : F}

theorem absorbBlocks_succ (blocks : Nat) : absorbBlocks S word capacity (blocks + 1) =
    absorbBlock S word (absorbBlocks S word capacity blocks) blocks := by
  rw [absorbBlocks, List.range_succ, List.foldl_append]
  rfl

/-- The words `start, ..., start + n - 1`. -/
def stretch (word : Nat → F) (start n : Nat) : List F := (List.range n).map fun i => word (start + i)

omit [Field F] in
theorem stretch_succ (start n : Nat) :
    stretch word start (n + 1) = stretch word start n ++ [word (start + n)] := by
  simp [stretch, List.range_succ]

/-- The sponge runs on a full buffer. -/
theorem poseidonSponge_stretch (state : State F R) (block : Nat) :
    poseidonSponge S state (some (stretch word (block * R) R)) =
      .ok (absorbBlock S word state block,
        List.ofFn fun i : Fin R => absorbBlock S word state block i.castSucc) := by
  have hinput : (fun i : Fin (R + 1) => state i + (stretch word (block * R) R).getD i 0) =
      fun i => if i = Fin.last R then state i else state i + word (block * R + i) := by
    funext i
    by_cases hi : i = Fin.last R
    · rw [if_pos hi, hi, List.getD_eq_default _ _ (by simp [stretch]), add_zero]
    · have hlt : i.val < R := Fin.val_lt_last hi
      rw [if_neg hi, List.getD_eq_getElem _ _ (by simpa [stretch] using hlt)]
      simp [stretch]
  have hlen : (stretch word (block * R) R).length = R := by simp [stretch]
  rw [poseidonSponge]
  simp only [hlen, ↓reduceIte, ok_bind, hinput]
  rfl

/-- The sponge that has permuted `blocks` blocks and buffered `n` words of the next one. -/
def absorbed (S : Spec F R) (word : Nat → F) (capacity : F) (blocks n : Nat) :
    Sponge (State F R) F :=
  ⟨stretch word (blocks * R) n, absorbBlocks S word capacity blocks⟩

theorem absorb_absorbed {blocks n : Nat} (hn : n ≤ R) :
    Sponge.absorb R (poseidonSponge S) (absorbed S word capacity blocks n) (word (blocks * R + n)) =
      .ok (if n < R then absorbed S word capacity blocks (n + 1)
        else absorbed S word capacity (blocks + 1) 1) := by
  have hlen : (absorbed S word capacity blocks n).mode.length = n := by simp [absorbed, stretch]
  rw [Sponge.absorb, hlen]
  by_cases hroom : n < R
  · rw [if_pos hroom, if_pos hroom, absorbed, absorbed, stretch_succ]
    rfl
  · obtain rfl : n = R := by omega
    have hword : [word (blocks * n + n)] = stretch word ((blocks + 1) * n) 1 := by
      simp [stretch, Nat.succ_mul]
    rw [if_neg hroom, if_neg hroom, absorbed, poseidonSponge_stretch, ok_bind, hword, absorbed,
      absorbBlocks_succ]
    rfl

/-- A buffer is full when the number of words is a multiple of the rate. -/
theorem absorbAll_absorbed (hR : 0 < R) (blocks : Nat) :
    (List.range ((blocks + 1) * R)).foldlM
      (fun sponge j => Sponge.absorb R (poseidonSponge S) sponge (word j))
      (absorbed S word capacity 0 0) = .ok (absorbed S word capacity blocks R) := by
  let Inv (j : Nat) (sponge : Sponge (State F R) F) : Prop :=
    ∃ b n, sponge = absorbed S word capacity b n ∧ b * R + n = j ∧ n ≤ R ∧ (0 < j → 0 < n)
  have hstep : ∀ j < (blocks + 1) * R, ∀ sponge, Inv j sponge →
      ∃ sponge', Sponge.absorb R (poseidonSponge S) sponge (word j) = .ok sponge' ∧
        Inv (j + 1) sponge' := by
    rintro j - sponge ⟨b, n, rfl, rfl, hn, -⟩
    refine ⟨_, absorb_absorbed hn, ?_⟩
    by_cases hroom : n < R
    · rw [if_pos hroom]
      exact ⟨b, n + 1, rfl, by omega, hroom, fun _ => by omega⟩
    · rw [if_neg hroom]
      refine ⟨b + 1, 1, rfl, ?_, hR, fun _ => one_pos⟩
      rw [Nat.succ_mul]
      omega
  obtain ⟨sponge, hrun, b, n, rfl, hcount, hn, hpos⟩ :=
    foldlM_range_ok Inv ⟨0, 0, rfl, by omega, by omega, by omega⟩ hstep
  have hn0 : 0 < n := hpos (Nat.mul_pos (Nat.succ_pos blocks) hR)
  have hb : b = blocks := by
    have hlo : b * R < (blocks + 1) * R := by omega
    have hhi : blocks * R < (b + 1) * R := by
      rw [Nat.succ_mul] at hcount ⊢
      omega
    have h1 := Nat.lt_of_mul_lt_mul_right hlo
    have h2 := Nat.lt_of_mul_lt_mul_right hhi
    omega
  subst hb
  obtain rfl : n = R := by
    rw [Nat.succ_mul] at hcount
    omega
  exact hrun

/-! ## The hash -/

theorem padding_ceilDiv (hR : 0 < R) (L : Nat) :
    ConstantLength.padding (F := F) R L L = .ok (List.replicate (L ⌈/⌉ R * R - L) 0) := by
  rw [ConstantLength.padding, if_neg (not_not.mpr rfl), if_neg hR.ne', Nat.ceilDiv_eq_add_pred_div]

/-- The words the sponge is given. -/
theorem message_padded {L n : Nat} (hn : L ≤ n) (message : Fin L → F) :
    List.ofFn message ++ List.replicate (n - L) 0 = (List.range n).map (paddedWord message) := by
  apply List.ext_getElem
  · simp [hn]
  · intro j hj hj'
    rw [List.getElem_map, List.getElem_range, paddedWord, List.getElem_append]
    simp

/-- The lazy sponge is the reference sponge, for every length of the message. -/
theorem hash_eq_reference (S : Spec F R) (hR : 0 < R) {L : Nat} (hL : 0 < L)
    (message : Fin L → F) : hash S message = .ok (referenceHash S message) := by
  obtain ⟨blocks, hblocks⟩ : ∃ blocks, L ⌈/⌉ R = blocks + 1 := by
    refine Nat.exists_eq_succ_of_ne_zero (Nat.pos_iff_ne_zero.mp ?_)
    rw [Nat.ceilDiv_eq_add_pred_div]
    exact Nat.div_pos (by omega) hR
  have hcover : L ≤ (blocks + 1) * R := by
    rw [← hblocks, Nat.mul_comm]
    exact le_smul_ceilDiv hR
  have habsorb : List.foldlM _ (absorbed S (paddedWord message) ((L * 2 ^ 64 : Nat) : F) 0 0) _ =
    _ := absorbAll_absorbed hR blocks
  rw [← List.foldlM_map (f := paddedWord message)] at habsorb
  have hinit : (⟨[], initialState (ConstantLength.initialCapacityElement L)⟩ :
      Sponge (State F R) F) = absorbed S (paddedWord message) ((L * 2 ^ 64 : Nat) : F) 0 0 := rfl
  rw [hash, padding_ceilDiv hR, ok_bind, hblocks, message_padded hcover]
  simp only [hinit, habsorb, ok_bind, Sponge.finishAbsorbing]
  simp only [absorbed, poseidonSponge_stretch, ok_bind]
  obtain ⟨r, rfl⟩ := Nat.exists_eq_succ_of_ne_zero hR.ne'
  rw [Sponge.squeeze, List.ofFn_succ, referenceHash, hblocks, absorbBlocks_succ]
  rfl

/-- Three words at rate two: one full block, and one with a zero behind the word. -/
theorem hash_eq_reference_three :
    let S : Spec (ZMod 3) 2 := ⟨2, 1, (· ^ 5), List.replicate 3 1, 1, 1⟩
    hash S ![1, 2, 1] = .ok (referenceHash S ![1, 2, 1]) := by
  intro S
  exact hash_eq_reference S two_pos three_pos _

end Poseidon
