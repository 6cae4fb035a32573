import Orochimaru.Zkmemory.Zincplus.Uair

/-!
# The row equations of the UAIR

The constraints of a row, read as equations between the cells of that row and of the
rows its shifts reach. Every shifted column a constraint looks up is declared.
-/

namespace Zkmemory.Zincplus

open Polynomial

/-! ## Cells at `X = 2` -/

namespace BinaryPoly

theorem value_lt (p : BinaryPoly) : p.value < 2 ^ 32 := Nat.ofBits_lt_two_pow p

theorem value_ofNat {n : Nat} (h : n < 2 ^ 32) : (ofNat n).value = n := by
  change Nat.ofBits (fun i : Fin 32 => n.testBit i) = n
  rw [Nat.ofBits_testBit, Nat.mod_eq_of_lt h]

theorem sum_eq_ofBits {n : Nat} (p : Fin n → Bool) :
    (∑ i : Fin n, if p i then (2 : ℤ) ^ i.val else 0) = (Nat.ofBits p : Nat) := by
  induction n with
  | zero => rfl
  | succ n ih =>
    have htail : (∑ i : Fin n, if p i.succ then (2 : ℤ) ^ i.succ.val else 0) =
        2 * (Nat.ofBits (p ∘ Fin.succ) : Nat) := by
      rw [← ih, Finset.mul_sum]
      refine Finset.sum_congr rfl fun i _ => ?_
      rw [Function.comp_apply, Fin.val_succ, pow_succ']
      split <;> simp
    rw [Fin.sum_univ_succ, Nat.ofBits_succ, htail]
    cases p 0 <;> simp [add_comm]

theorem eval_toPoly (p : BinaryPoly) : p.toPoly.eval 2 = (p.value : ℤ) := by
  rw [value, ← sum_eq_ofBits, toPoly, eval_finsetSum]
  refine Finset.sum_congr rfl fun i _ => ?_
  split <;> simp

theorem toPoly_zero : (ofNat 0).toPoly = 0 := by
  simp [toPoly, ofNat]

theorem toPoly_one : (ofNat 1).toPoly = 1 := by
  rw [toPoly, Finset.sum_eq_single 0]
  · simp [ofNat]
  · intro i _ hi
    have : i.val ≠ 0 := fun h => hi (Fin.ext h)
    simp [ofNat, Nat.testBit_one_eq_true_iff_self_eq_zero, this]
  · simp

end BinaryPoly

/-! ## The declared shifts -/

namespace NetLayout

variable {layout : NetLayout}

theorem numLayers_eq (layout : NetLayout) : layout.numLayers = 2 * layout.numVars - 1 := rfl

theorem originalState_eq (layout : NetLayout) : layout.originalState = layout.numLayers :=
  Nat.add_sub_cancel ..

theorem strideBit_lt_numVars (layout : NetLayout) {layer : Nat} (h : layer < layout.numLayers) :
    strideBit layout.numVars layer < layout.numVars := by
  rw [numLayers_eq] at h
  unfold strideBit
  split <;> omega

theorem mem_shifts {state payload amount : Nat} (hs : state < layout.numStates)
    (hp : payload < payloadCells) (ha : amount ∈ layout.shiftAmounts state payload) :
    (stateCol state payload, amount) ∈ layout.shifts := by
  refine List.mem_flatMap.mpr ⟨state, List.mem_range.mpr hs, ?_⟩
  exact List.mem_flatMap.mpr ⟨payload, List.mem_range.mpr hp, List.mem_map.mpr ⟨amount, ha, rfl⟩⟩

theorem one_mem_sorted {payload : Nat} (h : payload ≠ plStackDepth)
    (h' : payload ≠ plStackDepth + 1) : 1 ∈ layout.shiftAmounts 0 payload := by
  simp [shiftAmounts, h, h']

theorem one_mem_original {payload : Nat} (h : payload = plTime ∨ payload = plTime + 1) :
    1 ∈ layout.shiftAmounts layout.originalState payload := by
  have hne : layout.originalState ≠ 0 := by
    have := layout.inRange.1
    rw [originalState_eq, numLayers_eq]
    simp only [minNumVars] at this
    omega
  simp [shiftAmounts, hne, h]

/-- A layer reads the state before it at its stride. -/
theorem stride_mem_in {layer : Nat} (h : layer < layout.numLayers) (payload : Nat) :
    layout.stride layer ∈ layout.shiftAmounts layer payload := by
  unfold shiftAmounts
  split
  case isTrue h₀ => simp [h₀]
  case isFalse h₀ =>
    rw [if_pos (by rw [originalState_eq]; exact h)]
    rcases Nat.le_total (layout.stride (layer - 1)) (layout.stride layer) with hle | hle
    · simp [Nat.max_eq_right hle]
    · simp [Nat.min_eq_right hle]

/-- A layer reads the state after it at its stride. -/
theorem stride_mem_out {layer : Nat} (h : layer < layout.numLayers) (payload : Nat) :
    layout.stride layer ∈ layout.shiftAmounts (layer + 1) payload := by
  rw [shiftAmounts, if_neg (Nat.succ_ne_zero _)]
  split
  case isTrue =>
    rcases Nat.le_total (layout.stride layer) (layout.stride (layer + 1)) with hle | hle
    · simp [Nat.min_eq_left hle]
    · simp [Nat.max_eq_left hle]
  case isFalse hlast =>
    rw [originalState_eq] at hlast
    rw [show layer = layout.numLayers - 1 by omega]
    simp

end NetLayout

open NetLayout

/-- A declared shifted column is found where the down row holds it. -/
theorem downBp_down (c : Columns) {layout : NetLayout} {col amount : Nat} (row : Nat)
    (h : (col, amount) ∈ layout.shifts) :
    downBp layout (c.down layout row) col amount = c.poly col (row + amount) := by
  have hlt := List.idxOf_lt_length_of_mem h
  simp [downBp, Columns.down, downIdx, List.getD_eq_getElem?_getD, hlt]

/-- `upper_k` marks the rows whose bit `k` is clear. -/
theorem publicIntColumns_upper (k row : Nat) :
    publicIntColumns (intUpper + k) row = if row.testBit k then 0 else 1 := by
  rw [publicIntColumns, if_neg (by simp only [intUpper, intIsFirst]; omega),
    Nat.add_sub_cancel_left, Nat.and_one_is_mod, Nat.shiftRight_eq_div_pow,
    Nat.testBit_eq_decide_div_mod_eq]
  rcases Nat.mod_two_eq_zero_or_one (row / 2 ^ k) with h | h <;> simp [h]

/-! ## Equations -/

namespace Columns

variable (c : Columns) (layout : NetLayout)

/-- Payload cell `p` of state `g`. -/
noncomputable def cell (g p row : Nat) : ℤ[X] := c.poly (stateCol g p) row

/-- Difference of a payload cell to the next row. -/
noncomputable def delta (g p row : Nat) : ℤ[X] := c.cell g p (row + 1) - c.cell g p row

/-- Integer column `col` as a constant polynomial. -/
noncomputable def const (col row : Nat) : ℤ[X] := C (c.int col row)

structure SortedEqs (row : Nat) : Prop where
  s1 : c.const intIsFirst row * (c.cell 0 plInstr row - 1) = 0
  s2 : c.cell 0 plInstr (row + 1) * (c.cell 0 plInstr (row + 1) - 1) = 0
  s3 : ∀ j < numLexLimbs, c.const (layout.intS + j) row * (c.const (layout.intS + j) row - 1) = 0
  s4 : runningSum (fun j => c.const (layout.intS + j) row) (numLexLimbs - 1) - 1 = 0
  s5 : ∀ j < numLexLimbs,
    (1 - runningSum (fun j => c.const (layout.intS + j) row) j) * c.delta 0 (plAddr + j) row = 0
  s6 : (runningSum (fun j => c.const (layout.intS + j) row * c.delta 0 (plAddr + j) row)
    (numLexLimbs - 1) - 1 - c.poly layout.bpSlackSorted row).eval 2 = 0
  s7 : c.const layout.intW row - (c.const (layout.intS + numAddrLimbs) row +
    c.const (layout.intS + (numAddrLimbs + 1)) row) * (c.cell 0 plInstr (row + 1) - 1) = 0
  s8 : ∀ j < numValueLimbs, c.const layout.intW row * c.delta 0 (plValue + j) row = 0
  s9 : (1 - (c.const (layout.intS + numAddrLimbs) row +
    c.const (layout.intS + (numAddrLimbs + 1)) row)) * (c.cell 0 plInstr (row + 1) - 1) = 0

structure OriginalEqs (row : Nat) : Prop where
  o1 : c.const intIsFirst row * c.cell layout.originalState plTime row = 0
  o2 : c.const intIsFirst row * c.cell layout.originalState (plTime + 1) row = 0
  o3Hi : c.const layout.intTimeHiSel row * (c.const layout.intTimeHiSel row - 1) = 0
  o3Lo : c.const layout.intTimeLoSel row * (c.const layout.intTimeLoSel row - 1) = 0
  o4 : c.const layout.intTimeHiSel row + c.const layout.intTimeLoSel row - 1 = 0
  o5 : (1 - c.const layout.intTimeHiSel row) * c.delta layout.originalState plTime row = 0
  o6 : (c.const layout.intTimeHiSel row * c.delta layout.originalState plTime row +
    c.const layout.intTimeLoSel row * c.delta layout.originalState (plTime + 1) row - 1 -
    c.poly layout.bpSlackOriginal row).eval 2 = 0

/-- The equations of one layer at one row, for every payload cell. -/
structure LayerEqs (row layer : Nat) : Prop where
  n1 : c.const (intUpper + strideBit layout.numVars layer) row *
    (c.const (layout.intSwitch + layer) row * (c.const (layout.intSwitch + layer) row - 1)) = 0
  n2 : ∀ p < payloadCells, c.const (intUpper + strideBit layout.numVars layer) row *
    (c.cell (layer + 1) p row - c.cell layer p row - c.const (layout.intSwitch + layer) row *
      (c.cell layer p (row + layout.stride layer) - c.cell layer p row)) = 0
  n3 : ∀ p < payloadCells, c.const (intUpper + strideBit layout.numVars layer) row *
    (c.cell (layer + 1) p (row + layout.stride layer) -
      c.cell layer p (row + layout.stride layer) + c.const (layout.intSwitch + layer) row *
        (c.cell layer p (row + layout.stride layer) - c.cell layer p row)) = 0

variable {c layout}

theorem runningSum_congr {E : Type*} [Add E] {f g : Nat → E} {n : Nat} (h : ∀ j ≤ n, f j = g j) :
    runningSum f n = runningSum g n := by
  induction n with
  | zero => exact h 0 le_rfl
  | succ n ih =>
    rw [runningSum, runningSum, ih fun j hj => h j (by omega), h (n + 1) le_rfl]

theorem sorted_hold_iff {row : Nat} :
    (∀ k ∈ sortedConstraints layout (c.up row) (c.down layout row), k.Holds) ↔
      c.SortedEqs layout row := by
  have hdown : ∀ p, p < payloadCells → p ≠ plStackDepth → p ≠ plStackDepth + 1 →
      downBp layout (c.down layout row) (stateCol 0 p) 1 = c.cell 0 p (row + 1) :=
    fun p hp h h' => downBp_down c row (mem_shifts (Nat.succ_pos _) hp (one_mem_sorted h h'))
  have hinstr := hdown plInstr (by decide) (by decide) (by decide)
  have hlex : ∀ j < numLexLimbs, downBp layout (c.down layout row) (stateCol 0 (plAddr + j)) 1 -
      (c.up row).binaryPoly (stateCol 0 (plAddr + j)) = c.delta 0 (plAddr + j) row := by
    intro j hj
    simp only [numLexLimbs, numAddrLimbs, numTimeLimbs] at hj
    rw [hdown (plAddr + j) (by simp only [plAddr]; decide +revert)
      (by simp only [plAddr]; decide +revert) (by simp only [plAddr]; decide +revert)]
    rfl
  have hval : ∀ j < numValueLimbs, downBp layout (c.down layout row) (stateCol 0 (plValue + j)) 1 -
      (c.up row).binaryPoly (stateCol 0 (plValue + j)) = c.delta 0 (plValue + j) row := by
    intro j hj
    simp only [numValueLimbs] at hj
    rw [hdown (plValue + j) (by decide +revert) (by decide +revert) (by decide +revert)]
    rfl
  have hinc : runningSum (fun j => (c.up row).int (layout.intS + j) *
      (downBp layout (c.down layout row) (stateCol 0 (plAddr + j)) 1 -
        (c.up row).binaryPoly (stateCol 0 (plAddr + j)))) (numLexLimbs - 1) =
      runningSum (fun j => c.const (layout.intS + j) row * c.delta 0 (plAddr + j) row)
        (numLexLimbs - 1) :=
    runningSum_congr fun j hj => by rw [hlex j (Nat.lt_of_le_of_lt hj (by decide))]; rfl
  unfold sortedConstraints
  simp only [List.forall_mem_append, List.forall_mem_cons, List.forall_mem_map, List.mem_range,
    List.not_mem_nil, false_implies, implies_true, and_true, Constraint.Holds, hinstr, hinc]
  constructor
  · rintro ⟨⟨⟨⟨⟨⟨⟨h1, h2⟩, h3⟩, h4⟩, h5⟩, h6, h7⟩, h8⟩, h9⟩
    refine ⟨h1, h2, h3, h4, fun j hj => ?_, h6, h7, fun j hj => ?_, h9⟩
    · rw [← hlex j hj]
      exact h5 j hj
    · rw [← hval j hj]
      exact h8 j hj
  · rintro ⟨h1, h2, h3, h4, h5, h6, h7, h8, h9⟩
    refine ⟨⟨⟨⟨⟨⟨⟨h1, h2⟩, h3⟩, h4⟩, fun j hj => ?_⟩, h6, h7⟩, fun j hj => ?_⟩, h9⟩
    · rw [hlex j hj]
      exact h5 j hj
    · rw [hval j hj]
      exact h8 j hj

theorem original_hold_iff {row : Nat} :
    (∀ k ∈ originalConstraints layout (c.up row) (c.down layout row), k.Holds) ↔
      c.OriginalEqs layout row := by
  have hdown : ∀ p, p = plTime ∨ p = plTime + 1 →
      downBp layout (c.down layout row) (stateCol layout.originalState p) 1 =
        c.cell layout.originalState p (row + 1) := fun p hp =>
    downBp_down c row (mem_shifts (by rw [originalState_eq]; exact Nat.lt_succ_self _)
      (by rcases hp with rfl | rfl <;> decide) (one_mem_original hp))
  unfold originalConstraints
  simp only [List.forall_mem_cons, List.not_mem_nil, false_implies, implies_true, and_true,
    Constraint.Holds, hdown plTime (.inl rfl), hdown (plTime + 1) (.inr rfl)]
  constructor
  · rintro ⟨h1, h2, h3, h4, h5, h6, h7⟩
    exact ⟨h1, h2, h3, h4, h5, h6, h7⟩
  · rintro ⟨h1, h2, h3, h4, h5, h6, h7⟩
    exact ⟨h1, h2, h3, h4, h5, h6, h7⟩

theorem network_hold_iff {row : Nat} :
    (∀ k ∈ networkConstraints layout (c.up row) (c.down layout row), k.Holds) ↔
      ∀ layer < layout.numLayers, c.LayerEqs layout row layer := by
  have hdown : ∀ g p amount, g < layout.numStates → p < payloadCells →
      amount ∈ layout.shiftAmounts g p →
      downBp layout (c.down layout row) (stateCol g p) amount = c.cell g p (row + amount) :=
    fun g p amount hg hp h => downBp_down c row (mem_shifts hg hp h)
  unfold networkConstraints
  simp only [List.forall_mem_flatMap, List.forall_mem_cons, List.mem_range, List.not_mem_nil,
    false_implies, implies_true, and_true, Constraint.Holds]
  refine forall₂_congr fun layer hl => ?_
  have hin : ∀ p < payloadCells, downBp layout (c.down layout row) (stateCol layer p)
      (layout.stride layer) = c.cell layer p (row + layout.stride layer) :=
    fun p hp => hdown layer p _ (Nat.lt_succ_of_lt hl) hp (stride_mem_in hl p)
  have hout : ∀ p < payloadCells, downBp layout (c.down layout row) (stateCol (layer + 1) p)
      (layout.stride layer) = c.cell (layer + 1) p (row + layout.stride layer) :=
    fun p hp => hdown (layer + 1) p _ (Nat.succ_lt_succ hl) hp (stride_mem_out hl p)
  constructor
  · rintro ⟨h1, h2⟩
    refine ⟨h1, fun p hp => ?_, fun p hp => ?_⟩
    · rw [← hin p hp]
      exact (h2 p hp).1
    · rw [← hin p hp, ← hout p hp]
      exact (h2 p hp).2
  · rintro ⟨h1, h2, h3⟩
    refine ⟨h1, fun p hp => ⟨?_, ?_⟩⟩
    · rw [hin p hp]
      exact h2 p hp
    · rw [hin p hp, hout p hp]
      exact h3 p hp

/-- The constraints hold exactly when the equations do. -/
theorem satisfied_iff : c.Satisfied layout ↔ ∀ row < 2 ^ layout.numVars - 1,
    c.SortedEqs layout row ∧ c.OriginalEqs layout row ∧
      ∀ layer < layout.numLayers, c.LayerEqs layout row layer := by
  refine forall₂_congr fun row _ => ?_
  rw [constrainGeneral, List.forall_mem_append, List.forall_mem_append, sorted_hold_iff,
    original_hold_iff, network_hold_iff, and_assoc]

end Columns

end Zkmemory.Zincplus
