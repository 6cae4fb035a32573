import Orochimaru.Zkmemory.Zincplus.Routing
import Orochimaru.Zkmemory.Zincplus.Equations

/-!
# One layer of the network, in the circuit and in the prover

The circuit sees a swap from the upper row of a switch: a row shift by the stride
brings the lower cell, a public mask drops every other row. The prover swaps in place.
On every row the two say the same, cell by cell in `ℤ[X]`; the masked rows are exactly
those whose partner is a row of the trace, so no shift runs past the end.
-/

namespace Zkmemory.Zincplus

open NetLayout Polynomial Switching

section Constraints

variable {E : Type*} [CommRing E]

/-- (N1) to (N3) of a row, with the cells of the row its stride reaches. -/
def switchConstraints (mask switch : E) (in₁ in₂ out₁ out₂ : Nat → E) : List (Constraint E) :=
  .zero (mask * (switch * (switch - 1))) ::
    (List.range payloadCells).flatMap fun payload =>
      let switched := switch * (in₂ payload - in₁ payload)
      [.zero (mask * (out₁ payload - in₁ payload - switched)),
        .zero (mask * (out₂ payload - in₂ payload + switched))]

/-- The network constraints of one layer. -/
def layerConstraints (layout : NetLayout) (up down : TraceRow E) (layer : Nat) :
    List (Constraint E) :=
  let stride := layout.stride layer
  switchConstraints (up.int (intUpper + strideBit layout.numVars layer))
    (up.int (layout.intSwitch + layer))
    (fun payload => up.binaryPoly (stateCol layer payload))
    (fun payload => downBp layout down (stateCol layer payload) stride)
    (fun payload => up.binaryPoly (stateCol (layer + 1) payload))
    (fun payload => downBp layout down (stateCol (layer + 1) payload) stride)

end Constraints

/-! ## Rows of polynomial cells -/

noncomputable def upRow (cell : Nat → Nat → ℤ[X]) (int : Nat → Nat → ℤ) (row : Nat) :
    TraceRow ℤ[X] where
  binaryPoly col := cell col row
  int col := C (int col row)

noncomputable def downRow (layout : NetLayout) (cell : Nat → Nat → ℤ[X]) (row : Nat) :
    TraceRow ℤ[X] where
  binaryPoly idx :=
    let (col, amount) := layout.shifts.getD idx (0, 0)
    cell col (row + amount)
  int _ := 0

/-- A layer finds the shifted cells of the states on its two sides. -/
theorem layerConstraints_rows (layout : NetLayout) (cell : Nat → Nat → ℤ[X])
    (int : Nat → Nat → ℤ) (row : Nat) {layer : Nat} (hl : layer < layout.numLayers) (k) :
    k ∈ layerConstraints layout (upRow cell int row) (downRow layout cell row) layer ↔
      k ∈ switchConstraints (C (int (intUpper + strideBit layout.numVars layer) row))
        (C (int (layout.intSwitch + layer) row))
        (fun payload => cell (stateCol layer payload) row)
        (fun payload => cell (stateCol layer payload) (row + layout.stride layer))
        (fun payload => cell (stateCol (layer + 1) payload) row)
        (fun payload => cell (stateCol (layer + 1) payload) (row + layout.stride layer)) := by
  have hdown : ∀ state payload, state < layout.numStates → payload < payloadCells →
      layout.stride layer ∈ layout.shiftAmounts state payload →
      downBp layout (downRow layout cell row) (stateCol state payload) (layout.stride layer) =
        cell (stateCol state payload) (row + layout.stride layer) := by
    intro state payload hs hp h
    have hlt := List.idxOf_lt_length_of_mem (mem_shifts hs hp h)
    simp [downBp, downRow, downIdx, List.getD_eq_getElem?_getD, hlt]
  have hin := fun payload hp =>
    hdown layer payload (Nat.lt_succ_of_lt hl) hp (stride_mem_in hl payload)
  have hout := fun payload hp =>
    hdown (layer + 1) payload (Nat.succ_lt_succ hl) hp (stride_mem_out hl payload)
  simp only [layerConstraints, switchConstraints, List.mem_cons, List.mem_flatMap, List.mem_range]
  refine or_congr Iff.rfl (exists_congr fun payload => and_congr_right fun hp => ?_)
  rw [hin payload hp, hout payload hp]
  rfl

/-! ## One switch -/

section Switch

variable {mask : ℤ[X]} {s : ℤ} {in₁ in₂ out₁ out₂ : Nat → ℤ[X]}

theorem switchConstraints_hold_iff :
    (∀ k ∈ switchConstraints mask (C s) in₁ in₂ out₁ out₂, k.Holds) ↔
      mask * (C s * (C s - 1)) = 0 ∧ ∀ p < payloadCells,
        mask * (out₁ p - in₁ p - C s * (in₂ p - in₁ p)) = 0 ∧
        mask * (out₂ p - in₂ p + C s * (in₂ p - in₁ p)) = 0 := by
  unfold switchConstraints
  simp only [List.forall_mem_flatMap, List.forall_mem_cons, List.mem_range, List.not_mem_nil,
    false_implies, implies_true, and_true, Constraint.Holds]

/-- A masked row satisfies its constraints, whatever its cells are. -/
theorem switchConstraints_masked :
    ∀ k ∈ switchConstraints 0 (C s) in₁ in₂ out₁ out₂, k.Holds :=
  switchConstraints_hold_iff.mpr ⟨zero_mul _, fun _ _ => ⟨zero_mul _, zero_mul _⟩⟩

theorem switch_boolean : (C s : ℤ[X]) * (C s - 1) = 0 ↔ s = 0 ∨ s = 1 := by
  rw [mul_eq_zero, C_eq_zero, sub_eq_zero, ← C_1, C_inj]

/-- An upper row asks for a boolean switch, and for its pair swapped when it is on. -/
theorem switchConstraints_upper :
    (∀ k ∈ switchConstraints 1 (C s) in₁ in₂ out₁ out₂, k.Holds) ↔
      (s = 0 ∨ s = 1) ∧ ∀ p < payloadCells,
        out₁ p = (if s = 1 then in₂ p else in₁ p) ∧
        out₂ p = (if s = 1 then in₁ p else in₂ p) := by
  rw [switchConstraints_hold_iff]
  simp only [one_mul, switch_boolean]
  refine and_congr_right fun hs => forall₂_congr fun p _ => ?_
  rcases hs with rfl | rfl
  · simp only [C_0, zero_mul, sub_zero, add_zero, sub_eq_zero, zero_ne_one, if_false]
  · simp only [C_1, one_mul, if_true]
    refine and_congr ⟨fun h => ?_, fun h => ?_⟩ ⟨fun h => ?_, fun h => ?_⟩
    · linear_combination h
    · linear_combination h
    · linear_combination h
    · linear_combination h

end Switch

/-! ## One layer -/

/-- The switch bits of a layer: on at the upper rows whose switch is 1. -/
def upperBits (v layer : Nat) (switch : Nat → ℤ) (row : Nat) : Bool :=
  !row.testBit (strideBit v layer) && decide (switch row = 1)

/-- What (N1) to (N3) ask of a row, the cells past the last row included. -/
def RowHolds (v layer : Nat) (prev next : Nat → Nat → ℤ[X]) (switch : Nat → ℤ) (row : Nat) :
    Prop :=
  ∀ k ∈ switchConstraints (C (publicIntColumns (intUpper + strideBit v layer) row))
    (C (switch row)) (prev row) (prev (row + 2 ^ strideBit v layer)) (next row)
    (next (row + 2 ^ strideBit v layer)), k.Holds

/-- The next state is the previous one after the prover's layer, with boolean switches. -/
def LayerApplied (v layer : Nat) (prev next : Nat → Nat → ℤ[X]) (switch : Nat → ℤ) : Prop :=
  (∀ row < 2 ^ v, row.testBit (strideBit v layer) = false → switch row = 0 ∨ switch row = 1) ∧
    ∀ row < 2 ^ v, ∀ p < payloadCells,
      next row p = applyLayer prev v layer (upperBits v layer switch) row p

section Layer

variable {v layer : Nat} {prev next : Nat → Nat → ℤ[X]} {switch : Nat → ℤ} {row : Nat}

theorem strideBit_lt_of_layer (hl : layer < numLayers v) : strideBit v layer < v := by
  unfold numLayers at hl
  unfold strideBit
  split <;> omega

theorem rowHolds_lower (h : row.testBit (strideBit v layer) = true) :
    RowHolds v layer prev next switch row := by
  rw [RowHolds, publicIntColumns_upper, h, if_pos rfl, C_0]
  exact switchConstraints_masked

theorem rowHolds_upper (h : row.testBit (strideBit v layer) = false) :
    RowHolds v layer prev next switch row ↔
      (switch row = 0 ∨ switch row = 1) ∧ ∀ p < payloadCells,
        next row p = prev (source (strideBit v layer) (upperBits v layer switch) row) p ∧
        next (row + 2 ^ strideBit v layer) p =
          prev (source (strideBit v layer) (upperBits v layer switch)
            (row + 2 ^ strideBit v layer)) p := by
  have hbit : upperBits v layer switch row = decide (switch row = 1) := by simp [upperBits, h]
  rw [RowHolds, publicIntColumns_upper, h, if_neg Bool.false_ne_true, C_1,
    switchConstraints_upper, source_upper h, source_lower h, hbit]
  refine and_congr_right fun _ => forall₂_congr fun p _ => ?_
  split <;> simp_all

/-- Every row is the upper row of a switch or the partner of one. -/
theorem rows_hold_iff (hl : layer < numLayers v) {n : Nat} (hn : n = 2 ^ v ∨ n = 2 ^ v - 1) :
    (∀ row < n, RowHolds v layer prev next switch row) ↔
      LayerApplied v layer prev next switch := by
  have hk := strideBit_lt_of_layer hl
  have hpos : 0 < 2 ^ strideBit v layer := by positivity
  -- an upper row has its partner behind it, so it is never the exempt one
  have hupper : ∀ row < 2 ^ v, row.testBit (strideBit v layer) = false → row < n := by
    intro row hrow hbit
    have := add_stride_lt hk hbit hrow
    omega
  constructor
  · intro h
    refine ⟨fun row hrow hbit => ((rowHolds_upper hbit).mp (h row (hupper row hrow hbit))).1,
      fun row hrow p hp => ?_⟩
    rw [applyLayer_apply _ _ _ _ hrow]
    cases hbit : row.testBit (strideBit v layer) with
    | false => exact (((rowHolds_upper hbit).mp (h row (hupper row hrow hbit))).2 p hp).1
    | true =>
      obtain ⟨j, hj, rfl⟩ := exists_upper hbit
      have hlt : j < 2 ^ v := by omega
      exact (((rowHolds_upper hj).mp (h j (hupper j hlt hj))).2 p hp).2
  · rintro ⟨hs, hnext⟩ row hrow
    have hrow : row < 2 ^ v := by omega
    cases hbit : row.testBit (strideBit v layer) with
    | true => exact rowHolds_lower hbit
    | false =>
      have hlow := add_stride_lt hk hbit hrow
      refine (rowHolds_upper hbit).mpr ⟨hs row hrow hbit, fun p hp => ⟨?_, ?_⟩⟩
      · rw [hnext row hrow p hp, applyLayer_apply _ _ _ _ hrow]
      · rw [hnext _ hlow p hp, applyLayer_apply _ _ _ _ hlow]

end Layer

/-- Two network states of an assignment. -/
def stateRow (cell : Nat → Nat → ℤ[X]) (state row payload : Nat) : ℤ[X] :=
  cell (stateCol state payload) row

/-- **Constraints and layers coincide.** On any network the switch constraints hold on
every row, the exempt last one counted or not, exactly when the next state is the layer
applied to the previous one; and for every layout these are the constraints of the
layer, read through its shift list and its public masks. -/
theorem layerConstraints_iff_applyLayer :
    (∀ v layer, layer < numLayers v → ∀ n, n = 2 ^ v ∨ n = 2 ^ v - 1 → ∀ prev next switch,
      (∀ row < n, RowHolds v layer prev next switch row) ↔
        LayerApplied v layer prev next switch) ∧
    ∀ (layout : NetLayout) (layer : Nat), layer < layout.numLayers →
      ∀ n, n = 2 ^ layout.numVars ∨ n = 2 ^ layout.numVars - 1 →
      ∀ (cell : Nat → Nat → ℤ[X]) (int : Nat → Nat → ℤ),
      (∀ k < layout.numVars, ∀ row < 2 ^ layout.numVars,
        int (intUpper + k) row = publicIntColumns (intUpper + k) row) →
      ((∀ row < n, ∀ k ∈ layerConstraints layout (upRow cell int row) (downRow layout cell row)
          layer, k.Holds) ↔
        LayerApplied layout.numVars layer (stateRow cell layer) (stateRow cell (layer + 1))
          (int (layout.intSwitch + layer))) := by
  refine ⟨fun v layer hl n hn prev next switch => rows_hold_iff hl hn,
    fun layout layer hl n hn cell int hpub => ?_⟩
  rw [← rows_hold_iff hl hn]
  refine forall₂_congr fun row hrow => ?_
  have hmask := hpub _ (strideBit_lt_numVars layout hl) row (by omega)
  simp only [layerConstraints_rows layout cell int row hl, hmask]
  rfl

/-- Two rows swapped by the one layer of the smallest network, and the empty states of
the smallest layout with every switch on. -/
theorem layerConstraints_iff_applyLayer_two :
    (LayerApplied 1 0 (fun row _ => C (row : ℤ)) (fun row _ => C (1 - row : ℤ)) fun _ => 1) ∧
    let layout : NetLayout := ⟨3, by decide⟩
    ∀ row < 8, ∀ k ∈ layerConstraints layout (upRow (fun _ _ => 0) publicIntColumns row)
      (downRow layout (fun _ _ => 0) row) 0, k.Holds := by
  refine ⟨(layerConstraints_iff_applyLayer.1 1 0 (by decide) 2 (by decide) _ _ _).mp
    fun row hrow => ?_, ?_⟩
  · interval_cases row
    · refine (rowHolds_upper (by decide)).mpr ⟨.inr rfl, fun p _ => ?_⟩
      simp [source, upperBits, strideBit]
    · exact rowHolds_lower (by decide)
  · intro layout
    refine (layerConstraints_iff_applyLayer.2 layout 0 (by decide) 8 (by decide) (fun _ _ => 0)
      publicIntColumns fun _ _ _ _ => rfl).mpr ⟨fun row _ _ => ?_, fun row hrow p _ => ?_⟩
    · unfold publicIntColumns
      rw [if_neg (by decide)]
      split
      · exact .inr rfl
      · exact .inl rfl
    · rw [applyLayer_apply _ _ _ _ hrow]
      rfl

end Zkmemory.Zincplus
