import Orochimaru.Zkmemory.Zincplus.BuilderRun
import Orochimaru.Zkmemory.Zincplus.Soundness

/-!
# The builder's witness against the constraints

The columns of a successful run satisfy every constraint except, possibly, those that
read the instructions: the first sorted row must be a write and a read must repeat the
address and the value of the row before it. On the sorted rows this is the adjacent-row
check, and so the witness is accepted exactly when the trace is consistent.
-/

namespace Zkmemory.Zincplus

open Access NetLayout Polynomial Columns

namespace BuilderRun

variable {trace : List Record} (run : BuilderRun trace)

/-! ## The columns of a run -/

theorem cell_columns {g p row : Nat} (hg : g < run.layout.numStates) (hp : p < payloadCells) :
    run.columns.cell g p row = (BinaryPoly.ofNat ((run.state g row).payload p).val).toPoly := by
  have hlt : stateCol g p < run.layout.payloadCols := by
    have := Nat.mul_le_mul_right payloadCells (Nat.succ_le_of_lt hg)
    rw [Nat.succ_mul] at this
    simp only [stateCol, payloadCols]
    omega
  have hdiv : stateCol g p / payloadCells = g := by
    rw [stateCol, Nat.mul_comm, Nat.mul_add_div (by decide), Nat.div_eq_of_lt hp, Nat.add_zero]
  have hmod : stateCol g p % payloadCells = p := by
    rw [stateCol, Nat.mul_comm, Nat.mul_add_mod, Nat.mod_eq_of_lt hp]
  simp only [cell, poly, columns, assemble, if_pos hlt, hdiv, hmod]

theorem limb_columns {g p row : Nat} (hg : g < run.layout.numStates) (hp : p < payloadCells) :
    run.columns.limb g p row = ((run.state g row).payload p).val := by
  have h : (run.columns.cell g p row).eval 2 = _ := congrArg (eval 2) (run.cell_columns hg hp)
  rw [eval_cell, BinaryPoly.eval_toPoly, BinaryPoly.value_ofNat (RowLimbs.limb_lt _ _)] at h
  exact_mod_cast h

/-- Adjacent cells differ by zero exactly when their limbs agree. -/
theorem delta_eq_zero_iff {g p row : Nat} (hg : g < run.layout.numStates)
    (hp : p < payloadCells) : run.columns.delta g p row = 0 ↔
      (run.state g row).payload p = (run.state g (row + 1)).payload p := by
  constructor
  · intro h
    have h := congrArg (eval 2) h
    rw [eval_delta, run.limb_columns hg hp, run.limb_columns hg hp, eval_zero] at h
    exact Uint.ext (by omega)
  · intro h
    rw [delta, run.cell_columns hg hp, run.cell_columns hg hp, h, sub_self]

theorem eval_delta_columns {g p row : Nat} (hg : g < run.layout.numStates)
    (hp : p < payloadCells) : (run.columns.delta g p row).eval 2 =
      (((run.state g (row + 1)).payload p).val : ℤ) - ((run.state g row).payload p).val := by
  rw [eval_delta, run.limb_columns hg hp, run.limb_columns hg hp]

section Columns

variable {run} {row : Nat} {s : SortedWitness} {o : OriginalWitness}

theorem const_selector (hs : run.sortedSteps[row]? = some s) {j : Nat} (hj : j < numLexLimbs) :
    run.columns.const (run.layout.intS + j) row = if j = s.selected then 1 else 0 := by
  have hpub : ¬ run.layout.intS + j < run.layout.numPublicIntCols := by
    simp only [intS, intUpper, numPublicIntCols]
    omega
  have hw : run.layout.intS + j < run.layout.intW := by
    simp only [intW]
    omega
  have hiff : run.layout.intS + s.selected = run.layout.intS + j ↔ j = s.selected := by omega
  simp only [const, columns, assemble, if_neg hpub, if_pos hw, hs, Option.elim_some, hiff]
  split <;> simp

/-- The columns from `w` on. -/
theorem const_rest (run : BuilderRun trace) (row j : Nat) :
    run.columns.const (run.layout.intW + j) row = C
      (if j = 0 then (run.sortedSteps[row]?).elim 0 (·.w)
        else if j = 1 then (run.originalSteps[row]?).elim 0 fun s => if s.hi then 1 else 0
        else if j = 2 then (run.originalSteps[row]?).elim 0 fun s => if s.hi then 0 else 1
        else if run.layers (j - 3) row then 1 else 0) := by
  have hpub : ¬ run.layout.intW + j < run.layout.numPublicIntCols := by
    simp only [intW, intS, intUpper, numPublicIntCols]
    omega
  have hw : ¬ run.layout.intW + j < run.layout.intW := by omega
  have h0 : run.layout.intW + j = run.layout.intW ↔ j = 0 := by omega
  have h1 : run.layout.intW + j = run.layout.intTimeHiSel ↔ j = 1 := by
    simp only [intTimeHiSel]
    omega
  have h2 : run.layout.intW + j = run.layout.intTimeLoSel ↔ j = 2 := by
    simp only [intTimeLoSel, intTimeHiSel]
    omega
  have h3 : run.layout.intW + j - run.layout.intSwitch = j - 3 := by
    simp only [intSwitch, intTimeLoSel, intTimeHiSel]
    omega
  simp only [const, columns, assemble, if_neg hpub, if_neg hw, h0, h1, h2, h3]

theorem const_w (hs : run.sortedSteps[row]? = some s) :
    run.columns.const run.layout.intW row = C s.w := by
  simpa [hs] using const_rest run row 0

theorem const_hi (ho : run.originalSteps[row]? = some o) :
    run.columns.const run.layout.intTimeHiSel row = if o.hi then 1 else 0 := by
  have h := const_rest run row 1
  simp only [ho, Option.elim_some] at h
  refine h.trans ?_
  cases o.hi <;> simp

theorem const_lo (ho : run.originalSteps[row]? = some o) :
    run.columns.const run.layout.intTimeLoSel row = if o.hi then 0 else 1 := by
  have h := const_rest run row 2
  simp only [ho, Option.elim_some] at h
  refine h.trans ?_
  cases o.hi <;> simp

theorem const_switch (run : BuilderRun trace) (row layer : Nat) :
    run.columns.const (run.layout.intSwitch + layer) row =
      if run.layers layer row then 1 else 0 := by
  have h := const_rest run row (3 + layer)
  rw [if_neg (by omega), if_neg (by omega), if_neg (by omega), Nat.add_sub_cancel_left,
    ← Nat.add_assoc] at h
  refine h.trans ?_
  split <;> simp

theorem publicFixed (run : BuilderRun trace) : run.columns.PublicFixed run.layout :=
  fun _ hcol _ _ => if_pos hcol

theorem slack_sorted (hs : run.sortedSteps[row]? = some s) :
    run.columns.poly run.layout.bpSlackSorted row = (BinaryPoly.ofNat s.slack).toPoly := by
  simp [poly, columns, assemble, bpSlackSorted, hs]

theorem slack_original (ho : run.originalSteps[row]? = some o) :
    run.columns.poly run.layout.bpSlackOriginal row = (BinaryPoly.ofNat o.slack).toPoly := by
  simp [poly, columns, assemble, bpSlackSorted, bpSlackOriginal, ho]

/-! ## Equations of a row -/

theorem const_isFirst (run : BuilderRun trace) (row : Nat) :
    run.columns.const intIsFirst row = if row = 0 then 1 else 0 := by
  have hpub : intIsFirst < run.layout.numPublicIntCols := by
    simp only [intIsFirst, numPublicIntCols]
    omega
  simp only [const, columns, assemble, if_pos hpub, publicIntColumns, if_true]
  split <;> simp

theorem state_zero (run : BuilderRun trace) (row : Nat) :
    run.state 0 row = rowsOf run.sortedRecords row := rfl

theorem instr_boolean (records : List Record) (row : Nat) :
    ((rowsOf records row).payload plInstr).val = 0 ∨
      ((rowsOf records row).payload plInstr).val = 1 := by
  rw [rowsOf, RowLimbs.instr_val]
  split
  · exact .inr rfl
  · exact .inl rfl

theorem instr_cell (run : BuilderRun trace) (row : Nat) :
    run.columns.cell 0 plInstr row =
      C (((rowsOf run.sortedRecords row).payload plInstr).val : ℤ) := by
  rw [run.cell_columns (Nat.succ_pos _) (by decide), state_zero]
  rcases instr_boolean run.sortedRecords row with h | h
  · rw [h, BinaryPoly.toPoly_zero]
    simp
  · rw [h, BinaryPoly.toPoly_one]
    simp

/-- The running sum of the selectors is one from the selected position on. -/
theorem selectors_sum (hs : run.sortedSteps[row]? = some s) {j : Nat} (hj : j < numLexLimbs) :
    runningSum (fun j => run.columns.const (run.layout.intS + j) row) j =
      if s.selected ≤ j then 1 else 0 := by
  induction j with
  | zero =>
    rw [runningSum, const_selector hs hj]
    have hiff : 0 = s.selected ↔ s.selected ≤ 0 := by omega
    simp only [hiff]
  | succ j ih =>
    rw [runningSum, ih (by omega), const_selector hs hj]
    rcases Nat.lt_trichotomy s.selected (j + 1) with h | h | h
    · rw [if_pos (by omega), if_neg (by omega), if_pos (by omega), add_zero]
    · rw [if_neg (by omega), if_pos (by omega), if_pos (by omega), zero_add]
    · rw [if_neg (by omega), if_neg (by omega), if_neg (by omega), add_zero]

theorem aSame_eq (hs : run.sortedSteps[row]? = some s) (hsel : s.selected < numLexLimbs) :
    run.columns.const (run.layout.intS + numAddrLimbs) row +
        run.columns.const (run.layout.intS + (numAddrLimbs + 1)) row =
      if numAddrLimbs ≤ s.selected then 1 else 0 := by
  simp only [numLexLimbs, numTimeLimbs] at hsel
  rw [const_selector hs (by decide), const_selector hs (by decide)]
  by_cases h : numAddrLimbs ≤ s.selected
  · rw [if_pos h]
    by_cases h8 : numAddrLimbs = s.selected
    · rw [if_pos h8, if_neg (by omega), add_zero]
    · rw [if_neg h8, if_pos (by omega), zero_add]
  · rw [if_neg h, if_neg (by omega), if_neg (by omega), add_zero]

/-- The equations no trace can break. -/
theorem sorted_frame (hs : run.sortedSteps[row]? = some s)
    (hf : s.Fits (rowsOf run.sortedRecords row) (rowsOf run.sortedRecords (row + 1))) :
    (∀ j < numLexLimbs, (1 - runningSum (fun j => run.columns.const (run.layout.intS + j) row) j) *
      run.columns.delta 0 (plAddr + j) row = 0) ∧
    (runningSum (fun j => run.columns.const (run.layout.intS + j) row *
      run.columns.delta 0 (plAddr + j) row) (numLexLimbs - 1) - 1 -
        run.columns.poly run.layout.bpSlackSorted row).eval 2 = 0 := by
  have hcell : ∀ j < numLexLimbs, plAddr + j < payloadCells := fun j hj => by
    rw [plAddr, Nat.zero_add]
    exact Nat.lt_trans hj (by decide)
  constructor
  · intro j hj
    rw [selectors_sum hs hj]
    by_cases h : s.selected ≤ j
    · rw [if_pos h, sub_self, zero_mul]
    · rw [(run.delta_eq_zero_iff (Nat.succ_pos _) (hcell j hj)).mpr (hf.before j (by omega)),
        mul_zero]
  · have hsel := hf.selected
    rw [eval_sub, eval_sub, eval_runningSum, slack_sorted hs, BinaryPoly.eval_toPoly,
      BinaryPoly.value_ofNat hf.slack, eval_one,
      runningSum_congr (g := fun j => (if j = s.selected then 1 else 0) *
        (run.columns.delta 0 (plAddr + j) row).eval 2) fun j hj => by
          rw [eval_mul, const_selector hs (Nat.lt_of_le_of_lt hj (by decide))]
          split <;> simp,
      runningSum_selected (Nat.le_sub_one_of_lt hsel) (if_pos rfl) fun j _ hj => if_neg hj,
      run.eval_delta_columns (Nat.succ_pos _) (hcell _ hsel), state_zero, state_zero, hf.increase]
    push_cast
    ring

/-- What is left of the sorted-trace equations. -/
theorem sortedEqs_iff (hs : run.sortedSteps[row]? = some s)
    (hf : s.Fits (rowsOf run.sortedRecords row) (rowsOf run.sortedRecords (row + 1))) :
    run.columns.SortedEqs run.layout row ↔
      (row = 0 → ((rowsOf run.sortedRecords 0).payload plInstr).val = 1) ∧
      (((rowsOf run.sortedRecords (row + 1)).payload plInstr).val = 0 →
        numAddrLimbs ≤ s.selected ∧ ∀ j < numValueLimbs,
          (rowsOf run.sortedRecords row).payload (plValue + j) =
            (rowsOf run.sortedRecords (row + 1)).payload (plValue + j)) := by
  have hval : ∀ j < numValueLimbs, plValue + j < payloadCells := by decide
  have hsame := aSame_eq hs hf.selected
  have hinstr := instr_boolean run.sortedRecords (row + 1)
  constructor
  · intro h
    refine ⟨fun h0 => ?_, fun hread => ?_⟩
    · have h1 := congrArg (eval 2) h.s1
      rw [const_isFirst, if_pos h0, one_mul, instr_cell, eval_sub, eval_C, eval_one, eval_zero,
        h0] at h1
      omega
    · have h9 := h.s9
      rw [hsame, instr_cell, hread] at h9
      have hge : numAddrLimbs ≤ s.selected := by
        by_contra hlt
        rw [if_neg hlt] at h9
        simp at h9
      refine ⟨hge, fun j hj => ?_⟩
      have h8 := h.s8 j hj
      rw [const_w hs, hf.w, if_pos hge, hread] at h8
      have hdelta : run.columns.delta 0 (plValue + j) row = 0 := by simpa using h8
      exact (run.delta_eq_zero_iff (Nat.succ_pos _) (hval j hj)).mp hdelta
  · rintro ⟨hfirst, hread⟩
    obtain ⟨h5, h6⟩ := sorted_frame hs hf
    refine ⟨?_, ?_, fun j hj => ?_, ?_, h5, h6, ?_, fun j hj => ?_, ?_⟩
    · rw [const_isFirst, instr_cell]
      by_cases h0 : row = 0
      · rw [h0, hfirst h0]
        simp
      · rw [if_neg h0, zero_mul]
    · rw [instr_cell]
      rcases hinstr with h | h <;> simp [h]
    · rw [const_selector hs hj]
      split <;> simp
    · rw [selectors_sum hs (by decide), if_pos (Nat.le_sub_one_of_lt hf.selected), sub_self]
    · rw [const_w hs, hsame, instr_cell, hf.w]
      by_cases hge : numAddrLimbs ≤ s.selected
      · simp [hge]
      · simp [hge]
    · rw [const_w hs, hf.w]
      rcases hinstr with h | h
      · rw [(run.delta_eq_zero_iff (Nat.succ_pos _) (hval j hj)).mpr ((hread h).2 j hj), mul_zero]
      · simp [h]
    · rw [hsame, instr_cell]
      rcases hinstr with h | h
      · simp [(hread h).1]
      · simp [h]

theorem state_last (run : BuilderRun trace) (hrow : row < 2 ^ run.layout.numVars) :
    run.state run.layout.originalState row = rowsOf run.originalRecords row := by
  rw [originalState_eq]
  exact run.routed row hrow

theorem original_state_lt (run : BuilderRun trace) :
    run.layout.originalState < run.layout.numStates := by
  rw [originalState_eq]
  exact Nat.lt_succ_self _

/-- The original-trace equations hold on every run that starts at time zero. -/
theorem originalEqs (ho : run.originalSteps[row]? = some o)
    (hf : o.Fits (rowsOf run.originalRecords row) (rowsOf run.originalRecords (row + 1)))
    (hrow : row + 1 < 2 ^ run.layout.numVars)
    (hfirst : ∀ j < numTimeLimbs, (rowsOf run.originalRecords 0).payload (plTime + j) = .ofNat 0) :
    run.columns.OriginalEqs run.layout row := by
  have hcur := state_last run (Nat.lt_of_succ_lt hrow)
  have hnext := state_last run hrow
  have hg := original_state_lt run
  have hzero : ∀ j < numTimeLimbs, run.columns.const intIsFirst row *
      run.columns.cell run.layout.originalState (plTime + j) row = 0 := by
    intro j hj
    rw [const_isFirst]
    by_cases h0 : row = 0
    · rw [run.cell_columns hg (by decide +revert), hcur, h0, hfirst j hj]
      exact mul_eq_zero_of_right _ BinaryPoly.toPoly_zero
    · rw [if_neg h0, zero_mul]
  have hslack : (run.columns.poly run.layout.bpSlackOriginal row).eval 2 = o.slack := by
    rw [slack_original ho, BinaryPoly.eval_toPoly, BinaryPoly.value_ofNat hf.slack]
  have hinc := hf.increase
  refine ⟨hzero 0 (by decide), hzero 1 (by decide), ?_, ?_, ?_, ?_, ?_⟩
  · rw [const_hi ho]
    split <;> simp
  · rw [const_lo ho]
    split <;> simp
  · rw [const_hi ho, const_lo ho]
    split <;> simp
  · rw [const_hi ho]
    split
    case isTrue => rw [sub_self, zero_mul]
    case isFalse h =>
      rw [(run.delta_eq_zero_iff hg (by decide)).mpr, mul_zero]
      rw [hcur, hnext]
      exact hf.before (by simpa using h)
  · rw [eval_sub, eval_sub, eval_add, eval_mul, eval_mul, run.eval_delta_columns hg (by decide),
      run.eval_delta_columns hg (by decide), hslack, const_hi ho, const_lo ho, hcur, hnext]
    split at hinc
    case isTrue h =>
      simp only [h, if_true, eval_one, eval_zero]
      omega
    case isFalse h =>
      simp only [h, Bool.false_eq_true, if_false, eval_one, eval_zero]
      omega

/-- The network equations hold on every run. -/
theorem layerEqs (run : BuilderRun trace) {layer : Nat} (hl : layer < run.layout.numLayers)
    (hrow : row < 2 ^ run.layout.numVars) : run.columns.LayerEqs run.layout row layer := by
  have hk := strideBit_lt_numVars run.layout hl
  have hmask : run.columns.const (intUpper + strideBit run.layout.numVars layer) row =
      if row.testBit (strideBit run.layout.numVars layer) then 0 else 1 := by
    rw [const, publicFixed run _ (by simp only [numPublicIntCols, intUpper]; omega) row hrow,
      publicIntColumns_upper]
    split <;> simp
  have hstep : ∀ i < 2 ^ run.layout.numVars, run.state (layer + 1) i = run.state layer
      (Switching.source (strideBit run.layout.numVars layer) (run.layers layer) i) :=
    fun i hi => applyLayer_apply _ _ _ _ hi
  have hin : layer < run.layout.numStates := Nat.lt_succ_of_lt hl
  have hout : layer + 1 < run.layout.numStates := Nat.succ_lt_succ hl
  cases hbit : row.testBit (strideBit run.layout.numVars layer) with
  | true =>
    rw [hbit, if_pos rfl] at hmask
    exact ⟨by rw [hmask, zero_mul], fun p _ => by rw [hmask, zero_mul],
      fun p _ => by rw [hmask, zero_mul]⟩
  | false =>
    have hlow := Switching.add_stride_lt hk hbit hrow
    have hupper := (hstep row hrow).trans (congrArg _ (Switching.source_upper hbit))
    have hlower := (hstep _ hlow).trans (congrArg _ (Switching.source_lower hbit))
    refine ⟨?_, fun p hp => ?_, fun p hp => ?_⟩
    · rw [const_switch]
      split <;> simp
    · rw [run.cell_columns hout hp, hupper, run.cell_columns hin hp, run.cell_columns hin hp,
        const_switch, NetLayout.stride]
      split <;> simp
    · rw [NetLayout.stride, run.cell_columns hout hp, hlower, run.cell_columns hin hp,
        run.cell_columns hin hp, const_switch]
      split <;> simp

end Columns

/-! ## Acceptance is consistency -/

theorem sortedRecords_length (run : BuilderRun trace) :
    run.sortedRecords.length = 2 ^ run.layout.numVars := by
  rw [sortedRecords, List.length_append, (sortTrace_perm trace).length_eq, run.rows.length]

/-- The adjacent-row check on a list, by position. -/
theorem linked_iff_getD {records : List Record} (hne : 0 < records.length) :
    Linked records ↔ (records.getD 0 default).instruction = .write ∧
      ∀ i, i + 1 < records.length → (records.getD (i + 1) default).instruction = .read →
        (records.getD i default).address = (records.getD (i + 1) default).address ∧
          (records.getD i default).value = (records.getD (i + 1) default).value := by
  have hread : ∀ r : Record, isWrite r = false ↔ r.instruction = .read := by
    intro r
    change (r.instruction == .write) = false ↔ _
    cases r.instruction <;> decide
  refine and_congr ?_ ?_
  · rw [getD_eq_getElem hne, List.head?_eq_getElem?, List.getElem?_eq_getElem hne]
    simp [isWrite]
  · rw [List.isChain_iff_getElem]
    refine forall₂_congr fun i hi => ?_
    rw [hread, getD_eq_getElem hi, getD_eq_getElem (Nat.lt_of_succ_lt hi)]
    rfl

/-- On two rows of the sorted order, the selected limb is a time limb exactly when the
address is unchanged. -/
theorem selected_iff {a b : Record} {s : SortedWitness}
    (hf : s.Fits (.fromRecord a) (.fromRecord b)) :
    numAddrLimbs ≤ s.selected ↔ a.address = b.address := by
  rw [Uint.ext_iff, ← RowLimbs.address_word, ← RowLimbs.address_word, RowLimbs.word_eq_iff]
  refine ⟨fun h j hj => hf.before j (by omega), fun h => ?_⟩
  by_contra hlt
  have := hf.increase
  rw [h s.selected (by omega)] at this
  omega

/-- **The witness of a run is accepted exactly when its sorted rows pass the
adjacent-row check.** -/
theorem satisfied_iff_linked (run : BuilderRun trace) (hadm : Admissible trace) :
    run.columns.Satisfied run.layout ↔ Linked run.sortedRecords := by
  have hlen := run.sortedRecords_length
  have hpos : 0 < run.sortedRecords.length := by rw [hlen]; positivity
  have hwrite : ∀ i, ((rowsOf run.sortedRecords i).payload plInstr).val = 1 ↔
      (run.sortedRecords.getD i default).instruction = .write := by
    intro i
    rw [rowsOf, RowLimbs.instr_val]
    split <;> simp_all
  have hread : ∀ i, ((rowsOf run.sortedRecords i).payload plInstr).val = 0 ↔
      (run.sortedRecords.getD i default).instruction = .read := by
    intro i
    rw [rowsOf, RowLimbs.instr_val]
    cases (run.sortedRecords.getD i default).instruction <;> simp
  have hvalue : ∀ i, (∀ j < numValueLimbs, (rowsOf run.sortedRecords i).payload (plValue + j) =
      (rowsOf run.sortedRecords (i + 1)).payload (plValue + j)) ↔
      (run.sortedRecords.getD i default).value = (run.sortedRecords.getD (i + 1) default).value := by
    intro i
    rw [← RowLimbs.word_eq_iff, rowsOf, rowsOf, RowLimbs.value_word, RowLimbs.value_word,
      Uint.ext_iff]
  have hfirst : ∀ j < numTimeLimbs,
      (rowsOf run.originalRecords 0).payload (plTime + j) = .ofNat 0 := by
    obtain ⟨first, hfirst⟩ : ∃ first, trace.head? = some first :=
      ⟨_, List.head?_eq_some_head hadm.nonempty⟩
    have hhead : run.originalRecords.getD 0 default = first := by
      cases trace with
      | nil => cases hfirst
      | cons r l => cases hfirst; rfl
    intro j hj
    rw [rowsOf, hhead, RowLimbs.payload_time _ hj]
    simp [RowLimbs.fromRecord, splitU64, hadm.first first hfirst]
  -- at each row the sorted-trace equations are the two conditions on the records
  have hrow : ∀ row < 2 ^ run.layout.numVars - 1, run.columns.SortedEqs run.layout row ↔
      (row = 0 → (run.sortedRecords.getD 0 default).instruction = .write) ∧
      ((run.sortedRecords.getD (row + 1) default).instruction = .read →
        (run.sortedRecords.getD row default).address =
            (run.sortedRecords.getD (row + 1) default).address ∧
          (run.sortedRecords.getD row default).value =
            (run.sortedRecords.getD (row + 1) default).value) := by
    intro row hrow
    obtain ⟨s, hs, hf⟩ := run.sortedFits row hrow
    rw [sortedEqs_iff hs hf, hwrite, hread, selected_iff hf, hvalue]
    rfl
  rw [satisfied_iff, linked_iff_getD hpos, hlen]
  constructor
  · intro h
    refine ⟨((hrow 0 (zero_lt_last _)).mp (h 0 (zero_lt_last _)).1).1 rfl, fun i hi => ?_⟩
    exact ((hrow i (by omega)).mp (h i (by omega)).1).2
  · rintro ⟨hw, hr⟩ row hlt
    obtain ⟨o, ho, hof⟩ := run.originalFits row hlt
    exact ⟨(hrow row hlt).mpr ⟨fun _ => hw, hr row (by omega)⟩,
      originalEqs ho hof (by omega) hfirst, fun layer hl => layerEqs run hl (by omega)⟩

theorem satisfied_iff_consistent (run : BuilderRun trace) (hadm : Admissible trace) :
    run.columns.Satisfied run.layout ↔ Consistent trace := by
  have hstrict := sorted_strict hadm.increasing
  have hsorted : (sortTrace trace).Pairwise fun p r : Record => addr p ≤ addr r := by
    refine hstrict.imp fun {a b} h => ?_
    change a.address.val ≤ b.address.val
    have ha := a.timeLog.isLt
    have hb := b.timeLog.isLt
    rw [RowLimbs.key, RowLimbs.key] at h
    omega
  have htime : TimeOrdered (fun r : Record => r.timeLog.val) (sortTrace trace) := by
    refine hstrict.imp fun {a b} h (he : a.address = b.address) => ?_
    change a.timeLog.val < b.timeLog.val
    rw [RowLimbs.key, RowLimbs.key, he] at h
    omega
  have htrace : TimeOrdered (fun r : Record => r.timeLog.val) trace :=
    timeOrdered_of_time _ (hadm.increasing.imp fun h => Uint.lt_iff.mp h)
  rw [satisfied_iff_linked run hadm, sortedRecords,
    linked_replay run.rows.last fun r hr => (run.rows.replay r hr).2,
    linked_iff_consistent hsorted, consistent_perm _ (sortTrace_perm trace) htime htrace]

end BuilderRun

/-- **The builder's witness is accepted exactly on consistent traces.** -/
theorem buildUairTrace_satisfied_iff {trace : List Record} {c : Columns} {layout : NetLayout}
    (h : buildUairTrace trace = .ok (c, layout)) : c.Satisfied layout ↔ Consistent trace := by
  have hadm := admissible_of_ok h
  obtain ⟨run, hrun⟩ := buildUairTrace_ok hadm
  rw [h] at hrun
  cases hrun
  exact run.satisfied_iff_consistent hadm

/-- The maximum address accessed first, a gap in time, and a read. -/
def gapTrace : List Record :=
  [⟨.ofNat 0, .ofNat 0, .write, .ofNat (2 ^ 256 - 1), .ofNat 5⟩,
    ⟨.ofNat 2, .ofNat 0, .write, .ofNat 7, .ofNat 9⟩,
    ⟨.ofNat 5, .ofNat 0, .read, .ofNat 7, .ofNat 9⟩]

theorem gapTrace_admissible : Admissible gapTrace := by
  refine ⟨by decide, by decide, by decide, by decide, fun r hr => ?_⟩
  cases hr
  decide

theorem buildUairTrace_satisfied_iff_gapTrace : ∃ c layout,
    buildUairTrace gapTrace = .ok (c, layout) ∧ (c.Satisfied layout ↔ Consistent gapTrace) := by
  obtain ⟨run, hrun⟩ := buildUairTrace_ok gapTrace_admissible
  exact ⟨_, _, hrun, buildUairTrace_satisfied_iff hrun⟩

end Zkmemory.Zincplus
