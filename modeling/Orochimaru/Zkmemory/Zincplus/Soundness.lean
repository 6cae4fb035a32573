import Orochimaru.Lib.Accesses
import Orochimaru.Lib.Switching
import Orochimaru.Zkmemory.Zincplus.Equations

/-!
# Soundness of the UAIR

Any assignment that satisfies the constraints encodes a consistent trace. The switch
layers make the last state a permutation of the first; the selectors and slacks make
the first state strictly increasing in `(address, time_log)` and the last one in
`time_log`; and the adjacent-row equations of the first state then decide every read.
-/

namespace Zkmemory.Zincplus

open Access NetLayout Polynomial Positional Switching

/-- A decoded row; the instruction is the number its cell stands for. -/
@[ext] structure Row where
  address : B256
  timeLog : U64
  stackDepth : U64
  value : B256
  instr : Nat
  deriving DecidableEq

instance : Access Row B256 B256 where
  isWrite r := r.instr == 1
  addr r := r.address
  value r := r.value

namespace Columns

variable (c : Columns)

/-- A payload cell of a state, read at `X = 2`. -/
def limb (g p row : Nat) : Nat := (c.binaryPoly (stateCol g p) row).value

/-- `n` limbs from payload cell `p` on, most significant first. -/
def word (g p n row : Nat) : Uint (4 * n) where
  val := beVal (2 ^ 32) n fun j => c.limb g (p + j) row
  isLt := by
    rw [show 256 ^ (4 * n) = (2 ^ 32) ^ n by rw [pow_mul]; norm_num]
    exact beVal_lt fun _ _ => BinaryPoly.value_lt _

def decode (g row : Nat) : Row where
  address := c.word g plAddr numAddrLimbs row
  timeLog := c.word g plTime numTimeLimbs row
  stackDepth := c.word g plStackDepth numStackDepthLimbs row
  value := c.word g plValue numValueLimbs row
  instr := c.limb g plInstr row

/-- The rows of a network state. -/
def trace (layout : NetLayout) (g : Nat) : List Row :=
  (List.range (2 ^ layout.numVars)).map (c.decode g)

/-- The limbs compared lexicographically, `address || time_log`. -/
def lexKey (g row : Nat) : Nat := beVal (2 ^ 32) numLexLimbs fun j => c.limb g (plAddr + j) row

theorem lexKey_eq (g row : Nat) : c.lexKey g row =
    (c.decode g row).address.val * 2 ^ 64 + (c.decode g row).timeLog.val := by
  rw [lexKey, numLexLimbs, beVal_add, show (2 ^ 32) ^ numTimeLimbs = 2 ^ 64 by decide]
  rfl

variable {c} {layout : NetLayout}

theorem eval_cell (g p row : Nat) : (c.cell g p row).eval 2 = (c.limb g p row : ℤ) :=
  BinaryPoly.eval_toPoly _

theorem eval_const (col row : Nat) : (c.const col row).eval 2 = c.int col row := eval_C

theorem eval_delta (g p row : Nat) :
    (c.delta g p row).eval 2 = (c.limb g p (row + 1) : ℤ) - c.limb g p row := by
  rw [delta, eval_sub, eval_cell, eval_cell]

/-! ## The network -/

theorem upper_public (hpub : c.PublicFixed layout) {k row : Nat} (hk : k < layout.numVars)
    (hrow : row < 2 ^ layout.numVars) (hbit : row.testBit k = false) :
    c.int (intUpper + k) row = 1 := by
  rw [hpub _ (by simp only [numPublicIntCols, intUpper]; omega) row hrow,
    publicIntColumns_upper, hbit]
  rfl

/-- An upper wire is never the exempt last row. -/
theorem upper_not_last {v k row : Nat} (hk : k < v) (hrow : row < 2 ^ v)
    (hbit : row.testBit k = false) : row < 2 ^ v - 1 := by
  have := add_stride_lt hk hbit hrow
  have : 0 < 2 ^ k := by positivity
  omega

/-- The switch bits of a layer. -/
def switchBit (c : Columns) (layout : NetLayout) (layer row : Nat) : Bool :=
  decide (c.int (layout.intSwitch + layer) row = 1)

theorem const_boolean {col row : Nat} (h : c.const col row * (c.const col row - 1) = 0) :
    c.int col row = 0 ∨ c.int col row = 1 := by
  rcases mul_eq_zero.mp h with h | h
  · exact .inl (C_eq_zero.mp h)
  · exact .inr (C_injective (sub_eq_zero.mp h))

/-- One layer: every payload cell comes from the wire its switch selects. -/
theorem cell_layer (hpub : c.PublicFixed layout) (hsat : c.Satisfied layout) {layer p row : Nat}
    (hl : layer < layout.numLayers) (hp : p < payloadCells) (hrow : row < 2 ^ layout.numVars) :
    c.cell (layer + 1) p row =
      c.cell layer p (source (strideBit layout.numVars layer) (c.switchBit layout layer) row) := by
  have hk := strideBit_lt_numVars layout hl
  -- both wires of a switch, at its upper one
  have hswitch : ∀ j < 2 ^ layout.numVars, j.testBit (strideBit layout.numVars layer) = false →
      c.cell (layer + 1) p j =
          (if c.switchBit layout layer j then c.cell layer p (j + layout.stride layer)
            else c.cell layer p j) ∧
        c.cell (layer + 1) p (j + layout.stride layer) =
          (if c.switchBit layout layer j then c.cell layer p j
            else c.cell layer p (j + layout.stride layer)) := by
    intro j hj hbit
    have heq := ((satisfied_iff.mp hsat) j (upper_not_last hk hj hbit)).2.2 layer hl
    have hmask : c.const (intUpper + strideBit layout.numVars layer) j = 1 := by
      rw [const, upper_public hpub hk hj hbit, C_1]
    obtain ⟨h1, h2, h3⟩ := heq
    rw [hmask, one_mul] at h1
    have h2 := h2 p hp
    have h3 := h3 p hp
    rw [hmask, one_mul] at h2 h3
    rcases const_boolean h1 with hs | hs
    · have hc : c.const (layout.intSwitch + layer) j = 0 := by rw [const, hs, C_0]
      rw [hc, zero_mul, sub_zero] at h2
      rw [hc, zero_mul, add_zero] at h3
      simp only [switchBit, hs, zero_ne_one, decide_false, Bool.false_eq_true, if_false]
      exact ⟨sub_eq_zero.mp h2, sub_eq_zero.mp h3⟩
    · have hc : c.const (layout.intSwitch + layer) j = 1 := by rw [const, hs, C_1]
      rw [hc, one_mul] at h2 h3
      simp only [switchBit, hs, decide_true, if_true]
      exact ⟨by linear_combination h2, by linear_combination h3⟩
  cases hbit : row.testBit (strideBit layout.numVars layer) with
  | false =>
    rw [(hswitch row hrow hbit).1, source_upper hbit, apply_ite (c.cell layer p)]
    rfl
  | true =>
    obtain ⟨j, hj, rfl⟩ := exists_upper hbit
    have hlt : j < 2 ^ layout.numVars := Nat.lt_of_le_of_lt (Nat.le_add_right _ _) hrow
    rw [source_lower hj, apply_ite (c.cell layer p)]
    exact (hswitch j hlt hj).2

/-- The network the switch columns describe. -/
def network (c : Columns) (layout : NetLayout) : List (Nat × (Nat → Bool)) :=
  (List.range layout.numLayers).map fun layer =>
    (strideBit layout.numVars layer, c.switchBit layout layer)

theorem decode_original (hpub : c.PublicFixed layout) (hsat : c.Satisfied layout) {row : Nat}
    (hrow : row < 2 ^ layout.numVars) :
    c.decode layout.originalState row = c.decode 0 (sources (c.network layout) row) := by
  have hlimb : ∀ p < payloadCells, c.limb layout.originalState p row =
      c.limb 0 p (sources (c.network layout) row) := by
    intro p hp
    have hcell : c.cell layout.numLayers p row = c.cell 0 p (sources (c.network layout) row) :=
      states_eq_sources
        (fun layer => (strideBit layout.numVars layer, c.switchBit layout layer))
        (fun g => c.cell g p) (fun l hl => strideBit_lt_numVars layout hl)
        (fun l hl i hi => cell_layer hpub hsat hl hp hi) hrow
    rw [originalState_eq]
    have := congrArg (eval 2) hcell
    rw [eval_cell, eval_cell] at this
    exact_mod_cast this
  have hword : ∀ p n, p + n ≤ payloadCells →
      c.word layout.originalState p n row = c.word 0 p n (sources (c.network layout) row) :=
    fun p n h => Uint.ext (beVal_congr fun j hj => hlimb (p + j) (by omega))
  apply Row.ext
  · exact hword plAddr numAddrLimbs (by decide)
  · exact hword plTime numTimeLimbs (by decide)
  · exact hword plStackDepth numStackDepthLimbs (by decide)
  · exact hword plValue numValueLimbs (by decide)
  · exact hlimb plInstr (by decide)

/-- The sorted trace is a permutation of the original one. -/
theorem trace_perm (hpub : c.PublicFixed layout) (hsat : c.Satisfied layout) :
    (c.trace layout 0).Perm (c.trace layout layout.originalState) := by
  have hlt : ∀ l ∈ c.network layout, l.1 < layout.numVars := by
    intro l hl
    obtain ⟨layer, hlayer, rfl⟩ := List.mem_map.mp hl
    exact strideBit_lt_numVars layout (List.mem_range.mp hlayer)
  have horig : c.trace layout layout.originalState =
      (List.range (2 ^ layout.numVars)).map fun row =>
        c.decode 0 (sources (c.network layout) row) :=
    List.map_congr_left fun row hrow => decode_original hpub hsat (List.mem_range.mp hrow)
  rw [horig]
  exact (map_range_perm (fun i hi => sources_lt hlt hi)
    (fun i _ j _ h => sources_injective _ h) _).symm

/-! ## Selectors -/

theorem runningSum_eq_sum (f : Nat → ℤ) (n : Nat) :
    runningSum f n = ∑ j ∈ Finset.range (n + 1), f j := by
  induction n with
  | zero => simp [runningSum]
  | succ n ih => rw [runningSum, ih, ← Finset.sum_range_succ]

theorem eval_runningSum (f : Nat → ℤ[X]) (n : Nat) :
    (runningSum f n).eval 2 = runningSum (fun j => (f j).eval 2) n := by
  induction n with
  | zero => rfl
  | succ n ih => rw [runningSum, eval_add, ih, runningSum]

/-- Boolean selectors of sum one select one position. -/
theorem exists_selected {s : Nat → ℤ} {n : Nat} (hbool : ∀ j ≤ n, s j = 0 ∨ s j = 1)
    (hsum : runningSum s n = 1) : ∃ k ≤ n, s k = 1 ∧ ∀ j ≤ n, j ≠ k → s j = 0 := by
  rw [runningSum_eq_sum] at hsum
  obtain ⟨k, hk, hne⟩ : ∃ k ∈ Finset.range (n + 1), s k ≠ 0 :=
    Finset.exists_ne_zero_of_sum_ne_zero (by rw [hsum]; decide)
  have hkn : k ≤ n := Nat.lt_succ_iff.mp (Finset.mem_range.mp hk)
  have hone : s k = 1 := (hbool k hkn).resolve_left hne
  refine ⟨k, hkn, hone, fun j hj hjk => ?_⟩
  rw [← Finset.add_sum_erase _ _ hk, hone] at hsum
  have hnonneg : ∀ i ∈ (Finset.range (n + 1)).erase k, 0 ≤ s i := by
    intro i hi
    have := Finset.mem_range.mp (Finset.mem_of_mem_erase hi)
    rcases hbool i (by omega) with h | h <;> omega
  refine (Finset.sum_eq_zero_iff_of_nonneg hnonneg).mp (by omega) j ?_
  exact Finset.mem_erase.mpr ⟨hjk, Finset.mem_range.mpr (by omega)⟩

/-- The running sum of one-hot selectors is zero before the selected position. -/
theorem runningSum_before {s : Nat → ℤ} {n k j : Nat} (hzero : ∀ j ≤ n, j ≠ k → s j = 0)
    (hk : k ≤ n) (hj : j < k) : runningSum s j = 0 := by
  rw [runningSum_eq_sum]
  refine Finset.sum_eq_zero fun i hi => hzero i ?_ ?_
  · have := Finset.mem_range.mp hi
    omega
  · have := Finset.mem_range.mp hi
    omega

/-- One-hot selectors select a term of a sum. -/
theorem runningSum_selected {s d : Nat → ℤ} {n k : Nat} (hk : k ≤ n) (hone : s k = 1)
    (hzero : ∀ j ≤ n, j ≠ k → s j = 0) : runningSum (fun j => s j * d j) n = d k := by
  rw [runningSum_eq_sum, Finset.sum_eq_single k]
  · rw [hone, one_mul]
  · intro j hj hjk
    have := Finset.mem_range.mp hj
    rw [hzero j (by omega) hjk, zero_mul]
  · intro h
    exact absurd (Finset.mem_range.mpr (by omega)) h

/-! ## The sorted trace -/

/-- What the equations say about two adjacent rows of the sorted trace. -/
structure SortedStep (c : Columns) (row : Nat) : Prop where
  instr : c.limb 0 plInstr (row + 1) = 0 ∨ c.limb 0 plInstr (row + 1) = 1
  key : c.lexKey 0 row < c.lexKey 0 (row + 1)
  read : c.limb 0 plInstr (row + 1) = 0 →
    (c.decode 0 row).address = (c.decode 0 (row + 1)).address ∧
      (c.decode 0 row).value = (c.decode 0 (row + 1)).value

theorem cell_boolean {g p row : Nat} (h : c.cell g p row * (c.cell g p row - 1) = 0) :
    c.limb g p row = 0 ∨ c.limb g p row = 1 := by
  have hint : (c.limb g p row : ℤ) * ((c.limb g p row : ℤ) - 1) = 0 := by
    simpa only [eval_mul, eval_sub, eval_cell, eval_one, eval_zero] using congrArg (eval 2) h
  rcases mul_eq_zero.mp hint with h | h <;> omega

theorem SortedEqs.step {row : Nat} (h : c.SortedEqs layout row) : c.SortedStep row := by
  have hsum : runningSum (fun j => c.int (layout.intS + j) row) (numLexLimbs - 1) = 1 := by
    have := congrArg (eval 2) h.s4
    simp only [eval_sub, eval_runningSum, eval_const, eval_one, eval_zero] at this
    omega
  obtain ⟨k, hk, hone, hzero⟩ := exists_selected
    (fun j hj => const_boolean (h.s3 j (Nat.lt_of_le_of_lt hj (by decide)))) hsum
  have hbefore : ∀ j < k, c.limb 0 (plAddr + j) row = c.limb 0 (plAddr + j) (row + 1) := by
    intro j hj
    have := congrArg (eval 2)
      (h.s5 j (Nat.lt_trans hj (Nat.lt_of_le_of_lt hk (by decide))))
    simp only [eval_mul, eval_sub, eval_one, eval_runningSum, eval_const, eval_delta,
      runningSum_before hzero hk hj, sub_zero, one_mul, eval_zero] at this
    omega
  have hinc : c.limb 0 (plAddr + k) row < c.limb 0 (plAddr + k) (row + 1) := by
    have hslack : (c.poly layout.bpSlackSorted row).eval 2 =
        ((c.binaryPoly layout.bpSlackSorted row).value : ℤ) := BinaryPoly.eval_toPoly _
    have := h.s6
    simp only [eval_sub, eval_one, eval_runningSum, eval_mul, eval_const, eval_delta, hslack,
      runningSum_selected hk hone hzero] at this
    omega
  have hinstr := cell_boolean h.s2
  refine ⟨hinstr, ?_, fun hread => ?_⟩
  · exact beVal_lt_of_first_diff (fun _ _ => BinaryPoly.value_lt _)
      (Nat.lt_of_le_of_lt hk (by decide)) hbefore hinc
  · have h7 := congrArg (eval 2) h.s7
    have h9 := congrArg (eval 2) h.s9
    simp only [eval_sub, eval_mul, eval_add, eval_one, eval_const, eval_cell, hread,
      Nat.cast_zero, eval_zero] at h7 h9
    -- a read keeps the address, so the first difference lies in the time limbs
    have hsame : numAddrLimbs ≤ k := by
      by_contra hlt
      have h₈ : c.int (layout.intS + numAddrLimbs) row = 0 := hzero _ (by decide) (by omega)
      have h₉ : c.int (layout.intS + (numAddrLimbs + 1)) row = 0 := hzero _ (by decide) (by omega)
      rw [h₈, h₉] at h9
      omega
    have hw : c.int layout.intW row = -1 := by omega
    refine ⟨Uint.ext (beVal_congr fun j hj => hbefore j (by omega)), ?_⟩
    refine Uint.ext (beVal_congr fun j hj => ?_)
    have h8 := congrArg (eval 2) (h.s8 j hj)
    simp only [eval_mul, eval_const, eval_delta, hw, eval_zero] at h8
    omega

/-! ## The original trace -/

theorem OriginalEqs.time_lt {row : Nat} (h : c.OriginalEqs layout row) :
    (c.decode layout.originalState row).timeLog <
      (c.decode layout.originalState (row + 1)).timeLog := by
  have h4 := congrArg (eval 2) h.o4
  have h5 := congrArg (eval 2) h.o5
  have h6 := h.o6
  have hslack : (c.poly layout.bpSlackOriginal row).eval 2 =
      ((c.binaryPoly layout.bpSlackOriginal row).value : ℤ) := BinaryPoly.eval_toPoly _
  simp only [eval_add, eval_sub, eval_mul, eval_one, eval_const, eval_delta, hslack,
    eval_zero] at h4 h5 h6
  have hdigit : ∀ j < numTimeLimbs, c.limb layout.originalState (plTime + j) row < 2 ^ 32 :=
    fun _ _ => BinaryPoly.value_lt _
  have hlt : ∀ k < numTimeLimbs,
      (∀ j < k, c.limb layout.originalState (plTime + j) row =
        c.limb layout.originalState (plTime + j) (row + 1)) →
      c.limb layout.originalState (plTime + k) row <
        c.limb layout.originalState (plTime + k) (row + 1) →
      (c.decode layout.originalState row).timeLog <
        (c.decode layout.originalState (row + 1)).timeLog :=
    fun k hk heq hd => beVal_lt_of_first_diff hdigit hk heq hd
  rcases const_boolean h.o3Hi with hhi | hhi
  · have hlo : c.int layout.intTimeLoSel row = 1 := by omega
    simp only [hhi, hlo, zero_mul, zero_add, one_mul, sub_zero] at h5 h6
    refine hlt 1 (by decide) (fun j hj => ?_) (by omega)
    rw [show j = 0 by omega, Nat.add_zero]
    omega
  · have hlo : c.int layout.intTimeLoSel row = 0 := by omega
    simp only [hhi, hlo, zero_mul, add_zero, one_mul] at h6
    refine hlt 0 (by decide) (fun j hj => by omega) ?_
    rw [Nat.add_zero]
    omega

/-! ## Soundness -/

/-- Row 0 is not the exempt one. -/
theorem zero_lt_last (layout : NetLayout) : 0 < 2 ^ layout.numVars - 1 := by
  have hv := layout.inRange.1
  simp only [minNumVars] at hv
  have := Nat.one_lt_two_pow (n := layout.numVars) (by omega)
  omega

theorem first_public (hpub : c.PublicFixed layout) : c.int intIsFirst 0 = 1 := by
  rw [hpub _ (by simp only [numPublicIntCols, intIsFirst]; omega) 0 (by positivity)]
  rfl

theorem trace_isChain {R : Row → Row → Prop} {g : Nat}
    (h : ∀ row < 2 ^ layout.numVars - 1, R (c.decode g row) (c.decode g (row + 1))) :
    (c.trace layout g).IsChain R := by
  rw [trace, List.isChain_map, List.isChain_range]
  exact h

theorem head?_trace (c : Columns) (layout : NetLayout) (g : Nat) :
    (c.trace layout g).head? = some (c.decode g 0) := by
  obtain ⟨n, hn⟩ : ∃ n, 2 ^ layout.numVars = n + 1 :=
    ⟨2 ^ layout.numVars - 1, by have := Nat.two_pow_pos layout.numVars; omega⟩
  rw [trace, hn, List.range_succ_eq_map]
  rfl

theorem sorted_instr_zero (hpub : c.PublicFixed layout) (hsat : c.Satisfied layout) :
    c.limb 0 plInstr 0 = 1 := by
  have h := congrArg (eval 2) ((satisfied_iff.mp hsat) 0 (zero_lt_last layout)).1.s1
  simp only [eval_mul, eval_sub, eval_const, eval_cell, first_public hpub, eval_one, eval_zero,
    one_mul] at h
  omega

/-- The sorted trace passes the adjacent-row check. -/
theorem sorted_linked (hpub : c.PublicFixed layout) (hsat : c.Satisfied layout) :
    Linked (c.trace layout 0) := by
  refine ⟨fun r hr => ?_, trace_isChain fun row hrow hread => ?_⟩
  · rw [head?_trace, Option.mem_some_iff] at hr
    subst hr
    exact beq_iff_eq.mpr (sorted_instr_zero hpub hsat)
  · have hstep := ((satisfied_iff.mp hsat) row hrow).1.step
    exact hstep.read (hstep.instr.resolve_right (beq_eq_false_iff_ne.mp hread))

/-- It lists the accesses of each address in time order. -/
theorem sorted_timeOrdered (hsat : c.Satisfied layout) :
    TimeOrdered (fun r : Row => r.timeLog.val) (c.trace layout 0) := by
  let key : Row → Nat := fun r => r.address.val * 2 ^ 64 + r.timeLog.val
  have hchain : (c.trace layout 0).IsChain fun p r => key p < key r := trace_isChain fun row hrow => by
    have := ((satisfied_iff.mp hsat) row hrow).1.step.key
    rwa [lexKey_eq, lexKey_eq] at this
  have : IsTrans Row fun p r => key p < key r := ⟨fun _ _ _ => Nat.lt_trans⟩
  refine (List.isChain_iff_pairwise.mp hchain).imp fun {p r} hlt (ha : p.address = r.address) => ?_
  change p.timeLog.val < r.timeLog.val
  simp only [key, ha] at hlt
  omega

theorem original_timeLog (hsat : c.Satisfied layout) :
    (c.trace layout layout.originalState).Pairwise fun p r => p.timeLog < r.timeLog := by
  have hchain : (c.trace layout layout.originalState).IsChain fun p r => p.timeLog < r.timeLog :=
    trace_isChain fun row hrow => ((satisfied_iff.mp hsat) row hrow).2.1.time_lt
  have : IsTrans Row fun p r => p.timeLog < r.timeLog := ⟨fun _ _ _ => lt_trans⟩
  exact List.isChain_iff_pairwise.mp hchain

theorem original_first (hpub : c.PublicFixed layout) (hsat : c.Satisfied layout) :
    (c.decode layout.originalState 0).timeLog.val = 0 := by
  obtain ⟨_, h, _⟩ := (satisfied_iff.mp hsat) 0 (zero_lt_last layout)
  have h1 := congrArg (eval 2) h.o1
  have h2 := congrArg (eval 2) h.o2
  simp only [eval_mul, eval_const, eval_cell, first_public hpub, one_mul, eval_zero,
    Nat.cast_eq_zero] at h1 h2
  have hval : (c.decode layout.originalState 0).timeLog.val =
      beVal (2 ^ 32) numTimeLimbs fun j => c.limb layout.originalState (plTime + j) 0 := rfl
  rw [hval, numTimeLimbs, beVal_succ, beVal_succ, beVal_zero, Nat.add_zero, h1, h2]
  norm_num

theorem sorted_instr (hpub : c.PublicFixed layout) (hsat : c.Satisfied layout) :
    ∀ r ∈ c.trace layout 0, r.instr = 0 ∨ r.instr = 1 := by
  intro r hr
  obtain ⟨row, hrow, rfl⟩ := List.mem_map.mp hr
  cases row with
  | zero => exact .inr (sorted_instr_zero hpub hsat)
  | succ row =>
    have hlt := List.mem_range.mp hrow
    exact ((satisfied_iff.mp hsat) row (by omega)).1.step.instr

/-- **Soundness.** Whatever the prover puts into the witness columns, if the constraints
hold then the original trace starts at time zero, increases strictly in time, is a
permutation of the sorted trace, and is consistent. -/
theorem uair_sound (hpub : c.PublicFixed layout) (hsat : c.Satisfied layout) :
    (c.trace layout layout.originalState).head?.map (fun r => r.timeLog.val) = some 0 ∧
      (c.trace layout layout.originalState).Pairwise (fun p r => p.timeLog < r.timeLog) ∧
      (c.trace layout 0).Perm (c.trace layout layout.originalState) ∧
      (∀ r ∈ c.trace layout layout.originalState, r.instr = 0 ∨ r.instr = 1) ∧
      Consistent (c.trace layout layout.originalState) := by
  have hperm := trace_perm hpub hsat
  refine ⟨?_, original_timeLog hsat, hperm, fun r hr => ?_, ?_⟩
  · rw [head?_trace, Option.map_some, original_first hpub hsat]
  · exact sorted_instr hpub hsat r (hperm.mem_iff.mpr hr)
  · exact (consistent_perm _ hperm (sorted_timeOrdered hsat)
      (timeOrdered_of_time _ (original_timeLog hsat))).mp
        (consistent_of_linked (sorted_linked hpub hsat))

/-! ## A satisfying assignment -/

/-- The first row writes a value to address zero and all others read it, each one time step after
the row before it; no switch swaps. -/
def steady (layout : NetLayout) : Columns where
  binaryPoly col row :=
    if col % payloadCells = plTime + 1 then .ofNat row
    else if col % payloadCells = plInstr then .ofNat (if row = 0 then 1 else 0)
    else if col % payloadCells = plValue then .ofNat 7
    else .ofNat 0
  int col row :=
    if col < layout.numPublicIntCols then publicIntColumns col row
    else if col = layout.intS + (plTime + 1) ∨ col = layout.intTimeLoSel then 1
    else if col = layout.intW then -1
    else 0

theorem steady_cell (layout : NetLayout) (g : Nat) {p : Nat} (hp : p < payloadCells) (row : Nat) :
    (steady layout).cell g p row =
      (if p = plTime + 1 then BinaryPoly.ofNat row
        else if p = plInstr then .ofNat (if row = 0 then 1 else 0)
        else if p = plValue then .ofNat 7 else .ofNat 0).toPoly := by
  have hmod : stateCol g p % payloadCells = p := by
    rw [stateCol, Nat.mul_comm, Nat.mul_add_mod, Nat.mod_eq_of_lt hp]
  simp only [cell, poly, steady, hmod]

theorem steady_delta (layout : NetLayout) (g : Nat) {p : Nat} (hp : p < payloadCells)
    (htime : p ≠ plTime + 1) (hinstr : p ≠ plInstr) (row : Nat) :
    (steady layout).delta g p row = 0 := by
  simp only [delta, steady_cell _ _ hp, if_neg htime, if_neg hinstr, sub_self]

theorem steady_delta_time (layout : NetLayout) (g : Nat) {row : Nat} (hrow : row + 1 < 2 ^ 32) :
    ((steady layout).delta g (plTime + 1) row).eval 2 = 1 := by
  rw [delta, steady_cell _ _ (by decide), steady_cell _ _ (by decide), if_pos rfl, if_pos rfl,
    eval_sub, BinaryPoly.eval_toPoly, BinaryPoly.eval_toPoly, BinaryPoly.value_ofNat hrow,
    BinaryPoly.value_ofNat (by omega)]
  push_cast
  ring

theorem steady_const (layout : NetLayout) {col : Nat} (h : layout.numPublicIntCols ≤ col)
    (row : Nat) : (steady layout).const col row =
      if col = layout.intS + (plTime + 1) ∨ col = layout.intTimeLoSel then 1
      else if col = layout.intW then -1 else 0 := by
  rw [const, steady]
  simp only [if_neg (Nat.not_lt.mpr h)]
  split
  · simp
  · split <;> simp

theorem steady_selector (layout : NetLayout) {j : Nat} (hj : j < numLexLimbs) (row : Nat) :
    (steady layout).const (layout.intS + j) row = if j = plTime + 1 then 1 else 0 := by
  rw [steady_const _ (by simp only [numPublicIntCols, intS, intUpper]; omega)]
  have hne : layout.intS + j ≠ layout.intTimeLoSel := by
    simp only [intTimeLoSel, intTimeHiSel, intW]
    omega
  have hne' : layout.intS + j ≠ layout.intW := by
    simp only [intW]
    omega
  simp [hne, hne']

/-- The other witness columns: the next row reads the same address, one column selects the low
time limb, the rest are zero. -/
theorem steady_rest (layout : NetLayout) {j : Nat} (row : Nat) :
    (steady layout).const (layout.intW + j) row =
      if j = 2 then 1 else if j = 0 then -1 else 0 := by
  rw [steady_const _ (by simp only [numPublicIntCols, intW, intS, intUpper]; omega)]
  have hne : layout.intW + j ≠ layout.intS + (plTime + 1) := by
    simp only [intW, numLexLimbs, numAddrLimbs, numTimeLimbs, plTime, plAddr]
    omega
  have hiff : layout.intW + j = layout.intTimeLoSel ↔ j = 2 := by
    simp only [intTimeLoSel, intTimeHiSel]
    omega
  simp [hne, hiff]

theorem steady_public (layout : NetLayout) : (steady layout).PublicFixed layout :=
  fun _ hcol _ _ => if_pos hcol

theorem steady_selectors (layout : NetLayout) {j : Nat} (hj : j < numLexLimbs) (row : Nat) :
    runningSum (fun j => (steady layout).const (layout.intS + j) row) j =
      if j = plTime + 1 then 1 else 0 := by
  induction j with
  | zero => exact steady_selector layout hj row
  | succ j ih =>
    have hne : j ≠ plTime + 1 := by
      simp only [numLexLimbs, numAddrLimbs, numTimeLimbs] at hj
      simp only [plTime, plAddr, numAddrLimbs]
      omega
    rw [runningSum, ih (by omega), if_neg hne, zero_add, steady_selector layout hj]

theorem steady_satisfied (layout : NetLayout) : (steady layout).Satisfied layout := by
  refine satisfied_iff.mpr fun row hrow => ?_
  have hrow32 : row + 1 < 2 ^ 32 := by
    have := Nat.pow_le_pow_right (show 0 < 2 by decide) layout.inRange.2
    simp only [maxNumVars] at this
    omega
  have hinstr : ∀ row, (steady layout).cell 0 plInstr row = if row = 0 then 1 else 0 := by
    intro row
    rw [steady_cell _ _ (by decide), if_neg (by decide), if_pos rfl]
    split
    · exact BinaryPoly.toPoly_one
    · exact BinaryPoly.toPoly_zero
  have hread : (steady layout).cell 0 plInstr (row + 1) = 0 := hinstr (row + 1)
  have hselected := steady_selector layout (show numAddrLimbs < numLexLimbs by decide) row
  have hselected' := steady_selector layout (show numAddrLimbs + 1 < numLexLimbs by decide) row
  rw [if_neg (by decide)] at hselected
  rw [if_pos (by decide)] at hselected'
  have hslack : ∀ i, i < 2 → (steady layout).poly (layout.payloadCols + i) row = 0 := by
    intro i hi
    have hmod : (layout.payloadCols + i) % payloadCells = i := by
      rw [payloadCols, Nat.mul_comm, Nat.mul_add_mod, Nat.mod_eq_of_lt]
      exact Nat.lt_of_lt_of_le hi (by decide)
    simp only [poly, steady, hmod]
    rw [if_neg (by simp only [plTime, plAddr, numAddrLimbs]; omega),
      if_neg (by simp only [plInstr, plValue, plStackDepth, plTime, plAddr, numAddrLimbs,
        numTimeLimbs, numStackDepthLimbs, numValueLimbs]; omega),
      if_neg (by simp only [plValue, plStackDepth, plTime, plAddr, numAddrLimbs, numTimeLimbs,
        numStackDepthLimbs]; omega), BinaryPoly.toPoly_zero]
  have hslackSorted : (steady layout).poly layout.bpSlackSorted row = 0 := hslack 0 (by decide)
  have hslackOriginal : (steady layout).poly layout.bpSlackOriginal row = 0 := hslack 1 (by decide)
  have hw : (steady layout).const layout.intW row = -1 := steady_rest layout (j := 0) row
  have hhi : (steady layout).const layout.intTimeHiSel row = 0 := steady_rest layout (j := 1) row
  have hlo : (steady layout).const layout.intTimeLoSel row = 1 := steady_rest layout (j := 2) row
  have htime : ∀ g, ((steady layout).delta g (plTime + 1) row).eval 2 = 1 :=
    fun g => steady_delta_time layout g hrow32
  have hswitch : ∀ layer, (steady layout).const (layout.intSwitch + layer) row = 0 := fun layer => by
    have := steady_rest layout (j := 3 + layer) row
    rwa [if_neg (by omega), if_neg (by omega), ← Nat.add_assoc] at this
  have hnotFirst : ∀ row, row + 1 < 2 ^ layout.numVars →
      (steady layout).const intIsFirst (row + 1) = 0 := by
    intro row hrow
    rw [const, steady_public layout _ (by simp only [numPublicIntCols, intIsFirst]; omega) _ hrow]
    exact C_0
  have hfirst : ∀ p, p = plTime ∨ p = plTime + 1 →
      (steady layout).const intIsFirst row * (steady layout).cell layout.originalState p row = 0 := by
    intro p hp
    cases row with
    | zero =>
      rw [steady_cell _ _ (by rcases hp with rfl | rfl <;> decide)]
      rcases hp with rfl | rfl
      · rw [if_neg (by decide), if_neg (by decide), if_neg (by decide), BinaryPoly.toPoly_zero,
          mul_zero]
      · rw [if_pos rfl, BinaryPoly.toPoly_zero, mul_zero]
    | succ row => rw [hnotFirst row (by omega), zero_mul]
  refine ⟨⟨?_, ?_, ?_, ?_, ?_, ?_, ?_, ?_, ?_⟩, ⟨?_, ?_, ?_, ?_, ?_, ?_, ?_⟩,
    fun layer _ => ⟨?_, fun p hp => ?_, fun p hp => ?_⟩⟩
  · cases row with
    | zero => rw [hinstr, if_pos rfl, sub_self, mul_zero]
    | succ row => rw [hnotFirst row (by omega), zero_mul]
  · rw [hread, zero_mul]
  · intro j hj
    rw [steady_selector layout hj]
    split <;> simp
  · rw [steady_selectors layout (by decide), if_pos (by decide), sub_self]
  · intro j hj
    by_cases h : j = plTime + 1
    · rw [steady_selectors layout hj, if_pos h, sub_self, zero_mul]
    · have hp : plAddr + j < payloadCells := by
        rw [plAddr, Nat.zero_add]
        exact Nat.lt_trans hj (by decide)
      have hinstr' : plAddr + j ≠ plInstr := by
        rw [plAddr, Nat.zero_add]
        exact (Nat.lt_trans hj (by decide)).ne
      rw [steady_delta layout 0 hp (by rwa [plAddr, Nat.zero_add]) hinstr', mul_zero]
  · have hsum : runningSum (fun j => ((steady layout).const (layout.intS + j) row *
        (steady layout).delta 0 (plAddr + j) row).eval 2) (numLexLimbs - 1) = 1 := by
      rw [runningSum_congr (g := fun j => (if j = plTime + 1 then 1 else 0) *
        ((steady layout).delta 0 (plAddr + j) row).eval 2) fun j hj => by
          rw [eval_mul, steady_selector layout (Nat.lt_of_le_of_lt hj (by decide))]
          split <;> simp]
      rw [runningSum_selected (k := plTime + 1) (by decide) (if_pos rfl)
        fun j _ hj => if_neg hj]
      exact htime 0
    rw [eval_sub, eval_sub, eval_runningSum, hsum, eval_one, hslackSorted, eval_zero]
    rfl
  · rw [hread, hw, hselected, hselected']
    ring
  · intro j hj
    have hvalue : plValue + j < payloadCells ∧ plValue + j ≠ plTime + 1 ∧ plValue + j ≠ plInstr := by
      simp only [numValueLimbs] at hj
      simp only [payloadCells, plInstr, plValue, plStackDepth, plTime, plAddr, numAddrLimbs,
        numTimeLimbs, numStackDepthLimbs, numValueLimbs]
      omega
    rw [steady_delta layout 0 hvalue.1 hvalue.2.1 hvalue.2.2, mul_zero]
  · rw [hread, hselected, hselected']
    ring
  · rw [hfirst plTime (.inl rfl)]
  · rw [hfirst (plTime + 1) (.inr rfl)]
  · rw [hhi, zero_mul]
  · rw [hlo, sub_self, mul_zero]
  · rw [hhi, hlo, zero_add, sub_self]
  · rw [steady_delta layout _ (by decide) (by decide) (by decide), mul_zero]
  · rw [hhi, hlo, zero_mul, zero_add, one_mul, eval_sub, eval_sub, htime, eval_one,
      hslackOriginal, eval_zero]
    rfl
  · rw [hswitch layer, zero_mul, mul_zero]
  · rw [hswitch layer, zero_mul, steady_cell _ _ hp, steady_cell _ _ hp, sub_self, sub_zero,
      mul_zero]
  · rw [hswitch layer, zero_mul, steady_cell _ _ hp, steady_cell _ _ hp, sub_self, zero_add,
      mul_zero]

/-- The statement at the smallest size, for a write and seven reads of address zero. -/
theorem uair_sound_steady :
    let layout : NetLayout := ⟨3, by decide⟩
    let c := steady layout
    (c.trace layout layout.originalState).head?.map (fun r => r.timeLog.val) = some 0 ∧
      (c.trace layout layout.originalState).Pairwise (fun p r => p.timeLog < r.timeLog) ∧
      (c.trace layout 0).Perm (c.trace layout layout.originalState) ∧
      (∀ r ∈ c.trace layout layout.originalState, r.instr = 0 ∨ r.instr = 1) ∧
      Consistent (c.trace layout layout.originalState) :=
  uair_sound (steady_public _) (steady_satisfied _)

end Columns

end Zkmemory.Zincplus
