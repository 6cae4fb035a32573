import Orochimaru.Zkmemory.Zincplus.BenesVec
import Orochimaru.Zkmemory.Zincplus.BuilderRun

/-!
# The builder on vectors

`build_uair_trace` with its vectors, every index checked and every cast written out. The
columns of a successful run are those of the model, so no index leaves its vector and no
cast loses a bit.
-/

namespace Zkmemory.Zincplus

open Loops

namespace NetLayout

variable (layout : NetLayout)

def numBpCols : Nat := layout.payloadCols + 2
def numIntCols : Nat := layout.intSwitch + layout.numLayers

end NetLayout

namespace Vec

structure UairTrace where
  binaryPoly : List (List BinaryPoly)
  int : List (List ℤ)

/-- `as u32` -/
def asU32 (n : Nat) : Nat := n % 2 ^ 32

/-- The transition columns of the sorted trace. -/
structure SortedColumns where
  s : List (List ℤ)
  slack : List BinaryPoly
  w : List ℤ

def sortedStep (rows : List RowLimbs) (columns : SortedColumns) (i : Nat) :
    Except Fault SortedColumns := do
  let cur ← crash (get rows i)
  let next ← crash (get rows (i + 1))
  let witness ← fail (sortedWitness cur next)
  let column ← crash (get columns.s witness.selected)
  let column ← crash (set column i 1)
  let s ← crash (set columns.s witness.selected column)
  let slack ← crash (set columns.slack i (.ofNat (asU32 witness.slack)))
  let w ← (if numAddrLimbs ≤ witness.selected then crash (set columns.w i witness.w)
    else .ok columns.w : Except Fault (List ℤ))
  .ok ⟨s, slack, w⟩

/-- The transition columns of the original trace. -/
structure OriginalColumns where
  hiSel : List ℤ
  loSel : List ℤ
  slack : List BinaryPoly

def originalStep (rows : List RowLimbs) (columns : OriginalColumns) (i : Nat) :
    Except Fault OriginalColumns := do
  let cur ← crash (get rows i)
  let next ← crash (get rows (i + 1))
  let witness ← fail (originalWitness cur next)
  let slack := crash (set columns.slack i (.ofNat (asU32 witness.slack)))
  if witness.hi then do
    let hiSel ← crash (set columns.hiSel i 1)
    let slack ← slack
    .ok ⟨hiSel, columns.loSel, slack⟩
  else do
    let loSel ← crash (set columns.loSel i 1)
    let slack ← slack
    .ok ⟨columns.hiSel, loSel, slack⟩

def bpColumn (rows : List RowLimbs) (payload : Nat) : List BinaryPoly :=
  rows.map fun row => .ofNat (row.payload payload).val

/-- The payload columns of every state, with the state after the layers so far. -/
def networkStep (numVars : Nat) (switchLayers : List (List Bool))
    (acc : List (List BinaryPoly) × List RowLimbs) (layer : Nat) :
    Except Panic (List (List BinaryPoly) × List RowLimbs) := do
  let state ← (if 0 < layer then do
      let bits ← get switchLayers (layer - 1)
      applyLayer acc.2 numVars (layer - 1) bits
    else .ok acc.2 : Except Panic (List RowLimbs))
  .ok (acc.1 ++ (List.range payloadCells).map (bpColumn state), state)

def publicIntColumns (numVars : Nat) : List (List ℤ) :=
  ((List.range (2 ^ numVars)).map fun i => if i = 0 then 1 else 0) ::
    (List.range numVars).map fun k =>
      (List.range (2 ^ numVars)).map fun i => if i >>> k &&& 1 = 0 then 1 else 0

def buildUairTraceAnyStart (trace : List Record) : Except Fault (UairTrace × Nat) :=
  match trace.getLast? with
  | none => .error (.error .emptyTrace)
  | some last => do
    fail (checkTimes trace)
    let layout ← chooseLayout trace.length
    let numVars := layout.numVars
    let numRows := 2 ^ numVars
    let sorted := sortTrace trace
    let padBase ← crash (match sorted.getLast? with
      | none => .error .expectNone
      | some base => .ok base)
    let padding ← fail (padRows padBase (numRows - trace.length) last.timeLog)
    let originalRows := (trace ++ padding).map RowLimbs.fromRecord
    let sortedRows := (sorted ++ padding).map RowLimbs.fromRecord
    let zeros := List.replicate numRows (0 : ℤ)
    let noSlack := List.replicate numRows (BinaryPoly.ofNat 0)
    let sortedColumns ← (List.range (numRows - 1)).foldlM (sortedStep sortedRows)
      ⟨List.replicate numLexLimbs zeros, noSlack, zeros⟩
    let originalColumns ← (List.range (numRows - 1)).foldlM (originalStep originalRows)
      ⟨zeros, zeros, noSlack⟩
    let perm ← crash (permByTime (sorted ++ padding) (trace ++ padding))
    let switchLayers ← crash (route perm)
    let network ← crash ((List.range (layout.numLayers + 1)).foldlM
      (networkStep numVars switchLayers) ([], sortedRows))
    if network.2 ≠ originalRows then .error (.error .unsortedTrace)
    else do
      let binaryPoly := network.1 ++ [sortedColumns.slack, originalColumns.slack]
      crash (ensure (binaryPoly.length = layout.numBpCols))
      let int := publicIntColumns numVars ++ sortedColumns.s ++
        [sortedColumns.w, originalColumns.hiSel, originalColumns.loSel] ++
        switchLayers.map fun bits => bits.map fun bit => if bit then 1 else 0
      crash (ensure (int.length = layout.numIntCols))
      .ok (⟨binaryPoly, int⟩, numVars)

def buildUairTrace (trace : List Record) : Except Fault (UairTrace × Nat) :=
  match trace.head? with
  | some first =>
    if first.timeLog.val ≠ 0 then .error (.error (.firstTimeNonZero first.timeLog))
    else buildUairTraceAnyStart trace
  | none => buildUairTraceAnyStart trace

/-! ## Transition columns -/

theorem crash_get {α : Type} {n i : Nat} {f : Nat → α} (hi : i < n) :
    crash (get (Vectors.tabulate n f) i) = .ok (f i) := by rw [get_tabulate hi, crash_ok]

theorem crash_set {α : Type} {n i : Nat} {f : Nat → α} (hi : i < n) (a : α) :
    crash (set (Vectors.tabulate n f) i a) =
      .ok (Vectors.tabulate n (Function.update f i a)) := by rw [set_tabulate hi, crash_ok]

/-- A cell written at row `i` extends the rows written so far. -/
theorem tabulate_update {α : Type} {n i : Nat} (f : Nat → α) (d : α) :
    Vectors.tabulate n (Function.update (fun row => if row < i then f row else d) i (f i)) =
      Vectors.tabulate n fun row => if row < i + 1 then f row else d := by
  refine Vectors.tabulate_congr fun row _ => ?_
  by_cases hrow : row = i
  · subst hrow
    rw [Function.update_self, if_pos (Nat.lt_succ_self row)]
  · rw [Function.update_of_ne hrow]
    exact if_congr (by omega) rfl rfl

/-- A cell left as it is does so too, where it has its value already. -/
theorem tabulate_frame {α : Type} {n i : Nat} (f : Nat → α) (d : α) (h : f i = d) :
    (Vectors.tabulate n fun row => if row < i then f row else d) =
      Vectors.tabulate n fun row => if row < i + 1 then f row else d := by
  refine Vectors.tabulate_congr fun row _ => ?_
  by_cases hrow : row = i
  · subst hrow
    rw [if_neg (lt_irrefl row), if_pos (Nat.lt_succ_self row), h]
  · exact if_congr (by omega) rfl rfl

theorem sortedWitness_bounds {cur next : RowLimbs} {s : SortedWitness}
    (h : sortedWitness cur next = .ok s) :
    s.selected < numLexLimbs ∧ asU32 s.slack = s.slack ∧ (s.selected < numAddrLimbs → s.w = 0) := by
  rw [sortedWitness] at h
  split at h
  case h_1 => cases h
  case h_2 k hfind =>
    have hlt := (next.lexLimb k).isLt
    dsimp only at h
    by_cases hdiff : ((next.lexLimb k).val : ℤ) - (cur.lexLimb k).val < 1
    · rw [if_pos hdiff] at h
      cases h
    · rw [if_neg hdiff] at h
      cases h
      refine ⟨List.mem_range.mp (List.mem_of_find?_eq_some hfind), Nat.mod_eq_of_lt ?_, fun hk => ?_⟩
      · simp only
        omega
      · exact if_neg (Nat.not_le.mpr hk)

theorem originalWitness_bounds {cur next : RowLimbs} {s : OriginalWitness}
    (h : originalWitness cur next = .ok s) : asU32 s.slack = s.slack := by
  have h0 := (next.time 0).isLt
  have h1 := (next.time 1).isLt
  rw [originalWitness] at h
  generalize hd : (if cur.time 0 != next.time 0 then ((next.time 0).val : ℤ) - (cur.time 0).val
    else ((next.time 1).val : ℤ) - (cur.time 1).val) = diff at h
  have hlt : diff - 1 < 2 ^ 32 := by
    rw [← hd]
    split
    · omega
    · omega
  by_cases hdiff : diff < 1
  · rw [if_pos hdiff] at h
    cases h
  · rw [if_neg hdiff] at h
    cases h
    refine Nat.mod_eq_of_lt ?_
    simp only
    omega

/-- The columns of the sorted trace with the rows below `i` written. -/
def sortedColumnsAt (n : Nat) (witness : Nat → SortedWitness) (i : Nat) : SortedColumns where
  s := Vectors.tabulate numLexLimbs fun k => Vectors.tabulate n fun row =>
    if row < i then if (witness row).selected = k then 1 else 0 else 0
  slack := Vectors.tabulate n fun row =>
    if row < i then .ofNat (witness row).slack else .ofNat 0
  w := Vectors.tabulate n fun row => if row < i then (witness row).w else 0

theorem sortedStep_eq {n i : Nat} {rows : Nat → RowLimbs} {witness : Nat → SortedWitness}
    (hi : i + 1 < n) (h : sortedWitness (rows i) (rows (i + 1)) = .ok (witness i)) :
    sortedStep (Vectors.tabulate n rows) (sortedColumnsAt n witness i) i =
      .ok (sortedColumnsAt n witness (i + 1)) := by
  have hlt : i < n := by omega
  obtain ⟨hselected, hslack, hw⟩ := sortedWitness_bounds h
  rw [sortedStep, crash_get hlt, ok_bind, crash_get hi, ok_bind, h, fail_ok, ok_bind,
    sortedColumnsAt]
  simp only [crash_get hselected, crash_set hlt, crash_set hselected, ok_bind, hslack]
  have hs : Vectors.tabulate numLexLimbs (Function.update (fun k => Vectors.tabulate n fun row =>
      if row < i then if (witness row).selected = k then (1 : ℤ) else 0 else 0)
      (witness i).selected (Vectors.tabulate n (Function.update (fun row =>
        if row < i then if (witness row).selected = (witness i).selected then 1 else 0 else 0)
        i 1))) = Vectors.tabulate numLexLimbs fun k => Vectors.tabulate n fun row =>
      if row < i + 1 then if (witness row).selected = k then 1 else 0 else 0 := by
    refine Vectors.tabulate_congr fun k _ => ?_
    by_cases hk : k = (witness i).selected
    · subst hk
      rw [Function.update_self]
      refine Eq.trans ?_ (tabulate_update _ 0)
      rw [if_pos rfl]
    · rw [Function.update_of_ne hk]
      exact tabulate_frame _ 0 (if_neg (Ne.symm hk))
  rw [hs, tabulate_update (fun row => BinaryPoly.ofNat (witness row).slack)]
  by_cases hk : numAddrLimbs ≤ (witness i).selected
  · rw [if_pos hk, ok_bind, tabulate_update (fun row => (witness row).w)]
    rfl
  · rw [if_neg hk, ok_bind,
      tabulate_frame (fun row => (witness row).w) 0 (hw (Nat.lt_of_not_le hk))]
    rfl

/-- The columns of the original trace with the rows below `i` written. -/
def originalColumnsAt (n : Nat) (witness : Nat → OriginalWitness) (i : Nat) : OriginalColumns where
  hiSel := Vectors.tabulate n fun row =>
    if row < i then if (witness row).hi then 1 else 0 else 0
  loSel := Vectors.tabulate n fun row =>
    if row < i then if (witness row).hi then 0 else 1 else 0
  slack := Vectors.tabulate n fun row =>
    if row < i then .ofNat (witness row).slack else .ofNat 0

theorem originalStep_eq {n i : Nat} {rows : Nat → RowLimbs} {witness : Nat → OriginalWitness}
    (hi : i + 1 < n) (h : originalWitness (rows i) (rows (i + 1)) = .ok (witness i)) :
    originalStep (Vectors.tabulate n rows) (originalColumnsAt n witness i) i =
      .ok (originalColumnsAt n witness (i + 1)) := by
  have hlt : i < n := by omega
  have hslack := originalWitness_bounds h
  rw [originalStep, crash_get hlt, ok_bind, crash_get hi, ok_bind, h, fail_ok, ok_bind,
    originalColumnsAt]
  simp only [crash_set hlt, ok_bind, hslack]
  have hhiColumn := tabulate_update (n := n) (i := i)
    (fun row => if (witness row).hi then (1 : ℤ) else 0) 0
  have hloColumn := tabulate_update (n := n) (i := i)
    (fun row => if (witness row).hi then (0 : ℤ) else 1) 0
  rw [tabulate_update (fun row => BinaryPoly.ofNat (witness row).slack)]
  by_cases hhi : (witness i).hi
  · rw [if_pos hhi] at hhiColumn
    rw [if_pos hhi, hhiColumn,
      tabulate_frame (fun row => if (witness row).hi then (0 : ℤ) else 1) 0 (if_pos hhi)]
    rfl
  · rw [if_neg hhi] at hloColumn
    rw [if_neg hhi, hloColumn,
      tabulate_frame (fun row => if (witness row).hi then (1 : ℤ) else 0) 0 (if_neg hhi)]
    rfl

/-! ## The columns of the network -/

/-- The payload columns of the first `i` states, and the last of them. -/
def networkAt (v : Nat) (state : Nat → Nat → RowLimbs) (i : Nat) :
    List (List BinaryPoly) × List RowLimbs :=
  (Vectors.tabulate (i * payloadCells) fun col => Vectors.tabulate (2 ^ v) fun row =>
    .ofNat ((state (col / payloadCells) row).payload (col % payloadCells)).val,
    Vectors.tabulate (2 ^ v) (state (i - 1)))

theorem networkStep_eq {v i : Nat} {layers : Layers} {rows : Nat → RowLimbs}
    (hi : i < 2 * v) :
    networkStep v (table v (2 ^ v) layers) (networkAt v (networkState v layers rows) i) i =
      .ok (networkAt v (networkState v layers rows) (i + 1)) := by
  have hstate : (if 0 < i then do
      let bits ← get (table v (2 ^ v) layers) (i - 1)
      applyLayer (networkAt v (networkState v layers rows) i).2 v (i - 1) bits
    else .ok (networkAt v (networkState v layers rows) i).2 : Except Panic (List RowLimbs)) =
      .ok (Vectors.tabulate (2 ^ v) (networkState v layers rows i)) := by
    cases i with
    | zero => rfl
    | succ i =>
      rw [if_pos (Nat.succ_pos i), Nat.add_sub_cancel, table, get_tabulate (by omega), ok_bind,
        networkAt, Nat.add_sub_cancel, applyLayer_eq (by omega)]
      rfl
  rw [networkStep, hstate, ok_bind]
  refine congrArg Except.ok (Prod.ext ?_ rfl)
  rw [networkAt, networkAt, Nat.succ_mul]
  refine Eq.trans ?_ (Vectors.tabulate_add _).symm
  refine congrArg _ (List.map_congr_left fun p hp => ?_)
  have hlt : p < payloadCells := List.mem_range.mp hp
  have hpos : 0 < payloadCells := by decide
  rw [bpColumn, Vectors.map_tabulate, Nat.mul_comm, Nat.mul_add_div hpos, Nat.div_eq_of_lt hlt,
    Nat.mul_add_mod, Nat.mod_eq_of_lt hlt, Nat.add_zero]

theorem network_eq (layout : NetLayout) (layers : Layers) (rows : Nat → RowLimbs) :
    (List.range (layout.numLayers + 1)).foldlM
        (networkStep layout.numVars (table layout.numVars (2 ^ layout.numVars) layers))
        ([], Vectors.tabulate (2 ^ layout.numVars) rows) =
      .ok (networkAt layout.numVars (networkState layout.numVars layers rows)
        (layout.numLayers + 1)) := by
  have hvars : minNumVars ≤ layout.numVars := layout.inRange.1
  have hlayers : layout.numLayers = 2 * layout.numVars - 1 := rfl
  have hmin : minNumVars = 3 := rfl
  obtain ⟨_, hrun, rfl⟩ := foldlM_range_ok
    (f := networkStep layout.numVars (table layout.numVars (2 ^ layout.numVars) layers))
    (n := layout.numLayers + 1) (s := ([], Vectors.tabulate (2 ^ layout.numVars) rows))
    (fun i acc => acc = networkAt layout.numVars (networkState layout.numVars layers rows) i) rfl
    fun i hi acc hacc => ⟨_, hacc ▸ networkStep_eq (by omega), rfl⟩
  exact hrun

/-! ## All columns -/

end Vec

/-- The columns of the model, as vectors. -/
def Columns.table (c : Columns) (layout : NetLayout) : Vec.UairTrace where
  binaryPoly := Vectors.tabulate layout.numBpCols fun col =>
    Vectors.tabulate (2 ^ layout.numVars) (c.binaryPoly col)
  int := Vectors.tabulate layout.numIntCols fun col =>
    Vectors.tabulate (2 ^ layout.numVars) (c.int col)

namespace Vec

section Assemble

variable (layout : NetLayout) {layers : Layers} {rows : Nat → RowLimbs}
  {sortedSteps : List SortedWitness} {originalSteps : List OriginalWitness}
  {sorted : Nat → SortedWitness} {original : Nat → OriginalWitness}
  (hsorted : ∀ row < 2 ^ layout.numVars, sortedSteps[row]? =
    if row < 2 ^ layout.numVars - 1 then some (sorted row) else none)
  (horiginal : ∀ row < 2 ^ layout.numVars, originalSteps[row]? =
    if row < 2 ^ layout.numVars - 1 then some (original row) else none)

/-- A cell read off the witnesses, on the rows that have one. -/
theorem elim_of_rows {α β : Type} {steps : List α} {witness : Nat → α} {n row : Nat}
    (h : steps[row]? = if row < n then some (witness row) else none) (d : β) (f : α → β) :
    (steps[row]?).elim d f = if row < n then f (witness row) else d := by
  rw [h]
  by_cases hrow : row < n
  · rw [if_pos hrow, if_pos hrow]
    rfl
  · rw [if_neg hrow, if_neg hrow]
    rfl

include hsorted horiginal

theorem binaryPoly_eq :
    (networkAt layout.numVars (networkState layout.numVars layers rows)
        (layout.numLayers + 1)).1 ++
      [(sortedColumnsAt (2 ^ layout.numVars) sorted (2 ^ layout.numVars - 1)).slack,
        (originalColumnsAt (2 ^ layout.numVars) original (2 ^ layout.numVars - 1)).slack] =
      ((assemble layout (networkState layout.numVars layers rows) layers sortedSteps
        originalSteps).table layout).binaryPoly := by
  rw [Columns.table, NetLayout.numBpCols, Vectors.tabulate_add]
  refine congrArg₂ (· ++ ·) (Vectors.tabulate_congr fun col hcol => ?_)
    (congrArg₂ (fun x y => [x, y]) ?_ ?_)
  · refine Vectors.tabulate_congr fun row _ => ?_
    exact (if_pos hcol).symm
  · refine Vectors.tabulate_congr fun row hrow => ?_
    simp only [assemble, Nat.add_zero, lt_irrefl, if_false, NetLayout.bpSlackSorted, if_true]
    rw [elim_of_rows (hsorted row hrow)]
    exact (apply_ite BinaryPoly.ofNat _ _ _).symm
  · refine Vectors.tabulate_congr fun row hrow => ?_
    simp only [assemble, Nat.not_lt.mpr (Nat.le_add_right layout.payloadCols 1), if_false,
      NetLayout.bpSlackSorted, Nat.add_eq_left, one_ne_zero]
    rw [elim_of_rows (horiginal row hrow)]
    exact (apply_ite BinaryPoly.ofNat _ _ _).symm

theorem int_eq :
    publicIntColumns layout.numVars ++
        (sortedColumnsAt (2 ^ layout.numVars) sorted (2 ^ layout.numVars - 1)).s ++
        [(sortedColumnsAt (2 ^ layout.numVars) sorted (2 ^ layout.numVars - 1)).w,
          (originalColumnsAt (2 ^ layout.numVars) original (2 ^ layout.numVars - 1)).hiSel,
          (originalColumnsAt (2 ^ layout.numVars) original (2 ^ layout.numVars - 1)).loSel] ++
        (table layout.numVars (2 ^ layout.numVars) layers).map
          (fun bits => bits.map fun bit => if bit then (1 : ℤ) else 0) =
      ((assemble layout (networkState layout.numVars layers rows) layers sortedSteps
        originalSteps).table layout).int := by
  have hlex : numLexLimbs = 10 := rfl
  have hint : layout.intS = 1 + layout.numVars := rfl
  rw [Columns.table, show layout.numIntCols =
    (1 + layout.numVars) + numLexLimbs + 3 + layout.numLayers from rfl, Vectors.tabulate_add,
    Vectors.tabulate_add, Vectors.tabulate_add]
  refine congrArg₂ (· ++ ·) (congrArg₂ (· ++ ·) (congrArg₂ (· ++ ·) ?_ ?_) ?_) ?_
  · rw [Vectors.tabulate_add]
    refine congrArg₂ List.cons (Vectors.tabulate_congr fun row _ => Eq.symm ?_)
      (Vectors.tabulate_congr fun k hk => Vectors.tabulate_congr fun row _ => Eq.symm ?_)
    · exact if_pos (show 0 < 1 + layout.numVars by omega)
    · refine (if_pos (show 1 + k < 1 + layout.numVars by omega)).trans ?_
      rw [Zincplus.publicIntColumns, NetLayout.intIsFirst, NetLayout.intUpper,
        if_neg (show ¬ 1 + k = 0 by omega), Nat.add_sub_cancel_left]
  · refine Vectors.tabulate_congr fun k hk => Vectors.tabulate_congr fun row hrow => Eq.symm ?_
    simp only [assemble, NetLayout.numPublicIntCols, NetLayout.intW, hint]
    rw [if_neg (by omega), if_pos (by omega), elim_of_rows (hsorted row hrow)]
    simp only [Nat.add_left_cancel_iff]
  · refine congrArg₂ List.cons (Vectors.tabulate_congr fun row hrow => Eq.symm ?_)
      (congrArg₂ (fun x y => [x, y]) (Vectors.tabulate_congr fun row hrow => Eq.symm ?_)
        (Vectors.tabulate_congr fun row hrow => Eq.symm ?_))
    · simp only [assemble, NetLayout.numPublicIntCols, NetLayout.intW, hint]
      rw [if_neg (by omega), if_neg (by omega), if_pos (by omega),
        elim_of_rows (hsorted row hrow)]
    · simp only [assemble, NetLayout.numPublicIntCols, NetLayout.intW, NetLayout.intTimeHiSel, hint]
      rw [if_neg (by omega), if_neg (by omega),
        if_neg (show ¬ 1 + layout.numVars + numLexLimbs + 1 = 1 + layout.numVars + numLexLimbs by
          omega), if_pos trivial, elim_of_rows (horiginal row hrow)]
    · simp only [assemble, NetLayout.numPublicIntCols, NetLayout.intW, NetLayout.intTimeHiSel,
        NetLayout.intTimeLoSel, hint]
      rw [if_neg (by omega), if_neg (by omega),
        if_neg (show ¬ 1 + layout.numVars + numLexLimbs + 2 = 1 + layout.numVars + numLexLimbs by
          omega),
        if_neg (show ¬ 1 + layout.numVars + numLexLimbs + 2 =
          1 + layout.numVars + numLexLimbs + 1 by omega),
        if_pos trivial, elim_of_rows (horiginal row hrow)]
  · rw [table, Vectors.map_tabulate]
    refine Vectors.tabulate_congr fun l hl => ?_
    rw [Vectors.map_tabulate]
    refine Vectors.tabulate_congr fun row hrow => Eq.symm ?_
    simp only [assemble, NetLayout.numPublicIntCols, NetLayout.intW, NetLayout.intTimeHiSel,
      NetLayout.intTimeLoSel, NetLayout.intSwitch, hint]
    rw [if_neg (by omega), if_neg (by omega), if_neg (by omega), if_neg (by omega),
      if_neg (by omega), show 1 + layout.numVars + numLexLimbs + 3 + l -
        (1 + layout.numVars + numLexLimbs + 1 + 1 + 1) = l by omega]

end Assemble

theorem crash_eq_ok {α : Type} {x : Except Panic α} {a : α} : crash x = .ok a ↔ x = .ok a :=
  mapError_ok_iff

theorem ensure_eq_ok {p : Prop} [Decidable p] {u : Unit} (h : ensure p = .ok u) : p := by
  by_contra hp
  rw [ensure, if_neg hp] at h
  cases h

theorem map_fromRecord_eq {records : List Record} {n : Nat} (hlen : records.length = n) :
    records.map RowLimbs.fromRecord = Vectors.tabulate n (rowsOf records) := by
  conv_lhs => rw [Vectors.eq_tabulate records default]
  rw [Vectors.map_tabulate, hlen]
  rfl

/-- The permutation the model routes is one. -/
theorem route_of_ok {perm : List Nat} {v : Nat} {layers : Layers} (hv : 1 ≤ v)
    (hlen : perm.length = 2 ^ v) (h : Zincplus.route perm = .ok layers) :
    route perm = .ok (table v (2 ^ v) layers) := by
  have hrun := h
  rw [Zincplus.route, hlen] at h
  obtain ⟨_, -, h⟩ := bind_ok_iff.mp h
  obtain ⟨_, hperm, -⟩ := bind_ok_iff.mp h
  obtain ⟨hlt, hnodup⟩ := ensure_eq_ok hperm
  rw [route_eq hlen hv hlt hnodup, hrun]
  rfl

theorem sortedLoop_eq {n : Nat} {rows : Nat → RowLimbs} {steps : List SortedWitness}
    (h : (List.range (n - 1)).mapM (fun i => sortedWitness (rows i) (rows (i + 1))) = .ok steps) :
    ∃ witness, (∀ row < n, steps[row]? = if row < n - 1 then some (witness row) else none) ∧
      (List.range (n - 1)).foldlM (sortedStep (Vectors.tabulate n rows))
        ⟨List.replicate numLexLimbs (List.replicate n 0), List.replicate n (.ofNat 0),
          List.replicate n 0⟩ = .ok (sortedColumnsAt n witness (n - 1)) := by
  obtain ⟨hlen, hsteps⟩ := getElem?_of_mapM_range h
  let witness : Nat → SortedWitness := fun row => (steps[row]?).getD ⟨0, 0, 0⟩
  have hwitness : ∀ row < n - 1, steps[row]? = some (witness row) ∧
      sortedWitness (rows row) (rows (row + 1)) = .ok (witness row) := by
    intro row hrow
    obtain ⟨s, hs, hrun⟩ := hsteps row hrow
    have hw : witness row = s := by
      simp only [witness, hs, Option.getD_some]
    exact ⟨hw ▸ hs, hw ▸ hrun⟩
  refine ⟨witness, fun row _ => ?_, ?_⟩
  · by_cases hrow : row < n - 1
    · rw [if_pos hrow]
      exact (hwitness row hrow).1
    · rw [if_neg hrow, List.getElem?_eq_none (by omega)]
  · have hinit : (⟨List.replicate numLexLimbs (List.replicate n 0), List.replicate n (.ofNat 0),
        List.replicate n 0⟩ : SortedColumns) = sortedColumnsAt n witness 0 := by
      simp only [Vectors.replicate_eq_tabulate, sortedColumnsAt, Nat.not_lt_zero, if_false]
    obtain ⟨_, hrun, rfl⟩ := foldlM_range_ok (f := sortedStep (Vectors.tabulate n rows))
      (fun i columns => columns = sortedColumnsAt n witness i) hinit
      fun i hi columns hcolumns =>
        ⟨_, hcolumns ▸ sortedStep_eq (by omega) (hwitness i hi).2, rfl⟩
    exact hrun

theorem originalLoop_eq {n : Nat} {rows : Nat → RowLimbs} {steps : List OriginalWitness}
    (h : (List.range (n - 1)).mapM (fun i => originalWitness (rows i) (rows (i + 1))) =
      .ok steps) :
    ∃ witness, (∀ row < n, steps[row]? = if row < n - 1 then some (witness row) else none) ∧
      (List.range (n - 1)).foldlM (originalStep (Vectors.tabulate n rows))
        ⟨List.replicate n 0, List.replicate n 0, List.replicate n (.ofNat 0)⟩ =
          .ok (originalColumnsAt n witness (n - 1)) := by
  obtain ⟨hlen, hsteps⟩ := getElem?_of_mapM_range h
  let witness : Nat → OriginalWitness := fun row => (steps[row]?).getD ⟨false, 0⟩
  have hwitness : ∀ row < n - 1, steps[row]? = some (witness row) ∧
      originalWitness (rows row) (rows (row + 1)) = .ok (witness row) := by
    intro row hrow
    obtain ⟨s, hs, hrun⟩ := hsteps row hrow
    have hw : witness row = s := by
      simp only [witness, hs, Option.getD_some]
    exact ⟨hw ▸ hs, hw ▸ hrun⟩
  refine ⟨witness, fun row _ => ?_, ?_⟩
  · by_cases hrow : row < n - 1
    · rw [if_pos hrow]
      exact (hwitness row hrow).1
    · rw [if_neg hrow, List.getElem?_eq_none (by omega)]
  · have hinit : (⟨List.replicate n 0, List.replicate n 0, List.replicate n (.ofNat 0)⟩ :
        OriginalColumns) = originalColumnsAt n witness 0 := by
      simp only [Vectors.replicate_eq_tabulate, originalColumnsAt, Nat.not_lt_zero, if_false]
    obtain ⟨_, hrun, rfl⟩ := foldlM_range_ok (f := originalStep (Vectors.tabulate n rows))
      (fun i columns => columns = originalColumnsAt n witness i) hinit
      fun i hi columns hcolumns =>
        ⟨_, hcolumns ▸ originalStep_eq (by omega) (hwitness i hi).2, rfl⟩
    exact hrun

/-- A run of the model is one of the vectors. -/
theorem buildUairTraceAnyStart_eq {trace : List Record} {c : Columns} {layout : NetLayout}
    (h : Zincplus.buildUairTraceAnyStart trace = .ok (c, layout)) :
    buildUairTraceAnyStart trace = .ok (c.table layout, layout.numVars) := by
  rw [Zincplus.buildUairTraceAnyStart] at h
  rw [buildUairTraceAnyStart]
  cases hlast : trace.getLast? with
  | none =>
    rw [hlast] at h
    cases h
  | some last =>
    rw [hlast] at h
    obtain ⟨⟨⟩, hcheck, h⟩ := bind_ok_iff.mp h
    obtain ⟨layout', hlayout, h⟩ := bind_ok_iff.mp h
    obtain ⟨base, hbase, h⟩ := bind_ok_iff.mp h
    obtain ⟨padding, hpadding, h⟩ := bind_ok_iff.mp h
    obtain ⟨sortedSteps, hsorted, h⟩ := bind_ok_iff.mp h
    obtain ⟨originalSteps, horiginal, h⟩ := bind_ok_iff.mp h
    obtain ⟨perm, hperm, h⟩ := bind_ok_iff.mp h
    obtain ⟨layers, hroute, h⟩ := bind_ok_iff.mp h
    by_cases hrouted : ∀ i < 2 ^ layout'.numVars,
        networkState layout'.numVars layers (rowsOf (sortTrace trace ++ padding))
          layout'.numLayers i = rowsOf (trace ++ padding) i
    swap
    · rw [if_neg hrouted] at h
      cases h
    rw [if_pos hrouted] at h
    cases h
    -- All vectors of rows have one row for each record.
    obtain ⟨_, hvars⟩ := chooseLayout_ok_iff.mp hlayout
    have hshort : trace.length < 2 ^ layout.numVars := hvars ▸ lt_two_pow_paddedVars _
    have hpad : padding.length = 2 ^ layout.numVars - trace.length := by
      obtain ⟨padding', hpadding', hfacts⟩ := padRows_ok base _ last.timeLog
        (lt_of_padRows (fail_eq_ok.mp hpadding))
      rw [fail_eq_ok.mp hpadding] at hpadding'
      exact Except.ok.inj hpadding' ▸ hfacts.length
    have hlenO : (trace ++ padding).length = 2 ^ layout.numVars := by
      rw [List.length_append]
      omega
    have hlenS : (sortTrace trace ++ padding).length = 2 ^ layout.numVars := by
      rw [List.length_append, (sortTrace_perm trace).length_eq, ← List.length_append, hlenO]
    obtain ⟨sorted, hsteps, hloop⟩ := sortedLoop_eq (fail_eq_ok.mp hsorted)
    obtain ⟨original, hsteps', hloop'⟩ := originalLoop_eq (fail_eq_ok.mp horiginal)
    have hplen : perm.length = 2 ^ layout.numVars := by
      rw [← hlenO]
      exact (forall₂_of_mapM (crash_eq_ok.mp hperm)).length_eq.symm
    have hv : 1 ≤ layout.numVars := le_trans (by decide) layout.inRange.1
    have hvecRoute := route_of_ok hv hplen (crash_eq_ok.mp hroute)
    have hnetwork := network_eq layout layers (rowsOf (sortTrace trace ++ padding))
    have hfinal : (networkAt layout.numVars (networkState layout.numVars layers
        (rowsOf (sortTrace trace ++ padding))) (layout.numLayers + 1)).2 =
        Vectors.tabulate (2 ^ layout.numVars) (rowsOf (trace ++ padding)) :=
      Vectors.tabulate_congr hrouted
    have hlast' : (sortTrace trace).getLast? = some base := by
      cases hsort : (sortTrace trace).getLast? with
      | none =>
        rw [hsort] at hbase
        cases hbase
      | some base' =>
        rw [hsort] at hbase
        cases hbase
        rfl
    have hint : _ = ((assemble layout (networkState layout.numVars layers
        (rowsOf (sortTrace trace ++ padding))) layers sortedSteps originalSteps).table layout).int :=
      int_eq layout hsteps hsteps'
    simp only [hcheck, hlayout, hlast', crash_ok, ok_bind, hpadding, map_fromRecord_eq hlenO,
      map_fromRecord_eq hlenS, hloop, hloop', hperm, hvecRoute, hnetwork, hfinal, ne_eq,
      not_true_eq_false, if_false, binaryPoly_eq layout hsteps hsteps', hint, Columns.table,
      Vectors.length_tabulate, ensure_ok]

theorem buildUairTrace_eq {trace : List Record} {c : Columns} {layout : NetLayout}
    (h : Zincplus.buildUairTrace trace = .ok (c, layout)) :
    buildUairTrace trace = .ok (c.table layout, layout.numVars) := by
  rw [Zincplus.buildUairTrace] at h
  rw [buildUairTrace]
  cases hfirst : trace.head? with
  | none =>
    rw [hfirst] at h
    exact buildUairTraceAnyStart_eq h
  | some first =>
    rw [hfirst] at h
    by_cases hzero : first.timeLog.val ≠ 0
    · simp only [if_pos hzero] at h
      cases h
    · simp only [if_neg hzero] at h ⊢
      exact buildUairTraceAnyStart_eq h

end Vec

end Zkmemory.Zincplus
