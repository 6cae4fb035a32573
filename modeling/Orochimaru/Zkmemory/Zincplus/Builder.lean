import Orochimaru.Zkmemory.Machine
import Orochimaru.Zkmemory.Zincplus.Uair

/-!
# The witness builder

`build_uair_trace` of `uair.rs`: validation, sorting, padding with replay rows, the
selectors and slacks of both traces, routing, and the columns assembled from them.
-/

namespace Zkmemory.Zincplus

/-- The errors `build_uair_trace` returns. -/
inductive ZincMemoryError
  | emptyTrace
  | firstTimeNonZero (timeLog : U64)
  | duplicatedAccess (timeLog : U64)
  | timeNotIncreasing (timeLog : U64)
  | traceTooLong
  | timeLogOverflow
  | unsortedTrace
  deriving DecidableEq

/-- How a run of the builder stops early. -/
inductive Fault
  | panic (p : Panic)
  | error (e : ZincMemoryError)
  deriving DecidableEq

abbrev Record := TraceRecord 32 32

instance : Inhabited Record := ⟨⟨.zero, .zero, .write, .zero, .zero⟩⟩

abbrev U32 := Uint 4

/-! ## Limbs -/

structure RowLimbs where
  addr : Fin 8 → U32
  time : Fin 2 → U32
  stackDepth : Fin 2 → U32
  value : Fin 8 → U32
  instr : U32
  deriving DecidableEq

def beBytesToLimbs (bytes : Bytes 32) : Fin 8 → U32 := fun j =>
  .fromBeBytes fun k : Fin 4 => bytes ⟨4 * j + k, by omega⟩

/-- `[(x >> 32) as u32, x as u32]`. -/
def splitU64 (x : U64) : Fin 2 → U32 := fun j => .ofNat (if j = 0 then x.val >>> 32 else x.val)

namespace RowLimbs

def fromRecord (record : Record) : RowLimbs where
  addr := beBytesToLimbs record.address.fixedBeBytes
  time := splitU64 record.timeLog
  stackDepth := splitU64 record.stackDepth
  value := beBytesToLimbs record.value.fixedBeBytes
  instr := match record.instruction with
    | .write => .ofNat 1
    | .read => .ofNat 0

/-- The payload cell `p`; the callers keep `p < payloadCells`. -/
def payload (r : RowLimbs) (p : Nat) : U32 :=
  if h : p < 8 then r.addr ⟨p, h⟩
  else if h : p < 10 then r.time ⟨p - 8, by omega⟩
  else if h : p < 12 then r.stackDepth ⟨p - 10, by omega⟩
  else if h : p < 20 then r.value ⟨p - 12, by omega⟩
  else r.instr

def lexLimb (r : RowLimbs) (j : Nat) : U32 := r.payload (plAddr + j)

end RowLimbs

/-- The rows of a list of records, by index. -/
def rowsOf (records : List Record) (i : Nat) : RowLimbs :=
  .fromRecord (records.getD i default)

/-! ## Validation, order, padding -/

/-- The check of `trace.windows(2)`. -/
def checkTimes : List Record → Except ZincMemoryError Unit
  | a :: b :: l =>
    match compare b.timeLog a.timeLog with
    | .gt => checkTimes (b :: l)
    | .eq => .error (.duplicatedAccess a.timeLog)
    | .lt => .error (.timeNotIncreasing b.timeLog)
  | _ => .ok ()

/-- On 64-bit words. -/
def checkedNextPowerOfTwo (n : Nat) : Option Nat :=
  if 2 ^ Nat.clog 2 n < 2 ^ 64 then some (2 ^ Nat.clog 2 n) else none

/-- Size of the trace with at least one padding row. -/
def chooseLayout (len : Nat) : Except Fault NetLayout :=
  match checkedNextPowerOfTwo (len + 1) with
  | none => .error (.error .traceTooLong)
  | some paddedLen =>
    let numVars := Nat.log2 paddedLen
    if maxNumVars < numVars then .error (.error .traceTooLong)
    else
      let numVars := max numVars minNumVars
      if h : minNumVars ≤ numVars ∧ numVars ≤ maxNumVars then .ok ⟨numVars, h⟩
      else .error (.panic .assertionFailed)

def sortCmp (a b : Record) : Ordering :=
  match compare a.address b.address with
  | .eq => compare a.timeLog b.timeLog
  | ordering => ordering

def sortTrace (trace : List Record) : List Record :=
  trace.mergeSort fun a b => (sortCmp a b).isLE

/-- `n` reads that replay `base` at the times after `time`. -/
def padRows (base : Record) : Nat → U64 → Except ZincMemoryError (List Record)
  | 0, _ => .ok []
  | n + 1, time =>
    match time.add (.ofNat 1) with
    | .error _ => .error .timeLogOverflow
    | .ok time => do
      let rest ← padRows base n time
      .ok (⟨time, base.stackDepth, .read, base.address, base.value⟩ :: rest)

/-! ## Transition witnesses -/

/-- Selected limb, slack and `w` of one row of the sorted trace. -/
structure SortedWitness where
  selected : Nat
  slack : Nat
  w : ℤ

def sortedWitness (cur next : RowLimbs) : Except ZincMemoryError SortedWitness :=
  match (List.range numLexLimbs).find? fun j => cur.lexLimb j != next.lexLimb j with
  | none => .error .unsortedTrace
  | some k =>
    let diff : ℤ := (next.lexLimb k).val - (cur.lexLimb k).val
    if diff < 1 then .error .unsortedTrace
    else .ok ⟨k, (diff - 1).toNat, if numAddrLimbs ≤ k then (next.instr.val : ℤ) - 1 else 0⟩

/-- Whether the high limb is selected, and the slack, of one row of the original trace. -/
structure OriginalWitness where
  hi : Bool
  slack : Nat

def originalWitness (cur next : RowLimbs) : Except ZincMemoryError OriginalWitness :=
  let hi := cur.time 0 != next.time 0
  let diff : ℤ := if hi then (next.time 0).val - (cur.time 0).val
    else (next.time 1).val - (cur.time 1).val
  if diff < 1 then .error .unsortedTrace else .ok ⟨hi, (diff - 1).toNat⟩

/-! ## The permutation -/

/-- `sorted_pos_by_time`: the position of the last row with a given time. -/
def posByTime (rows : List Record) : U64 → Option Nat :=
  (List.range rows.length).foldl
    (fun pos i => Function.update pos (rows.getD i default).timeLog (some i)) fun _ => none

def permByTime (sorted original : List Record) : Except Panic (List Nat) :=
  original.mapM fun record =>
    match posByTime sorted record.timeLog with
    | none => .error .expectNone
    | some pos => .ok pos

/-- The state before each layer, and after the last one. -/
def networkState (v : Nat) (layers : Layers) (rows : Nat → RowLimbs) : Nat → Nat → RowLimbs
  | 0 => rows
  | layer + 1 => applyLayer (networkState v layers rows layer) v layer (layers layer)

/-! ## Assembling the columns -/

open NetLayout in
/-- The columns, by flat index: network states and slacks, then the integer columns. -/
def assemble (layout : NetLayout) (state : Nat → Nat → RowLimbs) (layers : Layers)
    (sortedSteps : List SortedWitness) (originalSteps : List OriginalWitness) : Columns where
  binaryPoly col row :=
    if col < layout.payloadCols then
      .ofNat ((state (col / payloadCells) row).payload (col % payloadCells)).val
    else if col = layout.bpSlackSorted then .ofNat ((sortedSteps[row]?).elim 0 (·.slack))
    else .ofNat ((originalSteps[row]?).elim 0 (·.slack))
  int col row :=
    if col < layout.numPublicIntCols then publicIntColumns col row
    else if col < layout.intW then
      (sortedSteps[row]?).elim 0 fun s => if layout.intS + s.selected = col then 1 else 0
    else if col = layout.intW then (sortedSteps[row]?).elim 0 (·.w)
    else if col = layout.intTimeHiSel then
      (originalSteps[row]?).elim 0 fun s => if s.hi then 1 else 0
    else if col = layout.intTimeLoSel then
      (originalSteps[row]?).elim 0 fun s => if s.hi then 0 else 1
    else if layers (col - layout.intSwitch) row then 1 else 0

/-- Errors of the builder, and panics of the code it calls. -/
def fail {α : Type} : Except ZincMemoryError α → Except Fault α := Except.mapError .error

def crash {α : Type} : Except Panic α → Except Fault α := Except.mapError .panic

def buildUairTraceAnyStart (trace : List Record) : Except Fault (Columns × NetLayout) :=
  match trace.getLast? with
  | none => .error (.error .emptyTrace)
  | some last => do
    fail (checkTimes trace)
    let layout ← chooseLayout trace.length
    let numRows := 2 ^ layout.numVars
    let sorted := sortTrace trace
    let padBase ← crash (match sorted.getLast? with
      | none => .error .expectNone
      | some base => .ok base)
    let padding ← fail (padRows padBase (numRows - trace.length) last.timeLog)
    let original := trace ++ padding
    let sorted := sorted ++ padding
    let originalRows := rowsOf original
    let sortedRows := rowsOf sorted
    let sortedSteps ← fail ((List.range (numRows - 1)).mapM fun i =>
      sortedWitness (sortedRows i) (sortedRows (i + 1)))
    let originalSteps ← fail ((List.range (numRows - 1)).mapM fun i =>
      originalWitness (originalRows i) (originalRows (i + 1)))
    let perm ← crash (permByTime sorted original)
    let layers ← crash (route perm)
    let state := networkState layout.numVars layers sortedRows
    if ∀ i < numRows, state layout.numLayers i = originalRows i then
      .ok (assemble layout state layers sortedSteps originalSteps, layout)
    else .error (.error .unsortedTrace)

def buildUairTrace (trace : List Record) : Except Fault (Columns × NetLayout) :=
  match trace.head? with
  | some first =>
    if first.timeLog.val ≠ 0 then .error (.error (.firstTimeNonZero first.timeLog))
    else buildUairTraceAnyStart trace
  | none => buildUairTraceAnyStart trace

end Zkmemory.Zincplus
