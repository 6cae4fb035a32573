import Orochimaru.Zkmemory.Constraints.Gadgets

/-!
# The original-memory circuit

`original_memory_circuit.rs`: the constraints on a trace in execution order, and the
assignment the circuit synthesizes from a list of records. A region of `n` records
begins at row `start`.
-/

namespace Zkmemory.Constraints

open Plonkish Rotation

variable {F : Type*} [Field F]

structure OriginalMemoryConfig (F : Type*) where
  traceRecord : TraceRecordWitnessTable F
  selector : Column F
  selectorZero : Column F
  greaterThan : GreaterThanConfig F 3
  lookupTables : LookUpTables F

/-- All limbs of the time, recomposed. -/
def timeToExpression (timeLog : Fin 8 → F) : F :=
  ((List.ofFn timeLog).drop 1).foldl (fun time t => time * 256 + t) (timeLog 0)

namespace OriginalMemoryConfig

variable (c : OriginalMemoryConfig F)

def gates : List (Gate F) := [
  fun row => [c.selectorZero (row cur) *
    timeToExpression (c.traceRecord.queries (row cur)).timeLog]]

def configure (alphaPower : List F) : System F :=
  c.greaterThan.configure c.traceRecord alphaPower c.lookupTables c.selector false ++
  { gates := c.gates }

end OriginalMemoryConfig

/-! ## Assignment -/

/-- The cells assigned at one row. -/
structure OriginalMemoryRow (F : Type*) where
  record : ConvertedTraceRecord F
  difference : F
  differenceInverse : F
  firstDifferenceLimb : Fin 3 → F

/-- The cells of row `offset`. Row 0 assigns the record only. -/
def originalMemoryAssign [DecidableEq F] (originalTraceRecord : List (ConvertedTraceRecord F))
    (offset : Nat) : Except Panic (OriginalMemoryRow F) :=
  match offset with
  | 0 =>
    match originalTraceRecord[0]? with
    | some cur => .ok ⟨cur, 0, 0, fun _ => 0⟩
    | none => .error .indexOutOfBounds
  | offset + 1 =>
    match originalTraceRecord[offset + 1]?, originalTraceRecord[offset]? with
    | some cur, some prev => do
      let (index, curLimb, prevLimb) :=
        findDifference 8 (List.ofFn cur.timeLog) (List.ofFn prev.timeLog)
      let difference := curLimb - prevLimb
      let differenceInverse ← invert difference
      .ok ⟨cur, difference, differenceInverse, assignBits index⟩
    | _, _ => .error .indexOutOfBounds

/-- The columns of a region that begins at `start`. -/
def originalMemoryColumns (start : Nat) (lookupTables : LookUpTables F)
    (rows : List (OriginalMemoryRow F)) : OriginalMemoryConfig F where
  traceRecord := .place start rows (·.record)
  selector := enabled (start + 1) (start + rows.length)
  selectorZero := enabled start (start + min 1 rows.length)
  greaterThan := ⟨place start rows (·.difference), place start rows (·.differenceInverse),
    ⟨fun i => place start rows fun r => r.firstDifferenceLimb i⟩⟩
  lookupTables := lookupTables

end Zkmemory.Constraints
