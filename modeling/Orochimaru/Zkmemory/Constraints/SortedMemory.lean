import Orochimaru.Zkmemory.Constraints.Gadgets

/-!
# The sorted-memory circuit

`sorted_memory_circuit.rs`: the constraints on a trace sorted by address and time, and
the assignment the circuit synthesizes from a list of records. A region of `n` records
begins at row `start`.
-/

namespace Zkmemory.Constraints

open Plonkish Rotation

variable {F : Type*} [Field F]

structure SortedMemoryConfig (F : Type*) where
  traceRecord : TraceRecordWitnessTable F
  addrCurPrev : IsZeroConfig F
  greaterThan : GreaterThanConfig F 6
  selector : Column F
  selectorZero : Column F
  lookupTables : LookUpTables F

/-- The limbs after the first, recomposed. -/
def limbsToExpression (limb : Fin 32 → F) : F :=
  ((List.ofFn limb).drop 1).foldl (fun sum t => sum * 256 + t) 0

namespace SortedMemoryConfig

variable (c : SortedMemoryConfig F)

def gates : List (Gate F) := [
  fun row => [c.selectorZero (row cur) *
    ((c.traceRecord.queries (row cur)).instruction - 1)],
  fun row =>
    let selector := c.selector (row cur)
    let q := c.traceRecord.queries (row cur)
    let p := c.traceRecord.queries (row prev)
    let addrDiff := c.addrCurPrev.val (row cur)
    let temp := c.addrCurPrev.temp (row cur)
    let valDiff := limbsToExpression q.value - limbsToExpression p.value
    let shouldBeZero := 1 - addrDiff * temp
    let shouldBeZero2 := limbsToExpression q.address - limbsToExpression p.address - addrDiff
    [selector * (q.instruction - 1) * valDiff * shouldBeZero, selector * shouldBeZero2],
  fun row =>
    let q := c.traceRecord.queries (row cur)
    let p := c.traceRecord.queries (row prev)
    let addrDiff := limbsToExpression q.address - limbsToExpression p.address
    [c.selector (row cur) * (q.instruction - 1) * addrDiff]]

/-- The range checks of every limb of the witness table. -/
def lookups : List (System F) :=
  rangeCheck c.lookupTables.size2Table c.traceRecord.instruction ::
    ((List.finRange 32).map fun i =>
      rangeCheck c.lookupTables.size256Table (c.traceRecord.address i) ++
        rangeCheck c.lookupTables.size256Table (c.traceRecord.value i)) ++
    (List.finRange 8).map fun i =>
      rangeCheck c.lookupTables.size256Table (c.traceRecord.timeLog i)

def configure (alphaPower : List F) : System F :=
  c.addrCurPrev.configure c.selector ++
  c.greaterThan.configure c.traceRecord alphaPower c.lookupTables c.selector true ++
  { gates := c.gates } ++
  .join c.lookups

end SortedMemoryConfig

/-! ## Assignment -/

/-- `address_limb_to_field`, which also skips the first limb. -/
def addressLimbToField (address : Fin 32 → F) : F :=
  ((List.ofFn address).drop 1).foldl (fun sum t => sum * 256 + t) 0

/-- The cells assigned at one row. -/
structure SortedMemoryRow (F : Type*) where
  record : ConvertedTraceRecord F
  addressDiff : F
  temp : F
  tempInv : F
  difference : F
  differenceInverse : F
  firstDifferenceLimb : Fin 6 → F

/-- The cells of row `offset`; `random` is the element drawn there. Row 0 assigns the
record only. -/
def sortedMemoryAssign [DecidableEq F] (sortedTraceRecord : List (ConvertedTraceRecord F))
    (random : F) (offset : Nat) : Except Panic (SortedMemoryRow F) :=
  match offset with
  | 0 =>
    match sortedTraceRecord[0]? with
    | some cur => .ok ⟨cur, 0, 0, 0, 0, 0, fun _ => 0⟩
    | none => .error .indexOutOfBounds
  | offset + 1 =>
    match sortedTraceRecord[offset + 1]?, sortedTraceRecord[offset]? with
    | some cur, some prev => do
      let (index, curLimb, prevLimb) := findDifference 40 (cur.beLimbs true) (prev.beLimbs true)
      let difference := curLimb - prevLimb
      let addressDiff := addressLimbToField cur.address - addressLimbToField prev.address
      let (temp, tempInv) ←
        if addressDiff = 0 then do
          let tempInv ← invert random
          .ok (random, tempInv)
        else do
          let temp ← invert addressDiff
          .ok (temp, addressDiff)
      let differenceInverse ← invert difference
      .ok ⟨cur, addressDiff, temp, tempInv, difference, differenceInverse, assignBits index⟩
    | _, _ => .error .indexOutOfBounds

/-- The selectors of a region of `n` rows. -/
structure SortedMemoryConfig.Selected (c : SortedMemoryConfig F) (start n : Nat) : Prop where
  selector : c.selector = enabled (start + 1) (start + n)
  selectorZero : c.selectorZero = enabled start (start + min 1 n)

/-- The columns of a region that begins at `start`. -/
def sortedMemoryColumns (start : Nat) (lookupTables : LookUpTables F)
    (rows : List (SortedMemoryRow F)) : SortedMemoryConfig F where
  traceRecord := .place start rows (·.record)
  addrCurPrev := ⟨place start rows (·.addressDiff), place start rows (·.temp),
    place start rows (·.tempInv)⟩
  greaterThan := ⟨place start rows (·.difference), place start rows (·.differenceInverse),
    ⟨fun i => place start rows fun r => r.firstDifferenceLimb i⟩⟩
  selector := enabled (start + 1) (start + rows.length)
  selectorZero := enabled start (start + min 1 rows.length)
  lookupTables := lookupTables

end Zkmemory.Constraints
