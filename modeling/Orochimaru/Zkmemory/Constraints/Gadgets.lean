import Orochimaru.Lib.FieldDigits
import Orochimaru.Lib.Plonkish
import Orochimaru.Zkmemory.Machine

/-!
# Gadgets of the Halo2 circuits

`gadgets.rs`: range tables, the is-zero check, binary numbers, the witness table of a
trace and the ordering check. A config holds the contents of its columns, and
`configure` returns the constraints on them.
-/

namespace Zkmemory.Constraints

open Plonkish Rotation

variable {F : Type*} [Field F]

/-- The usable rows of the small tables that the circuits are tried on. -/
theorem usable_lt_rows : 1000 < 1024 := by decide

/-! ## Lookup tables -/

structure LookUpTables (F : Type*) where
  size256Table : Column F
  size40Table : Column F
  size2Table : Column F

namespace LookUpTables

def blank : LookUpTables F := ⟨fun _ => 0, fun _ => 0, fun _ => 0⟩

/-- `Table::load` of all three tables, in a region that begins at row `start`. -/
def load (start : Nat) (t : LookUpTables F) : LookUpTables F where
  size40Table := Plonkish.load 40 start t.size40Table
  size256Table := Plonkish.load 256 start t.size256Table
  size2Table := Plonkish.load 2 start t.size2Table

end LookUpTables

/-- `Table::range_check`; no selector guards it. -/
def rangeCheck (table exp : Column F) : System F := { lookups := [(exp, table)] }

/-! ## Is-zero -/

structure IsZeroConfig (F : Type*) where
  val : Column F
  temp : Column F
  tempInv : Column F

def IsZeroConfig.configure (c : IsZeroConfig F) (selector : Column F) : System F where
  gates := [
    fun row => [selector (row cur) * (c.temp (row cur) * c.tempInv (row cur) - 1)],
    fun row => [selector (row cur) *
      (c.temp (row cur) * c.val (row cur) * (1 - c.temp (row cur) * c.val (row cur)))]]

/-! ## Binary numbers -/

/-- `as_bits`: bit `N - 1 - i` is `value / 2^i % 2`. -/
def asBits (N value : Nat) (i : Fin N) : Nat := Positional.beDigit 2 N value i

/-- One if `lhs` are the bits of `rhs`; zero if they are other bits. -/
def equalValue {N : Nat} (lhs : Fin N → F) (rhs : Nat) : F :=
  (List.finRange N).foldl
    (fun acc i => acc * (1 - (lhs i - asBits N rhs i) * (lhs i - asBits N rhs i))) 1

structure BinaryConfig (F : Type*) (N : Nat) where
  bits : Fin N → Column F

def BinaryConfig.configure {N : Nat} (c : BinaryConfig F N) (selector : Column F) : System F where
  gates := (List.finRange N).map fun i row =>
    [selector (row cur) * c.bits i (row cur) * (1 - c.bits i (row cur))]

/-! ## Trace records -/

/-- The limbs of a record, also read as `Queries` of a row. -/
structure ConvertedTraceRecord (F : Type*) where
  address : Fin 32 → F
  timeLog : Fin 8 → F
  instruction : F
  value : Fin 32 → F

structure TraceRecordWitnessTable (F : Type*) where
  address : Fin 32 → Column F
  timeLog : Fin 8 → Column F
  instruction : Column F
  value : Fin 32 → Column F

/-- `Queries::new` at row `r`. -/
def TraceRecordWitnessTable.queries (t : TraceRecordWitnessTable F) (r : Nat) :
    ConvertedTraceRecord F where
  address i := t.address i r
  timeLog i := t.timeLog i r
  instruction := t.instruction r
  value i := t.value i r

namespace ConvertedTraceRecord

def beLimbs (q : ConvertedTraceRecord F) (addressIncluded : Bool) : List F :=
  if !addressIncluded then List.ofFn q.timeLog
  else List.ofFn q.address ++ List.ofFn q.timeLog

def ofBytes {n : Nat} (bytes : Bytes n) (i : Fin n) : F := ((bytes i).val : F)

/-- `From<TraceRecord<B256, B256, 32, 32>>`. -/
def ofRecord (record : TraceRecord 32 32) : ConvertedTraceRecord F where
  address := ofBytes record.address.fixedBeBytes
  timeLog := ofBytes record.timeLog.toBeBytes
  instruction := match record.instruction with
    | .write => 1
    | .read => 0
  value := ofBytes record.value.fixedBeBytes

end ConvertedTraceRecord

/-! ## Ordering -/

/-- The combinations of the limb differences before each limb, from `sum` on. -/
def rlcLimbDifferences (sum : F) : List F → List F → List F → List F
  | curLimb :: cur, prevLimb :: prev, alpha :: alphaPower =>
    sum :: rlcLimbDifferences (sum + alpha * (curLimb - prevLimb)) cur prev alphaPower
  | _, _, _ => []

/-- `1, alpha, ..., alpha^n`. -/
def alphaPower (alpha : F) (n : Nat) : List F := List.iterate (· * alpha) 1 (n + 1)

structure GreaterThanConfig (F : Type*) (N : Nat) where
  difference : Column F
  differenceInverse : Column F
  firstDifferenceLimb : BinaryConfig F N

/-- `limb_vector`. -/
def limbVector : List Nat := List.range 40

namespace GreaterThanConfig

variable {N : Nat} (c : GreaterThanConfig F N)

/-- The bits of `first_difference_limb` at row `r`. -/
def index (r : Nat) (i : Fin N) : F := c.firstDifferenceLimb.bits i r

def gates (traceRecord : TraceRecordWitnessTable F) (alphaPower : List F) (selector : Column F)
    (addressIncluded : Bool) : List (Gate F) := [
  fun row => [selector (row cur) *
    (c.difference (row cur) * c.differenceInverse (row cur) - 1)],
  fun row =>
    (limbVector.zip (rlcLimbDifferences 0
      ((traceRecord.queries (row cur)).beLimbs addressIncluded)
      ((traceRecord.queries (row prev)).beLimbs addressIncluded) alphaPower)).map
    fun (i, rlcExpression) =>
      selector (row cur) * rlcExpression * equalValue (c.index (row cur)) i,
  fun row =>
    (limbVector.zip (((traceRecord.queries (row cur)).beLimbs addressIncluded).zip
      ((traceRecord.queries (row prev)).beLimbs addressIncluded))).map
    fun (i, curLimb, prevLimb) =>
      selector (row cur) * equalValue (c.index (row cur)) i *
        (c.difference (row cur) - curLimb + prevLimb)]

/-- The value `first_difference_limb` stands for. -/
def lookupValue (r : Nat) : F :=
  (List.ofFn (c.index r)).foldl (fun result bit => bit + result * 2) 0

def configure (traceRecord : TraceRecordWitnessTable F) (alphaPower : List F)
    (lookupTables : LookUpTables F) (selector : Column F) (addressIncluded : Bool) : System F :=
  c.firstDifferenceLimb.configure selector ++
  { gates := c.gates traceRecord alphaPower selector addressIncluded } ++
  (if addressIncluded then rangeCheck lookupTables.size40Table c.lookupValue else {}) ++
  rangeCheck lookupTables.size256Table c.difference

end GreaterThanConfig

/-! ## Assignment -/

/-- `invert().expect(..)`. -/
def invert [DecidableEq F] (x : F) : Except Panic F :=
  if x = 0 then .error .expectNone else .ok x⁻¹

/-- Position of the first limb that differs, with both limbs; `(n, 0, 0)` if none does. -/
def findDifference [DecidableEq F] (n : Nat) (cur prev : List F) : Nat × F × F :=
  (((List.range n).zip (cur.zip prev)).find? fun (_, a, b) => a ≠ b).getD (n, 0, 0)

/-- The bits `BinaryConfig::assign` writes. -/
def assignBits {N : Nat} (value : Nat) (i : Fin N) : F := asBits N value i

namespace TraceRecordWitnessTable

/-- The witness table of a region, one record for each row. -/
def place {ρ : Type*} (start : Nat) (rows : List ρ) (record : ρ → ConvertedTraceRecord F) :
    TraceRecordWitnessTable F where
  address i := Plonkish.place start rows fun r => (record r).address i
  timeLog i := Plonkish.place start rows fun r => (record r).timeLog i
  instruction := Plonkish.place start rows fun r => (record r).instruction
  value i := Plonkish.place start rows fun r => (record r).value i

end TraceRecordWitnessTable

end Zkmemory.Constraints
