import Orochimaru.Zkmemory.Constraints.OriginalMemory
import Orochimaru.Zkmemory.Constraints.PastaFp
import Orochimaru.Zkmemory.Constraints.SortedMemory

/-!
# The memory consistency circuit

`permutation_circuit.rs` and `consistency_check_circuit.rs`: the shuffle argument between
the compressed records, and the circuit that joins it with the original-memory and the
sorted-memory circuits. The three parts have advice columns of their own, only the tables
are shared, and no column takes part in a copy constraint.
-/

namespace Zkmemory.Constraints

open Plonkish

variable {F : Type*} [Field F]

/-- `From<Uint> for Fp` of `extends.rs`: chunk `i` is read from the bytes `8 i, ..., 8 i + 7`,
and `from_raw` takes the chunks least significant first. -/
def fpFromWord {S : Nat} (value : Uint S) : Fp :=
  ((List.range 4).map fun i =>
    (Positional.beVal 256 8 (fun k => Uint.digits value.fixedBeBytes (8 * i + k)) : Fp) *
      2 ^ (64 * i)).sum

/-! ## Permutation -/

structure ShuffleConfig (F : Type*) where
  input : Column F
  shuffle : Column F
  sInput : Column F
  sShuffle : Column F

def ShuffleConfig.configure (c : ShuffleConfig F) : System F where
  shuffles := [(fun r => c.sInput r * c.input r, fun r => c.sShuffle r * c.shuffle r)]

/-- `TraceRecord::compress`; `fromB256` is the field's `From<B256>`. -/
def compress (fromB256 : B256 → F) (seed : Fin 5 → U64) (record : TraceRecord 32 32) : F :=
  let instruction : F := match record.instruction with
    | .write => 1
    | .read => 0
  (record.timeLog.val : F) * (seed 0).val + (record.stackDepth.val : F) * (seed 1).val +
    instruction * (seed 2).val + fromB256 record.address * (seed 3).val +
    fromB256 record.value * (seed 4).val

structure PermutationCircuit (F : Type*) where
  input : List F
  shuffle : List F

def PermutationCircuit.new (fromB256 : B256 → F) (seeds : Fin 5 → U64)
    (inputTrace shuffleTrace : List (TraceRecord 32 32)) : Except Panic (PermutationCircuit F) :=
  if inputTrace.length = shuffleTrace.length then
    .ok ⟨inputTrace.map (compress fromB256 seeds), shuffleTrace.map (compress fromB256 seeds)⟩
  else .error .assertionFailed

/-- The columns of the regions "load inputs" and "load shuffles", both at row 0. -/
def PermutationCircuit.columns (circuit : PermutationCircuit F) : ShuffleConfig F where
  input := place 0 circuit.input id
  shuffle := place 0 circuit.shuffle id
  sInput := enabled 0 circuit.input.length
  sShuffle := enabled 0 circuit.shuffle.length

/-! ## The composed circuit -/

structure ConsistencyConfig (F : Type*) where
  originalMemoryConfig : OriginalMemoryConfig F
  sortedMemoryConfig : SortedMemoryConfig F
  permutationConfig : ShuffleConfig F

def ConsistencyConfig.configure (c : ConsistencyConfig F) (alpha : F) : System F :=
  c.originalMemoryConfig.configure (alphaPower alpha 40) ++
  c.sortedMemoryConfig.configure (alphaPower alpha 40) ++
  c.permutationConfig.configure

structure MemoryConsistencyCircuit where
  input : List (TraceRecord 32 32)
  shuffle : List (TraceRecord 32 32)

/-- The sorted region loads the tables, of up to 256 rows, so the original region, which
loads them again, begins below both. -/
def originalStart (n : Nat) : Nat := max n 256

/-- The fixed tables of a circuit with `n` records. -/
def consistencyTables (n : Nat) : LookUpTables F := (LookUpTables.blank.load 0).load (originalStart n)

namespace MemoryConsistencyCircuit

/-- The assignment of `synthesize`; `random i` is drawn at row `i` of the sorted region. -/
def synthesize [DecidableEq F] (circuit : MemoryConsistencyCircuit) (fromB256 : B256 → F)
    (seeds : Fin 5 → U64) (random : Nat → F) : Except Panic (ConsistencyConfig F) := do
  let permutation ← PermutationCircuit.new fromB256 seeds circuit.input circuit.shuffle
  let sorted ← (List.range circuit.shuffle.length).mapM fun i =>
    sortedMemoryAssign (circuit.shuffle.map .ofRecord) (random i) i
  let original ← (List.range circuit.input.length).mapM
    (originalMemoryAssign (circuit.input.map .ofRecord))
  let start := originalStart circuit.shuffle.length
  let tables := consistencyTables circuit.shuffle.length
  .ok ⟨originalMemoryColumns start tables original, sortedMemoryColumns 0 tables sorted,
    permutation.columns⟩

end MemoryConsistencyCircuit

end Zkmemory.Constraints
