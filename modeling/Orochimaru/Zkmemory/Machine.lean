import Orochimaru.Lib.Accesses
import Orochimaru.Lib.Loops
import Orochimaru.Zkmemory.Base

/-!
# The abstract memory machine

The default methods of `AbstractMemoryMachine`, `AbstractStackMachine` and
`AbstractRegisterMachine` in `machine.rs`, over the context every machine of the
crate carries. `S` is the number of bytes of an address and `T` that of a value.
A method returns `error` where the code panics.
-/

namespace Zkmemory

open Access

inductive MemoryInstruction
  | write
  | read
  deriving DecidableEq, Repr

structure TraceRecord (S T : Nat) where
  timeLog : U64
  stackDepth : U64
  instruction : MemoryInstruction
  address : Uint S
  value : Uint T
  deriving DecidableEq

instance (S T : Nat) : Access (TraceRecord S T) (Uint S) (Uint T) where
  isWrite r := r.instruction == .write
  addr r := r.address
  value r := r.value

inductive CellInteraction (S T : Nat)
  | singleCell (instruction : MemoryInstruction) (address : Uint S) (value : Uint T)
  /-- Concatenated cell, then the low and the high cell it lies in. -/
  | doubleCell (instruction : MemoryInstruction) (address : Uint S) (value : Uint T)
      (addrLo : Uint S) (valLo : Uint T) (addrHi : Uint S) (valHi : Uint T)
  deriving DecidableEq

/-- The errors the default methods return. -/
inductive Error
  | stackOverflow
  | stackUnderflow
  deriving DecidableEq, Repr

/-- A machine together with its context. -/
structure Machine (S T : Nat) where
  wordSize : Uint S
  maxStackDepth : U64
  memory : Uint S → Option (Uint T)
  timeLog : U64
  stackDepth : U64
  stackPtr : Uint S
  executionTrace : List (TraceRecord S T)

structure Register (S : Nat) where
  index : Nat
  address : Uint S

variable {S T : Nat}

/-- `Ord::cmp` of trace records: by `time_log`, and equal ones panic. -/
def TraceRecord.cmp (a b : TraceRecord S T) : Except Panic Ordering :=
  if a.timeLog = b.timeLog then .error .timeLogNeverEqual
  else .ok (compare a.timeLog b.timeLog)

/-- Insertion into the ordered trace. -/
def insertTrace (t : TraceRecord S T) : List (TraceRecord S T) → Except Panic (List (TraceRecord S T))
  | [] => .ok [t]
  | r :: l => do
    match ← t.cmp r with
    | .lt => .ok (t :: r :: l)
    | _ => .ok (r :: (← insertTrace t l))

/-- `buf[lo..hi].copy_from_slice(&src[slo..shi])`. -/
def copyFromSlice (buf : Bytes T) (lo hi : Nat) (src : Bytes T) (slo shi : Nat) :
    Except Panic (Bytes T) :=
  if h : lo ≤ hi ∧ hi ≤ T ∧ slo ≤ shi ∧ shi ≤ T ∧ hi - lo = shi - slo then
    .ok fun i =>
      if hi : lo ≤ i.val ∧ i.val < hi then src ⟨slo + (i.val - lo), by omega⟩ else buf i
  else .error .indexOutOfBounds

/-- Subtraction of two `usize` values. -/
def usizeSub (x y : Nat) : Except Panic Nat :=
  if y ≤ x then .ok (x - y) else .error .arithmeticOverflow

namespace Machine

def track (m : Machine S T) (t : TraceRecord S T) : Except Panic (Machine S T) := do
  .ok { m with executionTrace := ← insertTrace t m.executionTrace }

/-- Replace or insert one cell of the memory. -/
def replaceOrInsert (m : Machine S T) (address : Uint S) (value : Uint T) : Machine S T :=
  { m with memory := Function.update m.memory address (some value) }

def dummyRead (m : Machine S T) (address : Uint S) : Uint T :=
  (m.memory address).getD Uint.zero

def computeAddress (m : Machine S T) (address remain : Uint S) :
    Except Panic (Uint S × Uint S) := do
  let base ← address.sub remain
  .ok (base, ← base.add m.wordSize)

def read (m : Machine S T) (address : Uint S) :
    Except Panic (CellInteraction S T × Machine S T) := do
  let remain ← address.rem m.wordSize
  if remain.isZero then
    let result := m.dummyRead address
    let timeLog := m.timeLog
    let m ← m.track ⟨timeLog, m.stackDepth, .read, address, result⟩
    .ok (.singleCell .read address result, { m with timeLog := ← timeLog.add (.ofNat 1) })
  else
    let (addrLo, addrHi) ← m.computeAddress address remain
    let timeLog := m.timeLog
    let valLo := m.dummyRead addrLo
    let valHi := m.dummyRead addrHi
    let cellSize := m.wordSize.toUsize
    let partLo := (← address.sub addrLo).toUsize
    let partHi ← usizeSub cellSize partLo
    let buf : Bytes T := fun _ => 0
    let buf ← copyFromSlice buf partHi cellSize valHi.toBeBytes 0 partLo
    let buf ← copyFromSlice buf 0 partHi valLo.toBeBytes partLo cellSize
    let m ← m.track ⟨timeLog, m.stackDepth, .read, addrLo, valLo⟩
    let m ← m.track ⟨← timeLog.add (.ofNat 1), m.stackDepth, .read, addrHi, valHi⟩
    let m := { m with timeLog := ← timeLog.add (.ofNat 2) }
    .ok (.doubleCell .read address (.fromBeBytes buf) addrLo valLo addrHi valHi, m)

def write (m : Machine S T) (address : Uint S) (value : Uint T) :
    Except Panic (CellInteraction S T × Machine S T) := do
  let remain ← address.rem m.wordSize
  if remain.isZero then
    let timeLog := m.timeLog
    let m := m.replaceOrInsert address value
    let m ← m.track ⟨timeLog, m.stackDepth, .write, address, value⟩
    .ok (.singleCell .write address value, { m with timeLog := ← timeLog.add (.ofNat 1) })
  else
    let (addrLo, addrHi) ← m.computeAddress address remain
    let timeLog := m.timeLog
    let cellSize := m.wordSize.toUsize
    let partLo := (← address.sub addrLo).toUsize
    let partHi ← usizeSub cellSize partLo
    let val := value.toBeBytes
    let buf := (m.dummyRead addrLo).toBeBytes
    let buf ← copyFromSlice buf partLo cellSize val 0 partHi
    let valLo := Uint.fromBeBytes buf
    let buf := (m.dummyRead addrHi).toBeBytes
    let buf ← copyFromSlice buf 0 partLo val partHi cellSize
    let valHi := Uint.fromBeBytes buf
    let m := m.replaceOrInsert addrLo valLo
    let m := m.replaceOrInsert addrHi valHi
    let m ← m.track ⟨timeLog, m.stackDepth, .write, addrLo, valLo⟩
    let m ← m.track ⟨← timeLog.add (.ofNat 1), m.stackDepth, .write, addrHi, valHi⟩
    let m := { m with timeLog := ← timeLog.add (.ofNat 2) }
    .ok (.doubleCell .write address value addrLo valLo addrHi valHi, m)

def push (m : Machine S T) (value : Uint T) :
    Except Panic (Except Error (U64 × CellInteraction S T) × Machine S T) := do
  if m.stackDepth = m.maxStackDepth then
    .ok (.error .stackOverflow, m)
  else
    let stackDepth ← m.stackDepth.add (.ofNat 1)
    let m := { m with stackDepth := stackDepth }
    let address := m.stackPtr
    let nextAddress ← address.add m.wordSize
    let m := { m with stackPtr := nextAddress }
    let (v, m) ← m.write address value
    .ok (.ok (stackDepth, v), m)

def pop (m : Machine S T) :
    Except Panic (Except Error (U64 × CellInteraction S T) × Machine S T) := do
  if m.stackDepth.val = 0 then
    .ok (.error .stackUnderflow, m)
  else
    let stackDepth ← m.stackDepth.sub (.ofNat 1)
    let m := { m with stackDepth := stackDepth }
    let address ← m.stackPtr.sub m.wordSize
    let m := { m with stackPtr := address }
    let (v, m) ← m.read address
    .ok (.ok (stackDepth, v), m)

def set (m : Machine S T) (register : Register S) (value : Uint T) :
    Except Panic (CellInteraction S T × Machine S T) :=
  m.write register.address value

def get (m : Machine S T) (register : Register S) :
    Except Panic (CellInteraction S T × Machine S T) :=
  m.read register.address

end Machine

/-! ## Runs -/

/-- One call of a default method. -/
inductive Op (S T : Nat)
  | read (address : Uint S)
  | write (address : Uint S) (value : Uint T)
  | push (value : Uint T)
  | pop
  | get (register : Register S)
  | set (register : Register S) (value : Uint T)

/-- What a call returns. -/
inductive Response (S T : Nat)
  | cell (c : CellInteraction S T)
  | stack (r : Except Error (U64 × CellInteraction S T))

namespace Machine

def exec (m : Machine S T) : Op S T → Except Panic (Response S T × Machine S T)
  | .read address => do
    let (c, m) ← m.read address
    .ok (.cell c, m)
  | .write address value => do
    let (c, m) ← m.write address value
    .ok (.cell c, m)
  | .push value => do
    let (r, m) ← m.push value
    .ok (.stack r, m)
  | .pop => do
    let (r, m) ← m.pop
    .ok (.stack r, m)
  | .get register => do
    let (c, m) ← m.get register
    .ok (.cell c, m)
  | .set register value => do
    let (c, m) ← m.set register value
    .ok (.cell c, m)

/-- A finite sequence of calls, with what they returned. -/
def run (m : Machine S T) (ops : List (Op S T)) :
    Except Panic (List (Response S T) × Machine S T) :=
  ops.foldlM (fun (rs, m) op => do
    let (r, m) ← m.exec op
    .ok (rs ++ [r], m)) ([], m)

/-- Empty memory, `time_log` zero and no record yet. -/
structure Initial (m : Machine S T) : Prop where
  memory : ∀ a, m.memory a = none
  timeLog : m.timeLog.val = 0
  executionTrace : m.executionTrace = []

/-- The word size is the number of bytes of a value. -/
structure WordSized (m : Machine S T) : Prop where
  pos : 0 < T
  usize : T < 2 ^ 64
  wordSize : m.wordSize.val = T

end Machine

end Zkmemory
