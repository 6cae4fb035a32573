import Orochimaru.Zkmemory.Constraints.PastaFp
import Orochimaru.Zkmemory.Folding.SuperNova

/-!
# The shape of the SuperNova circuits

Public parameters are built from the shape of the circuits `primary_circuit` returns: the
variables a synthesis allocates and the constraints it enforces, in their order. The values of
the variables are closures, which the extraction of a shape does not run.
-/

namespace Zkmemory.Folding.SuperNova

open Constraints Loops R1cs

variable {F : Type}

/-- What the extraction of a shape sees. -/
inductive Event (F : Type)
  | alloc (name : String)
  | enforce (name : String) (constraint : Constraint F)

def Event.isAlloc : Event F → Bool
  | .alloc _ => true
  | .enforce _ _ => false

def Event.constraint? : Event F → Option (Constraint F)
  | .alloc _ => none
  | .enforce _ constraint => some constraint

/-- Number of variables that were allocated. -/
def allocated (events : List (Event F)) : Nat := events.countP Event.isAlloc

/-- The rows of the constraint matrices. -/
def matrices (events : List (Event F)) : List (Constraint F) := events.filterMap Event.constraint?

abbrev Shape (F α : Type) := StateT (List (Event F)) (Except Panic) α

namespace Shape

variable {α β : Type}

def alloc (name : String) : Shape F Variable := fun events =>
  .ok (.aux (allocated events), events ++ [.alloc name])

def enforce (name : String) (a b c : LinearCombination F) : Shape F Unit := fun events =>
  .ok ((), events ++ [.enforce name ⟨a, b, c⟩])

theorem bind_apply (x : Shape F α) (f : α → Shape F β) (events : List (Event F)) :
    (x >>= f) events = x events >>= fun r => f r.1 r.2 := rfl

theorem pure_apply (a : α) (events : List (Event F)) :
    (pure a : Shape F α) events = .ok (a, events) := rfl

theorem lift_apply (x : Except Panic α) (events : List (Event F)) :
    (liftM x : Shape F α) events = x >>= fun a => .ok (a, events) := rfl

theorem alloc_apply (name : String) (events : List (Event F)) :
    alloc name events = .ok (.aux (allocated events), events ++ [.alloc name]) := rfl

theorem enforce_apply (name : String) (a b c : LinearCombination F)
    (events : List (Event F)) :
    enforce name a b c events = .ok ((), events ++ [.enforce name ⟨a, b, c⟩]) := rfl

end Shape

@[simp] theorem allocated_nil : allocated ([] : List (Event F)) = 0 := rfl

@[simp] theorem allocated_append (events more : List (Event F)) :
    allocated (events ++ more) = allocated events + allocated more := List.countP_append

@[simp] theorem allocated_alloc (name : String) (events : List (Event F)) :
    allocated (.alloc name :: events) = allocated events + 1 :=
  List.countP_cons_of_pos rfl

@[simp] theorem allocated_enforce (name : String) (c : Constraint F)
    (events : List (Event F)) :
    allocated (.enforce name c :: events) = allocated events :=
  List.countP_cons_of_neg Bool.false_ne_true

@[simp] theorem allocated_replicate (n : Nat) (name : String) :
    allocated (List.replicate n (.alloc name : Event F)) = n := by
  simp [allocated, List.countP_replicate, Event.isAlloc]

@[simp] theorem matrices_nil : matrices ([] : List (Event F)) = [] := rfl

@[simp] theorem matrices_append (events more : List (Event F)) :
    matrices (events ++ more) = matrices events ++ matrices more := List.filterMap_append

@[simp] theorem matrices_alloc (name : String) (events : List (Event F)) :
    matrices (.alloc name :: events) = matrices events := rfl

@[simp] theorem matrices_enforce (name : String) (c : Constraint F)
    (events : List (Event F)) :
    matrices (.enforce name c :: events) = c :: matrices events := rfl

@[simp] theorem matrices_replicate (n : Nat) (name : String) :
    matrices (List.replicate n (.alloc name : Event F)) = [] := by
  simp [matrices, List.filterMap_replicate, Event.constraint?]

/-! ## The circuits without their closures -/

section Circuits

variable [Field F] [DecidableEq F]

/-- `synthesize` of a read, without the closures that compute values. -/
def ReadCircuit.shape (circuit : ReadCircuit F) (z : List Variable) :
    Shape F (Variable × List Variable) := do
  let trace ← expect circuit.trace
  let memorySize ← expect circuit.memorySize
  assertEq z.length (memorySize.val + 1)
  let _ ← lookupRes memorySize.val trace.address
  let lookupRes ← .alloc "lookup result"
  let memoryAddress ← .alloc "get memory[address]"
  let value ← .alloc "value"
  let commitment ← .alloc "merkle root"
  let root ← index z memorySize.val
  .enforce "commitment to the memory must be valid"
    (.plus .zero commitment) (.plus .zero .one) (.plus .zero root)
  .enforce "address must be in 0..memory_len"
    (.plus .zero lookupRes) (.plus .zero .one) (.plus .zero .one)
  .enforce "if instruction=0 then memory[address] = value"
    (.plus .zero .one) (.plus .zero memoryAddress) (.plus .zero value)
  let pcNext ← .alloc "alloc"
  pure (pcNext, z)

/-- `synthesize` of a write, without the closures that compute values. -/
def WriteCircuit.shape (circuit : WriteCircuit F) (z : List Variable) :
    Shape F (Variable × List Variable) := do
  let trace ← expect circuit.trace
  let memorySize ← expect circuit.memorySize
  assertEq z.length (memorySize.val + 1)
  let _ ← lookupRes memorySize.val trace.address
  let lookupRes ← .alloc "lookup result"
  let _ ← .alloc "value"
  .enforce "address must be in 0..memory_len"
    (.plus .zero lookupRes) (.plus .zero .one) (.plus .zero .one)
  let cells ← (z.take memorySize.val).mapM fun _ => .alloc "get new memory state"
  let newCommitment ← .alloc "new merkle root"
  let zOut := cells ++ [newCommitment]
  assertEq zOut.length (memorySize.val + 1)
  let pcNext ← .alloc "alloc"
  pure (pcNext, zOut)

/-- The variables of `n` allocations in a row. -/
def fresh (base n : Nat) : List Variable := (List.range n).map fun i => .aux (base + i)

omit [Field F] [DecidableEq F] in
theorem numbered_vars (base : Nat) (values : List F) :
    (numbered base values).map (·.var) = fresh base values.length := by
  apply List.ext_getElem
  · simp [fresh]
  · intro i hi hi'
    simp [numbered, fresh]

omit [Field F] [DecidableEq F] in
theorem mapM_alloc_shape (name : String) (z : List Variable) (events : List (Event F)) :
    (z.mapM fun _ => Shape.alloc name) events =
      .ok (fresh (allocated events) z.length,
        events ++ List.replicate z.length (.alloc name)) := by
  induction z generalizing events with
  | nil => simp [fresh, Shape.pure_apply]
  | cons v z ih =>
    rw [List.mapM_cons, Shape.bind_apply, Shape.alloc_apply, ok_bind, Shape.bind_apply, ih, ok_bind,
      Shape.pure_apply]
    simp [fresh, List.range_succ_eq_map, List.replicate_succ, Function.comp_def, Nat.add_assoc,
      Nat.add_comm 1]

/-! ## What a circuit leaves behind -/

/-- The shape of a read whose commitment is in `root`. -/
def readEvents (root : Variable) : List (Event F) :=
  [.alloc "lookup result", .alloc "get memory[address]", .alloc "value", .alloc "merkle root",
    .enforce "commitment to the memory must be valid"
      ⟨.plus .zero (.aux 3), .plus .zero .one, .plus .zero root⟩,
    .enforce "address must be in 0..memory_len"
      ⟨.plus .zero (.aux 0), .plus .zero .one, .plus .zero .one⟩,
    .enforce "if instruction=0 then memory[address] = value"
      ⟨.plus .zero .one, .plus .zero (.aux 1), .plus .zero (.aux 2)⟩,
    .alloc "alloc"]

/-- The shape of a write to `n` cells. -/
def writeEvents (n : Nat) : List (Event F) :=
  [.alloc "lookup result", .alloc "value",
    .enforce "address must be in 0..memory_len"
      ⟨.plus .zero (.aux 0), .plus .zero .one, .plus .zero .one⟩] ++
    List.replicate n (.alloc "get new memory state") ++ [.alloc "new merkle root", .alloc "alloc"]

theorem ReadCircuit.shape_ok {circuit : ReadCircuit F} {z : List Variable} {trace : TraceRecord F}
    {memorySize : U64} {lookup : Nat} {root : Variable} (htrace : circuit.trace = some trace)
    (hsize : circuit.memorySize = some memorySize) (hz : z.length = memorySize.val + 1)
    (hlookup : lookupRes memorySize.val trace.address = .ok lookup)
    (hroot : z[memorySize.val]? = some root) :
    circuit.shape z [] = .ok ((.aux 4, z), readEvents root) := by
  have hassert : assertEq z.length (memorySize.val + 1) = .ok () := assertEq_ok.mpr hz
  unfold shape
  simp only [Shape.bind_apply, Shape.lift_apply, Shape.alloc_apply, Shape.enforce_apply,
    Shape.pure_apply, ok_bind, expect_ok.mpr htrace, expect_ok.mpr hsize, hassert,
    hlookup, index_ok.mpr hroot]
  simp [readEvents]

theorem WriteCircuit.shape_ok {circuit : WriteCircuit F} {z : List Variable}
    {trace : TraceRecord F} {memorySize : U64} {lookup : Nat} (htrace : circuit.trace = some trace)
    (hsize : circuit.memorySize = some memorySize) (hz : z.length = memorySize.val + 1)
    (hlookup : lookupRes memorySize.val trace.address = .ok lookup) :
    circuit.shape z [] =
      .ok ((.aux (memorySize.val + 3), fresh 2 (memorySize.val + 1)), writeEvents memorySize.val) := by
  have htake : (z.take memorySize.val).length = memorySize.val := by
    rw [List.length_take]
    omega
  have hassert : assertEq z.length (memorySize.val + 1) = .ok () := assertEq_ok.mpr hz
  have hcells : assertEq (memorySize.val + 1) (memorySize.val + 1) = .ok () := assertEq_ok.mpr rfl
  unfold shape
  simp only [Shape.bind_apply, Shape.lift_apply, Shape.alloc_apply, Shape.enforce_apply,
    Shape.pure_apply, ok_bind, expect_ok.mpr htrace, expect_ok.mpr hsize, hassert,
    hlookup, mapM_alloc_shape, htake]
  simp [hcells, writeEvents, fresh, List.range_succ, Nat.add_comm 2]

/-! A proof synthesizes the circuit of this shape. -/

section Synthesis

variable {hash : F → F → F}

/-- The same variables in the same order, and the same matrices. -/
def Shaped (z : List (AllocatedNum F)) (shape : List Variable → Shape F (Variable × List Variable))
    (r : (AllocatedNum F × List (AllocatedNum F)) × ConstraintSystem F) : Prop :=
  ∃ events, shape (z.map (·.var)) [] = .ok ((r.1.1.var, r.1.2.map (·.var)), events) ∧
    allocated events = r.2.aux.length ∧ matrices events = r.2.constraints

theorem ReadCircuit.synthesize_shaped {circuit : ReadCircuit F} {z : List (AllocatedNum F)}
    {r : (AllocatedNum F × List (AllocatedNum F)) × ConstraintSystem F}
    (h : circuit.synthesize hash z .empty = .ok r) : Shaped z circuit.shape r := by
  obtain ⟨step, rfl⟩ := ReadCircuit.synthesize_ok_iff.mp h
  refine ⟨readEvents step.root.var,
    ReadCircuit.shape_ok step.trace_eq step.memorySize_eq ?_ step.lookup_eq ?_, ?_, ?_⟩
  · rw [List.length_map, step.length_eq]
  · rw [List.getElem?_map, step.root_eq]
    rfl
  · simp [readEvents, ReadCircuit.Step.aux]
  · simp [readEvents, ReadCircuit.Step.constraints]

theorem WriteCircuit.synthesize_shaped {circuit : WriteCircuit F} {z : List (AllocatedNum F)}
    {r : (AllocatedNum F × List (AllocatedNum F)) × ConstraintSystem F}
    (h : circuit.synthesize hash z .empty = .ok r) : Shaped z circuit.shape r := by
  obtain ⟨step, rfl⟩ := WriteCircuit.synthesize_ok_iff.mp h
  have hvars : (numbered 2 step.output).map (·.var) = fresh 2 (step.memorySize.val + 1) := by
    rw [numbered_vars, step.output_length]
  refine ⟨writeEvents step.memorySize.val, ?_, ?_, ?_⟩
  · rw [hvars]
    exact WriteCircuit.shape_ok step.trace_eq step.memorySize_eq
      (by rw [List.length_map, step.length_eq]) step.lookup_eq
  · simp [writeEvents, WriteCircuit.Step.aux]
  · simp [writeEvents, WriteCircuit.constraints]

end Synthesis

/-! ## The circuits of the setup -/

def ReadCircuit.arity (circuit : ReadCircuit F) : Except Panic U64 := do
  (← expect circuit.memorySize).add (.ofNat 1)

def WriteCircuit.arity (circuit : WriteCircuit F) : Except Panic U64 := do
  (← expect circuit.memorySize).add (.ofNat 1)

namespace MemoryConsistencyCircuit

def arity : MemoryConsistencyCircuit F → Except Panic U64
  | read circuit => circuit.arity
  | write circuit => circuit.arity

def shape (z : List Variable) : MemoryConsistencyCircuit F → Shape F (Variable × List Variable)
  | read circuit => circuit.shape z
  | write circuit => circuit.shape z

/-- `none` is the arm `unreachable!()`. -/
def primaryCircuit : Nat → Option (MemoryConsistencyCircuit F)
  | 0 => some (read ⟨some ⟨0, 0⟩, some 1, some (.ofNat 4)⟩)
  | 1 => some (write ⟨some ⟨0, 0⟩, some 0, some (.ofNat 4)⟩)
  | _ => none

/-- Two circuits that public parameters do not tell apart. -/
structure SameShape (c d : MemoryConsistencyCircuit F) : Prop where
  arity : ∃ n, c.arity = .ok n ∧ d.arity = .ok n
  shape : ∀ n z, c.arity = .ok n → z.length = n.val →
    ∃ r, c.shape z [] = .ok r ∧ d.shape z [] = .ok r

/-- The circuit has the shape of the setup circuit of its index. -/
def MatchesSetup (c : MemoryConsistencyCircuit F) : Prop :=
  ∃ primary, primaryCircuit c.circuitIndex = some primary ∧ c.SameShape primary

/-- The size of the memory a circuit is made for. -/
def memorySize : MemoryConsistencyCircuit F → Option U64
  | read circuit => circuit.memorySize
  | write circuit => circuit.memorySize

def trace : MemoryConsistencyCircuit F → Option (TraceRecord F)
  | read circuit => circuit.trace
  | write circuit => circuit.trace

omit [Field F] [DecidableEq F] in
theorem arity_eq (c : MemoryConsistencyCircuit F) :
    c.arity = (do (← expect c.memorySize).add (.ofNat 1)) := by
  cases c <;> rfl

omit [Field F] [DecidableEq F] in
theorem arity_ok {c : MemoryConsistencyCircuit F} {m n : U64} (hsize : c.memorySize = some m) :
    c.arity = .ok n ↔ m.val + 1 = n.val := by
  rw [arity_eq, hsize, expect, ok_bind, Uint.add_ok]
  rfl

theorem shape_eq_of_memorySize {c d : MemoryConsistencyCircuit F} {m : U64}
    {s t : TraceRecord F} {x y : Nat} (hindex : c.circuitIndex = d.circuitIndex)
    (hc : c.memorySize = some m) (hd : d.memorySize = some m) (hs : c.trace = some s)
    (ht : d.trace = some t) (hx : lookupRes m.val s.address = .ok x)
    (hy : lookupRes m.val t.address = .ok y) {z : List Variable} (hz : z.length = m.val + 1) :
    ∃ r, c.shape z [] = .ok r ∧ d.shape z [] = .ok r := by
  have hroot : z[m.val]? = some z[m.val] := List.getElem?_eq_getElem (by omega)
  cases c with
  | read c =>
    cases d with
    | read d =>
      exact ⟨_, ReadCircuit.shape_ok hs hc hz hx hroot, ReadCircuit.shape_ok ht hd hz hy hroot⟩
    | write d => cases hindex
  | write c =>
    cases d with
    | read d => cases hindex
    | write d => exact ⟨_, WriteCircuit.shape_ok hs hc hz hx, WriteCircuit.shape_ok ht hd hz hy⟩

omit [DecidableEq F] in
/-- The setup circuit of a kind: four cells, and a trace that it accepts. -/
theorem exists_primaryCircuit (c : MemoryConsistencyCircuit F) :
    ∃ primary : MemoryConsistencyCircuit F, primaryCircuit c.circuitIndex = some primary ∧
      primary.circuitIndex = c.circuitIndex ∧ primary.memorySize = some (.ofNat 4) ∧
      primary.trace = some ⟨0, 0⟩ := by
  cases c with
  | read circuit => exact ⟨_, rfl, rfl, rfl, rfl⟩
  | write circuit => exact ⟨_, rfl, rfl, rfl, rfl⟩

/-- A count over fewer than 256 cells stays in a `u8`. -/
theorem exists_lookupRes (address : F) {n : Nat} (hn : n < 256) :
    ∃ count, lookupRes n address = .ok count := by
  have hstep : ∀ i < n, ∀ count : Nat, count ≤ i → ∃ count',
      (if count + selector i address < 256 then .ok (count + selector i address)
        else .error .arithmeticOverflow : Except Panic Nat) = .ok count' ∧ count' ≤ i + 1 := by
    intro i hi count hle
    have hselector : selector i address ≤ 1 := by
      unfold selector
      split <;> omega
    exact ⟨_, if_pos (by omega), by omega⟩
  obtain ⟨count, hcount, -⟩ := foldlM_range_ok (fun i count => count ≤ i) le_rfl hstep
  exact ⟨count, hcount⟩

/-- The setup is made for four cells. -/
theorem matchesSetup_iff {c : MemoryConsistencyCircuit F} {m : U64} {t : TraceRecord F}
    (hm : c.memorySize = some m) (ht : c.trace = some t) : c.MatchesSetup ↔ m.val = 4 := by
  obtain ⟨primary, hprimary, hindex, hsize, htrace⟩ := exists_primaryCircuit c
  have hfour : (Uint.ofNat 4 : U64).val = 4 := by decide
  constructor
  · rintro ⟨other, hother, hsame⟩
    obtain rfl : primary = other := Option.some.inj (hprimary.symm.trans hother)
    obtain ⟨n, hc, hp⟩ := hsame.arity
    rw [arity_ok hm] at hc
    rw [arity_ok hsize, hfour] at hp
    omega
  · intro hval
    obtain rfl : m = .ofNat 4 := Uint.ext (hval.trans hfour.symm)
    have hlookup (address : F) : ∃ count, lookupRes (Uint.ofNat 4 : U64).val address = .ok count :=
      exists_lookupRes address (by decide)
    refine ⟨primary, hprimary, ⟨.ofNat 5, (arity_ok hm).mpr (by decide),
      (arity_ok hsize).mpr (by decide)⟩, ?_⟩
    intro n z hn hz
    rw [arity_ok hm] at hn
    obtain ⟨x, hx⟩ := hlookup t.address
    obtain ⟨y, hy⟩ := hlookup 0
    exact shape_eq_of_memorySize hindex.symm hm hsize ht htrace hx hy (by omega)

/-! ## The circuits of a trace -/

omit [DecidableEq F] in
theorem circuitAt_ok {address value instruction : List U64} {m : U64} {i : Nat}
    {c : MemoryConsistencyCircuit F} (h : circuitAt address value instruction m i = .ok c) :
    c.memorySize = some m ∧ ∃ t, c.trace = some t := by
  simp only [circuitAt, bind_ok_iff] at h
  obtain ⟨kind, -, a, -, v, -, next, -, h⟩ := h
  split at h
  · cases h
    exact ⟨rfl, _, rfl⟩
  · cases h
    exact ⟨rfl, _, rfl⟩

omit [DecidableEq F] in
theorem new_ok {zPrimary : List F} {address value instruction : List U64} {numSteps : Nat}
    {m : U64} {circuits : List (MemoryConsistencyCircuit F)}
    (h : new zPrimary address value instruction numSteps m = .ok circuits) :
    circuits ≠ [] ∧ ∀ c ∈ circuits, c.memorySize = some m ∧ ∃ t, c.trace = some t := by
  simp only [new, bind_ok_iff] at h
  obtain ⟨-, -, last, -, -, -, first, -, next, -, rest, hrest, h⟩ := h
  cases h
  refine ⟨List.cons_ne_nil _ _, ?_⟩
  rw [List.forall_mem_cons]
  refine ⟨⟨rfl, _, rfl⟩, ?_⟩
  intro c hc
  obtain ⟨i, hi⟩ := List.getElem?_of_mem hc
  obtain ⟨hlen, hat⟩ := getElem?_of_mapM_range hrest
  obtain ⟨d, hd, hcircuit⟩ := hat i (hlen ▸ (List.getElem?_eq_some_iff.mp hi).1)
  obtain rfl : c = d := Option.some.inj (hi.symm.trans hd)
  exact circuitAt_ok hcircuit

/-- The circuits of a trace have the shapes of the setup exactly for a memory of four cells. -/
theorem new_matchesSetup_iff {zPrimary : List F} {address value instruction : List U64}
    {numSteps : Nat} {m : U64} {circuits : List (MemoryConsistencyCircuit F)}
    (h : new zPrimary address value instruction numSteps m = .ok circuits) :
    (∀ c ∈ circuits, c.MatchesSetup) ↔ m.val = 4 := by
  obtain ⟨hne, hall⟩ := new_ok h
  have hiff : ∀ c ∈ circuits, c.MatchesSetup ↔ m.val = 4 := by
    intro c hc
    obtain ⟨hm, t, ht⟩ := hall c hc
    exact matchesSetup_iff hm ht
  constructor
  · intro hmatch
    obtain ⟨c, hc⟩ := List.exists_mem_of_ne_nil circuits hne
    exact (hiff c hc).mp (hmatch c hc)
  · intro hm c hc
    exact (hiff c hc).mpr hm

end MemoryConsistencyCircuit

end Circuits

namespace MemoryConsistencyCircuit

/-- The circuits of one write to a memory of four cells. -/
theorem new_matchesSetup_iff_fourCells : ∃ circuits,
    new ([0, 0, 0, 0, 0] : List Fp) [.ofNat 1] [.ofNat 7] [.ofNat 1, .ofNat 2] 1 (.ofNat 4) =
      .ok circuits ∧
    ((∀ c ∈ circuits, c.MatchesSetup) ↔ (Uint.ofNat 4 : U64).val = 4) := by
  have hnew : ∃ circuits,
      new ([0, 0, 0, 0, 0] : List Fp) [.ofNat 1] [.ofNat 7] [.ofNat 1, .ofNat 2] 1 (.ofNat 4) =
        .ok circuits := ⟨_, rfl⟩
  obtain ⟨circuits, h⟩ := hnew
  exact ⟨circuits, h, new_matchesSetup_iff h⟩

/-- The circuits of one write to a memory of two cells have arity three, those of the setup
five. -/
theorem twoCells_mismatch : ∃ circuits,
    new ([0, 0, 0] : List Fp) [.ofNat 1] [.ofNat 7] [.ofNat 1, .ofNat 2] 1 (.ofNat 2) =
      .ok circuits ∧ circuits ≠ [] ∧ ∀ c ∈ circuits, ¬ c.MatchesSetup := by
  have hnew : ∃ circuits,
      new ([0, 0, 0] : List Fp) [.ofNat 1] [.ofNat 7] [.ofNat 1, .ofNat 2] 1 (.ofNat 2) =
        .ok circuits := ⟨_, rfl⟩
  obtain ⟨circuits, h⟩ := hnew
  obtain ⟨hne, hall⟩ := new_ok h
  refine ⟨circuits, h, hne, ?_⟩
  intro c hc
  obtain ⟨hm, t, ht⟩ := hall c hc
  rw [matchesSetup_iff hm ht]
  decide

end MemoryConsistencyCircuit

end Zkmemory.Folding.SuperNova
