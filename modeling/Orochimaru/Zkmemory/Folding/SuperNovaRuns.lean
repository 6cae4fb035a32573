import Orochimaru.Zkmemory.Folding.NovaRuns
import Orochimaru.Zkmemory.Folding.SuperNova

/-!
# Honest runs of the SuperNova circuits

The leading read checks the commitment, reads keep it and writes renew it. A run is accepted
exactly when the initial commitment is right and the records are consistent, and it then ends
where the run of the Nova circuit ends.
-/

namespace Zkmemory.Folding.SuperNova

open Constraints Loops R1cs

variable {F : Type} [Field F] [DecidableEq F] (hash : F → F → F)

/-! ## The circuits of a trace -/

/-- The instruction after a record; 2 ends the trace. -/
def nextOf : List Record → U64
  | [] => ⟨2, by decide⟩
  | r :: _ => r.instruction

omit [DecidableEq F] in
def circuitOf (m : U64) (r : Record) (next : U64) : MemoryConsistencyCircuit F :=
  if r.instruction.val = 0 then
    .read ⟨some ⟨r.address.val, r.value.val⟩, some next.val, some m⟩
  else .write ⟨some ⟨r.address.val, r.value.val⟩, some next.val, some m⟩

def circuitsOf (m : U64) : List Record → List (MemoryConsistencyCircuit F)
  | [] => []
  | r :: records => circuitOf m r (nextOf records) :: circuitsOf m records

def leading (m : U64) (first : F) (records : List Record) : MemoryConsistencyCircuit F :=
  .read ⟨some ⟨((0 : Nat) : F), first⟩, some (nextOf records).val, some m⟩

omit [DecidableEq F] in
theorem circuitsOf_getElem? (m : U64) {records : List Record} {i : Nat} {r : Record}
    (h : records[i]? = some r) : (circuitsOf m records : List (MemoryConsistencyCircuit F))[i]? =
      some (circuitOf m r (nextOf (records.drop (i + 1)))) := by
  induction records generalizing i with
  | nil => simp at h
  | cons s records ih =>
    cases i with
    | zero =>
      obtain rfl : s = r := by simpa using h
      rfl
    | succ i => exact ih (by simpa using h)

omit [DecidableEq F] in
theorem circuitsOf_length (m : U64) (records : List Record) :
    (circuitsOf m records : List (MemoryConsistencyCircuit F)).length = records.length := by
  induction records with
  | nil => rfl
  | cons r records ih => rw [circuitsOf, List.length_cons, ih, List.length_cons]

/-- The instructions of a trace with the final 2. -/
def instructions (records : List Record) : List U64 :=
  records.map Record.instruction ++ [⟨2, by decide⟩]

theorem instructions_getElem? {records : List Record} {i : Nat} (h : i ≤ records.length) :
    (instructions records)[i]? = some (nextOf (records.drop i)) := by
  induction records generalizing i with
  | nil =>
    obtain rfl : i = 0 := Nat.le_zero.mp h
    rfl
  | cons r records ih =>
    cases i with
    | zero => rfl
    | succ i => exact ih (Nat.le_of_succ_le_succ h)

omit [DecidableEq F] in
theorem new_records (m : U64) {z : List F} {first : F} (hz : z[0]? = some first)
    (records : List Record) :
    MemoryConsistencyCircuit.new z (records.map Record.address) (records.map Record.value)
      (instructions records) records.length m =
      .ok (leading m first records :: circuitsOf m records) := by
  have hcircuit : ∀ i < records.length, ∃ c : MemoryConsistencyCircuit F,
      MemoryConsistencyCircuit.circuitAt (records.map Record.address)
        (records.map Record.value) (instructions records) m i = .ok c ∧
        (circuitsOf m records)[i]? = some c := by
    intro i hi
    obtain ⟨r, hr⟩ : ∃ r, records[i]? = some r := ⟨_, List.getElem?_eq_getElem hi⟩
    refine ⟨_, ?_, circuitsOf_getElem? m hr⟩
    have hkind : nextOf (records.drop i) = r.instruction := by
      have hdrop : (records.drop i)[0]? = some r := by rw [List.getElem?_drop, Nat.add_zero, hr]
      cases hrest : records.drop i with
      | nil => simp [hrest] at hdrop
      | cons s rest =>
        rw [hrest] at hdrop
        rw [nextOf, Option.some.inj hdrop]
    simp only [MemoryConsistencyCircuit.circuitAt, index, instructions_getElem? hi.le,
      instructions_getElem? (Nat.succ_le_of_lt hi), List.getElem?_map, hr, Option.map_some, ok_bind,
      hkind, circuitOf]
    split <;> rfl
  obtain ⟨l, hl, hlen, hget⟩ := mapM_range_ok hcircuit
  have heq : l = circuitsOf m records := by
    apply List.ext_getElem?
    intro i
    by_cases hi : i < records.length
    · obtain ⟨c, hc, hc'⟩ := hget i hi
      rw [hc, hc']
    · rw [List.getElem?_eq_none (by omega),
        List.getElem?_eq_none (by rw [circuitsOf_length]; omega)]
  have hlast := instructions_getElem? (le_refl records.length)
  have hfirst := instructions_getElem? (Nat.zero_le records.length)
  rw [List.drop_length] at hlast
  rw [List.drop_zero] at hfirst
  have hcount : assertEq (instructions records).length
      ((records.map Record.address).length + 1) = .ok () :=
    assertEq_ok.mpr (by simp [instructions])
  have htermination : index (instructions records) (records.map Record.address).length =
      .ok (nextOf []) := index_ok.mpr (by rw [List.length_map, hlast])
  have htwo : assertEq (nextOf []).val 2 = .ok () := rfl
  rw [MemoryConsistencyCircuit.new, hcount, ok_bind, htermination, ok_bind, htwo, ok_bind,
    index_ok.mpr hz, ok_bind, index_ok.mpr hfirst, ok_bind, hl, ok_bind, heq]
  rfl

/-! ## One step -/

/-- A step of a run: its vectors, the program counter it emits, and the constraint system of
its honest synthesis. -/
structure RunStep (F : Type) where
  zIn : List F
  zOut : List F
  pcNext : F
  cs : ConstraintSystem F

/-- The honest values satisfy a step. -/
def RunStep.Satisfied (step : RunStep F) : Prop :=
  Satisfies (step.cs.honest step.zIn) step.zIn step.cs

def run : List (MemoryConsistencyCircuit F) → List F → Except Panic (List (RunStep F))
  | [], _ => .ok []
  | circuit :: circuits, z => do
    let r ← circuit.synthesize hash (inputs z) .empty
    let rest ← run circuits (r.1.2.map (·.value))
    .ok (⟨z, r.1.2.map (·.value), r.1.1.value, r.2⟩ :: rest)

/-- The vector at the end of a run. -/
def lastOf (z : List F) : List (RunStep F) → List F
  | [] => z
  | step :: steps => lastOf step.zOut steps

section Steps

variable {p : Nat} [CharP F p]

omit [Field F] [DecidableEq F] in
theorem inputs_cells {m : U64} {memory : List F} (hlen : memory.length = m.val) (c : F) :
    ((inputs (memory ++ [c])).take m.val).map (·.value) = memory := by
  rw [List.map_take, inputs_values]
  exact List.take_left' hlen

omit [DecidableEq F] in
theorem commit_eq {m : U64} (hm : 0 < m.val) {memory : List F} (hlen : memory.length = m.val) :
    merkleTreeCommit hash memory = .ok (commitment hash memory) :=
  merkleTreeCommit_ok hash (List.length_pos_iff.mp (by omega))

section Read

variable {hash} {m : U64} {address : U64} {value next : F} {memory : List F} {c : F}
  (step : ReadCircuit.Step hash ⟨some ⟨address.val, value⟩, some next, some m⟩
    (inputs (memory ++ [c])))

theorem readStep_aux (hp : 2 ^ 64 < p) (hm : 0 < m.val) (hlen : memory.length = m.val) :
    step.aux = [((if address.val < memory.length then 1 else 0 : Nat) : F),
      memory.getD address.val 0, value, commitment hash memory, next] := by
  have hsize : step.memorySize = m := (Option.some.inj step.memorySize_eq).symm
  have htrace : ⟨address.val, value⟩ = step.trace := Option.some.inj step.trace_eq
  have hnext : next = step.nextInstruction := Option.some.inj step.nextInstruction_eq
  have hlookup := step.lookup_eq
  have hcommit := step.commitment_eq
  rw [hsize, inputs_cells hlen, commit_eq hash hm hlen] at hcommit
  rw [← htrace, hsize, lookupRes_natCast hp m.isLt.le address.isLt] at hlookup
  rw [ReadCircuit.Step.aux, ← htrace, ← hnext, ← Except.ok.inj hlookup, ← Except.ok.inj hcommit,
    hsize, inputs_cells hlen, getMemoryAddress_natCast hp (hlen ▸ m.isLt.le) address.isLt, hlen]

/-- An honest read is accepted where the commitment and the value are right. -/
theorem readStep_satisfied_iff (hp : 2 ^ 64 < p) (hm : 0 < m.val) (hlen : memory.length = m.val) :
    RunStep.Satisfied ⟨memory ++ [c], memory ++ [c], next, ⟨step.aux, step.constraints⟩⟩ ↔
      commitment hash memory = c ∧ memory[address.val]? = some value := by
  have hsize : step.memorySize = m := (Option.some.inj step.memorySize_eq).symm
  have hroot := step.root_eq
  rw [hsize, inputs_getElem?, List.getElem?_append_right hlen.le, hlen, Nat.sub_self] at hroot
  have hvar : step.root.var = .input m.val := by
    rw [← Option.some.inj hroot]
  have hc : (memory ++ [c]).getD m.val 0 = c := by
    rw [List.getD_append_right _ _ _ _ hlen.le, hlen, Nat.sub_self]
    rfl
  have haux := readStep_aux step hp hm hlen
  rw [RunStep.Satisfied, honest_satisfies_iff, step.constraints_hold_iff rfl, hvar]
  simp only [ConstraintSystem.honest, haux, hc, List.getD_cons_zero, List.getD_cons_succ]
  by_cases haddress : address.val < memory.length
  · simp [haddress]
  · simp [haddress]

end Read

theorem read_run (hp : 2 ^ 64 < p) {m : U64} (hm : 0 < m.val) (address : U64) (value next : F)
    {memory : List F} (hlen : memory.length = m.val) (c : F) :
    ∃ step : RunStep F, (∀ circuits, run hash
        (.read ⟨some ⟨address.val, value⟩, some next, some m⟩ :: circuits) (memory ++ [c]) =
        run hash circuits step.zOut >>= fun rest => .ok (step :: rest)) ∧
      step.zOut = memory ++ [c] ∧ step.pcNext = next ∧
      (step.Satisfied ↔ commitment hash memory = c ∧ memory[address.val]? = some value) := by
  have hlenz : (inputs (memory ++ [c])).length = m.val + 1 := by simp [hlen]
  obtain ⟨step⟩ : Nonempty (ReadCircuit.Step hash ⟨some ⟨address.val, value⟩, some next, some m⟩
      (inputs (memory ++ [c]))) :=
    exists_readStep hp hm address value next hlenz
  have hsynthesize := ReadCircuit.synthesize_ok_iff.mpr ⟨step, rfl⟩
  have hnext : next = step.nextInstruction := Option.some.inj step.nextInstruction_eq
  refine ⟨_, fun circuits => ?_, rfl, rfl, readStep_satisfied_iff step hp hm hlen⟩
  rw [run, MemoryConsistencyCircuit.synthesize, hsynthesize, ok_bind, ← hnext]
  simp only [inputs_values]

section Write

variable {hash} {m : U64} {address : U64} {value next : F} {memory : List F} {c : F}
  (step : WriteCircuit.Step hash ⟨some ⟨address.val, value⟩, some next, some m⟩
    (inputs (memory ++ [c])))

theorem writeStep_output (hp : 2 ^ 64 < p) (hm : 0 < m.val) (hlen : memory.length = m.val) :
    step.output =
      memory.set address.val value ++ [commitment hash (memory.set address.val value)] := by
  have hsize : step.memorySize = m := (Option.some.inj step.memorySize_eq).symm
  have htrace : ⟨address.val, value⟩ = step.trace := Option.some.inj step.trace_eq
  have hcommit := step.newCommitment_eq
  rw [hsize, inputs_cells hlen, ← htrace,
    newMemory_natCast hp value (hlen ▸ m.isLt.le) address.isLt,
    commit_eq hash hm (by rw [List.length_set, hlen])] at hcommit
  rw [WriteCircuit.Step.output, hsize, inputs_cells hlen, ← htrace,
    newMemory_natCast hp value (hlen ▸ m.isLt.le) address.isLt, ← Except.ok.inj hcommit]

theorem writeStep_satisfied_iff (hp : 2 ^ 64 < p) (hlen : memory.length = m.val) {zOut : List F} :
    RunStep.Satisfied ⟨memory ++ [c], zOut, next, ⟨step.aux, WriteCircuit.constraints⟩⟩ ↔
      address.val < memory.length := by
  have hsize : step.memorySize = m := (Option.some.inj step.memorySize_eq).symm
  have htrace : ⟨address.val, value⟩ = step.trace := Option.some.inj step.trace_eq
  have hlookup := step.lookup_eq
  rw [← htrace, hsize, lookupRes_natCast hp m.isLt.le address.isLt, ← hlen] at hlookup
  rw [RunStep.Satisfied, honest_satisfies_iff, WriteCircuit.constraints_hold_iff rfl]
  simp only [ConstraintSystem.honest, WriteCircuit.Step.aux, ← Except.ok.inj hlookup,
    List.cons_append, List.getD_cons_zero]
  by_cases haddress : address.val < memory.length
  · simp [haddress]
  · simp [haddress]

end Write

theorem write_run (hp : 2 ^ 64 < p) {m : U64} (hm : 0 < m.val) (address : U64) (value next : F)
    {memory : List F} (hlen : memory.length = m.val) (c : F) :
    ∃ step : RunStep F, (∀ circuits, run hash
        (.write ⟨some ⟨address.val, value⟩, some next, some m⟩ :: circuits) (memory ++ [c]) =
        run hash circuits step.zOut >>= fun rest => .ok (step :: rest)) ∧
      step.zOut = memory.set address.val value ++
        [commitment hash (memory.set address.val value)] ∧
      step.pcNext = next ∧ (step.Satisfied ↔ address.val < memory.length) := by
  have hlenz : (inputs (memory ++ [c])).length = m.val + 1 := by simp [hlen]
  obtain ⟨step⟩ : Nonempty (WriteCircuit.Step hash ⟨some ⟨address.val, value⟩, some next, some m⟩
      (inputs (memory ++ [c]))) :=
    exists_writeStep hp hm address value next hlenz
  have hsynthesize := WriteCircuit.synthesize_ok_iff.mpr ⟨step, rfl⟩
  have hnext : next = step.nextInstruction := Option.some.inj step.nextInstruction_eq
  refine ⟨⟨memory ++ [c], step.output, next, ⟨step.aux, WriteCircuit.constraints⟩⟩,
    fun circuits => ?_, writeStep_output step hp hm hlen, rfl,
    writeStep_satisfied_iff step hp hlen⟩
  rw [run, MemoryConsistencyCircuit.synthesize, hsynthesize, ok_bind, ← hnext]
  simp only [numbered_values]

/-! ## A run -/

omit [DecidableEq F] in
theorem committed_snoc {m : U64} (hm : 0 < m.val) {memory : List F} (hlen : memory.length = m.val) :
    Committed hash m.val (memory ++ [commitment hash memory]) := by
  refine ⟨commitment hash memory, ?_, ?_⟩
  · rw [List.getElem?_append_right hlen.le, hlen, Nat.sub_self]
    rfl
  · rw [List.take_left' hlen, commit_eq hash hm hlen]

/-- One record: whatever the commitment, the step does not fail and emits the instruction
after it; with the right commitment it is accepted where the record is valid, and keeps the
commitment right. -/
theorem record_run (hp : 2 ^ 64 < p) {m : U64} (hm : 0 < m.val) {r : Record}
    (hr : r.instruction.val = 0 ∨ r.instruction.val = 1) (next : U64) {memory : List F}
    (hlen : memory.length = m.val) (c : F) :
    ∃ step : RunStep F, (∀ circuits, run hash (circuitOf m r next :: circuits) (memory ++ [c]) =
        run hash circuits step.zOut >>= fun rest => .ok (step :: rest)) ∧
      step.pcNext = (next.val : F) ∧
      step.zOut = r.apply memory ++
        [if r.instruction.val = 0 then c else commitment hash (r.apply memory)] ∧
      (commitment hash memory = c → (step.Satisfied ↔ r.Valid memory)) := by
  rcases hr with h0 | h1
  · obtain ⟨step, hrun, hout, hnext, hsat⟩ :=
      read_run hash hp hm r.address (r.value.val : F) (next.val : F) hlen c
    refine ⟨step, ?_, hnext, ?_, fun hc => ?_⟩
    · rw [circuitOf, if_pos h0]
      exact hrun
    · rw [hout, if_pos h0, Record.apply, if_neg (by omega)]
    · rw [hsat]
      constructor
      · rintro ⟨-, hget⟩
        exact ⟨(List.getElem?_eq_some_iff.mp hget).1, Or.inl h0, fun _ => hget⟩
      · exact fun h => ⟨hc, h.read h0⟩
  · have hne : ¬ r.instruction.val = 0 := by omega
    obtain ⟨step, hrun, hout, hnext, hsat⟩ :=
      write_run hash hp hm r.address (r.value.val : F) (next.val : F) hlen c
    refine ⟨step, ?_, hnext, ?_, fun _ => ?_⟩
    · rw [circuitOf, if_neg hne]
      exact hrun
    · rw [hout, if_neg hne, Record.apply, if_pos h1]
    · rw [hsat]
      exact ⟨fun h => ⟨h, Or.inr h1, fun h0 => absurd h0 hne⟩, fun h => h.address⟩

/-- The steps of a list of records, none of which fails. -/
theorem records_run (hp : 2 ^ 64 < p) {m : U64} (hm : 0 < m.val) {records : List Record}
    (hr : ∀ r ∈ records, r.instruction.val = 0 ∨ r.instruction.val = 1) {memory : List F}
    (hlen : memory.length = m.val) (c : F) :
    ∃ steps, run hash (circuitsOf m records) (memory ++ [c]) = .ok steps ∧
      ((nextOf records).val : F) :: steps.map RunStep.pcNext =
        (instructions records).map (fun i => (i.val : F)) ∧
      (commitment hash memory = c →
        ((∀ step ∈ steps, step.Satisfied) ↔ Consistent memory records) ∧
        (∀ step ∈ steps, Committed hash m.val step.zOut) ∧
        lastOf (memory ++ [c]) steps = execute memory records ++
          [commitment hash (execute memory records)]) := by
  induction records generalizing memory c with
  | nil => exact ⟨[], rfl, rfl, fun hc => ⟨by simp [consistent_nil], by simp, by simp [lastOf, hc]⟩⟩
  | cons r records ih =>
    obtain ⟨step, hrun, hnext, hout, hsat⟩ :=
      record_run hash hp hm (hr r (List.mem_cons_self ..)) (nextOf records) hlen c
    have hlen' : (r.apply memory).length = m.val := by rw [Record.apply_length, hlen]
    obtain ⟨steps, hsteps, hpcs, hcommitted⟩ := ih (fun s hs => hr s (List.mem_cons_of_mem _ hs))
      hlen' (if r.instruction.val = 0 then c else commitment hash (r.apply memory))
    rw [← hout] at hsteps
    refine ⟨step :: steps, ?_, ?_, fun hc => ?_⟩
    · rw [circuitsOf, hrun, hsteps, ok_bind]
    · rw [List.map_cons, hnext, hpcs]
      rfl
    · have hkept : commitment hash (r.apply memory) =
          if r.instruction.val = 0 then c else commitment hash (r.apply memory) := by
        split
        case isTrue h0 => rw [Record.apply, if_neg (by omega), hc]
        case isFalse => rfl
      obtain ⟨haccept, hall, hlast⟩ := hcommitted hkept
      refine ⟨?_, ?_, ?_⟩
      · rw [List.forall_mem_cons, hsat hc, haccept, consistent_cons]
      · rw [List.forall_mem_cons]
        refine ⟨?_, hall⟩
        rw [hout, ← hkept]
        exact committed_snoc hash hm hlen'
      · rw [lastOf, hout, hlast, execute_cons]

omit [DecidableEq F] in
theorem circuitIndex_circuitOf (m : U64) {r : Record}
    (hr : r.instruction.val = 0 ∨ r.instruction.val = 1) (next : U64) :
    (circuitOf m r next : MemoryConsistencyCircuit F).circuitIndex = r.instruction.val := by
  unfold circuitOf
  split
  case isTrue h0 => exact h0.symm
  case isFalse h0 => exact (hr.resolve_left h0).symm

omit [DecidableEq F] in
/-- The instructions of a trace are the indices of its circuits. -/
theorem circuitIndex_circuitsOf (m : U64) {records : List Record}
    (hr : ∀ r ∈ records, r.instruction.val = 0 ∨ r.instruction.val = 1) :
    ((circuitsOf m records).map fun circuit : MemoryConsistencyCircuit F =>
      (circuit.circuitIndex : F)) ++ [2] = (instructions records).map fun i => (i.val : F) := by
  induction records with
  | nil => simp [circuitsOf, instructions]
  | cons r records ih =>
    rw [circuitsOf, List.map_cons, List.cons_append,
      ih fun s hs => hr s (List.mem_cons_of_mem _ hs),
      circuitIndex_circuitOf m (hr r (List.mem_cons_self ..))]
    rfl

/-- The run of the circuits that `new` creates for a trace. -/
theorem trace_run (hp : 2 ^ 64 < p) {m : U64} (hm : 0 < m.val) {records : List Record}
    (hr : ∀ r ∈ records, r.instruction.val = 0 ∨ r.instruction.val = 1) {memory : List F}
    (hlen : memory.length = m.val) (c : F) :
    ∃ circuits steps,
      MemoryConsistencyCircuit.new (memory ++ [c]) (records.map Record.address)
        (records.map Record.value) (instructions records) records.length m = .ok circuits ∧
      run hash circuits (memory ++ [c]) = .ok steps ∧
      ((∀ step ∈ steps, step.Satisfied) ↔
        merkleTreeCommit hash memory = .ok c ∧ Consistent memory records) ∧
      ((∀ step, steps.head? = some step → step.Satisfied) →
        ∀ step ∈ steps, Committed hash m.val step.zOut) ∧
      steps.map RunStep.pcNext =
        (circuits.tail.map fun circuit => (circuit.circuitIndex : F)) ++ [2] ∧
      ((∀ step ∈ steps, step.Satisfied) → ∀ novaSteps : List (List Record),
        novaSteps.flatten = records → ∃ runs,
          NovaMemoryConsistencyCircuit.proveRecords hash m novaSteps (memory ++ [c]) =
            .ok (lastOf (memory ++ [c]) steps, runs)) := by
  obtain ⟨first, hfirst⟩ : ∃ first, memory[0]? = some first :=
    ⟨_, List.getElem?_eq_getElem (by omega)⟩
  have hz : (memory ++ [c])[0]? = some first := by
    rw [List.getElem?_append_left (by omega), hfirst]
  obtain ⟨step, hrun, hout, hnext, hsat⟩ :=
    read_run hash hp hm .zero first ((nextOf records).val : F) hlen c
  obtain ⟨steps, hsteps, hpcs, hcommitted⟩ := records_run hash hp hm hr hlen c
  rw [← hout] at hsteps
  have hall : (∀ s ∈ step :: steps, s.Satisfied) ↔
      commitment hash memory = c ∧ Consistent memory records := by
    rw [List.forall_mem_cons, hsat]
    constructor
    · rintro ⟨⟨hc, -⟩, hrest⟩
      exact ⟨hc, (hcommitted hc).1.mp hrest⟩
    · rintro ⟨hc, hconsistent⟩
      exact ⟨⟨hc, hfirst⟩, (hcommitted hc).1.mpr hconsistent⟩
  refine ⟨_, step :: steps, new_records m hz records, ?_, ?_, ?_, ?_, ?_⟩
  · have hlead := hrun (circuitsOf m records)
    rw [hsteps, ok_bind] at hlead
    exact hlead
  · rw [hall, commit_eq hash hm hlen, Except.ok.injEq]
  · intro hhead
    obtain ⟨hc, -⟩ := hsat.mp (hhead step rfl)
    rw [List.forall_mem_cons, hout]
    exact ⟨hc ▸ committed_snoc hash hm hlen, (hcommitted hc).2.1⟩
  · rw [List.map_cons, hnext, hpcs, List.tail_cons, circuitIndex_circuitsOf m hr]
  · intro haccepted novaSteps hnova
    obtain ⟨hc, hconsistent⟩ := hall.mp haccepted
    obtain ⟨z, runs, hprove, haccept, hlast⟩ :=
      NovaMemoryConsistencyCircuit.prove_honest hash hp hm novaSteps hlen c
    rw [hnova] at haccept hlast
    refine ⟨runs, ?_⟩
    rw [NovaMemoryConsistencyCircuit.proveRecords_eq, hprove, hlast (haccept.mpr ⟨Or.inr hc, hconsistent⟩),
      lastOf, hout, (hcommitted hc).2.2]
    by_cases hnil : records = []
    · simp [hnil, hc]
    · rw [if_neg hnil]

/-- A write and a read of what it has written are accepted. -/
theorem trace_run_writeRead : ∃ circuits steps,
    MemoryConsistencyCircuit.new ([0, 0] ++ [0] : List Fp) (writeRead.map Record.address)
      (writeRead.map Record.value) (instructions writeRead) writeRead.length ⟨2, by decide⟩ =
        .ok circuits ∧
    run (fun x y => x + 2 * y) circuits ([0, 0] ++ [0]) = .ok steps ∧
    ∀ step ∈ steps, step.Satisfied := by
  have hp : 2 ^ 64 < pastaModulus := lt_trans (by decide) lt_pastaModulus
  have hinstructions : ∀ r ∈ writeRead, r.instruction.val = 0 ∨ r.instruction.val = 1 := by decide
  have hlen : ([0, 0] : List Fp).length = (⟨2, by decide⟩ : U64).val := rfl
  obtain ⟨circuits, steps, hnew, hrun, haccept, -⟩ :=
    trace_run (fun x y : Fp => x + 2 * y) hp two_pos hinstructions hlen 0
  exact ⟨circuits, steps, hnew, hrun, haccept.mpr ⟨merkleTreeCommit_zeros, consistent_writeRead⟩⟩

/-- A read of one from a cell that is zero. -/
def wrongRead : Record := ⟨.zero, .zero, ⟨1, one_lt_u64⟩⟩

/-- A rejected read leaves the memory of this circuit as it is and overwrites that of the Nova
circuit. -/
theorem wrongRead_disagree : ∃ circuits steps runs,
    MemoryConsistencyCircuit.new ([0, 0] : List Fp) [wrongRead.address] [wrongRead.value]
      (instructions [wrongRead]) 1 ⟨1, by decide⟩ = .ok circuits ∧
    run (fun x y => x + y) circuits [0, 0] = .ok steps ∧
    lastOf [0, 0] steps = [0, 0] ∧
    NovaMemoryConsistencyCircuit.proveRecords (fun x y => x + y) ⟨1, by decide⟩ [[wrongRead]]
      ([0, 0] : List Fp) = .ok ([1, 1], runs) := by
  refine ⟨_, _, _, rfl, rfl, rfl, rfl⟩

end Steps

end Zkmemory.Folding.SuperNova
