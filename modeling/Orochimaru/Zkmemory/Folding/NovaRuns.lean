import Orochimaru.Zkmemory.Constraints.PastaFp
import Orochimaru.Zkmemory.Folding.Nova

/-!
# Honest runs of the Nova circuit

The assignment of the honest prover satisfies the constraints of a run exactly when the
initial commitment is right and the records are consistent with the initial memory. Every
step starts from the vector that the step before it gave out.
-/

namespace Zkmemory.Folding

open Constraints Loops R1cs

variable {F : Type} [Field F] [DecidableEq F]

namespace NovaMemoryConsistencyCircuit

/-! ## One iteration -/

section Iteration

variable {p : Nat} [CharP F p] {hash : F → F → F} {memoryLen : U64} {records : List Record}
  {zOut : List (AllocatedNum F)} {j : Nat}

theorem step_aux_eq {circuit : NovaMemoryConsistencyCircuit F} (step : circuit.Step hash zOut j)
    {w : Variable → F} {cs cs' : ConstraintSystem F} (hw : cs'.Honest w)
    (haux : cs'.aux = cs.aux ++ step.aux) {i : Nat} {x : F} (hx : step.aux[i]? = some x) :
    w (.aux (cs.aux.length + i)) = x := by
  apply hw
  rw [haux, List.getElem?_append_right (Nat.le_add_right _ _), Nat.add_sub_cancel_left, hx]

omit [DecidableEq F] in
theorem memoryCells_eq (records : List Record) {memory : List F} {c : F}
    (hlen : memory.length = memoryLen.val) (hz : zOut.map (·.value) = memory ++ [c]) :
    (ofRecords memoryLen records).memoryCells zOut = memory := by
  rw [memoryCells, List.map_take, hz]
  exact List.take_left' hlen

theorem step_record_eq (step : (ofRecords memoryLen records).Step hash zOut j) {r : Record}
    (hr : records[j]? = some r) : step.record = traceOf r := by
  have htrace : (records.map traceOf)[j]? = some step.record := step.traceRecord_eq
  rw [List.getElem?_map, hr] at htrace
  exact (Option.some.inj htrace).symm

/-- The honest values satisfy an iteration when its commitment is that of its memory and
its record is valid there. -/
theorem step_accepts_iff (hp : 2 ^ 64 < p) (step : (ofRecords memoryLen records).Step hash zOut j)
    {memory : List F} {c : F} {r : Record} (hr : records[j]? = some r)
    (hlen : memory.length = memoryLen.val) (hz : zOut.map (·.value) = memory ++ [c])
    {w : Variable → F} (hone : w .one = 1) (hcarried : ∀ num ∈ zOut, num.Carried w)
    {cs cs' : ConstraintSystem F} (hw : cs'.Honest w) (haux : cs'.aux = cs.aux ++ step.aux) :
    (∀ k ∈ step.constraints cs.aux.length, k.Holds w) ↔
      commitment hash memory = c ∧ r.Valid memory := by
  have hcells := memoryCells_eq records hlen hz
  have hrecord := step_record_eq step hr
  have hroot : w step.root.var = c := by
    have hc : (zOut.map (·.value))[memoryLen.val]? = some step.root.value := by
      rw [List.getElem?_map]
      exact congrArg _ step.root_eq
    rw [hz, List.getElem?_append_right hlen.le, hlen, Nat.sub_self] at hc
    rw [hcarried _ (List.mem_of_getElem? step.root_eq)]
    exact (Option.some.inj hc).symm
  have hlookup : step.lookup = if r.address.val < memory.length then 1 else 0 := by
    have h := step.lookup_eq
    rw [hrecord, traceOf, lookupRes_natCast hp (by exact memoryLen.isLt.le) r.address.isLt] at h
    rw [hlen]
    exact (Except.ok.inj h).symm
  have hcommit : step.commitment = commitment hash memory := by
    have h := step.commitment_eq
    rw [hcells, merkleTreeCommit_ok] at h
    · exact (Except.ok.inj h).symm
    · intro hnil
      have := step.memoryLen_pos
      rw [hnil, List.length_nil] at hlen
      exact absurd hlen this.ne
  have hread : getMemoryAddress memory (r.address.val : F) = memory.getD r.address.val 0 :=
    getMemoryAddress_natCast hp (by rw [hlen]; exact memoryLen.isLt.le) r.address.isLt
  have haux' : step.aux = [(r.value.val : F), r.instruction.val, memory.getD r.address.val 0,
      commitment hash memory, ((if r.address.val < memory.length then 1 else 0 : Nat) : F)] ++
      step.output := by
    rw [Step.aux, hcells, hrecord, hcommit, hlookup, ← hread]
    rfl
  have hvar : ∀ {i x}, step.aux[i]? = some x → w (.aux (cs.aux.length + i)) = x :=
    step_aux_eq step hw haux
  rw [haux'] at hvar
  rw [step.constraints_hold_iff hash _ hone, hroot, hvar (i := 4) rfl, hvar (i := 3) rfl,
    hvar (i := 2) rfl, hvar (i := 1) rfl, show w (.aux cs.aux.length) = _ from hvar (i := 0) rfl,
    mul_self_natCast hp r.instruction.isLt, Record.valid_iff]
  have hone_iff : ((if r.address.val < memory.length then 1 else 0 : Nat) : F) = 1 ↔
      r.address.val < memory.length := by
    split <;> simp_all
  rw [hone_iff]
  tauto

/-- What an accepted iteration gives out. -/
theorem step_output_eq (hp : 2 ^ 64 < p)
    (step : (ofRecords memoryLen records).Step hash zOut j) {memory : List F} {c : F} {r : Record}
    (hr : records[j]? = some r) (hlen : memory.length = memoryLen.val)
    (hz : zOut.map (·.value) = memory ++ [c]) (hvalid : r.Valid memory) :
    step.output = r.apply memory ++ [commitment hash (r.apply memory)] := by
  have hcells := memoryCells_eq records hlen hz
  have hrecord := step_record_eq step hr
  have hnew : newMemory ((ofRecords memoryLen records).memoryCells zOut) step.record.value
      step.record.address = r.apply memory := by
    rw [hcells, hrecord]
    exact newMemory_valid hp (by rw [hlen]; exact memoryLen.isLt.le) hvalid
  have hcommit := step.newCommitment_eq
  rw [hnew, merkleTreeCommit_ok] at hcommit
  · rw [Step.output, hnew, ← Except.ok.inj hcommit]
  · intro hnil
    have hempty : (r.apply memory).length = 0 := by rw [hnil, List.length_nil]
    have := step.memoryLen_pos
    rw [Record.apply_length, hlen] at hempty
    exact absurd hempty this.ne'

end Iteration

/-! ## One step -/

section Steps

variable {p : Nat} [CharP F p] {hash : F → F → F} {memoryLen : U64}

/-- The constraints of the first iterations hold for the honest values when the first
commitment is right and the records are consistent; the vector is then that of the
executed memory. -/
theorem iterations_honest (hp : 2 ^ 64 < p) {records : List Record} {memory : List F} {c : F}
    (hlen : memory.length = memoryLen.val) {w : Variable → F} (hone : w .one = 1)
    (hinput : ∀ i, w (.input i) = (memory ++ [c]).getD i 0) {n : Nat} (hn : n ≤ records.length)
    {r : List (AllocatedNum F) × ConstraintSystem F}
    (h : (ofRecords memoryLen records).iterations hash (inputs (memory ++ [c])) n .empty = .ok r)
    (hw : r.2.Honest w) :
    (∀ num ∈ r.1, num.Carried w) ∧
    ((∀ k ∈ r.2.constraints, k.Holds w) ↔
      (n = 0 ∨ commitment hash memory = c) ∧ Consistent memory (records.take n)) ∧
    (Consistent memory (records.take n) →
      r.1.map (·.value) = execute memory (records.take n) ++
        [if n = 0 then c else commitment hash (execute memory (records.take n))]) := by
  induction n generalizing r with
  | zero =>
    obtain rfl : (inputs (memory ++ [c]), ConstraintSystem.empty) = r := Except.ok.inj h
    refine ⟨inputs_carried hinput, ?_, fun _ => ?_⟩
    · simp [ConstraintSystem.empty, consistent_nil]
    · exact inputs_values _
  | succ n ih =>
    obtain ⟨s, hs, hiter⟩ := (iterations_succ_ok hash _).mp h
    obtain ⟨step, rfl⟩ := (iteration_ok_iff hash _).mp hiter
    obtain ⟨hcarried, hholds, hvalues⟩ := ih (by omega) hs (hw.of_prefix ⟨_, rfl⟩)
    obtain ⟨record, hrecord⟩ : ∃ record, records[n]? = some record :=
      ⟨_, List.getElem?_eq_getElem (Nat.lt_of_succ_le hn)⟩
    have htake : records.take (n + 1) = records.take n ++ [record] := by
      rw [List.take_add_one, hrecord, Option.toList_some]
    have hconsistent : Consistent memory (records.take (n + 1)) ↔
        Consistent memory (records.take n) ∧
          record.Valid (execute memory (records.take n)) := by
      rw [htake, consistent_append, consistent_singleton]
    refine ⟨?_, ?_, ?_⟩
    · apply numbered_carried hw
      intro i x hx
      rw [Nat.add_assoc, List.getElem?_append_right (Nat.le_add_right _ _),
        Nat.add_sub_cancel_left, Step.aux_output]
      exact hx
    · have hnew : Consistent memory (records.take n) →
          ((∀ k ∈ step.constraints s.2.aux.length, k.Holds w) ↔
            (if n = 0 then commitment hash memory = c else True) ∧
              record.Valid (execute memory (records.take n))) := by
        intro hbefore
        rw [step_accepts_iff hp step hrecord (by simp [hlen]) (hvalues hbefore) hone hcarried hw rfl]
        cases n with
        | zero => simp
        | succ n => simp
      rw [hconsistent, List.forall_mem_append, hholds]
      constructor
      · rintro ⟨⟨hroot, hbefore⟩, hstep⟩
        obtain ⟨hfirst, hvalid⟩ := (hnew hbefore).mp hstep
        refine ⟨Or.inr ?_, hbefore, hvalid⟩
        rcases hroot with rfl | hroot
        · simpa using hfirst
        · exact hroot
      · rintro ⟨hroot, hbefore, hvalid⟩
        have hc := hroot.resolve_left (Nat.succ_ne_zero n)
        refine ⟨⟨Or.inr hc, hbefore⟩, (hnew hbefore).mpr ⟨?_, hvalid⟩⟩
        split
        · exact hc
        · trivial
    · intro hc
      obtain ⟨hbefore, hvalid⟩ := hconsistent.mp hc
      rw [numbered_values, step_output_eq hp step hrecord (by simp [hlen])
        (hvalues hbefore) hvalid, htake, execute_append]
      rfl

end Steps

/-! ## A run -/

section Runs

variable (hash : F → F → F)

/-- The steps of a run, each with its input vector and the constraint system of its honest
synthesis; the output values of a step are the input of the next one. -/
def prove : List (NovaMemoryConsistencyCircuit F) → List F →
    Except Panic (List F × List (List F × ConstraintSystem F))
  | [], z => .ok (z, [])
  | circuit :: circuits, z => do
    let step ← circuit.synthesize hash (inputs z) .empty
    let rest ← prove circuits (step.1.map (·.value))
    .ok (rest.1, (z, step.2) :: rest.2)

/-- The run of the circuits that `new` creates for the records of the steps. -/
def proveRecords (memoryLen : U64) (steps : List (List Record)) (z : List F) :
    Except Panic (List F × List (List F × ConstraintSystem F)) := do
  let circuits ← steps.mapM fun records =>
    new memoryLen records.length (records.map Record.address) (records.map Record.instruction)
      (records.map Record.value)
  prove hash circuits z

/-- The honest values satisfy every step. -/
def Accepted (steps : List (List F × ConstraintSystem F)) : Prop :=
  ∀ s ∈ steps, Satisfies (s.2.honest s.1) s.1 s.2

variable {p : Nat} [CharP F p]

omit [DecidableEq F] in
theorem accepted_cons {s : List F × ConstraintSystem F} {steps} :
    Accepted (s :: steps) ↔ (∀ c ∈ s.2.constraints, c.Holds (s.2.honest s.1)) ∧ Accepted steps := by
  rw [Accepted, List.forall_mem_cons, honest_satisfies_iff]
  rfl

theorem prove_honest (hp : 2 ^ 64 < p) {memoryLen : U64} (hm : 0 < memoryLen.val)
    (steps : List (List Record)) {memory : List F} (hlen : memory.length = memoryLen.val) (c : F) :
    ∃ z runs, prove hash (steps.map (ofRecords memoryLen)) (memory ++ [c]) = .ok (z, runs) ∧
      (Accepted runs ↔
        (steps.flatten = [] ∨ commitment hash memory = c) ∧ Consistent memory steps.flatten) ∧
      (Accepted runs → z = execute memory steps.flatten ++
        [if steps.flatten = [] then c else commitment hash (execute memory steps.flatten)]) := by
  induction steps generalizing memory c with
  | nil => exact ⟨_, _, rfl, by simp [Accepted, consistent_nil], by simp⟩
  | cons records steps ih =>
    have hz : (inputs (memory ++ [c])).length = memoryLen.val + 1 := by simp [hlen]
    obtain ⟨r, hr, hrlen⟩ := iterations_run hash hp hm hz (le_refl records.length) .empty
    have hsynthesize : (ofRecords memoryLen records).synthesize hash (inputs (memory ++ [c]))
        .empty = .ok r := by
      rw [synthesize, if_pos (by exact hz)]
      exact hr
    obtain ⟨-, hholds, hvalues⟩ := iterations_honest hp hlen rfl (fun _ => rfl) le_rfl hr
      (r.2.honest_spec (memory ++ [c]))
    rw [List.take_length] at hholds hvalues
    have hrun : ∀ {z runs}, prove hash (steps.map (ofRecords memoryLen)) (r.1.map (·.value)) =
        .ok (z, runs) → prove hash ((records :: steps).map (ofRecords memoryLen)) (memory ++ [c]) =
          .ok (z, (memory ++ [c], r.2) :: runs) := by
      intro z runs hrest
      rw [List.map_cons, prove, hsynthesize, ok_bind, hrest]
      rfl
    by_cases hc : Consistent memory records
    case neg =>
      obtain ⟨memory', c', hz', hlen'⟩ := exists_cells (z := r.1.map (·.value)) (by simpa using hrlen)
      obtain ⟨z, runs, hrest, -, -⟩ := ih hlen' c'
      have hreject : ¬ Accepted ((memory ++ [c], r.2) :: runs) := by
        rw [accepted_cons, hholds]
        exact fun h => hc h.1.2
      refine ⟨z, _, hrun (hz' ▸ hrest), ?_, fun h => absurd h hreject⟩
      rw [List.flatten_cons, consistent_append]
      exact ⟨fun h => absurd h hreject, fun h => absurd h.2.1 hc⟩
    case pos =>
      obtain ⟨z, runs, hrest, haccept, hlast⟩ := ih
        (show (execute memory records).length = memoryLen.val by rw [execute_length, hlen])
        (if records.length = 0 then c else commitment hash (execute memory records))
      rw [← hvalues hc] at hrest
      refine ⟨z, _, hrun hrest, ?_, fun h => ?_⟩
      · rw [accepted_cons, hholds, haccept, List.flatten_cons, consistent_append,
          List.append_eq_nil_iff]
        cases records with
        | nil => simp [consistent_nil]
        | cons record records => simp; tauto
      · rw [hlast (accepted_cons.mp h).2, List.flatten_cons, execute_append]
        cases records with
        | nil => simp
        | cons record records =>
          by_cases hsteps : steps.flatten = []
          · simp [hsteps]
          · simp [hsteps]

theorem proveRecords_eq (memoryLen : U64) (steps : List (List Record)) (z : List F) :
    proveRecords hash memoryLen steps z = prove hash (steps.map (ofRecords memoryLen)) z := by
  have hnew : steps.mapM (fun records => new memoryLen records.length
      (records.map Record.address) (records.map Record.instruction) (records.map Record.value)) =
      (.ok (steps.map (ofRecords memoryLen)) :
        Except Panic (List (NovaMemoryConsistencyCircuit F))) := by
    induction steps with
    | nil => rfl
    | cons records steps ih =>
      rw [List.mapM_cons, new_records, ok_bind, ih]
      rfl
  rw [proveRecords, hnew, ok_bind]

/-- An honest run of at least one record is accepted exactly when the initial commitment is
that of the initial memory and the records are consistent; a run of no record always is. -/
theorem proveRecords_accepted_iff (hp : 2 ^ 64 < p) (memoryLen : U64) (hm : 0 < memoryLen.val)
    (memory : List F) (hlen : memory.length = memoryLen.val) (c : F) (steps : List (List Record)) :
    ∃ z runs, proveRecords hash memoryLen steps (memory ++ [c]) = .ok (z, runs) ∧
      (Accepted runs ↔
        (steps.flatten = [] ∨ merkleTreeCommit hash memory = .ok c) ∧
          Consistent memory steps.flatten) ∧
      (Accepted runs → ∃ root, z = execute memory steps.flatten ++ [root] ∧
        (steps.flatten = [] ∧ root = c ∨
          merkleTreeCommit hash (execute memory steps.flatten) = .ok root)) := by
  have hcommit : ∀ cells : List F, cells.length = memoryLen.val →
      merkleTreeCommit hash cells = .ok (commitment hash cells) := fun cells h =>
    merkleTreeCommit_ok hash (List.length_pos_iff.mp (by omega))
  obtain ⟨z, runs, hrun, haccept, hlast⟩ := prove_honest hash hp hm steps hlen c
  refine ⟨z, runs, by rw [proveRecords_eq, hrun], ?_, fun h => ⟨_, hlast h, ?_⟩⟩
  · rw [haccept, hcommit memory hlen, Except.ok.injEq]
  · rw [hcommit _ (by rw [execute_length, hlen])]
    by_cases hsteps : steps.flatten = []
    · exact Or.inl ⟨hsteps, if_pos hsteps⟩
    · exact Or.inr (by rw [if_neg hsteps])

/-- A run of two steps, a write and a read, is accepted and ends with the written cell. -/
theorem proveRecords_accepted_iff_writeRead :
    let steps := writeRead.map fun record => [record]
    ∃ z runs root, proveRecords (fun x y : Fp => x + 2 * y) ⟨2, by decide⟩ steps ([0, 0] ++ [0]) =
        .ok (z, runs) ∧ Accepted runs ∧ z = execute [0, 0] writeRead ++ [root] := by
  intro steps
  have hp : 2 ^ 64 < pastaModulus := lt_trans (by decide) lt_pastaModulus
  obtain ⟨z, runs, hrun, haccept, hlast⟩ :=
    proveRecords_accepted_iff (fun x y : Fp => x + 2 * y) hp ⟨2, by decide⟩ two_pos [0, 0] rfl 0 steps
  have haccepted := haccept.mpr ⟨Or.inr merkleTreeCommit_zeros, consistent_writeRead⟩
  obtain ⟨root, hz, -⟩ := hlast haccepted
  exact ⟨z, runs, root, hrun, haccepted, hz⟩

/-- A run without records is accepted also from a wrong commitment. -/
theorem emptyRun_accepted :
    (∃ z, proveRecords (fun x y : Fp => x + y) ⟨1, by decide⟩ [] ([0] ++ [1]) = .ok (z, [])) ∧
      Accepted ([] : List (List Fp × ConstraintSystem Fp)) ∧
      merkleTreeCommit (fun x y : Fp => x + y) [0] ≠ .ok 1 := by
  refine ⟨⟨_, rfl⟩, fun _ h => absurd h List.not_mem_nil, ?_⟩
  rw [merkleTreeCommit_ok _ (List.cons_ne_nil _ _), ne_eq, Except.ok.injEq]
  exact zero_ne_one

end Runs

end NovaMemoryConsistencyCircuit

end Zkmemory.Folding
