import Orochimaru.Zkmemory.Constraints.PastaFp
import Orochimaru.Zkmemory.Folding.Nova

/-!
# Soundness of a Nova step

The value at the address, the new cells and both commitments are variables that no
constraint ties to the cells. Besides the range of the address and of the instruction the
constraints of a step only compare variables of one iteration with each other.
-/

namespace Zkmemory.Folding

open Constraints Loops R1cs

variable {F : Type} [Field F] [DecidableEq F]

/-- One memory operation between two vectors of cells and commitment. -/
def StepSound (hash : F → F → F) (memoryLen : Nat) (zIn zOut : List F) : Prop :=
  ∃ a < memoryLen, ∃ instruction value : F,
    (instruction = 0 ∨ instruction = 1) ∧
    (∃ root, zIn[memoryLen]? = some root ∧
      merkleTreeCommit hash (zIn.take memoryLen) = .ok root) ∧
    (instruction = 0 → zIn[a]? = some value) ∧
    zOut.take memoryLen = (zIn.take memoryLen).set a value ∧
    ∃ root, zOut[memoryLen]? = some root ∧ merkleTreeCommit hash (zOut.take memoryLen) = .ok root

namespace NovaMemoryConsistencyCircuit

variable (hash : F → F → F) (circuit : NovaMemoryConsistencyCircuit F)

/-- Under an assignment, every iteration of a step is one memory operation. -/
def StepsSound (zIn : List F) (w : Variable → F) : Prop :=
  ∀ j < circuit.numItersPerStep, ∀ r s,
    circuit.iterations hash (inputs zIn) j .empty = .ok r →
    circuit.iterations hash (inputs zIn) (j + 1) .empty = .ok s →
    StepSound hash circuit.memoryLen.val (r.1.map fun n => w n.var) (s.1.map fun n => w n.var)

/-- The number of variables of an iteration. -/
def iterationSize : Nat := circuit.memoryLen.val + 6

/-- An assignment that passes every constraint: reads of zero from any memory, whose cells
all become zero while their commitment becomes `root`. -/
def forged (zIn : List F) (root : F) : Variable → F
  | .one => 1
  | .input i => zIn.getD i 0
  | .aux i =>
    if i % circuit.iterationSize = 3 then
      if i < circuit.iterationSize then zIn.getD circuit.memoryLen.val 0 else root
    else if i % circuit.iterationSize = 4 then 1
    else if i % circuit.iterationSize = circuit.memoryLen.val + 5 then root
    else 0

section Forged

variable (zIn : List F) (root : F)

omit [DecidableEq F] in
theorem forged_aux (n : Nat) {i : Nat} (hi : i < circuit.iterationSize) :
    circuit.forged zIn root (.aux (n * circuit.iterationSize + i)) =
      if i = 3 then if n = 0 then zIn.getD circuit.memoryLen.val 0 else root
      else if i = 4 then 1
      else if i = circuit.memoryLen.val + 5 then root
      else 0 := by
  have hmod : (n * circuit.iterationSize + i) % circuit.iterationSize = i := by
    rw [Nat.add_comm, Nat.add_mul_mod_self_right, Nat.mod_eq_of_lt hi]
  have hfirst : n * circuit.iterationSize + i < circuit.iterationSize ↔ n = 0 := by
    cases n with
    | zero => simpa using hi
    | succ n =>
      rw [Nat.succ_mul]
      omega
  simp only [forged, hmod, hfirst]

/-- The forged assignment passes the constraints of every iteration. -/
theorem forged_holds (hlen : zIn.length = circuit.memoryLen.val + 1) (n : Nat)
    {r : List (AllocatedNum F) × ConstraintSystem F}
    (h : circuit.iterations hash (inputs zIn) n .empty = .ok r) :
    r.2.aux.length = n * circuit.iterationSize ∧
      (∃ num, r.1[circuit.memoryLen.val]? = some num ∧ circuit.forged zIn root num.var =
        if n = 0 then zIn.getD circuit.memoryLen.val 0 else root) ∧
      ∀ c ∈ r.2.constraints, c.Holds (circuit.forged zIn root) := by
  induction n generalizing r with
  | zero =>
    obtain rfl : (inputs zIn, ConstraintSystem.empty) = r := Except.ok.inj h
    refine ⟨by simp [ConstraintSystem.empty], ?_, by simp [ConstraintSystem.empty]⟩
    have hm : circuit.memoryLen.val < zIn.length := by omega
    exact ⟨_, by rw [inputs, List.getElem?_mapIdx, List.getElem?_eq_getElem hm]; rfl, by simp [forged]⟩
  | succ n ih =>
    obtain ⟨s, hs, hiter⟩ := (circuit.iterations_succ_ok hash).mp h
    obtain ⟨haux, ⟨num, hnum, hroot⟩, hholds⟩ := ih hs
    obtain ⟨step, rfl⟩ := (circuit.iteration_ok_iff hash).mp hiter
    have hvar : ∀ i < circuit.iterationSize,
        circuit.forged zIn root (.aux (s.2.aux.length + i)) = _ :=
      fun i hi => haux ▸ circuit.forged_aux zIn root n hi
    unfold iterationSize at hvar
    refine ⟨?_, ?_, ?_⟩
    · simp only [List.length_append, haux, step.aux_length, iterationSize, Nat.succ_mul]
    · refine ⟨_, by rw [numbered_getElem?, List.getElem?_eq_getElem (by simp)]; rfl, ?_⟩
      rw [Nat.add_assoc, hvar _ (by omega), if_neg (by omega), if_neg (by omega),
        if_pos (by omega), if_neg (by omega)]
    · obtain rfl : num = step.root := Option.some.inj (hnum.symm.trans step.root_eq)
      have hzero : ∀ i < 3, circuit.forged zIn root (.aux (s.2.aux.length + i)) = 0 := by
        intro i hi
        rw [hvar i (by omega), if_neg (by omega), if_neg (by omega), if_neg (by omega)]
      intro c hc
      rcases List.mem_append.mp hc with hc | hc
      · exact hholds c hc
      · refine (step.constraints_hold_iff hash circuit rfl).mpr ⟨?_, ?_, ?_, ?_⟩ c hc
        · rw [hvar 4 (by omega), if_neg (by decide), if_pos rfl]
        · rw [hvar 3 (by omega), if_pos rfl, hroot]
        · have hvalue := hzero 0 (by decide)
          rw [Nat.add_zero] at hvalue
          rw [hzero 1 (by decide), hzero 2 (by decide), hvalue, sub_zero, mul_zero]
        · rw [hzero 1 (by decide), mul_zero]

omit [DecidableEq F] in
/-- The first vector that the forged assignment gives out. -/
theorem forged_output {values : List F} (hlen : values.length = circuit.memoryLen.val + 1) :
    (numbered 5 values).map (fun n => circuit.forged zIn root n.var) =
      List.replicate circuit.memoryLen.val 0 ++ [root] := by
  apply List.ext_getElem
  · simp [hlen]
  · intro i hi _
    rw [List.length_map, numbered_length, hlen] at hi
    have hvar := circuit.forged_aux zIn root 0 (i := 5 + i) (by unfold iterationSize; omega)
    rw [Nat.zero_mul, Nat.zero_add, if_neg (by omega), if_neg (by omega)] at hvar
    simp only [numbered, List.getElem_map, List.getElem_mapIdx, hvar]
    by_cases h : i = circuit.memoryLen.val
    · rw [if_pos (by omega), List.getElem_append_right (by simp [h])]
      simp
    · rw [if_neg (by omega), List.getElem_append_left (by simp; omega)]
      simp

/-- The zeroed cells can be given any commitment. -/
theorem forged_not_sound (hiters : circuit.numItersPerStep ≠ 0)
    {r : List (AllocatedNum F) × ConstraintSystem F}
    (h : circuit.iterations hash (inputs zIn) circuit.numItersPerStep .empty = .ok r)
    (hroot : merkleTreeCommit hash (List.replicate circuit.memoryLen.val 0) ≠ .ok root) :
    ¬ circuit.StepsSound hash zIn (circuit.forged zIn root) := by
  intro hsound
  obtain ⟨s, hs⟩ := circuit.iterations_ok_of_le hash (Nat.one_le_iff_ne_zero.mpr hiters) h
  obtain ⟨t, ht, hiter⟩ := (circuit.iterations_succ_ok hash).mp hs
  have hstep := hsound 0 (Nat.pos_of_ne_zero hiters) t s ht hs
  obtain rfl : (inputs zIn, ConstraintSystem.empty) = t := Except.ok.inj ht
  obtain ⟨step, rfl⟩ := (circuit.iteration_ok_iff hash).mp hiter
  obtain ⟨-, -, -, -, -, -, -, -, root', hroot', hcommit⟩ := hstep
  simp only [ConstraintSystem.empty, List.length_nil, Nat.zero_add,
    forged_output circuit zIn root step.output_length] at hroot' hcommit
  rw [List.getElem?_append_right (by simp), List.length_replicate, Nat.sub_self] at hroot'
  obtain rfl : root = root' := by simpa using hroot'
  rw [List.take_left' (List.length_replicate ..)] at hcommit
  exact hroot hcommit

end Forged

/-- A step is sound against every assignment that satisfies its constraints exactly when it
runs no iteration. -/
theorem synthesize_sound_iff (zIn : List F) {r : List (AllocatedNum F) × ConstraintSystem F}
    (h : circuit.synthesize hash (inputs zIn) .empty = .ok r) :
    (∀ w, Satisfies w zIn r.2 → circuit.StepsSound hash zIn w) ↔ circuit.numItersPerStep = 0 := by
  unfold synthesize at h
  split at h
  case isFalse => cases h
  case isTrue hlen =>
    rw [inputs, List.length_mapIdx] at hlen
    constructor
    · intro hsound
      by_contra hiters
      obtain ⟨s, hs⟩ := circuit.iterations_ok_of_le hash (Nat.one_le_iff_ne_zero.mpr hiters) h
      obtain ⟨t, ht, hiter⟩ := (circuit.iterations_succ_ok hash).mp hs
      obtain ⟨step, -⟩ := (circuit.iteration_ok_iff hash).mp hiter
      have hcells : List.replicate circuit.memoryLen.val (0 : F) ≠ [] := by
        have := step.memoryLen_pos
        simp only [ne_eq, List.replicate_eq_nil_iff]
        omega
      have hcommit := merkleTreeCommit_ok hash hcells
      let root := commitment hash (List.replicate circuit.memoryLen.val 0) + 1
      have hholds := (circuit.forged_holds hash zIn root hlen _ h).2.2
      apply circuit.forged_not_sound hash zIn root hiters h
      · rw [hcommit, ne_eq, Except.ok.injEq]
        exact fun heq => one_ne_zero (left_eq_add.mp heq)
      · exact hsound _ ⟨rfl, fun _ => rfl, hholds⟩
    · intro hzero w _ j hj
      omega

/-- A circuit of one iteration over a memory of one cell, reading the zero that is there. -/
def oneRead : NovaMemoryConsistencyCircuit Fp := ofRecords ⟨1, one_lt_u64⟩ [⟨.zero, .zero, .zero⟩]

theorem oneRead_synthesize (hash : Fp → Fp → Fp) :
    ∃ r, oneRead.synthesize hash (inputs [0, 0]) .empty = .ok r := by
  have hp : 2 ^ 64 < pastaModulus := lt_trans (by decide) lt_pastaModulus
  have hrun : ∃ r, oneRead.iterations hash (inputs [0, 0]) 1 .empty = .ok r ∧ r.1.length = 2 :=
    iterations_run hash hp one_pos rfl le_rfl _
  obtain ⟨r, hr, -⟩ := hrun
  exact ⟨r, hr⟩

theorem synthesize_sound_iff_oneRead :
    ∃ r, oneRead.synthesize (fun _ _ => 0) (inputs [0, 0]) .empty = .ok r ∧
      ((∀ w, Satisfies w [0, 0] r.2 → oneRead.StepsSound (fun _ _ => 0) [0, 0] w) ↔ 1 = 0) := by
  obtain ⟨r, hr⟩ := oneRead_synthesize fun _ _ => 0
  exact ⟨r, hr, synthesize_sound_iff (fun _ _ => 0) oneRead [0, 0] hr⟩

/-- The read passes with a commitment to the cell, still zero, that is one. The memory has
one cell, so no hash is computed. -/
theorem oneRead_forged : ∃ r, oneRead.synthesize (fun _ _ => 0) (inputs [0, 0]) .empty = .ok r ∧
    Satisfies (oneRead.forged [0, 0] 1) [0, 0] r.2 ∧
    ¬ oneRead.StepsSound (fun _ _ => 0) [0, 0] (oneRead.forged [0, 0] 1) := by
  obtain ⟨r, hr⟩ := oneRead_synthesize fun _ _ => 0
  have hiter : oneRead.iterations (fun _ _ => 0) (inputs [0, 0]) 1 .empty = .ok r := hr
  refine ⟨r, hr, ⟨rfl, fun _ => rfl, ?_⟩, ?_⟩
  · exact (forged_holds (fun _ _ => 0) oneRead [0, 0] 1 rfl 1 hiter).2.2
  · apply forged_not_sound (fun _ _ => 0) oneRead [0, 0] 1 one_ne_zero hiter
    rw [ne_eq, merkleTreeCommit_ok _ (by exact List.cons_ne_nil _ _), Except.ok.injEq]
    exact zero_ne_one

end NovaMemoryConsistencyCircuit

end Zkmemory.Folding
