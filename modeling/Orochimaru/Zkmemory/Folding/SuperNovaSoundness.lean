import Orochimaru.Zkmemory.Constraints.PastaFp
import Orochimaru.Zkmemory.Folding.SuperNova

/-!
# Soundness of the SuperNova circuits

A read leaves its value and the next program counter free, a write all it gives out: the
cells, the commitment and the next program counter.
-/

namespace Zkmemory.Folding.SuperNova

open Constraints Loops R1cs

variable {F : Type} [Field F] [DecidableEq F]

/-- A program counter that selects a circuit or ends the run. -/
def ValidPc (pc : F) : Prop := pc = 0 ∨ pc = 1 ∨ pc = 2

/-- What a read of `value` has to say of its vectors. -/
def ReadSound (hash : F → F → F) (m : Nat) (z zOut : List F) (value pc : F) : Prop :=
  (∃ a < m, z[a]? = some value) ∧ zOut = z ∧ Committed hash m z ∧ ValidPc pc

/-- What a write of `value` has to say of its vectors. -/
def WriteSound (hash : F → F → F) (m : Nat) (z zOut : List F) (value pc : F) : Prop :=
  (∃ a < m, zOut[a]? = some value ∧ ∀ i < m, i ≠ a → zOut[i]? = z[i]?) ∧
    Committed hash m zOut ∧ ValidPc pc

/-- A synthesis as an assignment sees it: input, output, the allocated value, the program
counter. -/
def Sees (P : List F → List F → F → F → Prop) (z : List F) (value : Variable)
    (r : (AllocatedNum F × List (AllocatedNum F)) × ConstraintSystem F) (w : Variable → F) : Prop :=
  P z (r.1.2.map fun n => w n.var) (w value) (w r.1.1.var)

variable (hash : F → F → F)

/-! ## The read circuit -/

/-- An assignment that passes a read of any value, with any next program counter. -/
def forgedRead (m : Nat) (z : List F) (value pc : F) : Variable → F
  | .one => 1
  | .input i => z.getD i 0
  | .aux 0 => 1
  | .aux 1 => value
  | .aux 2 => value
  | .aux 3 => z.getD m 0
  | .aux _ => pc

/-- The third variable of a read is its value. -/
theorem read_sound_iff {circuit : ReadCircuit F} {m : U64} (hm : circuit.memorySize = some m)
    (z : List F) {r : (AllocatedNum F × List (AllocatedNum F)) × ConstraintSystem F}
    (h : circuit.synthesize hash (inputs z) .empty = .ok r) :
    (∀ w, Satisfies w z r.2 → Sees (ReadSound hash m.val) z (.aux 2) r w) ↔
      (∀ x : F, ValidPc x) ∧ (∀ x : F, ∃ a < m.val, z[a]? = some x) ∧ Committed hash m.val z := by
  obtain ⟨step, rfl⟩ := ReadCircuit.synthesize_ok_iff.mp h
  have hsize : step.memorySize = m := Option.some.inj (step.memorySize_eq.symm.trans hm)
  have hin : ∀ w : Variable → F, (∀ i, w (.input i) = z.getD i 0) → (inputs z).map (fun n => w n.var) = z :=
    fun w hw => (values_of_carried (inputs_carried hw)).trans (inputs_values z)
  constructor
  · intro hsound
    have hforged : ∀ value pc : F, ReadSound hash m.val z z value pc := by
      intro value pc
      have hsat : Satisfies (forgedRead m.val z value pc) z ⟨step.aux, step.constraints⟩ := by
        refine ⟨rfl, fun _ => rfl, (step.constraints_hold_iff rfl).mpr ⟨?_, rfl, rfl⟩⟩
        have hroot := step.root_eq
        rw [hsize, inputs_getElem?] at hroot
        obtain ⟨x, -, hx⟩ := Option.map_eq_some_iff.mp hroot
        rw [← hx]
        rfl
      have := hsound _ hsat
      rwa [Sees, hin _ fun _ => rfl] at this
    exact ⟨fun x => (hforged 0 x).2.2.2, fun x => (hforged x 0).1, (hforged 0 0).2.2.1⟩
  · rintro ⟨hpc, hvalue, hroot⟩ w hw
    exact ⟨hvalue _, hin w hw.input, hroot, hpc _⟩

/-! ## The write circuit -/

/-- An assignment that passes a write: all cells become zero, their commitment `root`. -/
def forgedWrite (m : Nat) (z : List F) (root : F) : Variable → F
  | .one => 1
  | .input i => z.getD i 0
  | .aux i => if i = 0 then 1 else if i = m + 2 then root else 0

omit [DecidableEq F] in
theorem forgedWrite_output {m : Nat} (z : List F) (root : F) {values : List F}
    (hlen : values.length = m + 1) :
    (numbered 2 values).map (fun n => forgedWrite m z root n.var) =
      List.replicate m 0 ++ [root] := by
  apply List.ext_getElem
  · simp [hlen]
  · intro i hi _
    rw [List.length_map, numbered_length, hlen] at hi
    simp only [numbered, List.getElem_map, List.getElem_mapIdx, forgedWrite]
    rw [if_neg (by omega)]
    by_cases h : i = m
    · rw [if_pos (by omega), List.getElem_append_right (by simp [h])]
      simp
    · rw [if_neg (by omega), List.getElem_append_left (by simp; omega)]
      simp

/-- The second variable of a write is its value. -/
theorem write_not_sound {circuit : WriteCircuit F} {m : U64} (hm : circuit.memorySize = some m)
    (z : List F) {r : (AllocatedNum F × List (AllocatedNum F)) × ConstraintSystem F}
    (h : circuit.synthesize hash (inputs z) .empty = .ok r) {root : F}
    (hroot : merkleTreeCommit hash (List.replicate m.val 0) ≠ .ok root) :
    Satisfies (forgedWrite m.val z root) z r.2 ∧
      ¬ Sees (WriteSound hash m.val) z (.aux 1) r (forgedWrite m.val z root) := by
  obtain ⟨step, rfl⟩ := WriteCircuit.synthesize_ok_iff.mp h
  have hsize : step.memorySize = m := Option.some.inj (step.memorySize_eq.symm.trans hm)
  refine ⟨⟨rfl, fun _ => rfl, (WriteCircuit.constraints_hold_iff rfl).mpr rfl⟩, ?_⟩
  rintro ⟨-, ⟨root', hroot', hcommit⟩, -⟩
  simp only [forgedWrite_output z root (hsize ▸ step.output_length)] at hroot' hcommit
  rw [List.getElem?_append_right (by simp), List.length_replicate, Nat.sub_self] at hroot'
  obtain rfl : root = root' := by simpa using hroot'
  rw [List.take_left' (List.length_replicate ..)] at hcommit
  exact hroot hcommit

/-- A read is sound against every assignment only where every field element is a program
counter and the content of some cell, and the commitment is right; a write never is. -/
theorem circuits_sound_iff {read : ReadCircuit F} {write : WriteCircuit F} {m : U64}
    (hread : read.memorySize = some m) (hwrite : write.memorySize = some m) (z : List F)
    {r s : (AllocatedNum F × List (AllocatedNum F)) × ConstraintSystem F}
    (hr : read.synthesize hash (inputs z) .empty = .ok r)
    (hs : write.synthesize hash (inputs z) .empty = .ok s) :
    ((∀ w, Satisfies w z r.2 → Sees (ReadSound hash m.val) z (.aux 2) r w) ↔
      (∀ x : F, ValidPc x) ∧ (∀ x : F, ∃ a < m.val, z[a]? = some x) ∧ Committed hash m.val z) ∧
    ¬ ∀ w, Satisfies w z s.2 → Sees (WriteSound hash m.val) z (.aux 1) s w := by
  refine ⟨read_sound_iff hash hread z hr, fun hsound => ?_⟩
  obtain ⟨root, hroot⟩ : ∃ root, merkleTreeCommit hash (List.replicate m.val 0) ≠ .ok root := by
    by_contra hall
    have hok := not_exists_not.mp hall
    exact zero_ne_one (Except.ok.inj ((hok 0).symm.trans (hok 1)))
  obtain ⟨hsat, hnot⟩ := write_not_sound hash hwrite z hs hroot
  exact hnot (hsound _ hsat)

/-- A read and a write of zero in a memory of one cell, before a read. -/
def zeroRead : ReadCircuit Fp := ⟨some ⟨(0 : Nat), 0⟩, some 0, some ⟨1, one_lt_u64⟩⟩

def zeroWrite : WriteCircuit Fp := ⟨some ⟨(0 : Nat), 0⟩, some 0, some ⟨1, one_lt_u64⟩⟩

theorem zero_synthesize (hash : Fp → Fp → Fp) :
    (∃ r, zeroRead.synthesize hash (inputs [0, 0]) .empty = .ok r) ∧
      ∃ s, zeroWrite.synthesize hash (inputs [0, 0]) .empty = .ok s := by
  have hp : 2 ^ 64 < pastaModulus := lt_trans (by decide) lt_pastaModulus
  obtain ⟨readStep⟩ : Nonempty (zeroRead.Step hash (inputs [0, 0])) :=
    exists_readStep hp one_pos .zero 0 0 rfl
  obtain ⟨writeStep⟩ : Nonempty (zeroWrite.Step hash (inputs [0, 0])) :=
    exists_writeStep hp one_pos .zero 0 0 rfl
  exact ⟨⟨_, ReadCircuit.synthesize_ok_iff.mpr ⟨readStep, rfl⟩⟩,
    ⟨_, WriteCircuit.synthesize_ok_iff.mpr ⟨writeStep, rfl⟩⟩⟩

theorem circuits_sound_iff_zero :
    ∃ r s, zeroRead.synthesize (fun _ _ => 0) (inputs [0, 0]) .empty = .ok r ∧
      zeroWrite.synthesize (fun _ _ => 0) (inputs [0, 0]) .empty = .ok s ∧
      ¬ ∀ w, Satisfies w [0, 0] s.2 → Sees (WriteSound (fun _ _ => 0) 1) [0, 0] (.aux 1) s w := by
  obtain ⟨⟨r, hr⟩, s, hs⟩ := zero_synthesize fun _ _ => 0
  exact ⟨r, s, hr, hs, (circuits_sound_iff (fun _ _ => 0) rfl rfl [0, 0] hr hs).2⟩

/-- The read passes with a value that is in no cell, the write with a commitment to its zero
cell that is one. -/
theorem zero_forged : ∃ r s, zeroRead.synthesize (fun _ _ => 0) (inputs [0, 0]) .empty = .ok r ∧
    zeroWrite.synthesize (fun _ _ => 0) (inputs [0, 0]) .empty = .ok s ∧
    (∃ w, Satisfies w [0, 0] r.2 ∧
      ¬ Sees (ReadSound (fun _ _ => 0) 1) [0, 0] (.aux 2) r w) ∧
    ∃ w, Satisfies w [0, 0] s.2 ∧
      ¬ Sees (WriteSound (fun _ _ => 0) 1) [0, 0] (.aux 1) s w := by
  obtain ⟨⟨r, hr⟩, s, hs⟩ := zero_synthesize fun _ _ => 0
  refine ⟨r, s, hr, hs, ?_, ?_⟩
  · by_contra hall
    have hvalues := ((read_sound_iff (fun _ _ => 0) rfl [0, 0] hr).mp
      fun w hw => by_contra fun h => hall ⟨w, hw, h⟩).2.1
    obtain ⟨a, ha, hcell⟩ := hvalues 1
    obtain rfl : a = 0 := Nat.lt_one_iff.mp ha
    exact zero_ne_one (Option.some.inj hcell)
  · have hroot : merkleTreeCommit (fun _ _ : Fp => 0) (List.replicate 1 0) ≠ .ok 1 := by
      change merkleTreeCommit _ [0] ≠ _
      rw [merkleTreeCommit_ok _ (List.cons_ne_nil _ _), ne_eq, Except.ok.injEq]
      exact zero_ne_one
    exact ⟨_, write_not_sound (fun _ _ => 0) rfl [0, 0] hs hroot⟩

end Zkmemory.Folding.SuperNova
