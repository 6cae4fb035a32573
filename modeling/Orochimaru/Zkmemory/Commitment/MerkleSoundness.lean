import Orochimaru.Poseidon.Reference
import Orochimaru.Zkmemory.Commitment.MerkleTree

/-!
# What a Merkle opening proves

The gate of a level forces its index cell to a bit and orders the pair by it, so the
digests run along a path of native hashes, whatever the prover assigns. An honest run
meets the gates exactly when its indices are bits.
-/

namespace Zkmemory.Commitment

open Poseidon Layouter Plonkish Loops Constraints

section

variable {F : Type} [Field F] {R : Nat} {S : Spec F R} (inst : Nat → F)

/-- The digest up a path: the sibling is the left input where the bit is set. -/
def foldPath (S : Spec F R) (leaf : F) (path : List (Bool × F)) : Except Panic F :=
  path.foldlM (fun digest step =>
    hash S (if step.1 then ![step.2, digest] else ![digest, step.2])) leaf

/-! ## A level -/

section Level

variable {v : Cell (Column R MerkleColumn) → F} {region : Nat}

/-- The value of a cell of the first row. -/
def at0 (v : Cell (Column R MerkleColumn) → F) (region : Nat) (column : MerkleColumn) : F :=
  v ⟨region, 0, .other column⟩

theorem merkleGate_iff :
    (∀ p ∈ merkleGate (query v region 0), p = 0) ↔
      (at0 v region .indices = 0 ∧ at0 v region (.advice 2) = at0 v region (.advice 0) ∧
          at0 v region (.advice 3) = at0 v region (.advice 1)) ∨
        (at0 v region .indices = 1 ∧ at0 v region (.advice 2) = at0 v region (.advice 1) ∧
          at0 v region (.advice 3) = at0 v region (.advice 0)) := by
  simp only [merkleGate, query_cur, List.forall_mem_cons, List.not_mem_nil, false_imp_iff,
    implies_true, and_true]
  change at0 v region .indices * (1 - at0 v region .indices) = 0 ∧
    at0 v region (.advice 2) - (at0 v region (.advice 0) + at0 v region .indices *
      (at0 v region (.advice 1) - at0 v region (.advice 0))) = 0 ∧
    at0 v region (.advice 3) - (at0 v region (.advice 1) + at0 v region .indices *
      (at0 v region (.advice 0) - at0 v region (.advice 1))) = 0 ↔ _
  rw [mul_eq_zero, sub_eq_zero, sub_eq_zero, sub_eq_zero]
  constructor
  · rintro ⟨hbit | hbit, hl, hr⟩
    · left
      rw [hbit, zero_mul, add_zero] at hl hr
      exact ⟨hbit, hl, hr⟩
    · right
      rw [← hbit, one_mul, add_sub_cancel] at hl hr
      exact ⟨hbit.symm, hl, hr⟩
  · rintro (⟨hbit, hl, hr⟩ | ⟨hbit, hl, hr⟩)
    · rw [hbit, zero_mul, zero_mul, add_zero, add_zero]
      exact ⟨.inl rfl, hl, hr⟩
    · rw [hbit, one_mul, one_mul, add_sub_cancel, add_sub_cancel]
      exact ⟨.inr rfl, hl, hr⟩

variable [DecidableEq F] {digest : Word F R MerkleColumn} {index element : F}

/-- The inputs of a level's hash, as the prover orders them. -/
def ordered (index digest element : F) : Fin 2 → F :=
  if index = 0 then ![digest, element] else ![element, digest]

theorem swapRow_values (digest : Word F R MerkleColumn) (index element : F) (region : Nat)
    (i : Fin 2) : ((MerkleTreeCircuit.swapRow digest index element region).2 i).value =
      ordered index digest.value element i := by
  rw [ordered]
  fin_cases i
  · by_cases h : index = 0
    · simp [MerkleTreeCircuit.swapRow, MerkleTreeCircuit.assign, h]
    · simp [MerkleTreeCircuit.swapRow, MerkleTreeCircuit.assign, h]
  · by_cases h : index = 0
    · simp [MerkleTreeCircuit.swapRow, MerkleTreeCircuit.assign, h]
    · simp [MerkleTreeCircuit.swapRow, MerkleTreeCircuit.assign, h]

/-- What the operations of a level's row demand. -/
theorem satisfies_swapRow :
    Satisfies (merkleGates S) inst v (MerkleTreeCircuit.swapRow digest index element region).1 ↔
      (∀ p ∈ merkleGate (query v region 0), p = 0) ∧
        at0 v region (.advice 0) = v digest.cell := by
  simp only [MerkleTreeCircuit.swapRow, MerkleTreeCircuit.assign, Satisfies, List.forall_mem_cons,
    Op.Holds, List.not_mem_nil, false_imp_iff, implies_true, and_true, true_and]
  rfl

theorem assignments_swapRow :
    assignments (MerkleTreeCircuit.swapRow digest index element region).1 =
      [(⟨region, 0, .other (.advice 0)⟩, digest.value), (⟨region, 0, .other (.advice 1)⟩, element),
        (⟨region, 0, .other .indices⟩, index),
        (⟨region, 0, .other (.advice 2)⟩,
          ((MerkleTreeCircuit.swapRow digest index element region).2 0).value),
        (⟨region, 0, .other (.advice 3)⟩,
          ((MerkleTreeCircuit.swapRow digest index element region).2 1).value)] := rfl

/-- The cells of a level's row, as the honest prover assigns them. -/
theorem follows_swapRow :
    Follows v (MerkleTreeCircuit.swapRow digest index element region).1 ↔
      at0 v region (.advice 0) = digest.value ∧ at0 v region (.advice 1) = element ∧
        at0 v region .indices = index ∧
        at0 v region (.advice 2) = ordered index digest.value element 0 ∧
        at0 v region (.advice 3) = ordered index digest.value element 1 := by
  rw [← swapRow_values digest index element region 0, ← swapRow_values digest index element region 1,
    Follows, assignments_swapRow]
  simp only [List.forall_mem_cons, List.not_mem_nil, false_imp_iff, implies_true, and_true]
  rfl

/-- A level's row orders the digest and some sibling by some bit. -/
def Swapped (v : Cell (Column R MerkleColumn) → F) (digest : F)
    (inputs : Fin 2 → Word F R MerkleColumn) : Prop :=
  ∃ (bit : Bool) (e : F), (fun i => v (inputs i).cell) = if bit then ![e, digest] else ![digest, e]

theorem swapRow_cells (v : Cell (Column R MerkleColumn) → F) (digest : Word F R MerkleColumn)
    (index element : F) (region : Nat) :
    (fun i => v ((MerkleTreeCircuit.swapRow digest index element region).2 i).cell) =
      ![at0 v region (.advice 2), at0 v region (.advice 3)] := by
  ext i
  fin_cases i
  · rfl
  · rfl

theorem swapped_swapRow
    (h : Satisfies (merkleGates S) inst v
      (MerkleTreeCircuit.swapRow digest index element region).1) :
    Swapped v (v digest.cell) (MerkleTreeCircuit.swapRow digest index element region).2 := by
  obtain ⟨hgate, hcopy⟩ := (satisfies_swapRow inst).mp h
  rw [Swapped, swapRow_cells, ← hcopy]
  rcases merkleGate_iff.mp hgate with ⟨-, hl, hr⟩ | ⟨-, hl, hr⟩
  · exact ⟨false, at0 v region (.advice 1), by rw [hl, hr]; rfl⟩
  · exact ⟨true, at0 v region (.advice 1), by rw [hl, hr]; rfl⟩

/-- The honest values pass the gate only with a bit for an index. -/
theorem index_of_swapRow (hf : Follows v (MerkleTreeCircuit.swapRow digest index element region).1)
    (h : Satisfies (merkleGates S) inst v
      (MerkleTreeCircuit.swapRow digest index element region).1) :
    index = 0 ∨ index = 1 := by
  obtain ⟨-, -, hindex, -, -⟩ := follows_swapRow.mp hf
  rw [← hindex]
  exact (merkleGate_iff.mp ((satisfies_swapRow inst).mp h).1).imp And.left And.left

theorem swapRow_gadget :
    Gadget (merkleGates S) inst region (region + 1)
      (fun v => digest.Carried v ∧ (index = 0 ∨ index = 1))
      (fun v => Swapped v (v digest.cell)
        (MerkleTreeCircuit.swapRow digest index element region).2)
      (fun v => ∀ i, ((MerkleTreeCircuit.swapRow digest index element region).2 i).Carried v)
      (MerkleTreeCircuit.swapRow digest index element region).1 where
  sound v hv := swapped_swapRow inst hv
  complete v hv hpre := by
    obtain ⟨hd, he, hindex, hl, hr⟩ := follows_swapRow.mp hv
    refine ⟨(satisfies_swapRow inst).mpr ⟨merkleGate_iff.mpr ?_, hd.trans hpre.1.symm⟩, ?_⟩
    · rw [hd, he, hindex, hl, hr]
      rcases hpre.2 with h | h
      · exact .inl ⟨h, by simp [ordered, h], by simp [ordered, h]⟩
      · exact .inr ⟨h, by simp [ordered, h], by simp [ordered, h]⟩
    · intro i
      have hcell := congrFun (swapRow_cells v digest index element region) i
      rw [AssignedCell.Carried, hcell, swapRow_values, hl, hr]
      fin_cases i
      · rfl
      · rfl
  fresh := by
    constructor
    · rw [Unambiguous, assignments_swapRow]
      simp
    · rw [assignments_swapRow]
      simp only [List.forall_mem_cons, le_refl, Nat.lt_succ_self, and_self, true_and]
      exact fun a ha => absurd ha List.not_mem_nil

/-- A level: the output is the hash of the digest and some sibling, in some order. -/
theorem level_run (h : S.Pow5) (hR : 0 < R) (digest : Word F R MerkleColumn) (step : F × F)
    (l : Layout (Selector MerkleSelector) (Column R MerkleColumn) F) :
    ∃ n ops out, MerkleTreeCircuit.level S.config digest step l = .ok (out, ⟨n, l.ops ++ ops⟩) ∧
      l.regions ≤ n ∧
      Gadget (merkleGates S) inst l.regions n
        (fun v => digest.Carried v ∧ (step.1 = 0 ∨ step.1 = 1))
        (fun v => ∃ (bit : Bool) (e : F),
          hash S (if bit then ![e, v digest.cell] else ![v digest.cell, e]) = .ok (v out.cell))
        (fun v => out.Carried v ∧
          hash S (ordered step.1 digest.value step.2) = .ok out.value) ops ∧
      ∀ v, Follows v ops → Satisfies (merkleGates S) inst v ops → step.1 = 0 ∨ step.1 = 1 := by
  set row := MerkleTreeCircuit.swapRow (R := R) digest step.1 step.2 l.regions with hrow
  have hswap : Gadget (merkleGates S) inst l.regions (l.regions + 1) _ _ _ row.1 :=
    swapRow_gadget inst
  obtain ⟨n, ops, out, hrun, hle, hhash⟩ := hash_gadget (X := MerkleColumn)
    (fun _ : MerkleSelector => merkleGate) inst h hR two_pos row.2
    ⟨l.regions + 1, l.ops ++ row.1⟩
  have hle' : l.regions + 1 ≤ n := hle
  refine ⟨n, row.1 ++ ops, out, ?_, by omega, ?_, ?_⟩
  · rw [MerkleTreeCircuit.level, bind_apply]
    simp only [assignRegion, ok_bind]
    refine hrun.trans ?_
    rw [List.append_assoc]
  · have hframed : Gadget (merkleGates S) inst (l.regions + 1) n
        (fun v => ∀ i, (row.2 i).Carried v) _ _ ops :=
      (hhash.post_rel.frame fun v => ∀ i, (row.2 i).Carried v).imp (fun v hv => ⟨hv, hv⟩)
        (fun v hv => hv) fun v hv => hv
    refine (hswap.append (Nat.le_succ _) hle' hframed).imp (fun v hv => hv) (fun v hv => ?_)
      fun v hv => ?_
    · obtain ⟨⟨bit, e, hinputs⟩, hout⟩ := hv
      rw [hinputs] at hout
      exact ⟨bit, e, hout⟩
    · obtain ⟨⟨hcarried, hout⟩, hinputs⟩ := hv
      refine ⟨hcarried, ?_⟩
      have hvalues : (fun i => v (row.2 i).cell) = ordered step.1 digest.value step.2 := by
        ext i
        rw [← swapRow_values digest step.1 step.2 l.regions]
        exact hinputs i
      rw [← hvalues, hout, hcarried]
  · intro v hf hs
    exact index_of_swapRow inst (follows_append.mp hf).1 (satisfies_append.mp hs).1

end Level

/-! ## All levels -/

section Levels

variable [DecidableEq F]

/-- The digests of the honest prover. -/
def foldSteps (S : Spec F R) (digest : F) (steps : List (F × F)) : Except Panic F :=
  steps.foldlM (fun digest step => hash S (ordered step.1 digest step.2)) digest

theorem levels_run (h : S.Pow5) (hR : 0 < R) (steps : List (F × F))
    (digest : Word F R MerkleColumn)
    (l : Layout (Selector MerkleSelector) (Column R MerkleColumn) F) :
    ∃ n ops out, steps.foldlM (MerkleTreeCircuit.level S.config) digest l =
        .ok (out, ⟨n, l.ops ++ ops⟩) ∧ l.regions ≤ n ∧
      Gadget (merkleGates S) inst l.regions n
        (fun v => digest.Carried v ∧ ∀ step ∈ steps, step.1 = 0 ∨ step.1 = 1)
        (fun v => ∃ path : List (Bool × F), path.length = steps.length ∧
          foldPath S (v digest.cell) path = .ok (v out.cell))
        (fun v => out.Carried v ∧ foldSteps S digest.value steps = .ok out.value) ops ∧
      ∀ v, Follows v ops → Satisfies (merkleGates S) inst v ops →
        ∀ step ∈ steps, step.1 = 0 ∨ step.1 = 1 := by
  induction steps generalizing digest l with
  | nil =>
    refine ⟨l.regions, [], digest, ?_, le_rfl, ?_, fun v _ _ step hstep => by cases hstep⟩
    · rw [List.foldlM_nil, pure_apply, List.append_nil]
    · exact Gadget.nil.imp (fun v hv => hv.1) (fun v _ => ⟨[], rfl, rfl⟩) fun v hv => ⟨hv, rfl⟩
  | cons step steps ih =>
    obtain ⟨n, ops, mid, hrun, hle, hlevel, hbit⟩ := level_run inst h hR digest step l
    obtain ⟨n', ops', out, hrun', hle', hlevels, hbits⟩ := ih mid ⟨n, l.ops ++ ops⟩
    refine ⟨n', ops ++ ops', out, ?_, hle.trans hle', ?_, ?_⟩
    · rw [List.foldlM_cons, bind_apply, hrun, ok_bind, hrun', List.append_assoc]
    · -- The honest digest of this level is kept for the fold over all of them.
      have hhead := hlevel.frame fun _ => ∀ step ∈ steps, step.1 = 0 ∨ step.1 = 1
      have htail := hlevels.frame fun _ =>
        hash S (ordered step.1 digest.value step.2) = .ok mid.value
      refine (hhead.append hle hle' (htail.imp (fun v hv => ⟨⟨hv.1.1, hv.2⟩, hv.1.2⟩)
        (fun v hv => hv) fun v hv => hv)).imp (fun v hv => ?_) (fun v hv => ?_) fun v hv => ?_
      · obtain ⟨hfirst, hrest⟩ := List.forall_mem_cons.mp hv.2
        exact ⟨⟨hv.1, hfirst⟩, hrest⟩
      · obtain ⟨⟨bit, e, hhash⟩, path, hlen, hpath⟩ := hv
        refine ⟨(bit, e) :: path, by rw [List.length_cons, List.length_cons, hlen], ?_⟩
        rw [foldPath, List.foldlM_cons]
        change hash S (if bit then ![e, v digest.cell] else ![v digest.cell, e]) >>= _ = _
        rw [hhash, ok_bind]
        exact hpath
      · obtain ⟨⟨hcarried, hfold⟩, hhash⟩ := hv
        refine ⟨hcarried, ?_⟩
        rw [foldSteps, List.foldlM_cons, hhash, ok_bind]
        exact hfold
    · intro v hf hs
      obtain ⟨hf1, hf2⟩ := follows_append.mp hf
      obtain ⟨hs1, hs2⟩ := satisfies_append.mp hs
      exact List.forall_mem_cons.mpr ⟨hbit v hf1 hs1, hbits v hf2 hs2⟩

/-- A whole opening. Its constraints force a path from the first instance to the second; the
honest values meet them exactly when the indices are bits and the instances are the leaf and
the honest root. -/
theorem synthesize_run (h : S.Pow5) (hR : 0 < R) (circuit : MerkleTreeCircuit F)
    (hlen : circuit.indices.length = circuit.elements.length) :
    ∃ n ops, circuit.synthesize S.config ⟨0, []⟩ = .ok ((), ⟨n, ops⟩) ∧ Unambiguous ops ∧
      (∀ v, Satisfies (merkleGates S) inst v ops →
        ∃ path : List (Bool × F), path.length = circuit.indices.length ∧
          foldPath S (inst 0) path = .ok (inst 1)) ∧
      ∀ v, Follows v ops → inst 0 = circuit.leaf →
        foldSteps S circuit.leaf circuit.steps = .ok (inst 1) →
        (Satisfies (merkleGates S) inst v ops ↔
          ∀ step ∈ circuit.steps, step.1 = 0 ∨ step.1 = 1) := by
  set leaf : Word F R MerkleColumn := ⟨⟨0, 0, .other (.advice 0)⟩, circuit.leaf⟩ with hleaf
  set load : Ops F R MerkleColumn MerkleSelector :=
    [.assignAdvice leaf.cell circuit.leaf, .constrainInstance leaf.cell 0] with hload
  obtain ⟨n, ops, out, hrun, hle, hlevels, hbits⟩ :=
    levels_run inst h hR circuit.steps leaf ⟨1, load⟩
  have hsat : ∀ v, Satisfies (merkleGates S) inst v
      (load ++ ops ++ [.constrainInstance out.cell 1]) ↔
      v leaf.cell = inst 0 ∧ Satisfies (merkleGates S) inst v ops ∧ v out.cell = inst 1 := by
    intro v
    rw [satisfies_append, satisfies_append, satisfies_singleton, and_assoc]
    refine and_congr_left' ?_
    simp [hload, Satisfies, Op.Holds]
  have hpathlen : circuit.steps.length = circuit.indices.length := by
    rw [MerkleTreeCircuit.steps, List.length_zip, hlen, Nat.min_self]
  refine ⟨n, load ++ ops ++ [.constrainInstance out.cell 1], ?_, ?_, ?_, ?_⟩
  · rw [MerkleTreeCircuit.synthesize, if_neg (not_not.mpr hlen)]
    simp only [bind_apply, assignRegion, ok_bind]
    change (circuit.steps.foldlM (MerkleTreeCircuit.level S.config) leaf ⟨1, load⟩ >>= _) = _
    rw [hrun, ok_bind]
    rfl
  · have hfresh : Fresh 0 1 load := by
      constructor
      · exact List.nodup_singleton _
      · exact List.forall_mem_singleton.mpr ⟨le_rfl, Nat.one_pos⟩
    have hbody := (hfresh.append (Nat.zero_le 1) hle hlevels.fresh).unambiguous
    rw [Unambiguous, assignments_append, assignments_cons_none rfl]
    rw [show assignments ([] : Ops F R MerkleColumn MerkleSelector) = [] from rfl, List.append_nil]
    exact hbody
  · intro v hv
    obtain ⟨hfirst, hmid, hlast⟩ := (hsat v).mp hv
    obtain ⟨path, hpath, hfold⟩ := hlevels.sound v hmid
    refine ⟨path, hpath.trans hpathlen, ?_⟩
    rw [← hfirst, ← hlast]
    exact hfold
  · intro v hf hleaf0 hroot
    rw [follows_append, follows_append] at hf
    have hcarried : v leaf.cell = circuit.leaf := hf.1.1.of_mem List.mem_cons_self rfl
    rw [hsat v]
    constructor
    · rintro ⟨-, hmid, -⟩
      exact hbits v hf.1.2 hmid
    · intro hindices
      obtain ⟨hmid, hout, hfold⟩ := hlevels.complete v hf.1.2 ⟨hcarried, hindices⟩
      have hvalue : out.value = inst 1 := Except.ok.inj (hfold.symm.trans hroot)
      exact ⟨hcarried.trans hleaf0.symm, hmid, hout.trans hvalue⟩

end Levels

end

/-! ## Witnesses -/

section Witness

/-- A loop by position over paired lists. -/
theorem foldlM_range_zip {σ α β : Type} {f : σ → α × β → Except Panic σ} {as : List α}
    {bs : List β} (hlen : as.length = bs.length) {g : σ → Nat → Except Panic σ}
    (hg : ∀ s i a b, as[i]? = some a → bs[i]? = some b → g s i = f s (a, b)) (s : σ) :
    (List.range bs.length).foldlM g s = (as.zip bs).foldlM f s := by
  induction as generalizing bs g s with
  | nil =>
    cases bs with
    | nil => rfl
    | cons b bs => cases hlen
  | cons a as ih =>
    cases bs with
    | nil => cases hlen
    | cons b bs =>
      rw [List.length_cons, List.range_succ_eq_map, List.foldlM_cons, List.zip_cons_cons,
        List.foldlM_cons, hg s 0 a b rfl rfl]
      refine congrArg (f s (a, b) >>= ·) (funext fun s' => ?_)
      rw [List.foldlM_map]
      exact ih (Nat.succ.inj hlen) (fun t i => hg t (i + 1)) s'

theorem fpOfU64_eq_iff (x : U64) {n : Nat} (hn : n < 256 ^ 8) :
    fpOfU64 x = (n : Fp) ↔ x.val = n := by
  have hle : 256 ^ 8 ≤ 2 ^ 248 := by norm_num
  have hx := x.isLt
  rw [fpOfU64, ZMod.natCast_eq_natCast_iff', Nat.mod_eq_of_lt, Nat.mod_eq_of_lt]
  · exact (hn.trans_le hle).trans lt_pastaModulus
  · exact (hx.trans_le hle).trans lt_pastaModulus

theorem fpOfU64_eq_zero_iff (x : U64) : fpOfU64 x = 0 ↔ x.isZero := by
  rw [Uint.isZero, beq_iff_eq, ← fpOfU64_eq_iff x (by norm_num : 0 < 256 ^ 8), Nat.cast_zero]

/-- The loop over the positions goes through the indices with their elements. -/
theorem merkleTreeCommitFp_zip {leaf : U64} {elements indices : List U64}
    (hlen : elements.length = indices.length) : merkleTreeCommitFp leaf elements indices =
      (indices.zip elements).foldlM (fun digest p => hash orchardNullifier
        (if p.1.isZero then ![digest, fpOfU64 p.2] else ![fpOfU64 p.2, digest])) (fpOfU64 leaf) :=
  foldlM_range_zip hlen.symm (fun _ _ _ _ ha hb => by rw [ha, hb]) _

theorem merkleTreeCommitFp_eq (witness : MerkleWitness)
    (hlen : witness.indices.length = witness.elements.length) :
    merkleTreeCommitFp witness.leaf witness.elements witness.indices =
      foldSteps orchardNullifier (fpOfU64 witness.leaf) witness.toCircuitFormat.steps := by
  rw [merkleTreeCommitFp_zip hlen.symm, foldSteps, MerkleTreeCircuit.steps,
    MerkleWitness.toCircuitFormat, List.zip_map, List.foldlM_map]
  simp only [ordered, Prod.map_fst, Prod.map_snd, fpOfU64_eq_zero_iff]

theorem foldSteps_ok {F : Type} [Field F] [DecidableEq F] {R : Nat} (S : Spec F R)
    (hR : 0 < R) (steps : List (F × F)) (digest : F) :
    ∃ root, foldSteps S digest steps = .ok root := by
  induction steps generalizing digest with
  | nil => exact ⟨digest, rfl⟩
  | cons step steps ih =>
    obtain ⟨root, hroot⟩ := ih (referenceHash S (ordered step.1 digest step.2))
    refine ⟨root, ?_⟩
    rw [foldSteps, List.foldlM_cons, hash_eq_reference S hR two_pos, ok_bind]
    exact hroot

/-- The opening circuit. Whatever is assigned, its constraints force a path of native hashes
from the first instance to the second; and the honest values of a witness meet them exactly
when every index is a bit. -/
theorem opening_sound_complete {F : Type} [Field F] [DecidableEq F] {R : Nat} {S : Spec F R}
    (h : S.Pow5) (hR : 0 < R) (circuit : MerkleTreeCircuit F)
    (hcircuit : circuit.indices.length = circuit.elements.length) (witness : MerkleWitness)
    (hwitness : witness.indices.length = witness.elements.length) :
    (∃ config, PoseidonConfig.configure S = .ok config ∧
      ∀ leaf root : F, ∃ n ops, circuit.synthesize config ⟨0, []⟩ = .ok ((), ⟨n, ops⟩) ∧
        ∀ v, Satisfies (merkleGates S) (fun row => if row = 0 then leaf else root) v ops →
          ∃ path : List (Bool × F), path.length = circuit.indices.length ∧
            foldPath S leaf path = .ok root) ∧
    ∃ config, PoseidonConfig.configure orchardNullifier = .ok config ∧ ∃ root n ops,
      merkleTreeCommitFp witness.leaf witness.elements witness.indices = .ok root ∧
      witness.toCircuitFormat.synthesize config ⟨0, []⟩ = .ok ((), ⟨n, ops⟩) ∧
      (Satisfies (merkleGates orchardNullifier)
          (fun row => if row = 0 then fpOfU64 witness.leaf else root)
          (overlay ops fun _ => 0) ops ↔
        ∀ index ∈ witness.indices, index.val = 0 ∨ index.val = 1) := by
  constructor
  · refine ⟨S.config, configure_ok h, fun leaf root => ?_⟩
    obtain ⟨n, ops, hrun, -, hsound, -⟩ :=
      synthesize_run (fun row => if row = 0 then leaf else root) h hR circuit hcircuit
    exact ⟨n, ops, hrun, hsound⟩
  · obtain ⟨root, hroot⟩ := foldSteps_ok orchardNullifier two_pos
      witness.toCircuitFormat.steps (fpOfU64 witness.leaf)
    have hlen : witness.toCircuitFormat.indices.length =
        witness.toCircuitFormat.elements.length := by
      rw [MerkleWitness.toCircuitFormat, List.length_map, List.length_map, hwitness]
    obtain ⟨n, ops, hrun, hfresh, -, hhonest⟩ := synthesize_run
      (fun row => if row = 0 then fpOfU64 witness.leaf else root) orchardNullifier_pow5 two_pos
      witness.toCircuitFormat hlen
    refine ⟨orchardNullifier.config, configure_ok orchardNullifier_pow5, root, n, ops,
      (merkleTreeCommitFp_eq witness hwitness).trans hroot, hrun, ?_⟩
    rw [hhonest _ (follows_overlay hfresh _) rfl hroot]
    have hbit : ∀ index : U64, fpOfU64 index = 0 ∨ fpOfU64 index = 1 ↔
        index.val = 0 ∨ index.val = 1 := by
      intro index
      have h0 := fpOfU64_eq_iff index (by norm_num : 0 < 256 ^ 8)
      have h1 := fpOfU64_eq_iff index (by norm_num : 1 < 256 ^ 8)
      rw [Nat.cast_zero] at h0
      rw [Nat.cast_one] at h1
      rw [h0, h1]
    have hfst : witness.toCircuitFormat.steps.map Prod.fst = witness.indices.map fpOfU64 :=
      List.map_fst_zip hlen.le
    simp only [← hbit]
    rw [← List.forall_mem_map (P := fun x : Fp => x = 0 ∨ x = 1), hfst, List.forall_mem_map]

/-- Three levels over the integers modulo 7, and a witness of two levels. -/
theorem opening_sound_complete_small :
    let circuit : MerkleTreeCircuit (ZMod 7) := ⟨1, [2, 5, 4], [0, 1, 0]⟩
    let witness : MerkleWitness := ⟨.ofNat 7, [.ofNat 5, .ofNat 6], [.ofNat 1, .ofNat 0]⟩
    (∃ config, PoseidonConfig.configure smallSpec = .ok config ∧
      ∀ leaf root : ZMod 7, ∃ n ops, circuit.synthesize config ⟨0, []⟩ = .ok ((), ⟨n, ops⟩) ∧
        ∀ v, Satisfies (merkleGates smallSpec) (fun row => if row = 0 then leaf else root) v ops →
          ∃ path : List (Bool × ZMod 7), path.length = circuit.indices.length ∧
            foldPath smallSpec leaf path = .ok root) ∧
    ∃ config, PoseidonConfig.configure orchardNullifier = .ok config ∧ ∃ root n ops,
      merkleTreeCommitFp witness.leaf witness.elements witness.indices = .ok root ∧
      witness.toCircuitFormat.synthesize config ⟨0, []⟩ = .ok ((), ⟨n, ops⟩) ∧
      (Satisfies (merkleGates orchardNullifier)
          (fun row => if row = 0 then fpOfU64 witness.leaf else root)
          (overlay ops fun _ => 0) ops ↔
        ∀ index ∈ witness.indices, index.val = 0 ∨ index.val = 1) := by
  intro circuit witness
  exact opening_sound_complete smallSpec_pow5 two_pos circuit rfl witness rfl

end Witness

end Zkmemory.Commitment
