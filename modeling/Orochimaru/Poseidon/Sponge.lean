import Orochimaru.Poseidon.Rounds

/-!
# The sponge in the circuit

Each region forces on its cells what the native sponge computes, and the honest prover
meets it. The sponge strings regions together, one more for each block of input.
-/

namespace Poseidon

open Zkmemory Layouter Plonkish Loops

variable {F : Type} [Field F] {R : Nat} {X Y : Type} {S : Spec F R}
  (outer : Y → Gate (Column R X) F) (inst : Nat → F) {words : Fin (R + 1) → Word F R X}

/-! ## The regions -/

/-- The words have the values of the honest prover. -/
def CarriedState (words : Fin (R + 1) → Word F R X) (v : Cell (Column R X) → F) : Prop :=
  ∀ i, (words i).Carried v

namespace PaddedWord

/-- The value of an input word under an assignment. -/
def eval (v : Cell (Column R X) → F) : PaddedWord F R X → F
  | message word => v word.cell
  | padding value => value

def Carried (w : PaddedWord F R X) (v : Cell (Column R X) → F) : Prop :=
  match w with
  | message word => word.Carried v
  | padding _ => True

end PaddedWord

omit [Field F] in
theorem values_eq_row {v : Cell (Column R X) → F} {region offset : Nat}
    (hw : ∀ i, (words i).cell = ⟨region, offset, .state i⟩) :
    values v words = row v region offset := by
  funext i
  rw [values, hw i, row]

omit [Field F] in
/-- The cells of a region and nothing else. -/
theorem fresh_region {ops : Ops F R X Y} {region : Nat} (h : Unambiguous ops)
    (hr : ∀ a ∈ assignments ops, a.1.region = region) : Fresh region (region + 1) ops :=
  ⟨h, fun a ha => by rw [hr a ha]; exact ⟨le_rfl, Nat.lt_succ_self _⟩⟩

theorem initialState_gadget (L region : Nat) :
    let r := PoseidonConfig.initialState (F := F) (R := R) (X := X) (Y := Y) L region
    Gadget (gates S outer) inst region (region + 1) (fun _ => True)
      (fun v => values v r.2 = initialState (ConstantLength.initialCapacityElement L))
      (CarriedState r.2) r.1 := by
  intro r
  have hassign : assignments r.1 = List.ofFn fun i => ((r.2 i).cell, (r.2 i).value) := by
    rw [show r.1 = _ ++ _ from rfl, assignments_append, assignments_assignState,
      assignments_ofFn_nil fun _ => rfl, List.append_nil]
    rfl
  constructor
  · intro v hv
    obtain ⟨-, hconst⟩ := satisfies_append.mp hv
    exact funext (satisfies_ofFn.mp hconst)
  · intro v hv _
    rw [Follows, hassign, List.forall_mem_ofFn_iff] at hv
    exact ⟨satisfies_append.mpr ⟨satisfies_assignState, satisfies_ofFn.mpr hv⟩, hv⟩
  · refine fresh_region ?_ ?_
    · rw [Unambiguous, hassign, List.map_ofFn, List.nodup_ofFn]
      intro i j hij
      injection hij with _ _ hcol
      exact Column.state.inj hcol
    · rw [hassign, List.forall_mem_ofFn_iff]
      exact fun _ => rfl

theorem permute_gadget (h : S.Pow5) (words : Fin (R + 1) → Word F R X) (region : Nat) :
    let r := S.config.permute (Y := Y) words region
    Gadget (gates S outer) inst region (region + 1) (CarriedState words)
      (fun v => values v r.2 = permute S (values v words)) (CarriedState r.2) r.1 := by
  intro r
  obtain ⟨rest, hops, hrows⟩ : ∃ rest, r.1 = (copyState region words).1 ++ rest ∧
      Stretch S outer inst region 0 (S.fullRounds / 2 + S.partialRounds / 2 + S.fullRounds / 2)
        (permute S) (copyState (Y := Y) region words).2 (rest, r.2) :=
    ⟨_, rfl, permute_stretch h fun _ => rfl⟩
  rw [hops]
  constructor
  · intro v hv
    obtain ⟨hcopy, hrest⟩ := satisfies_append.mp hv
    rw [values_eq_row hrows.cells, hrows.sound v hrest, satisfies_copyState.mp hcopy]
  · intro v hv hcarried
    obtain ⟨hcopy, hrest⟩ := follows_append.mp hv
    have hrow := follows_copyState.mp hcopy
    obtain ⟨hs, hout⟩ := hrows.complete v hrest (congrFun hrow)
    refine ⟨satisfies_append.mpr ⟨satisfies_copyState.mpr ?_, hs⟩, hout⟩
    rw [hrow]
    exact funext fun i => (hcarried i).symm
  · refine fresh_region ?_ ?_
    · refine Unambiguous.append (μ := level) (k := 0) ?_ hrows.unambiguous ?_
        fun x hx => (hrows.level x hx).2.1
      · exact unambiguous_copyState
      · rw [assignments_copyState, List.forall_mem_ofFn_iff]
        exact fun _ => le_rfl
    · rw [assignments_append, List.forall_mem_append, assignments_copyState,
        List.forall_mem_ofFn_iff]
      exact ⟨fun _ => rfl, fun x hx => (hrows.level x hx).1⟩

/-! ## The input region -/

section Input

variable {region : Nat} {i : Fin R} {w : PaddedWord F R X} {v : Cell (Column R X) → F}

theorem loadInputWord_sound
    (h : Satisfies (gates S outer) inst v (PoseidonConfig.loadInputWord (Y := Y) region i w).1) :
    v ⟨region, 1, .state i.castSucc⟩ = w.eval v := by
  cases w with
  | message word =>
    have heq := (List.forall_mem_cons.mp (List.forall_mem_cons.mp h).2).1
    exact heq.symm
  | padding value =>
    obtain ⟨hfix, hrest⟩ := List.forall_mem_cons.mp h
    have heq := (List.forall_mem_cons.mp (List.forall_mem_cons.mp hrest).2).1
    exact heq.symm.trans hfix

theorem loadInputWord_complete
    (h : Follows v (PoseidonConfig.loadInputWord (Y := Y) region i w).1) (hw : w.Carried v) :
    Satisfies (gates S outer) inst v (PoseidonConfig.loadInputWord region i w).1 ∧
      w.eval v = (PoseidonConfig.loadInputWord (Y := Y) region i w).2 ∧
      v ⟨region, 1, .state i.castSucc⟩ = w.eval v := by
  cases w with
  | message word =>
    have hstate : v ⟨region, 1, .state i.castSucc⟩ = word.value := h _ List.mem_cons_self
    have hword : v word.cell = word.value := hw
    refine ⟨?_, hword, hstate.trans hword.symm⟩
    refine List.forall_mem_cons.mpr ⟨trivial, List.forall_mem_singleton.mpr ?_⟩
    exact hword.trans hstate.symm
  | padding value =>
    have hfix : v ⟨region, 1, .rcB i.castSucc⟩ = value := h _ List.mem_cons_self
    have hstate : v ⟨region, 1, .state i.castSucc⟩ = value :=
      h _ (List.mem_cons_of_mem _ List.mem_cons_self)
    refine ⟨?_, rfl, hstate⟩
    refine List.forall_mem_cons.mpr ⟨hfix, List.forall_mem_cons.mpr ⟨trivial,
      List.forall_mem_singleton.mpr ?_⟩⟩
    exact hfix.trans hstate.symm

/-- The number of the column among its like. -/
def index (c : Cell (Column R X)) : Nat :=
  match c.column with
  | .state i => i
  | .rcB i => i
  | _ => 0

omit [Field F] in
theorem assignments_loadInputWord {a : Cell (Column R X) × F}
    (h : a ∈ assignments (PoseidonConfig.loadInputWord (Y := Y) region i w).1) :
    a.1.region = region ∧ a.1.offset = 1 ∧ index a.1 = i := by
  cases w with
  | message word =>
    obtain rfl := List.mem_singleton.mp h
    exact ⟨rfl, rfl, rfl⟩
  | padding value =>
    rcases List.mem_cons.mp h with rfl | h
    · exact ⟨rfl, rfl, rfl⟩
    · obtain rfl := List.mem_singleton.mp h
      exact ⟨rfl, rfl, rfl⟩

omit [Field F] in
theorem unambiguous_loadInputWord :
    Unambiguous (PoseidonConfig.loadInputWord (Y := Y) region i w).1 := by
  cases w with
  | message word => exact List.nodup_singleton _
  | padding value =>
    refine List.nodup_cons.mpr ⟨fun h => ?_, List.nodup_singleton _⟩
    cases List.mem_singleton.mp h

/-- The state with the input added to its rate. -/
def addRate (state : State F R) (input : Fin R → F) : State F R :=
  Fin.lastCases (state (Fin.last R)) fun i => state i.castSucc + input i

theorem addInput_gadget (words : Fin (R + 1) → Word F R X) (input : Fin R → PaddedWord F R X)
    (region : Nat) :
    let r := PoseidonConfig.addInput (Y := Y) words input region
    Gadget (gates S outer) inst region (region + 1)
      (fun v => CarriedState words v ∧ ∀ i, (input i).Carried v)
      (fun v => values v r.2 = addRate (values v words) fun i => (input i).eval v)
      (CarriedState r.2) r.1 := by
  intro r
  have hcells : ∀ i, (r.2 i).cell = ⟨region, 2, .state i⟩ := fun _ => rfl
  constructor
  · intro v hv
    obtain ⟨hv, -⟩ := satisfies_append.mp hv
    obtain ⟨hv, hinput⟩ := satisfies_append.mp hv
    obtain ⟨hgate, hcopy⟩ := List.forall_mem_cons.mp hv
    have hrow := satisfies_copyState.mp hcopy
    have hin : ∀ i : Fin R, row v region 1 i.castSucc = (input i).eval v := fun i =>
      loadInputWord_sound outer inst fun op hop => hinput op
        (List.mem_flatten.mpr ⟨_, List.mem_ofFn.mpr ⟨i, rfl⟩, hop⟩)
    obtain ⟨hrate, hcap⟩ := padAndAddGate_iff.mp hgate
    rw [values_eq_row hcells]
    funext j
    refine Fin.lastCases ?_ (fun i => ?_) j
    · rw [hcap, hrow, addRate, Fin.lastCases_last]
    · rw [hrate i, hrow, hin i, addRate, Fin.lastCases_castSucc]
  · rintro v hv ⟨hwords, hinput⟩
    obtain ⟨hv, hout⟩ := follows_append.mp hv
    obtain ⟨hcopy, hload⟩ := follows_append.mp hv
    rw [Follows, assignments_cons_none rfl] at hcopy
    have hrow : row v region 0 = fun i => (words i).value := follows_copyState.mp hcopy
    have hword : ∀ i, (words i).value = values v words i := fun i => (hwords i).symm
    have hin := fun i => loadInputWord_complete (S := S) outer inst
      (assignments_flatten.mp hload i) (hinput i)
    have hnext := follows_assignState.mp hout
    refine ⟨satisfies_append.mpr ⟨satisfies_append.mpr ⟨List.forall_mem_cons.mpr ⟨?_, ?_⟩, ?_⟩,
      satisfies_assignState⟩, congrFun hnext⟩
    · refine padAndAddGate_iff.mpr ⟨fun i => ?_, ?_⟩
      · rw [hnext, hrow]
        dsimp only
        rw [Fin.lastCases_castSucc, ← (hin i).2.1]
        exact congrArg _ (hin i).2.2.symm
      · rw [hnext, hrow]
        dsimp only
        rw [Fin.lastCases_last]
        rfl
    · refine satisfies_copyState.mpr ?_
      rw [hrow]
      exact funext hword
    · intro op hop
      obtain ⟨l, hl, hop⟩ := List.mem_flatten.mp hop
      obtain ⟨i, rfl⟩ := List.mem_ofFn.mp hl
      exact (hin i).1 op hop
  · have hcopy : ∀ a ∈ assignments (.enable .padAndAdd region 1 ::
        (copyState region words).1 : Ops F R X Y), a.1.region = region ∧ a.1.offset = 0 := by
      rw [assignments_cons_none rfl, assignments_copyState, List.forall_mem_ofFn_iff]
      exact fun _ => ⟨rfl, rfl⟩
    have hload : ∀ a ∈ assignments (List.ofFn fun i =>
        (PoseidonConfig.loadInputWord (Y := Y) region i (input i)).1).flatten,
        a.1.region = region ∧ a.1.offset = 1 :=
      assignments_flatten.mpr fun i a ha =>
        ⟨(assignments_loadInputWord ha).1, (assignments_loadInputWord ha).2.1⟩
    have hout : ∀ a ∈ assignments (assignState (X := X) (Y := Y) region 2 fun i => (r.2 i).value).1,
        a.1.region = region ∧ a.1.offset = 2 := by
      rw [assignments_assignState, List.forall_mem_ofFn_iff]
      exact fun _ => ⟨rfl, rfl⟩
    refine fresh_region ?_ ?_
    · refine Unambiguous.append (μ := Cell.offset) (k := 1)
        (Unambiguous.append (μ := Cell.offset) (k := 0) ?_
          (unambiguous_flatten (μ := index) (fun i => unambiguous_loadInputWord)
            fun i a ha => (assignments_loadInputWord ha).2.2) ?_ ?_)
        unambiguous_assignState ?_ ?_
      · rw [Unambiguous, assignments_cons_none rfl]
        exact unambiguous_copyState
      · exact fun a ha => (hcopy a ha).2.le
      · exact fun a ha => by rw [(hload a ha).2]; exact one_pos
      · rw [assignments_append]
        refine List.forall_mem_append.mpr ⟨fun a ha => ?_, fun a ha => (hload a ha).2.le⟩
        rw [(hcopy a ha).2]
        exact Nat.zero_le 1
      · exact fun a ha => by rw [(hout a ha).2]; exact one_lt_two
    · rw [show r.1 = _ ++ _ ++ _ from rfl, assignments_append, assignments_append]
      refine List.forall_mem_append.mpr ⟨List.forall_mem_append.mpr ⟨?_, ?_⟩, ?_⟩
      · exact fun a ha => (hcopy a ha).1
      · exact fun a ha => (hload a ha).1
      · exact fun a ha => (hout a ha).1

end Input

end Poseidon
