import Orochimaru.Poseidon.Sponge

/-!
# The gadget computes the hash

The sponge in the circuit goes through the words of the message as the native sponge
does. On any assignment that satisfies its constraints it carries the native states, and
the values of the honest prover satisfy them.
-/

namespace Poseidon

open Zkmemory Layouter Plonkish Loops

variable {F : Type} [Field F] {R : Nat} {X Y : Type} {S : Spec F R}
  (outer : Y → Gate (Column R X) F) (inst : Nat → F)

/-- A sponge of the circuit read as a native one. -/
def evalSponge (v : Cell (Column R X) → F)
    (sponge : Sponge (Fin (R + 1) → Word F R X) (PaddedWord F R X)) : Sponge (State F R) F :=
  ⟨sponge.mode.map (PaddedWord.eval v), values v sponge.state⟩

def CarriedSponge (sponge : Sponge (Fin (R + 1) → Word F R X) (PaddedWord F R X))
    (v : Cell (Column R X) → F) : Prop :=
  CarriedState sponge.state v ∧ ∀ w ∈ sponge.mode, w.Carried v

/-! ## A block -/

theorem addRate_eq (state : State F R) (input : List F) (hlen : input.length = R) :
    addRate state (fun i => input.get (i.cast hlen.symm)) = fun i => state i + input.getD i 0 := by
  funext j
  refine Fin.lastCases ?_ (fun i => ?_) j
  · rw [addRate, Fin.lastCases_last, List.getD_eq_default _ _ (by simp [hlen]), add_zero]
  · have hi : (i : Nat) < input.length := hlen.symm ▸ i.isLt
    rw [addRate, Fin.lastCases_castSucc, List.getD_eq_getElem _ _ (by simpa using hi)]
    rfl

theorem poseidonSponge_run (h : S.Pow5) (words : Fin (R + 1) → Word F R X)
    {input : List (PaddedWord F R X)} (hlen : input.length = R)
    (l : Layout (Selector Y) (Column R X) F) :
    ∃ ops out, Gadgets.poseidonSponge S.config words (some input) l =
        .ok ((out, PoseidonConfig.getOutput out), ⟨l.regions + 2, l.ops ++ ops⟩) ∧
      Gadget (gates S outer) inst l.regions (l.regions + 2)
        (fun v => CarriedState words v ∧ ∀ w ∈ input, w.Carried v)
        (fun v => poseidonSponge S (values v words) (some (input.map (PaddedWord.eval v))) =
          .ok (values v out, (PoseidonConfig.getOutput out).map fun w => v w.cell))
        (CarriedState out) ops := by
  have hadd := addInput_gadget (S := S) outer inst words
    (fun i => input.get (i.cast hlen.symm)) l.regions
  have hpermute := permute_gadget outer inst h
    (PoseidonConfig.addInput (Y := Y) words (fun i => input.get (i.cast hlen.symm)) l.regions).2
    (l.regions + 1)
  refine ⟨_, _, ?_, (hadd.append (Nat.le_succ _) (Nat.le_succ _) hpermute).imp ?_ ?_ fun _ h => h⟩
  · simp only [Gadgets.poseidonSponge, dif_pos hlen]
    rw [bind_apply]
    simp only [assignRegion, ok_bind, bind_apply, pure_apply, List.append_assoc]
  · rintro v ⟨hw, hin⟩
    exact ⟨hw, fun i => hin _ (List.get_mem _ _)⟩
  · rintro v ⟨h1, h2⟩
    have hmap : (input.map (PaddedWord.eval v)).length = R := by rw [List.length_map, hlen]
    have hget : (fun i : Fin R => (input.map (PaddedWord.eval v)).get (i.cast hmap.symm)) =
        fun i => (input.get (i.cast hlen.symm)).eval v := by
      funext i
      rw [List.get_eq_getElem, List.getElem_map]
      rfl
    have hin := addRate_eq (values v words) (input.map (PaddedWord.eval v)) hmap
    rw [hget, ← h1] at hin
    rw [poseidonSponge, if_pos hmap, ok_bind, ← hin]
    dsimp only
    rw [← h2, PoseidonConfig.getOutput, List.map_ofFn]
    rfl

theorem absorb_run (h : S.Pow5) (sponge : Sponge (Fin (R + 1) → Word F R X) (PaddedWord F R X))
    (hlen : sponge.mode.length ≤ R) (w : PaddedWord F R X)
    (l : Layout (Selector Y) (Column R X) F) :
    ∃ n ops sponge', Sponge.absorb R (Gadgets.poseidonSponge S.config) sponge w l =
        .ok (sponge', ⟨n, l.ops ++ ops⟩) ∧ l.regions ≤ n ∧
      sponge'.mode.length = (if sponge.mode.length < R then sponge.mode.length + 1 else 1) ∧
      Gadget (gates S outer) inst l.regions n
        (fun v => CarriedSponge sponge v ∧ w.Carried v)
        (fun v => Sponge.absorb R (poseidonSponge S) (evalSponge v sponge) (w.eval v) =
          .ok (evalSponge v sponge'))
        (CarriedSponge sponge') ops := by
  by_cases hroom : sponge.mode.length < R
  · refine ⟨l.regions, [], { sponge with mode := sponge.mode ++ [w] }, ?_, le_rfl, ?_, ?_⟩
    · rw [Sponge.absorb, if_pos hroom, pure_apply, List.append_nil]
    · rw [if_pos hroom, List.length_append, List.length_singleton]
    · refine Gadget.nil.imp (fun v hv => ?_) (fun v _ => ?_) fun v hv => hv
      · refine ⟨hv.1.1, fun u hu => ?_⟩
        rcases List.mem_append.mp hu with hu | hu
        · exact hv.1.2 u hu
        · obtain rfl := List.mem_singleton.mp hu
          exact hv.2
      · rw [Sponge.absorb, evalSponge, List.length_map, if_pos hroom, evalSponge, List.map_append]
        rfl
  · obtain ⟨ops, out, hrun, hgadget⟩ :=
      poseidonSponge_run outer inst h sponge.state (show sponge.mode.length = R by omega) l
    refine ⟨l.regions + 2, ops, ⟨[w], out⟩, ?_, by omega, ?_, ?_⟩
    · rw [Sponge.absorb, if_neg hroom, bind_apply, hrun]
      rfl
    · rw [if_neg hroom, List.length_singleton]
    · refine (hgadget.frame fun v => w.Carried v).imp (fun v hv => hv) (fun v hv => ?_)
        fun v hv => ⟨hv.1, List.forall_mem_singleton.mpr hv.2⟩
      rw [Sponge.absorb, evalSponge, List.length_map, if_neg hroom, hv]
      rfl

/-! ## All blocks -/

/-- How far the array is filled after `n` words. -/
def Filled (R m n : Nat) (m' : Nat) : Prop := m' ≤ R ∧ (0 < m + n → 0 < m') ∧ m' ≡ m + n [MOD R]

theorem absorbAll_run (h : S.Pow5) (hR : 0 < R) (words : List (PaddedWord F R X))
    (sponge : Sponge (Fin (R + 1) → Word F R X) (PaddedWord F R X))
    (hlen : sponge.mode.length ≤ R) (l : Layout (Selector Y) (Column R X) F) :
    ∃ n ops sponge', words.foldlM (Sponge.absorb R (Gadgets.poseidonSponge S.config)) sponge l =
        .ok (sponge', ⟨n, l.ops ++ ops⟩) ∧ l.regions ≤ n ∧
      Filled R sponge.mode.length words.length sponge'.mode.length ∧
      Gadget (gates S outer) inst l.regions n
        (fun v => CarriedSponge sponge v ∧ ∀ w ∈ words, w.Carried v)
        (fun v => (words.map (PaddedWord.eval v)).foldlM (Sponge.absorb R (poseidonSponge S))
          (evalSponge v sponge) = .ok (evalSponge v sponge'))
        (CarriedSponge sponge') ops := by
  induction words generalizing sponge l with
  | nil =>
    refine ⟨l.regions, [], sponge, ?_, le_rfl, ⟨hlen, fun h0 => h0, rfl⟩, ?_⟩
    · rw [List.foldlM_nil, pure_apply, List.append_nil]
    · exact Gadget.nil.imp (fun v hv => hv.1) (fun v _ => rfl) fun v hv => hv
  | cons w words ih =>
    obtain ⟨n, ops, sponge', hrun, hle, hmode, hgadget⟩ :=
      absorb_run outer inst h sponge hlen w l
    have hlen' : sponge'.mode.length ≤ R := by
      rw [hmode]
      split <;> omega
    obtain ⟨n', ops', sponge'', hrun', hle', hfill, hgadget'⟩ := ih sponge' hlen' ⟨n, l.ops ++ ops⟩
    refine ⟨n', ops ++ ops', sponge'', ?_, hle.trans hle', ?_, ?_⟩
    · rw [List.foldlM_cons, bind_apply, hrun, ok_bind, hrun', List.append_assoc]
    · refine ⟨hfill.1, fun _ => hfill.2.1 ?_, ?_⟩
      · rw [hmode]
        split <;> omega
      · refine hfill.2.2.trans ?_
        rw [hmode, List.length_cons]
        split
        · exact congrArg (· % R) (by omega)
        · have hfull : sponge.mode.length = R := by omega
          rw [hfull, Nat.ModEq, Nat.add_mod_left, add_comm]
    · refine ((hgadget.frame fun v => ∀ w ∈ words, w.Carried v).append hle hle' hgadget').imp
        (fun v hv => ?_) (fun v hv => ?_) fun v hv => hv
      · obtain ⟨hw, hwords⟩ := List.forall_mem_cons.mp hv.2
        exact ⟨⟨hv.1, hw⟩, hwords⟩
      · rw [List.map_cons, List.foldlM_cons, hv.1, ok_bind, hv.2]

/-- A multiple of the rate fills the array. -/
theorem Filled.full {R n k m : Nat} (hn : n = k * R) (hpos : 0 < n) (h : Filled R 0 n m) :
    m = R := by
  have hm := h.2.1 (by omega)
  have hmod : m % R = 0 := by
    rw [show m % R = _ from h.2.2, zero_add, hn, Nat.mul_mod_left]
  obtain ⟨j, hj⟩ := Nat.dvd_of_mod_eq_zero hmod
  have hle := h.1
  cases j with
  | zero => omega
  | succ j =>
    rw [Nat.mul_succ] at hj
    omega

theorem padding_eq (hR : 0 < R) (L : Nat) :
    (ConstantLength.padding R L L : Except Panic (List F)) =
      .ok (List.replicate ((L + R - 1) / R * R - L) 0) := by
  rw [ConstantLength.padding, if_neg (not_not.mpr rfl), if_neg (by omega)]

/-- The length of the padded message. -/
theorem padded_length (hR : 0 < R) (L : Nat) :
    L + ((L + R - 1) / R * R - L) = (L + R - 1) / R * R := by
  have hdiv := Nat.div_add_mod (L + R - 1) R
  have hmod := Nat.mod_lt (L + R - 1) hR
  rw [mul_comm] at hdiv
  omega

theorem squeeze_getOutput (hR : 0 < R) (words : Fin (R + 1) → Word F R X)
    (l : Layout (Selector Y) (Column R X) F) :
    Sponge.squeeze (Gadgets.poseidonSponge S.config) (words, PoseidonConfig.getOutput words) l =
      .ok (words 0, l) := by
  cases R with
  | zero => exact absurd hR (lt_irrefl 0)
  | succ R =>
    simp only [Sponge.squeeze, PoseidonConfig.getOutput, List.ofFn_succ]
    rfl

/-- The gadget from an empty sponge: the constraints force the native hash, and the honest
values meet them. -/
theorem hash_gadget (h : S.Pow5) (hR : 0 < R) {L : Nat} (hL : 0 < L)
    (message : Fin L → Word F R X) (l : Layout (Selector Y) (Column R X) F) :
    ∃ n ops out, (Gadgets.init L >>= fun sponge => Gadgets.hash S.config sponge message) l =
        .ok (out, ⟨n, l.ops ++ ops⟩) ∧ l.regions ≤ n ∧
      Gadget (gates S outer) inst l.regions n (fun v => ∀ i, (message i).Carried v)
        (fun v => hash S (fun i => v (message i).cell) = .ok (v out.cell))
        out.Carried ops := by
  have hinit := initialState_gadget (S := S) (X := X) (Y := Y) outer inst
    L l.regions
  set init := PoseidonConfig.initialState (F := F) (R := R) (X := X) (Y := Y) L l.regions
  set pad : List F := List.replicate ((L + R - 1) / R * R - L) 0
  set input := (List.ofFn message).map PaddedWord.message ++ pad.map PaddedWord.padding
  have hlength : input.length = (L + R - 1) / R * R := by
    rw [List.length_append, List.length_map, List.length_map, List.length_ofFn,
      List.length_replicate, padded_length hR]
  have hpos : 0 < input.length := by
    rw [List.length_append, List.length_map, List.length_ofFn]
    omega
  obtain ⟨n, ops, sponge, hrun, hle, hfill, habsorb⟩ := absorbAll_run outer inst h hR input
    ⟨[], init.2⟩ (Nat.zero_le R) ⟨l.regions + 1, l.ops ++ init.1⟩
  obtain ⟨ops', out, hrun', hlast⟩ := poseidonSponge_run outer inst h
    sponge.state (hfill.full hlength hpos) ⟨n, l.ops ++ init.1 ++ ops⟩
  have hle' : l.regions + 1 ≤ n := hle
  change Gadget (gates S outer) inst (l.regions + 1) n _ _ _ ops at habsorb
  change Gadget (gates S outer) inst n (n + 2) (CarriedSponge sponge) _ _ ops' at hlast
  refine ⟨n + 2, init.1 ++ (ops ++ ops'), out 0, ?_, by omega, ?_⟩
  · rw [bind_apply, Gadgets.init, bind_apply]
    simp only [assignRegion, ok_bind, pure_apply]
    rw [Gadgets.hash, padding_eq hR, bind_apply]
    change (input.foldlM (Sponge.absorb R (Gadgets.poseidonSponge S.config)) ⟨[], init.2⟩
      ⟨l.regions + 1, l.ops ++ init.1⟩ >>= _) = _
    rw [hrun, ok_bind]
    change (Gadgets.poseidonSponge S.config sponge.state (some sponge.mode)
      ⟨n, l.ops ++ init.1 ++ ops⟩ >>= _) = _
    rw [hrun', ok_bind]
    refine (squeeze_getOutput hR out _).trans ?_
    simp only [List.append_assoc]
  · have hinput : ∀ v, (∀ i, (message i).Carried v) → ∀ w ∈ input, w.Carried v := by
      intro v hv w hw
      rcases List.mem_append.mp hw with hw | hw
      · obtain ⟨word, hword, rfl⟩ := List.mem_map.mp hw
        obtain ⟨i, rfl⟩ := List.mem_ofFn.mp hword
        exact hv i
      · obtain ⟨x, -, rfl⟩ := List.mem_map.mp hw
        exact trivial
    have heval : ∀ v, input.map (PaddedWord.eval v) =
        List.ofFn (fun i => v (message i).cell) ++ pad := by
      intro v
      rw [List.map_append, List.map_map, List.map_map, List.map_ofFn]
      exact congrArg _ (List.map_id _)
    have htail : Gadget (gates S outer) inst (l.regions + 1) (n + 2)
        (fun v => CarriedState init.2 v ∧ ∀ i, (message i).Carried v) _ (CarriedState out)
        (ops ++ ops') :=
      (habsorb.append hle' (Nat.le_add_right n 2) hlast).imp
        (fun v hv => ⟨⟨hv.1, fun _ hw => by cases hw⟩, hinput v hv.2⟩) (fun v hv => hv)
        fun v hv => hv
    refine ((hinit.frame fun v => ∀ i, (message i).Carried v).append (Nat.le_succ _)
      (by omega) htail).imp (fun v hv => ⟨trivial, hv⟩) (fun v hv => ?_) fun v hv => hv 0
    obtain ⟨hstate, habs, hsponge⟩ := hv
    rw [heval, evalSponge, hstate, List.map_nil] at habs
    rw [hash, padding_eq hR, ok_bind]
    change (List.foldlM (Sponge.absorb R (poseidonSponge S)) ⟨[], _⟩
      (List.ofFn (fun i => v (message i).cell) ++ pad) >>= _) = _
    rw [habs, ok_bind]
    change (poseidonSponge S (values v sponge.state)
      (some (sponge.mode.map (PaddedWord.eval v))) >>= _) = _
    rw [hsponge, ok_bind]
    cases R with
    | zero => exact absurd hR (lt_irrefl 0)
    | succ R =>
      simp only [Sponge.squeeze, PoseidonConfig.getOutput, List.ofFn_succ, List.map_cons]
      rfl

/-- The gadget is the native hash. The values of the honest prover, on top of any values of
earlier cells with the message among them, satisfy all its constraints; and every assignment
that satisfies them has the hash of its message cells in the output cell. -/
theorem gadget_eq_hash [DecidableEq X] (h : S.Pow5) (hR : 0 < R) {L : Nat} (hL : 0 < L)
    (message : Fin L → Word F R X) (l : Layout (Selector Y) (Column R X) F)
    (hcells : ∀ i, (message i).cell.region < l.regions) :
    ∃ config, PoseidonConfig.configure S = .ok config ∧ ∃ out new n,
      (Gadgets.init L >>= fun sponge => Gadgets.hash config sponge message) l =
        .ok (out, ⟨n, l.ops ++ new⟩) ∧
      (∀ v₀ : Cell (Column R X) → F, (∀ i, v₀ (message i).cell = (message i).value) →
        Satisfies (gates S outer) inst (overlay new v₀) new ∧
          hash S (fun i => (message i).value) = .ok (overlay new v₀ out.cell)) ∧
      ∀ v, Satisfies (gates S outer) inst v new →
        hash S (fun i => v (message i).cell) = .ok (v out.cell) := by
  obtain ⟨n, new, out, hrun, -, hgadget⟩ := hash_gadget outer inst h hR hL message l
  refine ⟨S.config, configure_ok h, out, new, n, hrun, fun v₀ hv₀ => ?_, hgadget.sound⟩
  have hkeep : ∀ i, overlay new v₀ (message i).cell = (message i).value := by
    intro i
    rw [overlay_of_not_mem, hv₀ i]
    intro a ha heq
    have hlo := (hgadget.fresh.region a ha).1
    rw [heq] at hlo
    exact absurd (hcells i) (by omega)
  obtain ⟨hs, -⟩ := hgadget.complete _ (follows_overlay hgadget.fresh.unambiguous v₀) hkeep
  refine ⟨hs, ?_⟩
  have hout := hgadget.sound _ hs
  simp only [hkeep] at hout
  exact hout

instance primeSeven : Fact (Nat.Prime 7) := ⟨by norm_num⟩

/-- Two words at a time, over the integers modulo 7. -/
def smallSpec : Spec (ZMod 7) 2 :=
  ⟨2, 2, (· ^ 5), (List.range 4).map fun r i => (r + i.val : Nat), !![1, 1, 0; 0, 1, 1; 0, 0, 1],
    !![1, -1, 1; 0, 1, -1; 0, 0, 1]⟩

theorem smallSpec_pow5 : smallSpec.Pow5 :=
  ⟨Nat.mod_self 2, Nat.mod_self 2, fun _ => rfl, le_refl 4, by decide⟩

/-- Three words, absorbed in two blocks. -/
theorem gadget_eq_hash_small :
    let message : Fin 3 → Word (ZMod 7) 2 Empty := fun i => ⟨⟨0, i, .state 0⟩, (i.val + 2 : Nat)⟩
    let l : Layout (Selector Empty) (Column 2 Empty) (ZMod 7) := ⟨1, []⟩
    let gates := gates smallSpec (fun q : Empty => q.elim)
    ∃ config, PoseidonConfig.configure smallSpec = .ok config ∧ ∃ out new n,
      (Gadgets.init 3 >>= fun sponge => Gadgets.hash config sponge message) l =
        .ok (out, ⟨n, l.ops ++ new⟩) ∧
      (∀ v₀ : Cell (Column 2 Empty) → ZMod 7, (∀ i, v₀ (message i).cell = (message i).value) →
        Satisfies gates (fun _ => 0) (overlay new v₀) new ∧
          hash smallSpec (fun i => (message i).value) = .ok (overlay new v₀ out.cell)) ∧
      ∀ v, Satisfies gates (fun _ => 0) v new →
        hash smallSpec (fun i => v (message i).cell) = .ok (v out.cell) := by
  intro message l gates
  exact gadget_eq_hash _ _ smallSpec_pow5 two_pos three_pos message l fun _ => one_pos

end Poseidon
