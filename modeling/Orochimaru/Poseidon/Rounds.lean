import Orochimaru.Poseidon.Circuit

/-!
# Rounds in the circuit

Each gate says that a row follows from the row above by native rounds: one full round, or
two partial rounds checked from both ends through the inverse matrix. A stretch of rows
composes such steps.
-/

namespace Poseidon

open Zkmemory Layouter Plonkish

variable {F : Type} [Field F] {R : Nat} {X Y : Type} {S : Spec F R}

/-! ## What the gates say -/

theorem pow5_eq (x : F) : pow5 x = x ^ 5 := by
  rw [pow5]
  ring

/-- The state columns at a row. -/
def row (v : Cell (Column R X) → F) (region offset : Nat) : State F R := fun i =>
  v ⟨region, offset, .state i⟩

section Gates

variable {v : Cell (Column R X) → F} {region offset : Nat} {rcs rcs' : State F R}

theorem fullRoundGate_iff (h : S.Pow5) (hrc : ∀ i, v ⟨region, offset, .rcA i⟩ = rcs i) :
    (∀ p ∈ fullRoundGate S (query v region offset), p = 0) ↔
      row v region (offset + 1) = fullRound S (row v region offset) rcs := by
  rw [fullRoundGate, List.forall_mem_ofFn_iff, funext_iff]
  refine forall_congr' fun i => ?_
  simp only [query_cur, query_next, pow5_eq, hrc]
  rw [sub_eq_zero, eq_comm, fullRound, Matrix.mulVec, dotProduct]
  simp only [h.sbox_eq, row, mul_comm (S.mds i _)]

/-- The words between the two rounds, given the S-box of the first. -/
theorem mid_eq (h : S.Pow5) (hrc : ∀ i, v ⟨region, offset, .rcA i⟩ = rcs i)
    (hsbox : v ⟨region, offset, .partialSbox⟩ = (row v region offset 0 + rcs 0) ^ 5)
    (i : Fin (R + 1)) :
    mid S (query v region offset) i = partRound S (row v region offset) rcs i := by
  rw [mid, partRound, Matrix.mulVec, dotProduct, Fin.sum_univ_succ, if_pos rfl]
  simp only [query_cur, hrc, hsbox, h.sbox_eq, Fin.succ_ne_zero, if_false, mul_comm (S.mds i _)]
  rfl

theorem next_eq (i : Fin (R + 1)) :
    next S (query v region offset) i = S.mdsInv.mulVec (row v region (offset + 1)) i := by
  rw [next, Matrix.mulVec, dotProduct]
  exact Finset.sum_congr rfl fun _ _ => mul_comm _ _

theorem partialRoundsGate_iff (h : S.Pow5) (hrc : ∀ i, v ⟨region, offset, .rcA i⟩ = rcs i)
    (hrc' : ∀ i, v ⟨region, offset, .rcB i⟩ = rcs' i) :
    (∀ p ∈ partialRoundsGate S (query v region offset), p = 0) ↔
      v ⟨region, offset, .partialSbox⟩ = (row v region offset 0 + rcs 0) ^ 5 ∧
        row v region (offset + 1) = partRound S (partRound S (row v region offset) rcs) rcs' := by
  have hinv : S.mds * S.mdsInv = 1 := mul_eq_one_comm.mp h.mdsInv_mul_mds
  rw [partialRoundsGate, List.forall_mem_append, List.forall_mem_cons, List.forall_mem_singleton,
    List.forall_mem_ofFn_iff, query_cur, query_cur, query_cur, query_cur, hrc, hrc', pow5_eq,
    pow5_eq, sub_eq_zero, and_assoc, eq_comm]
  refine and_congr_right fun hsbox => ?_
  simp only [mid_eq h hrc hsbox, next_eq, query_cur, hrc']
  generalize hm : partRound S (row v region offset) rcs = m
  -- The words after the S-box of the second round are the inverse of the row below.
  have hboth : (((m 0 + rcs' 0) ^ 5 - S.mdsInv.mulVec (row v region (offset + 1)) 0 = 0) ∧
      ∀ i : Fin R, m i.succ + rcs' i.succ -
        S.mdsInv.mulVec (row v region (offset + 1)) i.succ = 0) ↔
      S.mdsInv.mulVec (row v region (offset + 1)) =
        fun i => if i = 0 then S.sbox (m i + rcs' i) else m i + rcs' i := by
    rw [funext_iff, Fin.forall_fin_succ]
    simp only [sub_eq_zero, if_true, Fin.succ_ne_zero, if_false, h.sbox_eq]
    exact and_congr eq_comm (forall_congr' fun _ => eq_comm)
  rw [hboth, partRound]
  constructor
  · intro heq
    rw [← heq, Matrix.mulVec_mulVec, hinv, Matrix.one_mulVec]
  · intro heq
    rw [heq, Matrix.mulVec_mulVec, h.mdsInv_mul_mds, Matrix.one_mulVec]

theorem padAndAddGate_iff :
    (∀ p ∈ padAndAddGate (query v region 1), p = 0) ↔
      (∀ i : Fin R, row v region 2 i.castSucc =
        row v region 0 i.castSucc + row v region 1 i.castSucc) ∧
      row v region 2 (Fin.last R) = row v region 0 (Fin.last R) := by
  rw [padAndAddGate, List.forall_mem_append, List.forall_mem_ofFn_iff, List.forall_mem_singleton]
  simp only [sub_eq_zero]
  exact and_congr (forall_congr' fun i => eq_comm) eq_comm

end Gates

/-! ## Stretches of rows -/

/-- The row that assigning the cell completes. -/
def level (c : Cell (Column R X)) : Nat :=
  match c.column with
  | .state _ => c.offset
  | _ => c.offset + 1

/-- Operations that lead from the words at row `a` to the words at row `b`, as `f` does. -/
structure Stretch (S : Spec F R) (outer : Y → Gate (Column R X) F) (inst : Nat → F)
    (region a b : Nat) (f : State F R → State F R) (words : Fin (R + 1) → Word F R X)
    (result : Ops F R X Y × (Fin (R + 1) → Word F R X)) : Prop where
  cells : ∀ i, (result.2 i).cell = ⟨region, b, .state i⟩
  sound : ∀ v, Satisfies (gates S outer) inst v result.1 → row v region b = f (row v region a)
  complete : ∀ v, Follows v result.1 → (∀ i, (words i).Carried v) →
    Satisfies (gates S outer) inst v result.1 ∧ ∀ i, (result.2 i).Carried v
  unambiguous : Unambiguous result.1
  level : ∀ c ∈ assignments result.1, c.1.region = region ∧ a < level c.1 ∧ level c.1 ≤ b

section Stretches

variable {outer : Y → Gate (Column R X) F} {inst : Nat → F} {region a b c : Nat}
  {f g : State F R → State F R} {words : Fin (R + 1) → Word F R X}

theorem Stretch.refl (hw : ∀ i, (words i).cell = ⟨region, a, .state i⟩) :
    Stretch S outer inst region a a id words ([], words) where
  cells := hw
  sound _ _ := rfl
  complete _ _ h := ⟨satisfies_nil, h⟩
  unambiguous := unambiguous_of_nil rfl
  level c hc := by cases hc

theorem Stretch.trans {r r' : Ops F R X Y × (Fin (R + 1) → Word F R X)} (hab : a ≤ b)
    (hbc : b ≤ c) (h : Stretch S outer inst region a b f words r)
    (h' : Stretch S outer inst region b c g r.2 r') :
    Stretch S outer inst region a c (g ∘ f) words (r.1 ++ r'.1, r'.2) where
  cells := h'.cells
  sound v hv := by
    obtain ⟨h1, h2⟩ := satisfies_append.mp hv
    rw [h'.sound v h2, h.sound v h1]
    rfl
  complete v hv hw := by
    obtain ⟨h1, h2⟩ := follows_append.mp hv
    obtain ⟨hs, hw'⟩ := h.complete v h1 hw
    obtain ⟨hs', hw''⟩ := h'.complete v h2 hw'
    exact ⟨satisfies_append.mpr ⟨hs, hs'⟩, hw''⟩
  unambiguous := h.unambiguous.append h'.unambiguous (fun x hx => (h.level x hx).2.2)
    fun x hx => (h'.level x hx).2.1
  level := by
    intro x hx
    rw [assignments_append] at hx
    rcases List.mem_append.mp hx with hx | hx
    · have := h.level x hx
      exact ⟨this.1, this.2.1, this.2.2.trans hbc⟩
    · have := h'.level x hx
      exact ⟨this.1, hab.trans_lt this.2.1, this.2.2⟩

/-- A loop with one row a step. -/
theorem Stretch.tryFold {n : Nat} {f : Nat → State F R → State F R}
    {step : (Fin (R + 1) → Word F R X) → Nat → Ops F R X Y × (Fin (R + 1) → Word F R X)}
    (hw : ∀ i, (words i).cell = ⟨region, a, .state i⟩)
    (hstep : ∀ r < n, ∀ s : Fin (R + 1) → Word F R X,
      (∀ i, (s i).cell = ⟨region, a + r, .state i⟩) →
      Stretch S outer inst region (a + r) (a + r + 1) (f r) s (step s r)) :
    Stretch S outer inst region a (a + n)
      (fun st => (List.range n).foldl (fun s r => f r s) st) words
      (Layouter.tryFold step (List.range n) words) := by
  refine tryFold_range (fun k ops s => Stretch S outer inst region a (a + k)
    (fun st => (List.range k).foldl (fun s r => f r s) st) words (ops, s)) (.refl hw) ?_
  intro r hr ops s h
  have h' := h.trans (Nat.le_add_right _ _) (Nat.le_succ _) (hstep r hr s h.cells)
  have hfold : (fun st => (List.range (r + 1)).foldl (fun s r => f r s) st) =
      f r ∘ fun st => (List.range r).foldl (fun s r => f r s) st := by
    funext st
    rw [List.range_succ, List.foldl_append]
    rfl
  rw [hfold]
  exact h'

/-! ## Assigned rows -/

section AssignState

variable {offset : Nat} {x : State F R}

omit [Field F] in
theorem assignments_assignState :
    assignments (assignState (X := X) (Y := Y) region offset x).1 =
      List.ofFn fun i => (⟨region, offset, .state i⟩, x i) :=
  assignments_ofFn fun _ => rfl

theorem satisfies_assignState {v : Cell (Column R X) → F} :
    Satisfies (gates S outer) inst v (assignState region offset x).1 :=
  satisfies_ofFn.mpr fun _ => trivial

omit [Field F] in
theorem follows_assignState {v : Cell (Column R X) → F} :
    Follows v (assignState (Y := Y) region offset x).1 ↔ row v region offset = x := by
  rw [Follows, assignments_assignState, List.forall_mem_ofFn_iff, funext_iff]
  rfl

omit [Field F] in
theorem unambiguous_assignState :
    Unambiguous (assignState (X := X) (Y := Y) region offset x).1 := by
  refine unambiguous_ofFn (fun _ => rfl) fun i j hij => ?_
  injection hij with _ _ hcol
  exact Column.state.inj hcol

end AssignState

/-! ## The rounds -/

/-- The configuration of the parameters. -/
def Spec.config (S : Spec F R) : PoseidonConfig F R :=
  ⟨S.fullRounds / 2, S.partialRounds / 2, S.roundConstants, S.mds⟩

theorem configure_ok (h : S.Pow5) : PoseidonConfig.configure S = .ok S.config :=
  if_pos ⟨h.even_fullRounds, h.even_partialRounds⟩

section Rounds

variable {round offset : Nat} {gate : Selector Y}

theorem satisfies_round {v : Cell (Column R X) → F} :
    Satisfies (gates S outer) inst v (S.config.round region round offset gate) ↔
      (∀ p ∈ gates S outer gate (query v region offset), p = 0) ∧
        ∀ i, v ⟨region, offset, .rcA i⟩ = S.rc round i := by
  rw [PoseidonConfig.round, Satisfies, List.forall_mem_cons, List.forall_mem_ofFn_iff]
  rfl

theorem assignments_round :
    assignments (S.config.round (X := X) region round offset gate) =
      List.ofFn fun i => (⟨region, offset, .rcA i⟩, S.rc round i) := by
  rw [PoseidonConfig.round, assignments_cons_none rfl]
  exact assignments_ofFn fun _ => rfl

theorem unambiguous_round :
    Unambiguous (S.config.round (X := X) region round offset gate) := by
  rw [Unambiguous, assignments_round, List.map_ofFn, List.nodup_ofFn]
  intro i j hij
  injection hij with _ _ hcol
  exact Column.rcA.inj hcol

/-- The order in which a row assigns its columns. -/
def rank (c : Cell (Column R X)) : Nat :=
  match c.column with
  | .rcA _ => 0
  | .partialSbox => 1
  | .rcB _ => 2
  | .state _ => 3
  | .other _ => 4

omit [Field F] in
theorem carried_row {v : Cell (Column R X) → F}
    (hw : ∀ i, (words i).cell = ⟨region, offset, .state i⟩) (h : ∀ i, (words i).Carried v) :
    row v region offset = fun i => (words i).value := by
  funext i
  rw [row, ← hw i]
  exact h i

theorem fullRound_stretch (h : S.Pow5) (hw : ∀ i, (words i).cell = ⟨region, offset, .state i⟩) :
    Stretch S outer inst region offset (offset + 1) (fun s => fullRound S s (S.rc round)) words
      (S.config.fullRound region round offset words) where
  cells _ := rfl
  sound v hv := by
    obtain ⟨hround, -⟩ := satisfies_append.mp hv
    obtain ⟨hgate, hrc⟩ := satisfies_round.mp hround
    exact (fullRoundGate_iff h hrc).mp hgate
  complete v hv hcarried := by
    obtain ⟨hround, hstate⟩ := follows_append.mp hv
    rw [Follows, assignments_round, List.forall_mem_ofFn_iff] at hround
    have hnext := follows_assignState.mp hstate
    refine ⟨satisfies_append.mpr ⟨satisfies_round.mpr ⟨?_, hround⟩, satisfies_assignState⟩, ?_⟩
    · refine (fullRoundGate_iff h hround).mpr ?_
      rw [hnext, carried_row hw hcarried, fullRound]
      simp only [h.sbox_eq]
      rfl
    · exact congrFun hnext
  unambiguous := by
    refine unambiguous_round.append (μ := rank) (k := 0) unambiguous_assignState ?_ ?_
    · rw [assignments_round, List.forall_mem_ofFn_iff]
      exact fun _ => le_rfl
    · rw [assignments_assignState, List.forall_mem_ofFn_iff]
      exact fun _ => three_pos
  level := by
    rw [PoseidonConfig.fullRound, assignments_append, assignments_round, assignments_assignState,
      List.forall_mem_append, List.forall_mem_ofFn_iff, List.forall_mem_ofFn_iff]
    exact ⟨fun _ => ⟨rfl, Nat.lt_succ_self _, le_rfl⟩, fun _ => ⟨rfl, Nat.lt_succ_self _, le_rfl⟩⟩

/-- What a row of two partial rounds assigns before the next state. -/
theorem assignments_partialRow {x : F} :
    assignments (.assignAdvice ⟨region, offset, .partialSbox⟩ x ::
      List.ofFn fun i => .assignFixed (⟨region, offset, .rcB i⟩ : Cell (Column R X))
        (S.config.rc round i) : Ops F R X Y) =
      (⟨region, offset, .partialSbox⟩, x) ::
        List.ofFn fun i => (⟨region, offset, .rcB i⟩, S.rc round i) := by
  rw [assignments_cons_some rfl]
  congr 1
  exact assignments_ofFn fun _ => rfl

theorem unambiguous_partialRow {x : F} :
    Unambiguous (.assignAdvice ⟨region, offset, .partialSbox⟩ x ::
      List.ofFn fun i => .assignFixed (⟨region, offset, .rcB i⟩ : Cell (Column R X))
        (S.config.rc round i) : Ops F R X Y) := by
  rw [Unambiguous, assignments_partialRow, List.map_cons, List.map_ofFn, List.nodup_cons,
    List.nodup_ofFn]
  constructor
  · intro hmem
    obtain ⟨i, hi⟩ := List.mem_ofFn.mp hmem
    injection hi with _ _ hcol
    cases hcol
  · intro i j hij
    injection hij with _ _ hcol
    exact Column.rcB.inj hcol

theorem partialRound_stretch (h : S.Pow5) (hw : ∀ i, (words i).cell = ⟨region, offset, .state i⟩) :
    Stretch S outer inst region offset (offset + 1)
      (fun s => partRound S (partRound S s (S.rc round)) (S.rc (round + 1))) words
      (S.config.partialRound region round offset words) where
  cells _ := rfl
  sound v hv := by
    obtain ⟨hv, -⟩ := satisfies_append.mp hv
    obtain ⟨hround, hrow⟩ := satisfies_append.mp hv
    obtain ⟨hgate, hrc⟩ := satisfies_round.mp hround
    have hrc' := List.forall_mem_ofFn_iff.mp (List.forall_mem_cons.mp hrow).2
    exact ((partialRoundsGate_iff h hrc hrc').mp hgate).2
  complete v hv hcarried := by
    obtain ⟨hv, hstate⟩ := follows_append.mp hv
    obtain ⟨hround, hrow⟩ := follows_append.mp hv
    rw [Follows, assignments_round, List.forall_mem_ofFn_iff] at hround
    rw [Follows, assignments_partialRow, List.forall_mem_cons, List.forall_mem_ofFn_iff] at hrow
    have hnext := follows_assignState.mp hstate
    refine ⟨satisfies_append.mpr ⟨satisfies_append.mpr ⟨satisfies_round.mpr ⟨?_, hround⟩, ?_⟩,
      satisfies_assignState⟩, ?_⟩
    · refine (partialRoundsGate_iff h hround hrow.2).mpr ⟨?_, ?_⟩
      · rw [carried_row hw hcarried]
        exact hrow.1
      · rw [hnext, carried_row hw hcarried, partRound, partRound]
        simp only [h.sbox_eq]
        rfl
    · exact List.forall_mem_cons.mpr ⟨trivial, List.forall_mem_ofFn_iff.mpr hrow.2⟩
    · exact congrFun hnext
  unambiguous := by
    refine (unambiguous_round.append (μ := rank) (k := 0) unambiguous_partialRow ?_ ?_).append
      (μ := rank) (k := 2) unambiguous_assignState ?_ ?_
    · rw [assignments_round, List.forall_mem_ofFn_iff]
      exact fun _ => le_rfl
    · rw [assignments_partialRow, List.forall_mem_cons, List.forall_mem_ofFn_iff]
      exact ⟨one_pos, fun _ => two_pos⟩
    · rw [assignments_append, assignments_round, assignments_partialRow, List.forall_mem_append,
        List.forall_mem_cons, List.forall_mem_ofFn_iff, List.forall_mem_ofFn_iff]
      exact ⟨fun _ => Nat.zero_le _, one_le_two, fun _ => le_rfl⟩
    · rw [assignments_assignState, List.forall_mem_ofFn_iff]
      exact fun _ => Nat.lt_succ_self 2
  level := by
    rw [PoseidonConfig.partialRound, assignments_append, assignments_append, assignments_round,
      assignments_assignState, assignments_partialRow, List.forall_mem_append,
      List.forall_mem_append, List.forall_mem_cons, List.forall_mem_ofFn_iff,
      List.forall_mem_ofFn_iff, List.forall_mem_ofFn_iff]
    have hlt := Nat.lt_succ_self offset
    exact ⟨⟨fun _ => ⟨rfl, hlt, le_rfl⟩, ⟨rfl, hlt, le_rfl⟩, fun _ => ⟨rfl, hlt, le_rfl⟩⟩,
      fun _ => ⟨rfl, hlt, le_rfl⟩⟩

end Rounds

/-! ## The permutation -/

/-- The values of the words under an assignment. -/
def values (v : Cell (Column R X) → F) (words : Fin (R + 1) → Word F R X) : State F R := fun i =>
  v (words i).cell

theorem satisfies_copyState {v : Cell (Column R X) → F} :
    Satisfies (gates S outer) inst v (copyState region words).1 ↔
      row v region 0 = values v words := by
  rw [copyState, satisfies_append, satisfies_ofFn, funext_iff]
  exact and_iff_right satisfies_assignState

omit [Field F] in
theorem assignments_copyState :
    assignments (copyState (Y := Y) region words).1 =
      List.ofFn fun i => (⟨region, 0, .state i⟩, (words i).value) := by
  rw [copyState, assignments_append, assignments_assignState,
    assignments_ofFn_nil fun _ => rfl, List.append_nil]

omit [Field F] in
theorem unambiguous_copyState : Unambiguous (copyState (Y := Y) region words).1 := by
  rw [Unambiguous, assignments_copyState, List.map_ofFn, List.nodup_ofFn]
  intro i j hij
  injection hij with _ _ hcol
  exact Column.state.inj hcol

omit [Field F] in
theorem follows_copyState {v : Cell (Column R X) → F} :
    Follows v (copyState (Y := Y) region words).1 ↔
      row v region 0 = fun i => (words i).value := by
  rw [Follows, assignments_copyState, List.forall_mem_ofFn_iff, funext_iff]
  rfl

omit [Field F] in
theorem foldl_two_mul (g : Nat → State F R → State F R) (n : Nat) (st : State F R) :
    (List.range (2 * n)).foldl (fun s r => g r s) st =
      (List.range n).foldl (fun s r => g (2 * r + 1) (g (2 * r) s)) st := by
  induction n with
  | zero => rfl
  | succ n ih =>
    rw [Nat.mul_succ, List.range_succ, List.range_succ, List.range_succ, List.foldl_append,
      List.foldl_append, List.foldl_append, ih]
    rfl

/-- The rows of a permutation. -/
theorem permute_stretch (h : S.Pow5) (hw : ∀ i, (words i).cell = ⟨region, 0, .state i⟩) :
    let half := S.fullRounds / 2
    let halfPartial := S.partialRounds / 2
    let first := tryFold (fun s r => S.config.fullRound region r r s) (List.range half) words
    let mid := tryFold (fun s r => S.config.partialRound region (half + 2 * r) (half + r) s)
      (List.range halfPartial) first.2
    let last := tryFold (fun s r =>
      S.config.fullRound region (half + 2 * halfPartial + r) (half + halfPartial + r) s)
      (List.range half) mid.2
    Stretch S outer inst region 0 (half + halfPartial + half) (permute S) words
      (first.1 ++ mid.1 ++ last.1, last.2) := by
  intro half halfPartial first mid last
  have hfirst : Stretch S outer inst region 0 (0 + half)
      (fun st => (List.range half).foldl (fun s r => fullRound S s (S.rc r)) st) words first := by
    refine Stretch.tryFold hw fun r _ s hs => ?_
    rw [zero_add] at hs ⊢
    exact fullRound_stretch h hs
  rw [zero_add] at hfirst
  have hmid : Stretch S outer inst region half (half + halfPartial)
      (fun st => (List.range halfPartial).foldl (fun s r => partRound S
        (partRound S s (S.rc (half + 2 * r))) (S.rc (half + 2 * r + 1))) st) first.2 mid :=
    Stretch.tryFold hfirst.cells fun r _ s hs => partialRound_stretch h hs
  have hlast : Stretch S outer inst region (half + halfPartial) (half + halfPartial + half)
      (fun st => (List.range half).foldl
        (fun s r => fullRound S s (S.rc (half + 2 * halfPartial + r))) st) mid.2 last :=
    Stretch.tryFold hmid.cells fun r _ s hs => fullRound_stretch h hs
  have hpartial : 2 * halfPartial = S.partialRounds := by
    have := h.even_partialRounds
    omega
  have hall := (hfirst.trans (by omega) (by omega) hmid).trans (by omega) (by omega) hlast
  convert hall using 1
  funext st
  rw [permute_eq S h, ← hpartial]
  exact congrArg (fun t => (List.range half).foldl
    (fun s r => fullRound S s (S.rc (half + 2 * halfPartial + r))) t)
    (foldl_two_mul (fun r s => partRound S s (S.rc (half + r))) halfPartial _)

end Stretches

end Poseidon
