import Orochimaru.Node.SafeInsert

/-!
# The chain of epochs

The rows of a receiver are numbered from zero up to its nonce, each with the output of the one
before as its input. A new receiver and a new epoch keep the tables so.
-/

namespace Node

open Transactions Zkmemory Libecvrf

def Database.epochs (db : Database) (id : I64) : List Randomness :=
  db.randomness.filter fun x => x.receiverId = id

/-- The rows of one receiver, the oldest first. -/
structure EpochChain (rows : List Randomness) (nonce : I64) : Prop where
  epochs : rows.map (·.epoch.val) = (List.range rows.length).map Int.ofNat
  nonce : nonce.val = rows.length
  links : rows.IsChain fun x x' => x'.alpha = x.y
  outputs : ∀ x ∈ rows, ∃ y : Scalar, x.y = Hex.encode (Scalar.b32 y)

namespace EpochChain

variable {rows : List Randomness} {nonce : I64}

theorem nil (h : nonce.val = 0) : EpochChain [] nonce := ⟨rfl, h, .nil, by simp⟩

theorem epoch_getElem (h : EpochChain rows nonce) {i : Nat} (hi : i < rows.length) :
    rows[i].epoch.val = i := by
  have hget := congrArg (fun l => l[i]?) h.epochs
  simpa [hi] using hget

/-- The next epoch. -/
theorem concat (h : EpochChain rows nonce) {nonce' : I64} (hnonce : nonce'.val = nonce.val + 1)
    {row : Randomness} (hepoch : row.epoch = nonce) (halpha : ∀ x ∈ rows.getLast?, row.alpha = x.y)
    (hy : ∃ y : Scalar, row.y = Hex.encode (Scalar.b32 y)) :
    EpochChain (rows ++ [row]) nonce' := by
  refine ⟨?_, ?_, ?_, ?_⟩
  · rw [List.map_append, h.epochs, List.length_append, List.length_singleton, List.range_succ,
      List.map_append, List.map_singleton, List.map_singleton, hepoch, h.nonce]
    rfl
  · rw [hnonce, h.nonce, List.length_append, List.length_singleton]
    rfl
  · refine List.isChain_append.mpr ⟨h.links, .singleton row, fun x hx x' hx' => ?_⟩
    cases hx'
    exact halpha x hx
  · intro x hx
    rcases List.mem_append.mp hx with hx | hx
    · exact h.outputs x hx
    · rw [List.mem_singleton.mp hx]
      exact hy

theorem ordered_pairwise (rows : List Randomness) :
    (RandomnessTable.ordered rows).Pairwise fun x x' => x'.epoch.val ≤ x.epoch.val := by
  refine (List.pairwise_mergeSort ?_ ?_ rows).imp of_decide_eq_true
  · simp only [decide_eq_true_eq]
    omega
  · simp only [Bool.or_eq_true, decide_eq_true_eq]
    omega

/-- The row with the highest epoch is the last one. -/
theorem head?_ordered (h : EpochChain rows nonce) :
    (RandomnessTable.ordered rows).head? = rows.getLast? := by
  have hmem : ∀ x, x ∈ RandomnessTable.ordered rows ↔ x ∈ rows := fun x => List.mem_mergeSort
  have hsorted := ordered_pairwise rows
  cases hhead : RandomnessTable.ordered rows with
  | nil =>
    have hrows : rows = [] := List.eq_nil_iff_forall_not_mem.mpr fun x hx => by
      simpa [hhead] using (hmem x).mpr hx
    rw [hrows]
    rfl
  | cons x rest =>
    rw [hhead, List.pairwise_cons] at hsorted
    have hx : x ∈ rows := (hmem x).mp (hhead ▸ List.mem_cons_self)
    obtain ⟨i, hi, rfl⟩ := List.getElem_of_mem hx
    have hlast : rows.length - 1 < rows.length := by omega
    have hle : rows[rows.length - 1].epoch.val ≤ rows[i].epoch.val := by
      have hin := (hmem _).mpr (List.getElem_mem hlast)
      rw [hhead, List.mem_cons] at hin
      rcases hin with heq | hin
      · rw [heq]
      · exact hsorted.1 _ hin
    rw [h.epoch_getElem hlast, h.epoch_getElem hi] at hle
    obtain rfl : i = rows.length - 1 := by omega
    rw [List.head?_cons, List.getLast?_eq_getElem?, List.getElem?_eq_getElem hlast]

end EpochChain

/-! ## The invariant of the tables -/

structure Intact (db : Database) : Prop where
  ids : (db.receiver.map (·.id)).Nodup
  linked : ∀ x ∈ db.randomness, ∃ r ∈ db.receiver, r.id = x.receiverId
  chains : ∀ r ∈ db.receiver, EpochChain (db.epochs r.id) r.nonce

namespace Intact

variable {db : Database}

theorem eq_of_id (h : Intact db) {r r' : Receiver} (hr : r ∈ db.receiver) (hr' : r' ∈ db.receiver)
    (hid : r.id = r'.id) : r = r' := List.inj_on_of_nodup_map h.ids hr hr' hid

/-- A new receiver has no epochs. -/
theorem insertReceiver (h : Intact db) {row : Receiver} (hid : ∀ r ∈ db.receiver, r.id ≠ row.id)
    (hnonce : row.nonce.val = 0) : Intact (Database.apply (.insertReceiver row) db) := by
  refine ⟨?_, fun x hx => ?_, fun r hr => ?_⟩
  · rw [Database.apply, List.map_append]
    refine List.nodup_append.mpr ⟨h.ids, List.nodup_singleton _, fun id hmem id' hmem' => ?_⟩
    obtain ⟨r, hr, rfl⟩ := List.mem_map.mp hmem
    rw [List.mem_singleton.mp hmem']
    exact hid r hr
  · obtain ⟨r, hr, hx⟩ := h.linked x hx
    exact ⟨r, List.mem_append_left _ hr, hx⟩
  · rcases List.mem_append.mp hr with hr | hr
    · exact h.chains r hr
    · rw [List.mem_singleton.mp hr]
      have hnone : Database.epochs (Database.apply (.insertReceiver row) db) row.id = [] := by
        refine List.filter_eq_nil_iff.mpr fun x hx => ?_
        obtain ⟨r, hr, hlink⟩ := h.linked x hx
        rw [decide_eq_true_eq, ← hlink]
        exact hid r hr
      rw [hnone]
      exact .nil hnonce

/-- A new epoch goes on with its receiver's chain and leaves those of the others. -/
theorem insertEpoch (h : Intact db) {receiver : Receiver} (hreceiver : receiver ∈ db.receiver)
    {nonce : I64} (hnonce : nonce.val = receiver.nonce.val + 1) {row : Randomness}
    (hid : row.receiverId = receiver.id) (hepoch : row.epoch = receiver.nonce)
    (halpha : ∀ x ∈ (db.epochs receiver.id).getLast?, row.alpha = x.y)
    (hy : ∃ y : Scalar, row.y = Hex.encode (Scalar.b32 y)) :
    Intact (postgres.applyAll [.updateNonce receiver.id nonce, .insertRandomness row] db) := by
  let update (r : Receiver) : Receiver := if r.id = receiver.id then { r with nonce } else r
  have hupdate : ∀ r, (update r).id = r.id := by
    intro r
    simp only [update]
    split <;> rfl
  have hepochs : ∀ id, Database.epochs
      (postgres.applyAll [.updateNonce receiver.id nonce, .insertRandomness row] db) id =
      db.epochs id ++ if receiver.id = id then [row] else [] := by
    intro id
    change List.filter _ (db.randomness ++ [row]) = _
    simp only [List.filter_append, List.filter_singleton, hid, Database.epochs, Bool.cond_decide]
  refine ⟨?_, fun x hx => ?_, fun r' hr' => ?_⟩
  · have hids : (db.receiver.map update).map (·.id) = db.receiver.map (·.id) := by
      rw [List.map_map]
      exact List.map_congr_left fun r _ => hupdate r
    change ((db.receiver.map update).map (·.id)).Nodup
    rw [hids]
    exact h.ids
  · have hlink : ∃ r ∈ db.receiver, r.id = x.receiverId := by
      rcases List.mem_append.mp hx with hx | hx
      · exact h.linked x hx
      · rw [List.mem_singleton.mp hx, hid]
        exact ⟨receiver, hreceiver, rfl⟩
    obtain ⟨r, hr, hlink⟩ := hlink
    exact ⟨update r, List.mem_map_of_mem hr, (hupdate r).trans hlink⟩
  · obtain ⟨r, hr, rfl⟩ := List.mem_map.mp hr'
    change EpochChain (Database.epochs _ (update r).id) (update r).nonce
    rw [hupdate, hepochs]
    by_cases hr' : r.id = receiver.id
    · obtain rfl := h.eq_of_id hr hreceiver hr'
      simp only [update, if_true]
      exact (h.chains r hr).concat hnonce hepoch halpha hy
    · simp only [update, if_neg hr', if_neg (Ne.symm hr'), List.append_nil]
      exact h.chains r hr

end Intact

end Node
