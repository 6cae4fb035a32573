import Orochimaru.Lib.Interleaving
import Orochimaru.Node.EpochProgress

/-!
# Calls side by side

The lock and the transaction keep the chains of epochs between any calls of `safe_insert` and
insertions of receivers, and a call that fails has changed nothing.
-/

namespace Node

open Transactions Zkmemory Libecvrf

/-! ## Each call alone -/

/-- Without the lock receivers are added and nothing else. -/
def chainContract : Contract Database where
  Inv := Intact
  Rely db db' := db'.randomness = db.randomness ∧ db.receiver ⊆ db'.receiver
  refl _ := ⟨rfl, List.Subset.refl _⟩
  trans h h' := ⟨h'.1.trans h.1, List.Subset.trans h.2 h'.2⟩

/-- A call that fails has not changed the tables. -/
def FailsClean {α : Type} (r : Except DbErr α) (wrote : Prop) : Prop := ∀ e, r = .error e → ¬wrote

section Calls

variable {crypto : Crypto} {context : NodeContext} {locked : Bool} {txn : Txn Write} {wrote : Prop}
  {P : Database → Prop}

theorem safe_leave {r : Except DbErr Randomness} (h : FailsClean r wrote) :
    chainContract.Safe postgres FailsClean (leave r) locked txn wrote P := h

/-- The next epoch of a receiver, from the tables as the lock found them. -/
theorem safe_writeEpoch {db : Database} {receiver : Receiver} (hreceiver : receiver ∈ db.receiver)
    {nonce : I64} (hnonce : receiver.nonce.succ = some nonce) {record : Serial → Randomness}
    (hrecord : ∀ serial, (record serial).receiverId = receiver.id ∧
      (record serial).epoch = receiver.nonce ∧
      (∀ x ∈ (db.epochs receiver.id).getLast?, (record serial).alpha = x.y) ∧
      ∃ y : Scalar, (record serial).y = Hex.encode (Scalar.b32 y)) :
    chainContract.Safe postgres FailsClean (writeEpoch receiver nonce record) true (.opened [])
      False (chainContract.Known true db) := by
  have hclean : ∀ r : Except DbErr Randomness, FailsClean r False := fun _ _ _ h => h
  refine Contract.safe_write_opened (fun e _ => safe_leave (hclean _)) ?_
  intro _ w db₁ _ hknown₁ hw
  obtain rfl := ReceiverTable.updateStatement_ok hw
  refine Contract.safe_write_opened (fun e _ => ?_) ?_
  · exact Contract.safe_commit_aborted fun r _ => by
      cases r <;> exact safe_leave (hclean _)
  intro serial w db₂ _ hknown₂ hw
  obtain rfl := RandomnessTable.insertStatement_ok hw
  refine Contract.safe_commit_opened (fun e _ => safe_leave (hclean _)) fun db₃ hinv hknown₃ => ?_
  obtain ⟨hrows, hsub⟩ :=
    chainContract.trans (chainContract.trans (hknown₁ rfl) (hknown₂ rfl)) (hknown₃ rfl)
  obtain ⟨hid, hepoch, halpha, hy⟩ := hrecord serial
  have hepochs : db₃.epochs receiver.id = db.epochs receiver.id := by
    rw [Database.epochs, hrows, Database.epochs]
  refine ⟨?_, fun h => absurd h (by decide), safe_leave fun e he => by cases he⟩
  exact hinv.insertEpoch (hsub hreceiver) (I64.val_succ hnonce) hid hepoch (hepochs ▸ halpha) hy

theorem safe_proveEpoch {db : Database} {receiver : Receiver} (hreceiver : receiver ∈ db.receiver)
    {address : String} {alpha : Scalar}
    (halpha : ∀ x ∈ (db.epochs receiver.id).getLast?, Hex.encode (Scalar.b32 alpha) = x.y) :
    chainContract.Safe postgres FailsClean (proveEpoch crypto context receiver address alpha) true
      (.opened []) False (chainContract.Known true db) := by
  intro d
  beta_reduce
  split
  · trivial
  · exact safe_leave fun _ _ h => h
  · next record hrecord =>
    split
    · trivial
    · next nonce hnonce =>
      refine safe_writeEpoch hreceiver hnonce fun serial => ?_
      obtain ⟨hid, hepoch, hrow, hy⟩ := newRecord_ok hrecord serial
      exact ⟨hid, hepoch, fun x hx => hrow.trans (halpha x hx), hy⟩

/-- Between the lock and the commit the epochs of the receiver stay as they were read. -/
theorem safe_safeInsert (username : String) (network : I64) (address : String) :
    chainContract.Safe postgres FailsClean (safeInsert crypto context username network address)
      false .closed False fun _ => True := by
  have hclean : ∀ r : Except DbErr Randomness, FailsClean r False := fun _ _ _ h => h
  refine Contract.safe_lock (Contract.safe_start (fun e => safe_leave (hclean _)) ?_)
  rw [ReceiverTable.findOwned, Prog.query_bind]
  refine Contract.safe_read_opened (fun e _ => safe_leave (hclean _)) fun db₀ _ _ => ?_
  simp only [Except.map, Store.applyAll_nil]
  split
  · next he => cases he
  · exact safe_leave (hclean _)
  next receiver hfind =>
  have hreceiver₀ := List.mem_of_find?_eq_some (Except.ok.inj hfind)
  refine Contract.safe_read_opened (fun e _ => safe_leave (hclean _)) fun db hinv hknown => ?_
  simp only [Except.map, Store.applyAll_nil]
  have hreceiver := (hknown rfl).2 hreceiver₀
  have hchain := hinv.chains receiver hreceiver
  change chainContract.Safe postgres FailsClean
    (nextAlpha (RandomnessTable.ordered (db.epochs receiver.id)).head? >>= fun alpha =>
      proveEpoch crypto context receiver address alpha) _ _ _ _
  rw [hchain.head?_ordered]
  cases hlast : (db.epochs receiver.id).getLast? with
  | none =>
    intro d
    exact safe_proveEpoch hreceiver (by simp [hlast])
  | some latest =>
    obtain ⟨y, hy⟩ := hchain.outputs latest (List.mem_of_getLast? hlast)
    have halpha : nextAlpha (some latest) = .ret y := by
      simp only [nextAlpha, hy, Scalar.b32, Hex.decodeToSlice_encode, Scalar.fromBytes_toBeBytes]
    rw [halpha, Prog.ret_bind]
    refine safe_proveEpoch hreceiver fun x hx => ?_
    rw [hlast, Option.mem_some_iff] at hx
    rw [← hx, hy]

theorem safe_insertReceiver (keyringId : I64) (name address : String) (network : I64) :
    chainContract.Safe postgres FailsClean
      (ReceiverTable.insert (ReceiverTable.newRow keyringId name address network)) false .closed
      False fun _ => True := by
  refine Contract.safe_write_closed (fun e _ _ _ h => h) fun s w db hinv _ hw => ?_
  obtain ⟨rfl, hid⟩ := ReceiverTable.insertStatement_ok hw
  exact ⟨hinv.insertReceiver hid rfl, fun _ => ⟨rfl, List.subset_append_left _ _⟩,
    fun e he => nomatch he⟩

end Calls

/-! ## Calls side by side -/

inductive Call
  | safeInsert (username : String) (network : I64) (address : String)
  | insertReceiver (keyringId : I64) (name address : String) (network : I64)

/-- A call, with whether it succeeded. -/
def Call.prog (crypto : Crypto) (context : NodeContext) : Call → Async (Except DbErr Unit)
  | .safeInsert username network address => do
    return (← Node.safeInsert crypto context username network address).map fun _ => ()
  | .insertReceiver keyringId name address network => do
    return (← ReceiverTable.insert (ReceiverTable.newRow keyringId name address network)).map
      fun _ => ()

theorem FailsClean.map {α β : Type} {f : α → β} {r : Except DbErr α} {wrote : Prop}
    (h : FailsClean r wrote) : FailsClean (r.map f) wrote := by
  intro e he
  cases r with
  | error e' => exact h e' rfl
  | ok a => cases he

theorem Call.safe (crypto : Crypto) (context : NodeContext) (call : Call) :
    chainContract.Safe postgres FailsClean (call.prog crypto context) false .closed False
      fun _ => True := by
  cases call with
  | safeInsert username network address =>
    exact Contract.safe_map (safe_safeInsert username network address) fun _ _ => .map
  | insertReceiver keyringId name address network =>
    exact Contract.safe_map (safe_insertReceiver keyringId name address network) fun _ _ => .map

/-- What a reader of the tables is promised of one receiver. -/
structure Database.Chained (db : Database) (receiver : Receiver) : Prop where
  epochs : ∃ n : Nat, receiver.nonce.val = n ∧
    ((db.epochs receiver.id).map (·.epoch.val)).Perm ((List.range n).map Int.ofNat)
  alphas : ∀ x ∈ db.epochs receiver.id, 1 ≤ x.epoch.val →
    ∃ x' ∈ db.epochs receiver.id, x'.epoch.val = x.epoch.val - 1 ∧ x.alpha = x'.y

theorem EpochChain.chained {db : Database} {receiver : Receiver}
    (h : EpochChain (db.epochs receiver.id) receiver.nonce) : db.Chained receiver := by
  refine ⟨⟨_, h.nonce, .of_eq h.epochs⟩, fun x hx hle => ?_⟩
  obtain ⟨i, hi, rfl⟩ := List.getElem_of_mem hx
  rw [h.epoch_getElem hi] at hle ⊢
  obtain ⟨j, rfl⟩ : ∃ j, i = j + 1 := ⟨i - 1, by omega⟩
  refine ⟨_, List.getElem_mem (by omega : j < _), ?_, h.links.getElem j hi⟩
  rw [h.epoch_getElem]
  omega

/-- The node from empty tables of receivers and epochs, with a call for each thread. -/
def opening {ι : Type} (crypto : Crypto) (context : NodeContext) (keyring : List Keyring)
    (calls : ι → Call) : World ι Database Write DbErr Serial Draw (Except DbErr Unit) :=
  ⟨⟨keyring, [], []⟩, fun i => .spawn ((calls i).prog crypto context)⟩

section Runs

variable {ι : Type} [DecidableEq ι] {crypto : Crypto} {context : NodeContext}
  {keyring : List Keyring} {calls : ι → Call}
  {w : World ι Database Write DbErr Serial Draw (Except DbErr Unit)} {events : List (Event ι Database)}

theorem opening_sound (hrun : Run postgres (opening crypto context keyring calls) events w) :
    Sound chainContract (fun _ => FailsClean) postgres events w := by
  have hinv : Intact ⟨keyring, [], []⟩ := ⟨List.nodup_nil, by simp, by simp⟩
  have hstart : ∀ i, (opening crypto context keyring calls).threads i =
      .spawn ((calls i).prog crypto context) := fun _ => rfl
  exact run_sound hstart hinv (fun i => (calls i).safe crypto context) hrun

/-- Every receiver's epochs are chained whatever the calls and their failures, and no step of a
call that returns an error has changed the tables. -/
theorem epochs_chained (hrun : Run postgres (opening crypto context keyring calls) events w) :
    (∀ receiver ∈ w.db.receiver, w.db.Chained receiver) ∧
      ∀ i e, (w.threads i).prog = .ret (.error e) →
        ∀ ev ∈ events, ev.thread = i → ev.after = ev.before := by
  have hsound := opening_sound hrun
  refine ⟨fun receiver hr => (hsound.inv.chains receiver hr).chained, fun i e hret => ?_⟩
  obtain ⟨wrote, hpost, hwrote⟩ := hsound.post hret
  exact hwrote (hpost e rfl)

end Runs

theorem Call.balanced (crypto : Crypto) (context : NodeContext) (call : Call) :
    (call.prog crypto context).Balanced false := by
  cases call with
  | safeInsert username network address =>
    exact (balanced_safeInsert username network address).bind fun _ => rfl
  | insertReceiver => exact fun _ => rfl

/-- A receiver is added and has two epochs; a call whose row is given a serial number again is
refused after its commit. -/
theorem epochs_chained_two :
    let address := "0x1111111111111111111111111111111111111111"
    let calls : Nat → Call := fun i =>
      if i = 0 then .insertReceiver .zero "game" address .zero else .safeInsert "alice" .zero address
    ∃ (w : World Nat _ _ _ _ _ _) (events : List _),
      Run postgres (opening smallCrypto smallContext [⟨.zero, "alice", "", "", "", 0⟩] calls) events
        w ∧
      w.db.receiver.map (·.nonce.val) = [2] ∧ w.db.randomness.length = 2 ∧
      (w.threads 3).prog = .ret (.error (.constraint "randomness_pkey")) ∧
      (∀ receiver ∈ w.db.receiver, w.db.Chained receiver) ∧
      ∀ ev ∈ events, ev.thread = 3 → ev.after = ev.before := by
  intro address calls
  let keyring : List Keyring := [⟨.zero, "alice", "", "", "", 0⟩]
  let receiver : Receiver := ReceiverTable.newRow .zero "game" address .zero ⟨.zero, 0⟩
  have hplace : Place keyring [] "alice" receiver :=
    ⟨by decide, by decide, by simp, fun _ => 17, by decide⟩
  let P (i : Nat) (db : Database) : Prop :=
    if i = 0 then db = ⟨keyring, [], []⟩
    else ∃ nonce : I64, nonce.val + 1 = i ∧ Growing keyring [] receiver db nonce
  have hstart : ∀ i, (opening smallCrypto smallContext keyring calls).threads i =
      .spawn ((calls i).prog smallCrypto smallContext) := fun _ => rfl
  obtain ⟨events, w, hrun, ⟨nonce, hnonce, hgrowing⟩, hunlocked, hrest⟩ :=
    Run.sequence postgres P hstart (fun i => (calls i).balanced smallCrypto smallContext) rfl 3
      fun i db hi hdb => by
    cases i with
    | zero =>
      obtain rfl : db = ⟨keyring, [], []⟩ := hdb
      exact ⟨fun _ => smallAnswer .zero, 0, .ok (), ⟨keyring, [receiver], []⟩, .closed, rfl,
        .zero, rfl, .start keyring [] receiver⟩
    | succ i =>
      obtain ⟨nonce, hnonce, hgrowing⟩ := hdb
      have hnonce : nonce.val + 1 = (i + 1 : Nat) := hnonce
      obtain ⟨next, row, db', hcall, hnext, hgrowing'⟩ := hgrowing.run hplace (by omega) 0
      exact ⟨_, 0, _, db', _, Store.run_bind hcall, next, by push_cast; omega, hgrowing'⟩
  have hnonce : nonce.val = 2 := add_right_cancel (b := 1) hnonce
  have hzero : I64.zero.val = 0 := rfl
  have hrefused := hgrowing.run_refused hplace (by omega) .zero ⟨le_rfl, by omega⟩ 0
  obtain ⟨events', hrun', -⟩ := hrun.call hunlocked (hrest 3 le_rfl)
    ((calls 3).balanced smallCrypto smallContext) (Store.run_bind hrefused)
  have hchained := epochs_chained hrun'
  refine ⟨_, events', hrun', ?_, ?_, by simp; rfl, hchained.1, ?_⟩
  · rw [hgrowing.receivers]
    simp [hnonce]
  · have hlength := hgrowing.chain.nonce
    change w.db.randomness.length = 2
    omega
  · exact hchained.2 3 _ (by simp; rfl)

end Node
