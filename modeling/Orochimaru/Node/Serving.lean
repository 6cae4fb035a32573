import Orochimaru.Node.ServiceProgress

/-!
# The service at work

What one request changes, what any requests side by side change, and what they cannot change
without the key of `orand`.
-/

namespace Node

open Transactions Zkmemory Libecvrf QuickResponse

/-! ## One request -/

section Frame

variable {lib : Libraries} {context : NodeContext} {req : Request} {db : Database}

/-- A token names one user. -/
theorem Vouches.unique {authorization : Option (List Byte)} {db' : Database} {user user' : String}
    (h : Vouches lib authorization db user) (h' : Vouches lib authorization db' user') :
    user = user' := by
  obtain ⟨jsonWebToken, jwtPayload, _, _, h⟩ := h
  obtain ⟨jsonWebToken', jwtPayload', _, _, h'⟩ := h'
  obtain rfl := Option.some.inj (h.header.symm.trans h'.header)
  obtain ⟨now, hdecode⟩ := h.decoded
  obtain ⟨now', hdecode'⟩ := h'.decoded
  obtain ⟨_, payload, _, message, htoken, hpayload⟩ := decodePayload_ok_iff.mp hdecode
  obtain ⟨_, payload', _, message', htoken', hpayload'⟩ := decodePayload_ok_iff.mp hdecode'
  obtain ⟨rfl, -⟩ := htoken.unique htoken'
  obtain rfl := Option.some.inj (hpayload.decoded.symm.trans hpayload'.decoded)
  obtain rfl := Option.some.inj (hpayload.read.symm.trans hpayload'.read)
  exact h.named.symm.trans h'.named

/-- What a user other than `orand` may do: one private epoch of a receiver of its own. -/
structure Framed (user : String) (db db' : Database) : Prop where
  keyring : db'.keyring = db.keyring
  epoch : ∃ (before : List Receiver) (receiver : Receiver) (after : List Receiver) (nonce : I64)
    (row : Randomness), db.receiver = before ++ receiver :: after ∧
    db'.receiver = before ++ { receiver with nonce } :: after ∧
    nonce.val = receiver.nonce.val + 1 ∧ receiver.keyringId ∈ db.keyringIds user ∧
    receiver.address ≠ zeroAddress ∧ db'.randomness = db.randomness ++ [row] ∧
    row.receiverId = receiver.id ∧ row.epoch = receiver.nonce

/-- Where ids are unique, an update changes one row. -/
theorem map_update {rows : List Receiver} {receiver : Receiver}
    (hids : (rows.map (·.id)).Nodup) (hreceiver : receiver ∈ rows) (nonce : I64) :
    ∃ before after, rows = before ++ receiver :: after ∧
      (rows.map fun r => if r.id = receiver.id then { r with nonce } else r) =
        before ++ { receiver with nonce } :: after := by
  obtain ⟨before, after, rfl⟩ := List.append_of_mem hreceiver
  refine ⟨before, after, rfl, ?_⟩
  rw [List.map_append, List.map_cons, List.nodup_append, List.nodup_cons] at hids
  obtain ⟨-, ⟨hafter, -⟩, hbefore⟩ := hids
  have hsame : ∀ {r : Receiver}, r.id ≠ receiver.id →
      (if r.id = receiver.id then { r with nonce } else r) = r := fun h => if_neg h
  rw [List.map_append, List.map_cons, if_pos rfl]
  congr 1
  · refine (List.map_congr_left fun r hr => hsame ?_).trans (List.map_id _)
    exact hbefore r.id (List.mem_map_of_mem hr) receiver.id List.mem_cons_self
  · congr 1
    refine (List.map_congr_left fun r hr => hsame fun heq => hafter ?_).trans (List.map_id _)
    exact heq ▸ List.mem_map_of_mem hr

theorem NextEpoch.row {crypto : Crypto} {receiver : Receiver} {row : Randomness}
    (h : NextEpoch crypto context db receiver row) :
    row.receiverId = receiver.id ∧ row.epoch = receiver.nonce := by
  obtain ⟨alpha, draws, record, serial, -, hrecord, rfl⟩ := h.proved
  exact ⟨(newRecord_ok hrecord serial).1, (newRecord_ok hrecord serial).2.1⟩

theorem Effect.framed {user : String} {m : JSONRPCMethod} {locked : Bool} {json : Json}
    {db' : Database} (hids : (db.receiver.map (·.id)).Nodup) (huser : user ≠ orandKeyringName)
    (h : Effect lib context user db m locked json db') : Framed user db db' := by
  cases h with
  | addUser hadmin => exact absurd hadmin huser
  | addReceiver hadmin => exact absurd hadmin huser
  | @newEpoch _ _ receiver nonce row hreceiver haddress _ howned hpublic hnonce hrow =>
    obtain ⟨before, after, hsplit, hupdate⟩ := map_update hids hreceiver nonce
    refine ⟨rfl, before, receiver, after, nonce, row, hsplit, hupdate, I64.val_succ hnonce, howned,
      ?_, rfl, hrow.row⟩
    exact fun hzero => huser (hpublic (haddress ▸ hzero))

theorem preserved_true : Preserved lib context fun _ => True := fun _ _ _ _ _ _ _ _ => trivial

theorem preserved_grows (start : Database) : Preserved lib context (Grows start) :=
  fun _ _ _ _ _ _ h heffect => h.trans heffect.grows

theorem Preserved.and {Inv Inv' : Database → Prop} (h : Preserved lib context Inv)
    (h' : Preserved lib context Inv') : Preserved lib context fun db => Inv db ∧ Inv' db :=
  fun _ _ _ _ _ _ hdb heffect => ⟨h hdb.1 heffect, h' hdb.2 heffect⟩

/-- One request alone changes nothing, or what its method does for the user of its token. -/
theorem orand_effect (lib : Libraries) (context : NodeContext) (req : Request) (db : Database)
    (env : Nat → Answer DbErr Serial Draw) (n : Nat) :
    let db' := (postgres.run env (orand lib context req) n db .closed).2.1
    db' = db ∨ ∃ user m locked json, Vouches lib req.authorization db user ∧
      Effect lib context user db m locked json db' := by
  have hcovers : (serviceTerms fun _ => True).Covers (requestPromise lib context req) :=
    requestPromise_covers preserved_true
  obtain ⟨later, hpromised, hleads, -⟩ :=
    keeps_orand.run hcovers trivial trivial .nil env n
  rw [List.nil_append] at hpromised
  cases hpromised with
  | nil => exact .inl hleads
  | @snoc history db₁ db₂ locked _ hstep =>
    obtain ⟨user, m, -, rfl, hvouches, json, heffect⟩ := hstep
    obtain ⟨rfl, rfl⟩ : db₁ = db ∧ _ = db₂ := hleads
    exact .inr ⟨user, m, locked, json, hvouches, heffect⟩

/-- **The frame of a request.** Whatever its body and whatever fails, a request changes nothing
unless its token verifies under the stored secret of the user it names; for a user other than
`orand` all it may do is one private epoch. -/
theorem orand_frame (hids : (db.receiver.map (·.id)).Nodup)
    (env : Nat → Answer DbErr Serial Draw) (n : Nat) :
    let db' := (postgres.run env (orand lib context req) n db .closed).2.1
    db' = db ∨ ∃ user, Vouches lib req.authorization db user ∧
      (user = orandKeyringName ∨ Framed user db db') := by
  rcases orand_effect lib context req db env n with hsame | ⟨user, m, locked, json, hvouches, heffect⟩
  · exact .inl hsame
  · refine .inr ⟨user, hvouches, ?_⟩
    by_cases huser : user = orandKeyringName
    · exact .inl huser
    · exact .inr (heffect.framed hids huser)

/-- `alice` adds an epoch of her game. -/
theorem run_orand_first (secret : String) :
    let r := postgres.run (fun _ => smallAnswer .zero)
      (orand (smallLibraries "alice" gamePayload) smallContext (smallRequest "")) 0
      (aliceTables secret) .closed
    r.1 = some (ok "[]") ∧ r.2.1.randomness.length = 1 := by
  obtain ⟨next, db', hrun, hnext, hplayed⟩ :=
    run_orand_alice (.start (aliceTables secret).keyring [publicReceiver] game) (by decide) 0
  have hlength := hplayed.chain.nonce
  have hzero : I64.zero.val = 0 := rfl
  have hstart : aliceTables secret =
      ⟨(aliceTables secret).keyring, [publicReceiver] ++ [{ game with nonce := .zero }], []⟩ := rfl
  intro r
  rw [← hstart] at hrun
  have hr : r = (some (ok "[]"), db', .closed) := hrun
  rw [hr]
  exact ⟨rfl, by change db'.randomness.length = 1; omega⟩

theorem nodup_aliceTables (secret : String) : ((aliceTables secret).receiver.map (·.id)).Nodup := by
  change ([publicReceiver, game].map (·.id)).Nodup
  decide

theorem orand_frame_small :
    let lib := smallLibraries "alice" gamePayload
    let db' := (postgres.run (fun _ => smallAnswer .zero) (orand lib smallContext (smallRequest "")) 0
      (aliceTables "01") .closed).2.1
    db'.randomness.length = 1 ∧ (db' = aliceTables "01" ∨
      ∃ user, Vouches lib (smallRequest "").authorization (aliceTables "01") user ∧
        (user = orandKeyringName ∨ Framed user (aliceTables "01") db')) :=
  ⟨(run_orand_first "01").2, orand_frame (nodup_aliceTables "01") (fun _ => smallAnswer .zero) 0⟩

/-- An epoch of a receiver is none of a public one. -/
theorem Framed.public {user : String} {db' : Database} (hids : (db.receiver.map (·.id)).Nodup)
    (h : Framed user db db') {r : Receiver} (hr : r ∈ db.receiver) (hpublic : r.address = zeroAddress) :
    r ∈ db'.receiver ∧ db'.epochs r.id = db.epochs r.id := by
  obtain ⟨before, receiver, after, nonce, row, hrows, hrows', -, -, haddress, hrandomness, hid, -⟩ :=
    h.epoch
  have hreceiver : receiver ∈ db.receiver := by
    rw [hrows]
    exact List.mem_append_right _ List.mem_cons_self
  have hne : receiver.id ≠ r.id := by
    intro heq
    obtain rfl := List.inj_on_of_nodup_map hids hreceiver hr heq
    exact haddress hpublic
  constructor
  · rw [hrows, List.mem_append, List.mem_cons] at hr
    rw [hrows', List.mem_append, List.mem_cons]
    rcases hr with hr | rfl | hr
    · exact .inl hr
    · exact absurd rfl hne
    · exact .inr (.inr hr)
  · rw [Database.epochs, hrandomness, List.filter_append, List.filter_cons_of_neg, List.filter_nil,
      List.append_nil, Database.epochs]
    simpa [hid] using hne

/-- **Authorization.** A request authenticated for a user other than `orand` changes nothing, or
adds one epoch of one private receiver of this user; the public receivers keep their nonces and
epochs. -/
theorem orand_authorized {user : String} (hids : (db.receiver.map (·.id)).Nodup)
    (huser : user ≠ orandKeyringName) (hvouches : Vouches lib req.authorization db user)
    (env : Nat → Answer DbErr Serial Draw) (n : Nat) :
    let db' := (postgres.run env (orand lib context req) n db .closed).2.1
    (db' = db ∨ Framed user db db') ∧ ∀ r ∈ db.receiver, r.address = zeroAddress →
      r ∈ db'.receiver ∧ db'.epochs r.id = db.epochs r.id := by
  intro db'
  have hframed : db' = db ∨ Framed user db db' := by
    rcases orand_effect lib context req db env n with
      hsame | ⟨user', m, locked, json, hvouches', heffect⟩
    · exact .inl hsame
    · obtain rfl := hvouches.unique hvouches'
      exact .inr (heffect.framed hids huser)
  refine ⟨hframed, fun r hr hpublic => ?_⟩
  rcases hframed with hsame | hframed
  · rw [hsame]
    exact ⟨hr, rfl⟩
  · exact hframed.public hids hr hpublic

theorem alice_vouched (secret : String) : Vouches (smallLibraries "alice" gamePayload)
    (smallRequest "").authorization (aliceTables secret) "alice" := by
  refine ⟨"h.p.s", ⟨"alice", 0, 1, 9⟩, ⟨.max, "alice", "00", "0", "", 0⟩, ⟨[0]⟩, by decide, ⟨5, rfl⟩,
    rfl, ?_, rfl, rfl⟩
  rw [aliceTables, List.find?_cons_of_neg (by simp), List.find?_cons_of_pos (by simp)]

theorem orand_authorized_alice :
    let lib := smallLibraries "alice" gamePayload
    let db' := (postgres.run (fun _ => smallAnswer .zero) (orand lib smallContext (smallRequest "")) 0
      (aliceTables "01") .closed).2.1
    db'.randomness.length = 1 ∧ (db' = aliceTables "01" ∨ Framed "alice" (aliceTables "01") db') ∧
      ∀ r ∈ (aliceTables "01").receiver, r.address = zeroAddress →
        r ∈ db'.receiver ∧ db'.epochs r.id = (aliceTables "01").epochs r.id :=
  ⟨(run_orand_first "01").2, orand_authorized (nodup_aliceTables "01") (by decide)
    (alice_vouched "01") (fun _ => smallAnswer .zero) 0⟩

end Frame

/-! ## Any requests -/

/-- The node with a request for each thread. -/
def serving {ι : Type} (lib : Libraries) (context : NodeContext) (db : Database)
    (requests : ι → Request) : World ι Database Write DbErr Serial Draw Response :=
  ⟨db, fun i => .spawn (orand lib context (requests i))⟩

theorem serving_threads {ι : Type} (lib : Libraries) (context : NodeContext) (db : Database)
    (requests : ι → Request) (i : ι) : (serving lib context db requests).threads i =
      .spawn (orand lib context (requests i)) := rfl

/-! ### Two runs -/

/-- `orand` with the public receiver of network 0. -/
def orandTables : Database := ⟨[⟨.zero, "orand", "00", "", "", 0⟩], [publicReceiver], []⟩

/-- `alice` adds epochs of her game, one request after the other. -/
theorem alice_plays (secret : String) (requests : Nat → Request) {n : Nat} (hn : n ≤ 21)
    (hrequests : ∀ i, i < n → requests i = smallRequest "") :
    ∃ events w, ∃ nonce : I64, Run postgres (serving (smallLibraries "alice" gamePayload)
        smallContext (aliceTables secret) requests) events w ∧
      Played secret w.db nonce ∧ (w.db.epochs game.id).length = n ∧
      (∀ j, (w.threads j).locked = false) ∧
      ∀ i, n ≤ i → w.threads i =
        .spawn (orand (smallLibraries "alice" gamePayload) smallContext (requests i)) := by
  let P (i : Nat) (db : Database) : Prop := ∃ nonce : I64, nonce.val = i ∧ Played secret db nonce
  have hzero : P 0 (aliceTables secret) :=
    ⟨.zero, rfl, .start (aliceTables secret).keyring [publicReceiver] game⟩
  have hstart := serving_threads (smallLibraries "alice" gamePayload) smallContext
    (aliceTables secret) requests
  obtain ⟨events, w, hrun, ⟨nonce, hnonce, hplayed⟩, hunlocked, hrest⟩ :=
    Run.sequence postgres P hstart (fun i => balanced_orand (requests i)) hzero n
      fun i db hi hdb => by
    obtain ⟨nonce, hnonce, hplayed⟩ := hdb
    obtain ⟨next, db', hcall, hnext, hplayed'⟩ := run_orand_alice hplayed (by omega) 0
    rw [← hrequests i hi] at hcall
    exact ⟨_, 0, _, db', _, hcall, next, by push_cast; omega, hplayed'⟩
  have hlength := hplayed.chain.nonce
  exact ⟨events, w, nonce, hrun, hplayed, by rw [hplayed.epochs]; omega, hunlocked, hrest⟩

/-! ### What holds of all runs -/

section Outside

variable {ι : Type} {lib : Libraries} {requests : ι → Request} {db : Database}

/-- What requests that do not have the key of `orand` leave of the tables they start from. -/
structure Outside (lib : Libraries) (requests : ι → Request) (start db : Database) : Prop where
  keyring : db.keyring = start.keyring
  receiver : db.receiver.map Receiver.identity = start.receiver.map Receiver.identity
  publicReceiver : (db.receiver.filter fun r => r.address = zeroAddress) =
    start.receiver.filter fun r => r.address = zeroAddress
  randomness : ∃ rows, db.randomness = start.randomness ++ rows ∧ ∀ row ∈ rows,
    ∃ i user, ∃ receiver ∈ start.receiver, Vouches lib (requests i).authorization start user ∧
      receiver.keyringId ∈ start.keyringIds user ∧ receiver.address ≠ zeroAddress ∧
      row.receiverId = receiver.id

theorem Outside.refl (lib : Libraries) (requests : ι → Request) (start : Database) :
    Outside lib requests start start := ⟨rfl, rfl, rfl, [], by simp, by simp⟩

theorem Outside.vouches {start : Database} (h : Outside lib requests start db) {user : String}
    {i : ι} (hvouches : Vouches lib (requests i).authorization db user) :
    Vouches lib (requests i).authorization start user := by
  obtain ⟨jsonWebToken, jwtPayload, userRecord, jwt, hauth⟩ := hvouches
  exact ⟨jsonWebToken, jwtPayload, userRecord, jwt, { hauth with found := h.keyring ▸ hauth.found }⟩

theorem Outside.framed {start db' : Database} (h : Outside lib requests start db) {user : String}
    {i : ι} (hvouches : Vouches lib (requests i).authorization start user)
    (hframed : Framed user db db') : Outside lib requests start db' := by
  obtain ⟨before, receiver, after, nonce, row, hrows, hrows', -, howned, haddress, hrandomness,
    hid, -⟩ := hframed.epoch
  refine ⟨hframed.keyring.trans h.keyring, ?_, ?_, ?_⟩
  · rw [← h.receiver, hrows, hrows']
    simp only [List.map_append, List.map_cons]
    rfl
  · rw [← h.publicReceiver, hrows, hrows', List.filter_append, List.filter_append,
      List.filter_cons_of_neg (by simpa using haddress),
      List.filter_cons_of_neg (by simpa using haddress)]
  · obtain ⟨rows, hrows₀, hall⟩ := h.randomness
    refine ⟨rows ++ [row], by rw [hrandomness, hrows₀, List.append_assoc], fun x hx => ?_⟩
    rcases List.mem_append.mp hx with hx | hx
    · exact hall x hx
    · rw [List.mem_singleton.mp hx]
      have hmem : receiver.identity ∈ start.receiver.map Receiver.identity := by
        rw [← h.receiver, hrows]
        exact List.mem_map_of_mem (List.mem_append_right _ List.mem_cons_self)
      obtain ⟨receiver₀, hreceiver₀, hsame⟩ := List.mem_map.mp hmem
      obtain ⟨hid₀, hkeyring₀, -, haddress₀, -⟩ := Receiver.identity_eq_iff.mp hsame
      refine ⟨i, user, receiver₀, hreceiver₀, hvouches, ?_, haddress₀ ▸ haddress, hid.trans hid₀.symm⟩
      rw [hkeyring₀, Database.keyringIds, ← h.keyring]
      exact howned

end Outside

section Runs

variable {ι : Type} [DecidableEq ι] {lib : Libraries} {context : NodeContext} {db : Database}
  {requests : ι → Request} {w : World ι Database Write DbErr Serial Draw Response}
  {events : List (Event ι Database)} {Inv : Database → Prop}

theorem serving_kept (hInv : Preserved lib context Inv) (hinv : Inv db)
    (hrun : Run postgres (serving lib context db requests) events w) :
    Kept (serviceTerms Inv) (fun i => requestPromise lib context (requests i))
      (fun i => RequestAnswered Inv lib context (requests i)) postgres events w :=
  run_kept (fun _ => requestPromise_covers hInv) (serving_threads lib context db requests) hinv
    (fun _ => keeps_orand) hrun

end Runs

end Node
