import Orochimaru.Lib.Observers
import Orochimaru.Node.Serving

/-!
# What users cannot learn

Users other than `orand` are answered the same whatever the secrets of the other users are. So no
order of their requests and no failure tells them anything about these.
-/

namespace Node

open Transactions Zkmemory Libecvrf QuickResponse

/-! ## Tables with the secrets of some users -/

section Masks

variable (users : String → Prop) [DecidablePred users]

/-- A row without the secrets of a user who is none of `users`. -/
def Keyring.mask (k : Keyring) : Keyring :=
  if users k.username then k else { k with hmacSecret := "", secretKey := "" }

/-- The same tables but for the secrets of other users. -/
structure Hidden (db db' : Database) : Prop where
  keyring : db.keyring.map (·.mask users) = db'.keyring.map (·.mask users)
  receiver : db.receiver = db'.receiver
  randomness : db.randomness = db'.randomness

variable {users}

@[simp] theorem Keyring.mask_id (k : Keyring) : (k.mask users).id = k.id := by
  rw [mask]
  split <;> rfl

@[simp] theorem Keyring.mask_username (k : Keyring) : (k.mask users).username = k.username := by
  rw [mask]
  split <;> rfl

@[simp] theorem Keyring.toJson_mask (lib : Libraries) (k : Keyring) :
    (k.mask users).toJson lib = k.toJson lib := by
  rw [mask]
  split <;> rfl

theorem Keyring.mask_of_users {k : Keyring} (h : users k.username) : k.mask users = k := if_pos h

namespace Hidden

variable {db db' : Database}

/-- What does not depend on the secrets is the same. -/
theorem map_keyring {β : Type} (h : Hidden users db db') {f : Keyring → β}
    (hf : ∀ k : Keyring, f (k.mask users) = f k) : db.keyring.map f = db'.keyring.map f := by
  have hrows := congrArg (List.map f) h.keyring
  simpa [hf, Function.comp_def] using hrows

theorem any_keyring (h : Hidden users db db') {p : Keyring → Bool}
    (hp : ∀ k : Keyring, p (k.mask users) = p k) : db.keyring.any p = db'.keyring.any p := by
  have hrows := congrArg (List.any · id) (h.map_keyring hp)
  simpa using hrows

theorem filter_keyring (h : Hidden users db db') {p : Keyring → Bool}
    (hp : ∀ k : Keyring, p (k.mask users) = p k) :
    (db.keyring.filter p).map (·.mask users) = (db'.keyring.filter p).map (·.mask users) := by
  have hrows := congrArg (List.filter p) h.keyring
  simpa [List.filter_map, hp, Function.comp_def] using hrows

theorem find_keyring (h : Hidden users db db') {p : Keyring → Bool}
    (hp : ∀ k : Keyring, p (k.mask users) = p k) :
    (db.keyring.find? p).map (·.mask users) = (db'.keyring.find? p).map (·.mask users) := by
  have hrows := congrArg (List.find? p) h.keyring
  simpa [List.find?_map, hp, Function.comp_def] using hrows

theorem keyringIds (h : Hidden users db db') (username : String) :
    db.keyringIds username = db'.keyringIds username := by
  have hrows := h.filter_keyring (p := fun k => k.username = username) (by simp)
  have hids := congrArg (List.map fun k : Keyring => k.id) hrows
  simpa [Database.keyringIds, Function.comp_def] using hids

/-- One of the users is found with its secret. -/
theorem findByName (h : Hidden users db db') {username : String} (husers : users username) :
    db.keyring.find? (fun k => k.username = username) =
      db'.keyring.find? fun k => k.username = username := by
  have hsame : ∀ db : Database, (db.keyring.find? fun k => k.username = username).map
      (·.mask users) = db.keyring.find? fun k => k.username = username := by
    intro db
    cases hfind : db.keyring.find? fun k => k.username = username with
    | none => rfl
    | some k =>
      have hname : k.username = username := by simpa using List.find?_some hfind
      exact congrArg some (Keyring.mask_of_users (hname ▸ husers))
  rw [← hsame db, ← hsame db']
  exact h.find_keyring (by simp)

theorem apply (h : Hidden users db db') (w : Write) :
    Hidden users (Database.apply w db) (Database.apply w db') := by
  obtain ⟨hkeyring, hreceiver, hrandomness⟩ := h
  cases w with
  | insertKeyring row =>
    refine ⟨?_, hreceiver, hrandomness⟩
    simp only [Database.apply, List.map_append, hkeyring]
  | insertReceiver row => exact ⟨hkeyring, congrArg (· ++ [row]) hreceiver, hrandomness⟩
  | deleteReceiver id ids => exact ⟨hkeyring, congrArg (List.filter _) hreceiver, hrandomness⟩
  | updateNonce id nonce => exact ⟨hkeyring, congrArg (List.map _) hreceiver, hrandomness⟩
  | insertRandomness row => exact ⟨hkeyring, hreceiver, congrArg (· ++ [row]) hrandomness⟩

end Hidden

end Masks

/-! ## Methods -/

section Methods

variable {users : String → Prop} [DecidablePred users] {lib : Libraries} {context : NodeContext}

/-- A program that does not depend on the secrets of other users. -/
abbrev Blind {α : Type} (users : String → Prop) [DecidablePred users] (p : Async α) : Prop :=
  Indistinct (Hidden users) (fun _ => True) p p

theorem blind_leave (r : Except DbErr Randomness) :
    Blind users (leave r) := .unlock (.ret trivial)

theorem blind_writeEpoch (receiver : Receiver) (nonce : I64) (record : Serial → Randomness) :
    Blind users (writeEpoch receiver nonce record) := by
  have hupdate : ∀ s (db db' : Database), Hidden users db db' →
      ReceiverTable.updateStatement receiver.id nonce s db =
        ReceiverTable.updateStatement receiver.id nonce s db' := by
    intro s db db' hdb
    rw [ReceiverTable.updateStatement, ReceiverTable.updateStatement, hdb.receiver]
  have hinsert : ∀ s (db db' : Database), Hidden users db db' →
      RandomnessTable.insertStatement record s db =
        RandomnessTable.insertStatement record s db' := by
    intro s db db' hdb
    rw [RandomnessTable.insertStatement, RandomnessTable.insertStatement, hdb.receiver,
      hdb.randomness, hdb.any_keyring (by simp)]
  refine .write hupdate fun r => ?_
  cases r with
  | error e => exact blind_leave _
  | ok =>
    refine .write hinsert fun inserted => .commit fun r => ?_
    cases r with
    | error e => exact blind_leave _
    | ok => exact blind_leave _

theorem blind_proveEpoch (crypto : Crypto) (receiver : Receiver) (address : String)
    (alpha : Scalar) : Blind users (proveEpoch crypto context receiver address alpha) := by
  refine .draw fun d => ?_
  split
  · exact .panic
  · exact blind_leave _
  · split
    · exact .panic
    · exact blind_writeEpoch _ _ _

theorem blind_nextAlpha (latest : Option Randomness) :
    Blind users (nextAlpha latest) := by
  cases latest with
  | none => exact .draw fun d => .ret trivial
  | some latest =>
    rw [nextAlpha]
    split
    · exact .ret trivial
    · exact .panic

theorem blind_safeInsert (crypto : Crypto) (username : String) (network : I64)
    (address : String) : Blind users (safeInsert crypto context username network address) := by
  refine .lock (.start fun r => ?_)
  cases r with
  | error e => exact blind_leave _
  | ok =>
    refine .query (fun db db' hdb => ?_) fun r => ?_
    · simp only [hdb.receiver, hdb.keyringIds]
    split
    · exact blind_leave _
    · exact blind_leave _
    · refine .query (fun db db' hdb => by rw [hdb.randomness]) fun r => ?_
      cases r with
      | error e => exact blind_leave _
      | ok latest =>
        exact (blind_nextAlpha latest).bind fun alpha _ => blind_proveEpoch _ _ _ _

theorem blind_getEpoch (network epoch : I64) (address : String) :
    Blind users (orandGetEpoch lib network address epoch) := by
  rw [orandGetEpoch_eq]
  refine .query (fun db db' hdb => by rw [hdb.receiver]) fun r => ?_
  split
  · exact .panic
  · exact .ret trivial
  · refine .query (fun db db' hdb => by rw [recentEpochs, recentEpochs, hdb.randomness]) fun r => ?_
    cases r with
    | error e => exact .ret trivial
    | ok rows => exact .ret trivial

theorem optionJson_map {α β : Type} (f : α → β) (toJson : β → Json) (o : Option α) :
    optionJson toJson (o.map f) = optionJson (fun a => toJson (f a)) o := by
  cases o <;> rfl

/-- A public key is answered without the secrets of its row. -/
theorem blind_getPublicKey (keyName : String) :
    Blind users (orandGetPublicKey lib keyName) := by
  refine .read (fun e => .panic) fun db db' hdb => ?_
  have hrow := congrArg (optionJson (·.toJson lib))
    (hdb.find_keyring (p := fun k => k.username = keyName) (by simp))
  simp only [optionJson_map, Keyring.toJson_mask] at hrow
  change Indistinct _ _ (Prog.ret (resJson lib _)) (Prog.ret (resJson lib _))
  rw [hrow]
  exact .ret trivial

theorem blind_getReceiver (username : String) :
    Blind users (adminGetReceiver lib username) := by
  refine .query (fun db db' hdb => ?_) fun r => ?_
  · rw [hdb.receiver]
    refine congrArg₂ List.flatMap (funext fun r => ?_) rfl
    have hrows := hdb.filter_keyring (p := fun k => k.username = username && k.id = r.keyringId)
      (by simp)
    have hconst := congrArg (List.map fun _ => r) hrows
    simpa [List.filter_filter, Function.comp_def] using hconst
  · cases r with
    | error e => exact .panic
    | ok records => exact .ret trivial

theorem blind_removeReceiver (username : String) (receiverId : I64) :
    Blind users (adminRemoveReceiver lib username receiverId) := by
  refine .write (fun s db db' hdb => ?_) fun r => ?_
  · rw [ReceiverTable.deleteStatement, ReceiverTable.deleteStatement, hdb.receiver, hdb.randomness,
      hdb.keyringIds]
  · cases r with
    | error e => exact .ret trivial
    | ok => exact .ret trivial

/-- Whatever one of the users but `orand` asks for. -/
theorem blind_perform {user : String} (huser : user ≠ orandKeyringName) (m : JSONRPCMethod) :
    Blind users (perform lib context user m) := by
  cases m with
  | orandGetEpoch network address epoch => exact blind_getEpoch _ _ _
  | orandNewEpoch network address =>
    rw [perform]
    split
    case isTrue => exact .ret trivial
    case isFalse =>
      refine (blind_safeInsert _ _ _ _).bind fun r _ => ?_
      cases r with
      | error e => exact .ret trivial
      | ok record => exact .ret trivial
  | orandNewPrivateEpoch => exact .ret trivial
  | orandGetPublicKey keyName => exact blind_getPublicKey _
  | adminAddUser =>
    rw [perform, if_neg huser]
    exact .ret trivial
  | adminAddReceiver =>
    rw [perform, if_neg huser]
    exact .ret trivial
  | adminGetUser =>
    rw [perform, if_neg huser]
    exact .ret trivial
  | adminGetReceiver username => exact blind_getReceiver _
  | adminRemoveReceiver username receiverId => exact blind_removeReceiver _ _

end Methods

/-! ## Requests -/

section Requests

variable {users : String → Prop} [DecidablePred users] {lib : Libraries} {context : NodeContext}

/-- Whatever its time, the token of a request names one of the users. -/
def NamesOnly (lib : Libraries) (users : String → Prop) (authorization : Option (List Byte)) :
    Prop := ∀ jsonWebToken now jwtPayload, authorization.bind headerToStr = some jsonWebToken →
  JWT.decodePayload lib.toTokenFormat now jsonWebToken = .ok jwtPayload → users jwtPayload.user

/-- A result that lets a user in lets in one of the users. -/
abbrev LetsIn (users : String → Prop) (r : Except Error JWTPayload) : Prop :=
  ∀ jwtPayload, r = .ok jwtPayload → users jwtPayload.user

omit [DecidablePred users] in
theorem letsIn_error (e : Error) : LetsIn users (.error e) := by
  intro jwtPayload h
  cases h

theorem indistinct_authorize {authorization : Option (List Byte)}
    (hnames : NamesOnly lib users authorization) :
    Indistinct (Hidden users) (LetsIn users) (authorize lib authorization)
      (authorize lib authorization) := by
  cases authorization with
  | none => exact .ret (letsIn_error _)
  | some value =>
    rw [authorize]
    split
    case h_1 => exact .ret (letsIn_error _)
    case h_2 jsonWebToken hheader =>
      refine .draw fun d => ?_
      cases hdecode : JWT.decodePayload lib.toTokenFormat d.now jsonWebToken with
      | error e => exact .ret (letsIn_error _)
      | ok jwtPayload =>
        have husers := hnames jsonWebToken d.now jwtPayload hheader hdecode
        refine .query (fun db db' hdb => hdb.findByName husers) fun r => ?_
        split
        · exact .panic
        · exact .ret (letsIn_error _)
        · next userRecord =>
          refine .expect fun jwt => .expect fun verified => ?_
          cases verified with
          | false => exact .ret (letsIn_error _)
          | true =>
            refine .ret fun payload h => ?_
            cases h
            exact husers

theorem blind_orand {req : Request} (horand : ¬users orandKeyringName)
    (hnames : NamesOnly lib users req.authorization) : Blind users (orand lib context req) := by
  rw [orand]
  split
  case isFalse => exact .ret trivial
  case isTrue =>
    split
    case isTrue => exact .ret trivial
    case isFalse =>
      refine .expect fun wholeBody => .expect fun jsonString => .expect fun parsed => ?_
      cases parsed with
      | error e => exact .ret trivial
      | ok m =>
        refine (indistinct_authorize hnames).bind fun r husers => ?_
        cases r with
        | error e => exact .ret trivial
        | ok jwtPayload =>
          have huser : jwtPayload.user ≠ orandKeyringName :=
            fun heq => horand (heq ▸ husers jwtPayload rfl)
          exact blind_perform huser m

/-- **One request tells nothing of the secrets of the others.** Over tables that differ only in
these, with the same answers of the database and the same draws, a request whose token names a
user other than `orand` is answered the same and leaves tables that again differ only in these. -/
theorem orand_noninterference {user : String} {req : Request} {db db' : Database}
    (huser : user ≠ orandKeyringName) (hnames : NamesOnly lib (fun u => u = user) req.authorization)
    (hdb : Hidden (fun u => u = user) db db') (env : Nat → Answer DbErr Serial Draw) (n : Nat) :
    let r := postgres.run env (orand lib context req) n db .closed
    let r' := postgres.run env (orand lib context req) n db' .closed
    r'.1 = r.1 ∧ Hidden (fun u => u = user) r.2.1 r'.2.1 :=
  (blind_orand huser.symm hnames).run (fun write _ _ h => h.apply write) hdb env n .closed

theorem small_namesOnly (user : String) (payload : String → JSONRPCPayload) (body : String) :
    NamesOnly (smallLibraries user payload) (fun u => u = user) (smallRequest body).authorization := by
  intro jsonWebToken now jwtPayload _ hdecode
  obtain ⟨_, _, _, _, _, hpayload⟩ := decodePayload_ok_iff.mp hdecode
  have hread := hpayload.read
  simp only [smallLibraries] at hread
  split at hread
  · cases hread
    rfl
  · cases hread

theorem hidden_aliceTables (secret secret' : String) :
    Hidden (fun u => u = "alice") (aliceTables secret) (aliceTables secret') :=
  ⟨rfl, rfl, rfl⟩

/-- `alice` adds an epoch over two secrets of `orand`. -/
theorem orand_noninterference_alice :
    let r := postgres.run (fun _ => smallAnswer .zero)
      (orand (smallLibraries "alice" gamePayload) smallContext (smallRequest "")) 0
      (aliceTables "01") .closed
    let r' := postgres.run (fun _ => smallAnswer .zero)
      (orand (smallLibraries "alice" gamePayload) smallContext (smallRequest "")) 0
      (aliceTables "02") .closed
    (r.1 = some (ok "[]") ∧ r.2.1.randomness.length = 1) ∧
      r'.1 = r.1 ∧ Hidden (fun u => u = "alice") r.2.1 r'.2.1 :=
  ⟨run_orand_first "01",
    orand_noninterference (by decide) (small_namesOnly "alice" gamePayload "")
      (hidden_aliceTables "01" "02") (fun _ => smallAnswer .zero) 0⟩

end Requests

/-! ## Any requests -/

section Runs

variable {ι : Type} [DecidableEq ι] {users : String → Prop} [DecidablePred users] {lib : Libraries}
  {context : NodeContext} {db db' : Database} {requests : ι → Request}
  {w : World ι Database Write DbErr Serial Draw Response} {events : List (Event ι Database)}

/-- **The secrets of the others stay secret.** Where no request names `orand`, whatever they are
answered over some tables, in any order and with any failures, they can be answered over tables
with other secrets of the users they do not name. -/
theorem secrets_hidden (horand : ¬users orandKeyringName)
    (hnames : ∀ i, NamesOnly lib users (requests i).authorization) (hdb : Hidden users db db')
    (hrun : Run postgres (serving lib context db requests) events w) :
    ∃ events' w', Run postgres (serving lib context db' requests) events' w' ∧
      Hidden users w.db w'.db ∧ events'.map (·.thread) = events.map (·.thread) ∧
      ∀ i resp, (w.threads i).prog = .ret resp → (w'.threads i).prog = .ret resp := by
  have hstart : World.Alike (Hidden users) (fun _ => True) (serving lib context db requests)
      (serving lib context db' requests) :=
    ⟨hdb, fun i => ⟨blind_orand horand (hnames i), rfl, rfl⟩⟩
  obtain ⟨events', w', hrun', hw, hthreads⟩ :=
    run_alike (fun write _ _ h => h.apply write) hstart hrun
  exact ⟨events', w', hrun', hw.db, hthreads, fun i resp => hw.ret⟩

/-- Public keys are answered without failures. -/
theorem run_getPublicKey (keyName : String) (db : Database) (id : I64) (n : Nat) :
    postgres.run (fun _ => smallAnswer id)
      (orandGetPublicKey (smallLibraries "alice" gamePayload) keyName) n db .closed =
        (some (ok "[]"), db, .closed) := by
  change (some (resJson _ (optionJson _ (db.keyring.find? fun k => k.username = keyName))), db, _) = _
  cases db.keyring.find? fun k => k.username = keyName <;> rfl

/-- `alice` adds two epochs and asks for the key of `orand`, whose two secrets she cannot tell. -/
theorem secrets_hidden_alice :
    let lib := smallLibraries "alice" gamePayload
    let requests (i : Nat) : Request := if i = 2 then smallRequest "key" else smallRequest ""
    let world (secret : String) := serving lib smallContext (aliceTables secret) requests
    ∃ w events w' events', Run postgres (world "01") events w ∧ Run postgres (world "02") events' w' ∧
      w.db.randomness.length = 2 ∧ (w.threads 2).prog = .ret (ok "[]") ∧
      (w'.threads 2).prog = .ret (ok "[]") ∧ Hidden (fun u => u = "alice") w.db w'.db := by
  intro lib requests world
  obtain ⟨events, w, nonce, hrun, hplayed, hlength, hunlocked, hrest⟩ :=
    alice_plays "01" requests (by decide : 2 ≤ 21) fun i hi => if_neg (by omega)
  have hasks : Asks lib (requests 2) (.orandGetPublicKey "orand") :=
    ⟨asciiBytes "key", "key", rfl, rfl, rfl⟩
  have hcall : postgres.run (fun _ => smallAnswer .zero) (orand lib smallContext (requests 2)) 0
      w.db .closed = (some (ok "[]"), w.db, .closed) := by
    rw [run_orand rfl rfl (by decide) hasks (run_authorize_alice hplayed .zero) 0]
    exact run_getPublicKey "orand" w.db .zero 0
  obtain ⟨events₁, hrun₁, -⟩ := hrun.call hunlocked (hrest 2 le_rfl) (balanced_orand _) hcall
  have hnames (i : Nat) : NamesOnly lib (fun u => u = "alice") (requests i).authorization := by
    by_cases hi : i = 2
    · rw [show requests i = smallRequest "key" from if_pos hi]
      exact small_namesOnly "alice" gamePayload "key"
    · rw [show requests i = smallRequest "" from if_neg hi]
      exact small_namesOnly "alice" gamePayload ""
  obtain ⟨events', w', hrun', hhidden, -, hret'⟩ :=
    secrets_hidden (by decide) hnames (hidden_aliceTables "01" "02") hrun₁
  rw [hplayed.epochs] at hlength
  have hret : (Function.update w.threads 2 ⟨.ret (ok "[]"), .closed, false⟩ 2).prog =
      .ret (ok "[]") := by rw [Function.update_self]
  exact ⟨_, events₁, w', events', hrun₁, hrun', hlength, hret, hret' 2 _ hret, hhidden⟩

end Runs

end Node
