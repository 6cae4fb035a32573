import Orochimaru.Node.Effects

/-!
# Requests side by side

Each method keeps its promise alone: at most one change, on behalf of a user the tables vouch
for, and an answer that tells it. With the lock and the transactions this holds of any requests
side by side, whatever fails.
-/

namespace Node

open Transactions Zkmemory Libecvrf QuickResponse

/-! ## What the statements promise each other -/

def serviceTerms (Inv : Database → Prop) : Terms Database where
  Inv := Inv
  Any := Grows
  Free db db' := db'.randomness = db.randomness ∧ db.receiver <+: db'.receiver
  any_refl := Grows.refl
  any_trans := Grows.trans
  free_refl _ := ⟨rfl, List.prefix_rfl⟩
  free_trans h h' := ⟨h'.1.trans h.1, h.2.trans h'.2⟩

section Promise

variable (lib : Libraries) (context : NodeContext) (authorization : Option (List Byte))

/-- One change at most, for a user the tables vouch for. -/
def promise (user : String) (m : JSONRPCMethod) : Guarantee Database :=
  fun locked history db db' => history = [] ∧ Vouches lib authorization db user ∧
    ∃ json, Effect lib context user db m locked json db'

/-- An invariant that every effect keeps. -/
def Preserved (Inv : Database → Prop) : Prop := ∀ ⦃user db m locked json db'⦄, Inv db →
  Effect lib context user db m locked json db' → Inv db'

/-- The result of an insertion, with the changes made for it. -/
inductive Inserted (user : String) (m : JSONRPCMethod) :
    Except DbErr Randomness → List (Database × Database) → Database → Prop
  | failed (e : DbErr) (now : Database) : Inserted user m (.error e) [] now
  | inserted {db db' now : Database} {locked : Bool} {row : Randomness} (hgrows : Grows db' now)
      (h : Effect lib context user db m locked (row.toJson lib) db') :
      Inserted user m (.ok row) [(db, db')] now

end Promise

section Methods

variable {Inv : Database → Prop} {lib : Libraries} {context : NodeContext}
  {authorization : Option (List Byte)} {user : String} {m : JSONRPCMethod}

theorem promise_covers (hInv : Preserved lib context Inv) :
    (serviceTerms Inv).Covers (promise lib context authorization user m) := by
  rintro locked history db db' hinv ⟨-, -, json, heffect⟩
  exact ⟨hInv hinv heffect, heffect.grows, heffect.free⟩

theorem promise_grows (locked : Bool) (history : List (Database × Database)) (db db' : Database)
    (h : promise lib context authorization user m locked history db db') : Grows db db' := by
  obtain ⟨-, -, json, heffect⟩ := h
  exact heffect.grows

/-! ## A new epoch -/

theorem RandomnessTable.insertStatement_fresh {record : Serial → Randomness} {serial : Serial}
    {db : Database} {w : Write} (h : RandomnessTable.insertStatement record serial db = .ok w) :
    (∀ x ∈ db.randomness, x.id ≠ (record serial).id ∧ x.alpha ≠ (record serial).alpha ∧
      x.y ≠ (record serial).y ∧ x.signatureProof ≠ (record serial).signatureProof) ∧
    ∃ k ∈ db.keyring, k.id = (record serial).keyringId := by
  obtain ⟨-, hc⟩ := enforce_ok h
  simp only [List.forall_mem_cons, List.all_eq_true, List.any_eq_true, decide_eq_true_eq] at hc
  obtain ⟨hid, halpha, hy, hsignature, hkeyring, -⟩ := hc
  exact ⟨fun x hx => ⟨hid x hx, halpha x hx, hy x hx, hsignature x hx⟩, hkeyring⟩

/-- What the lookups under the lock leave for the end of the transaction. -/
structure Ready (lib : Libraries) (context : NodeContext) (authorization : Option (List Byte))
    (user : String) (network : I64) (address : String) (db : Database) (receiver : Receiver) :
    Prop where
  vouches : Vouches lib authorization db user
  mem : receiver ∈ db.receiver
  at_address : receiver.address = address
  on_network : receiver.network = network
  owned : receiver.keyringId ∈ db.keyringIds user
  permitted : address = zeroAddress → user = orandKeyringName

variable {network : I64} {address : String} {receiver : Receiver} {db db' : Database}

/-- It is still true where the others have gone on without the lock. -/
theorem Ready.known (h : Ready lib context authorization user network address db receiver)
    (hknown : (serviceTerms Inv).Known true db db') :
    Ready lib context authorization user network address db' receiver where
  vouches := h.vouches.grows hknown.1
  mem := (hknown.2 rfl).2.subset h.mem
  at_address := h.at_address
  on_network := h.on_network
  owned := hknown.1.keyringIds_subset user h.owned
  permitted := h.permitted

theorem Continues.congr {alpha : Scalar} (h : Continues db receiver alpha)
    (hrows : db'.randomness = db.randomness) : Continues db' receiver alpha := by
  rwa [Continues, Database.epochs, hrows]

theorem keeps_leave {r : Except DbErr Randomness} {locked : Bool} {txn : Txn Write}
    {history : List (Database × Database)} {P : Database → Prop}
    (h : ∀ db, P db → ∀ now, Grows db now → Inserted lib context user m r history now) :
    (serviceTerms Inv).Keeps postgres (promise lib context authorization user m)
      (Terms.Ends (Inserted lib context user m)) (leave r) locked txn history P :=
  fun now ⟨db, hdb, hgrows⟩ => h db hdb now hgrows

theorem keeps_failed {e : DbErr} {locked : Bool} {txn : Txn Write} {P : Database → Prop} :
    (serviceTerms Inv).Keeps postgres (promise lib context authorization user m)
      (Terms.Ends (Inserted lib context user m)) (leave (.error e)) locked txn [] P :=
  keeps_leave fun _ _ now _ => .failed e now

theorem keeps_writeEpoch {nonce : I64} {record : Serial → Randomness} {alpha : Scalar}
    {draws : Nat → Bytes 32}
    (hready : Ready lib context authorization user network address db receiver)
    (hnonce : receiver.nonce.succ = some nonce) (hcontinues : Continues db receiver alpha)
    (hrecord : newRecord lib.toCrypto context receiver address alpha draws = some (.ok record)) :
    (serviceTerms Inv).Keeps postgres
      (promise lib context authorization user (.orandNewEpoch network address))
      (Terms.Ends (Inserted lib context user (.orandNewEpoch network address)))
      (writeEpoch receiver nonce record) true (.opened []) []
      ((serviceTerms Inv).Known true db) := by
  refine Terms.keeps_write_opened (fun e _ => keeps_failed) ?_
  intro _ w db₁ _ hknown₁ hw
  obtain rfl := ReceiverTable.updateStatement_ok hw
  refine Terms.keeps_write_opened (fun e _ => ?_) ?_
  · exact Terms.keeps_commit_aborted fun r _ => by
      cases r <;> exact keeps_failed
  intro serial w db₂ _ hknown₂ hw
  obtain ⟨hfresh, k, hk, hkid⟩ := RandomnessTable.insertStatement_fresh hw
  obtain rfl := RandomnessTable.insertStatement_ok hw
  refine Terms.keeps_commit_opened (fun e _ => keeps_failed) fun db₃ _ hknown₃ => ?_
  have hready₃ := hready.known ((hknown₁.trans hknown₂).trans hknown₃)
  have hrows := ((hknown₁.trans hknown₂).trans hknown₃).2 rfl
  have hrow : NextEpoch lib.toCrypto context db₃ receiver (record serial) := by
    refine ⟨⟨alpha, draws, record, serial, hcontinues.congr hrows.1, ?_, rfl⟩, ?_, ?_⟩
    · rw [hready.at_address]
      exact hrecord
    · rw [(hknown₃.2 rfl).1]
      exact hfresh
    · exact ⟨k, hknown₃.1.keyring.subset hk, hkid⟩
  have heffect := Effect.newEpoch hready₃.mem hready.at_address hready.on_network hready₃.owned
    hready.permitted hnonce hrow
  refine ⟨heffect.ne, ⟨rfl, hready₃.vouches, _, heffect⟩, ?_⟩
  exact keeps_leave fun db hknown now hgrows => .inserted (hknown.1.trans hgrows) heffect

theorem keeps_proveEpoch {alpha : Scalar}
    (hready : Ready lib context authorization user network address db receiver)
    (hcontinues : Continues db receiver alpha) :
    (serviceTerms Inv).Keeps postgres
      (promise lib context authorization user (.orandNewEpoch network address))
      (Terms.Ends (Inserted lib context user (.orandNewEpoch network address)))
      (proveEpoch lib.toCrypto context receiver address alpha) true (.opened []) []
      ((serviceTerms Inv).Known true db) := by
  intro d
  beta_reduce
  split
  · trivial
  · exact keeps_failed
  · next record hrecord =>
    split
    · trivial
    · next nonce hnonce => exact keeps_writeEpoch hready hnonce hcontinues hrecord

theorem keeps_safeInsert (hpermitted : address = zeroAddress → user = orandKeyringName) :
    (serviceTerms Inv).Keeps postgres
      (promise lib context authorization user (.orandNewEpoch network address))
      (Terms.Ends (Inserted lib context user (.orandNewEpoch network address)))
      (safeInsert lib.toCrypto context user network address) false .closed []
      (Vouches lib authorization · user) := by
  refine Terms.keeps_lock (Terms.keeps_start (fun e => keeps_failed) ?_)
  rw [ReceiverTable.findOwned, Prog.query_bind]
  refine Terms.keeps_read_opened (fun e _ => keeps_failed) fun db₀ _ hvouches => ?_
  simp only [Except.map, Store.applyAll_nil]
  split
  · next he => cases he
  · exact keeps_failed
  next receiver hfind =>
  have hready₀ : Ready lib context authorization user network address db₀ receiver := by
    have hfind := Except.ok.inj hfind
    have hfound := List.find?_some hfind
    obtain ⟨haddress, hnetwork, howned⟩ := of_decide_eq_true hfound
    exact ⟨hvouches, List.mem_of_find?_eq_some hfind, haddress, hnetwork, howned, hpermitted⟩
  refine Terms.keeps_read_opened (fun e _ => keeps_failed) fun db _ hknown => ?_
  simp only [Except.map, Store.applyAll_nil]
  have hready := hready₀.known hknown
  change (serviceTerms Inv).Keeps postgres _ _
    (nextAlpha (RandomnessTable.ordered (db.epochs receiver.id)).head? >>= fun alpha =>
      proveEpoch lib.toCrypto context receiver address alpha) _ _ _ _
  cases hlast : (RandomnessTable.ordered (db.epochs receiver.id)).head? with
  | none =>
    intro d
    refine keeps_proveEpoch hready ?_
    rw [Continues, hlast]
    exact ⟨d.bytes 0, rfl⟩
  | some latest =>
    rw [nextAlpha]
    cases hdecode : Hex.decodeToSlice 32 latest.y with
    | none => trivial
    | some buf =>
      refine keeps_proveEpoch hready ?_
      rw [Continues, hlast]
      exact ⟨buf, hdecode, rfl⟩

/-! ## The other methods -/

/-- The promise of a method on behalf of a user, and of its answer. -/
def Performs (Inv : Database → Prop) (lib : Libraries) (context : NodeContext)
    (authorization : Option (List Byte)) (user : String) (m : JSONRPCMethod)
    (p : Async Response) : Prop :=
  (serviceTerms Inv).Keeps postgres (promise lib context authorization user m)
    (Terms.Ends (Answered lib context user Inv m)) p false .closed []
    (Vouches lib authorization · user)

theorem performs_err (e : Error) :
    Performs Inv lib context authorization user m (return err e) := fun now _ => .refused e now

theorem performs_newEpoch (hpermitted : address = zeroAddress → user = orandKeyringName) :
    Performs Inv lib context authorization user (.orandNewEpoch network address)
      (orandNewEpoch lib context user network address) := by
  refine Terms.Keeps.bind ((keeps_safeInsert hpermitted).mono (fun _ _ _ _ h => h) ?_)
  intro r _ _ history _ h
  cases r with
  | error e =>
    intro now hnow
    cases h now hnow with
    | failed => exact .refused _ now
  | ok row =>
    intro now hnow
    cases h now hnow with
    | inserted hgrows heffect => exact .changed hgrows heffect

theorem findOne_none {db : Database}
    (h : db.receiver.find? (fun r => r.address = address ∧ r.network = network) = none) :
    ∀ receiver ∈ db.receiver, ¬(receiver.address = address ∧ receiver.network = network) := by
  simpa using h

theorem findOne_some {db : Database} {receiver : Receiver}
    (h : db.receiver.find? (fun r => r.address = address ∧ r.network = network) = some receiver) :
    receiver ∈ db.receiver ∧ receiver.address = address ∧ receiver.network = network := by
  have hfound := List.find?_some h
  exact ⟨List.mem_of_find?_eq_some h, of_decide_eq_true hfound⟩

/-- Both ways to look for epochs, as two statements. -/
theorem orandGetEpoch_eq (lib : Libraries) (network epoch : I64) (address : String) :
    orandGetEpoch lib network address epoch = ReceiverTable.findOne network address >>= fun
      | .error _ => .panic
      | .ok none => .ret (resJson lib (.arr []))
      | .ok (some receiver) => Prog.query (recentEpochs · receiver.id epoch) >>= fun
        | .ok rows => .ret (resJson lib (.arr (rows.map (·.toJson lib))))
        | .error _ => .ret (err ⟨"NOT_FOUND", "Epoch was not found"⟩) := by
  rw [orandGetEpoch]
  by_cases hmax : epoch = .max
  · rw [if_pos hmax, RandomnessTable.findRecentEpoch, ReceiverTable.findOne]
    simp only [recentEpochs, hmax, true_or, and_true]
    refine congrArg Prog.read (funext fun r => ?_)
    cases r with
    | error => rfl
    | ok db =>
      simp only [Except.map]
      cases db.receiver.find? (fun r => r.address = address ∧ r.network = network) <;> rfl
  · rw [if_neg hmax, RandomnessTable.findClosureEpoch, ReceiverTable.findOne]
    simp only [recentEpochs, hmax, false_or]
    refine congrArg Prog.read (funext fun r => ?_)
    cases r with
    | error => rfl
    | ok db =>
      simp only [Except.map]
      cases db.receiver.find? (fun r => r.address = address ∧ r.network = network) <;> rfl

/-- The receiver is looked up first, then its epochs. -/
theorem performs_getEpoch (epoch : I64) :
    Performs Inv lib context authorization user (.orandGetEpoch network address epoch)
      (orandGetEpoch lib network address epoch) := by
  rw [orandGetEpoch_eq]
  refine Terms.keeps_read_closed (fun e _ => trivial) fun db₀ hinv₀ _ => ?_
  simp only [Except.map]
  cases hfind : db₀.receiver.find? (fun r => r.address = address ∧ r.network = network) with
  | none => exact fun _ hnow => .read hinv₀ hnow.1 (.noEpochs (findOne_none hfind))
  | some receiver =>
    obtain ⟨hmem, haddress, hnetwork⟩ := findOne_some hfind
    refine Terms.keeps_read_closed (fun _ _ now _ => .refused _ now) fun db hinv hknown => ?_
    obtain ⟨receiver', hmem', hsame⟩ := hknown.1.mem_receiver hmem
    obtain ⟨hid, -, -, haddress', hnetwork', -⟩ := Receiver.identity_eq_iff.mp hsame
    rw [← hid]
    exact fun _ hnow => .read hinv hnow.1
      (.epochs hmem' (haddress'.trans haddress) (hnetwork'.trans hnetwork))

theorem performs_getPublicKey (keyName : String) :
    Performs Inv lib context authorization user (.orandGetPublicKey keyName)
      (orandGetPublicKey lib keyName) :=
  Terms.keeps_read_closed (fun _ _ => trivial) fun _ hinv _ _ hnow =>
    .read hinv hnow.1 .publicKey

theorem performs_getUser (hadmin : user = orandKeyringName) (username : String) :
    Performs Inv lib context authorization user (.adminGetUser username)
      (adminGetUser lib username) := by
  refine Terms.keeps_read_closed (fun _ _ => trivial) fun db hinv _ => ?_
  simp only [Except.map]
  cases hfind : db.keyring.find? (fun k => k.username = username) with
  | none => exact fun now _ => .refused _ now
  | some record => exact fun _ hnow => .read hinv hnow.1 (.user hadmin hfind)

theorem performs_getReceiver (username : String) :
    Performs Inv lib context authorization user (.adminGetReceiver username)
      (adminGetReceiver lib username) :=
  Terms.keeps_read_closed (fun _ _ => trivial) fun _ hinv _ _ hnow =>
    .read hinv hnow.1 (.receivers rfl)

/-! ## New users and receivers -/

theorem KeyringTable.insertStatement_fresh {record : Serial → Keyring} {serial : Serial}
    {db : Database} {w : Write} (h : KeyringTable.insertStatement record serial db = .ok w) :
    w = .insertKeyring (record serial) ∧ FreshUser db (record serial) := by
  obtain ⟨hw, hc⟩ := enforce_ok h
  simp only [List.forall_mem_cons, List.all_eq_true, decide_eq_true_eq] at hc
  obtain ⟨hid, hname, hpublic, hsecret, -⟩ := hc
  exact ⟨hw, fun k hk => ⟨hid k hk, hname k hk, hpublic k hk, hsecret k hk⟩⟩

theorem ReceiverTable.insertStatement_fresh {record : Serial → Receiver} {serial : Serial}
    {db : Database} {w : Write} (h : ReceiverTable.insertStatement record serial db = .ok w) :
    w = .insertReceiver (record serial) ∧ FreshReceiver db (record serial) := by
  obtain ⟨hw, hc⟩ := enforce_ok h
  simp only [List.forall_mem_cons, List.all_eq_true, List.any_eq_true, decide_eq_true_eq] at hc
  obtain ⟨hid, hname, hplace, hkeyring, -⟩ := hc
  exact ⟨hw, fun r hr => ⟨hid r hr, hname r hr, hplace r hr⟩, hkeyring⟩

theorem performs_addUser (hadmin : user = orandKeyringName) (username : String) :
    Performs Inv lib context authorization user (.adminAddUser username)
      (adminAddUser lib username) := by
  refine Terms.keeps_read_closed (fun _ _ => trivial) fun db₀ _ hvouches => ?_
  simp only [Except.map]
  cases hfind : db₀.keyring.find? (fun k => k.username = username) with
  | some record => exact fun now _ => .refused _ now
  | none =>
    intro d
    refine Terms.keeps_write_closed (fun _ _ => trivial) fun serial w db _ hknown hw => ?_
    obtain ⟨rfl, hfresh⟩ := KeyringTable.insertStatement_fresh hw
    have heffect : Effect lib context user db (.adminAddUser username) false _ _ :=
      .addUser hadmin hfresh
    exact ⟨heffect.ne, ⟨rfl, hvouches.grows hknown.1, _, heffect⟩,
      fun _ hnow => .changed hnow.1 heffect⟩

theorem performs_addReceiver (hadmin : user = orandKeyringName) (username : String) :
    Performs Inv lib context authorization user (.adminAddReceiver username address network)
      (adminAddReceiver lib username address network) := by
  refine Terms.keeps_read_closed (fun _ _ => trivial) fun db₀ _ hvouches => ?_
  simp only [Except.map]
  cases hfind : db₀.keyring.find? (fun k => k.username = username) with
  | none => exact fun now _ => .refused _ now
  | some modelKeyring =>
    refine Terms.keeps_read_closed (fun _ _ => trivial) fun db₁ hinv₁ hknown₁ => ?_
    simp only [Except.map]
    cases hreceiver : db₁.receiver.find? (fun r => r.address = address ∧ r.network = network) with
    | some receiver =>
      obtain ⟨hmem, haddress, hnetwork⟩ := findOne_some hreceiver
      exact fun _ hnow => .read hinv₁ hnow.1 (.receiverExists hadmin hmem haddress hnetwork)
    | none =>
      intro d
      refine Terms.keeps_write_closed (fun _ _ now _ => .refused _ now)
        fun serial w db _ hknown hw => ?_
      obtain ⟨rfl, hfresh⟩ := ReceiverTable.insertStatement_fresh hw
      have hgrows := hknown₁.1.trans hknown.1
      have howned : modelKeyring.id ∈ db₀.keyringIds username := by
        have hfound := List.find?_some hfind
        exact List.mem_map_of_mem (List.mem_filter.mpr ⟨List.mem_of_find?_eq_some hfind, hfound⟩)
      have heffect : Effect lib context user db (.adminAddReceiver username address network) false
          _ _ :=
        .addReceiver hadmin rfl rfl rfl (hgrows.keyringIds_subset username howned) hfresh
      exact ⟨heffect.ne, ⟨rfl, hvouches.grows hgrows, _, heffect⟩,
        fun _ hnow => .changed hnow.1 heffect⟩

/-- A method that is not a removal. -/
theorem performs_perform (hm : ∀ username receiverId, m ≠ .adminRemoveReceiver username receiverId) :
    Performs Inv lib context authorization user m (perform lib context user m) := by
  cases m with
  | orandGetEpoch network address epoch => exact performs_getEpoch epoch
  | orandNewEpoch network address =>
    rw [perform]
    split
    case isTrue => exact performs_err _
    case isFalse h => exact performs_newEpoch fun hzero => not_not.mp fun hne => h ⟨hzero, hne⟩
  | orandNewPrivateEpoch => exact performs_err _
  | orandGetPublicKey keyName => exact performs_getPublicKey keyName
  | adminAddUser username =>
    rw [perform]
    split
    case isTrue hadmin => exact performs_addUser hadmin username
    case isFalse => exact performs_err _
  | adminAddReceiver username address network =>
    rw [perform]
    split
    case isTrue hadmin => exact performs_addReceiver hadmin username
    case isFalse => exact performs_err _
  | adminGetUser username =>
    rw [perform]
    split
    case isTrue hadmin => exact performs_getUser hadmin username
    case isFalse => exact performs_err _
  | adminGetReceiver username => exact performs_getReceiver username
  | adminRemoveReceiver username receiverId => exact absurd rfl (hm username receiverId)

end Methods

/-! ## Requests -/

section Requests

variable (Inv : Database → Prop) (lib : Libraries) (context : NodeContext) (req : Request)

/-- The method the body of a request asks for. -/
def Asks (m : JSONRPCMethod) : Prop := ∃ body jsonString, req.body = some body ∧
  lib.fromUtf8 body = some jsonString ∧
  JSONRPCMethod.fromJsonString lib.fromStr jsonString = some (.ok m)

/-- One change at most, by the method asked for. -/
def requestPromise : Guarantee Database := fun locked history db db' =>
  ∃ user m, Asks lib req m ∧ promise lib context req.authorization user m locked history db db'

/-- The answer to a request, with the changes made for it and the tables as they are now. -/
inductive RequestAnswered : Response → List (Database × Database) → Database → Prop
  | refused (e : Error) (now : Database) : RequestAnswered (err e) [] now
  | performed {user : String} {m : JSONRPCMethod} {resp : Response}
      {history : List (Database × Database)} {now : Database} (hasks : Asks lib req m)
      (hvouches : Vouches lib req.authorization now user)
      (h : Answered lib context user Inv m resp history now) : RequestAnswered resp history now

variable {Inv lib context req} {authorization : Option (List Byte)}

theorem requestPromise_covers (hInv : Preserved lib context Inv) :
    (serviceTerms Inv).Covers (requestPromise lib context req) := by
  rintro locked history db db' hinv ⟨user, m, -, hpromise⟩
  exact promise_covers hInv locked history db db' hinv hpromise

/-- What is known where a token has been let in. -/
def Admitted (lib : Libraries) (authorization : Option (List Byte)) (r : Except Error JWTPayload)
    (locked : Bool) (txn : Txn Write) (history : List (Database × Database))
    (P : Database → Prop) : Prop :=
  locked = false ∧ txn = .closed ∧ history = [] ∧ ∀ jwtPayload, r = .ok jwtPayload →
    ∀ db, P db → Vouches lib authorization db jwtPayload.user

theorem admitted_error (e : Error) (authorization : Option (List Byte)) (P : Database → Prop) :
    Admitted lib authorization (.error e) false .closed [] P :=
  ⟨rfl, rfl, rfl, fun _ h => nomatch h⟩

/-- The token is verified last. -/
theorem keeps_verified {G : Guarantee Database} {P : Database → Prop} {jwtPayload : JWTPayload}
    {e : Error} {key : Option JWT} {verify : JWT → Option Bool}
    (h : ∀ jwt, key = some jwt → verify jwt = some true → ∀ db, P db →
      Vouches lib authorization db jwtPayload.user) :
    (serviceTerms Inv).Keeps postgres G (Admitted lib authorization)
      (do
        let jwt ← .expect key
        let verified ← .expect (verify jwt)
        if verified then return .ok jwtPayload
        else return .error e : Async (Except Error JWTPayload)) false .closed [] P := by
  refine Terms.keeps_expect fun jwt hkey => Terms.keeps_expect fun verified hverify => ?_
  cases verified with
  | false => exact admitted_error _ _ _
  | true =>
    refine ⟨rfl, rfl, rfl, fun payload hok => ?_⟩
    cases hok
    exact h jwt hkey hverify

theorem keeps_authorize (G : Guarantee Database) (authorization : Option (List Byte)) :
    (serviceTerms Inv).Keeps postgres G (Admitted lib authorization)
      (authorize lib authorization) false .closed [] fun _ => True := by
  cases authorization with
  | none => exact admitted_error _ _ _
  | some value =>
    rw [authorize]
    split
    case h_1 => exact admitted_error _ _ _
    case h_2 jsonWebToken hheader =>
      intro d
      beta_reduce
      split
      case h_1 => exact admitted_error _ _ _
      case h_2 jwtPayload hdecode =>
        rw [KeyringTable.findByName, Prog.query_bind]
        refine Terms.keeps_read_closed (fun _ _ => trivial) fun db _ _ => ?_
        simp only [Except.map]
        cases hfind : db.keyring.find? (fun k => k.username = jwtPayload.user) with
        | none => exact admitted_error _ _ _
        | some userRecord =>
          dsimp only
          generalize hkey : JWT.new userRecord.hmacSecret = key
          refine keeps_verified fun jwt hjwt hverify db' hknown => ?_
          have hvouches : Vouches lib (some value) db jwtPayload.user :=
            ⟨jsonWebToken, jwtPayload, userRecord, jwt, hheader, ⟨d.now, hdecode⟩, rfl, hfind,
              hkey.trans hjwt, hverify⟩
          exact hvouches.grows hknown.1

/-- A request alone. -/
theorem keeps_orand :
    (serviceTerms Inv).Keeps postgres (requestPromise lib context req)
      (Terms.Ends (RequestAnswered Inv lib context req)) (orand lib context req) false .closed []
      fun _ => True := by
  rw [orand]
  split
  case isFalse => exact fun now _ => .refused _ now
  case isTrue =>
    split
    case isTrue => exact fun now _ => .refused _ now
    case isFalse =>
      refine Terms.keeps_expect fun wholeBody hbody => ?_
      refine Terms.keeps_expect fun jsonString hutf8 => ?_
      refine Terms.keeps_expect fun parsed hparse => ?_
      cases parsed with
      | error e => exact fun now _ => .refused _ now
      | ok m =>
        have hasks : Asks lib req m := ⟨wholeBody, jsonString, hbody, hutf8, hparse⟩
        have hm : ∀ username receiverId, m ≠ .adminRemoveReceiver username receiverId := by
          rintro username receiverId rfl
          exact JSONRPCMethod.fromJsonString_ne_removal hparse
        refine Terms.Keeps.bind ((keeps_authorize _ req.authorization).mono
          (fun _ _ _ _ h => h) ?_)
        rintro r _ _ _ P ⟨rfl, rfl, rfl, hadmitted⟩
        cases r with
        | error e => exact fun now _ => .refused _ now
        | ok jwtPayload =>
          have hP := hadmitted jwtPayload rfl
          have hperform : Performs Inv lib context req.authorization jwtPayload.user m _ :=
            performs_perform hm
          have hvouched := hperform.frame promise_grows (fun _ _ => Vouches.grows) fun _ h => h
          refine (hvouched.weaken hP).mono (fun _ _ _ _ h => ⟨_, _, hasks, h⟩) ?_
          intro resp _ _ history P h now hnow
          exact .performed hasks (h now hnow).2 (h now hnow).1

end Requests

end Node
