import Orochimaru.Node.Deployment

/-!
# One node that is asked

A lock orders only the requests at its own node. Where one node alone is asked, whatever else
starts and is added, the tables stay consistent.
-/

namespace Node

open Transactions Zkmemory Libecvrf QuickResponse

/-! ## Promises -/

/-- One new user. -/
def userPromise : Guarantee Database := fun _ _ db db' =>
  ∃ row, FreshUser db row ∧ db' = Database.apply (.insertKeyring row) db

/-- What the programs of a deployment may change. -/
def Deployment.promise {κ ι : Type} (lib : Libraries) (d : Deployment κ ι) :
    κ ⊕ ι → Guarantee Database
  | .inl _ => userPromise
  | .inr i =>
    match d.command i with
    | .request k req => requestPromise lib (d.context k) req
    | .user _ => userPromise

section Promises

variable {Inv : Database → Prop}

theorem grows_insertKeyring (db : Database) (row : Keyring) :
    Grows db (Database.apply (.insertKeyring row) db) :=
  ⟨List.prefix_append _ _, List.prefix_rfl, List.prefix_rfl⟩

theorem userPromise_covers
    (huser : ∀ db row, Inv db → FreshUser db row → Inv (Database.apply (.insertKeyring row) db)) :
    (serviceTerms Inv).Covers userPromise := by
  rintro locked history db db' hinv ⟨row, hfresh, rfl⟩
  exact ⟨huser db row hinv hfresh, grows_insertKeyring db row, fun _ => ⟨rfl, List.prefix_rfl⟩⟩

theorem keeps_addUser (username : String) :
    (serviceTerms Inv).Keeps postgres userPromise (Terms.Ends fun _ _ _ => True)
      (addUser username) false .closed [] fun _ => True := by
  rw [addUser]
  intro d
  beta_reduce
  generalize decodeName (String.ofList (trim username.toList)) = name
  refine Terms.keeps_expect fun username _ => ?_
  refine Terms.keeps_write_closed (fun _ _ _ _ => trivial) fun serial w db _ _ hw => ?_
  obtain ⟨rfl, hfresh⟩ := KeyringTable.insertStatement_fresh hw
  exact ⟨FreshUser.ne, ⟨_, hfresh, rfl⟩, fun _ _ => trivial⟩

variable {κ ι : Type} {lib : Libraries} {d : Deployment κ ι}

theorem promise_covers_of_asked {k₀ : κ} (hone : ∀ i k req, d.command i = .request k req → k = k₀)
    (hInv : Preserved lib (d.context k₀) Inv)
    (huser : ∀ db row, Inv db → FreshUser db row → Inv (Database.apply (.insertKeyring row) db))
    (t : κ ⊕ ι) : (serviceTerms Inv).Covers (d.promise lib t) := by
  cases t with
  | inl k => exact userPromise_covers huser
  | inr i =>
    cases hcommand : d.command i with
    | request k req =>
      obtain rfl := hone i k req hcommand
      simp only [Deployment.promise, hcommand]
      exact requestPromise_covers hInv
    | user username =>
      simp only [Deployment.promise, hcommand]
      exact userPromise_covers huser

theorem keeps_prog (t : κ ⊕ ι) :
    (serviceTerms Inv).Keeps postgres (d.promise lib t) (Terms.Ends fun _ _ _ => True)
      (d.prog lib t) false .closed [] fun _ => True := by
  cases t with
  | inl k =>
    have hkeeps := keeps_start (c := serviceTerms Inv) (G := userPromise)
      (fun _ _ h => h.keyring) (fun _ row hfresh => ⟨row, hfresh, rfl⟩) (d.secretKey k)
    exact Terms.Keeps.bind (hkeeps.mono (fun _ _ _ _ h => h) fun _ _ _ _ _ _ _ _ => trivial)
  | inr i =>
    cases hcommand : d.command i with
    | request k req =>
      rw [Deployment.prog_request lib hcommand, Deployment.promise, hcommand]
      exact Terms.Keeps.bind (keeps_orand.mono (fun _ _ _ _ h => h) fun _ _ _ _ _ _ _ _ => trivial)
    | user username =>
      rw [Deployment.prog_user lib hcommand, Deployment.promise, hcommand]
      exact Terms.Keeps.map (keeps_addUser username)

end Promises

/-! ## Runs -/

section Runs

variable {κ ι : Type} [DecidableEq κ] [DecidableEq ι] {lib : Libraries} {d : Deployment κ ι}
  {db : Database} {w : World (κ ⊕ ι) Database Write DbErr Serial Draw Outcome}
  {events : List (Event (κ ⊕ ι) Database)}

omit [DecidableEq κ] [DecidableEq ι] in
/-- Only requests take the lock, and only of their node. -/
theorem lockFree_of_not_asked {k₀ : κ} (hone : ∀ i k req, d.command i = .request k req → k = k₀)
    (t : κ ⊕ ι) (hprocess : d.process t ≠ .inl k₀) : ((d.world lib db).threads t).LockFree := by
  cases t with
  | inl k => exact ⟨(lockFree_start (d.secretKey k)).bind fun _ => trivial, rfl⟩
  | inr i =>
    cases hcommand : d.command i with
    | request k req =>
      refine absurd ?_ hprocess
      rw [Deployment.process_request hcommand, hone i k req hcommand]
    | user username =>
      refine ⟨?_, rfl⟩
      change (d.prog lib (.inr i)).LockFree
      rw [Deployment.prog_user lib hcommand]
      exact (lockFree_user username).bind fun _ => trivial

/-- **The tables stay consistent**: whatever starts and is added side by side, and whatever is
asked of one node, in the context its start has returned, and whatever fails, they keep their keys
and links, every receiver has its chain of epochs, and every published row holds a proof the
virtual machine has accepted, signed for its epoch and the address of its receiver. -/
theorem tables_consistent {k₀ : κ} (hone : ∀ i k req, d.command i = .request k req → k = k₀)
    (hdb : Consistent lib.toCrypto (d.context k₀) db)
    (hrun : d.site.Run postgres (d.world lib db) events w) :
    Consistent lib.toCrypto (d.context k₀) w.db := by
  have hsingle := hrun.single (.inl k₀) (lockFree_of_not_asked hone)
  have hstart (t : κ ⊕ ι) : (d.world lib db).threads t = .spawn (d.prog lib t) := rfl
  have hcovers (t : κ ⊕ ι) : (serviceTerms (Consistent lib.toCrypto (d.context k₀))).Covers
      (d.promise lib t) :=
    promise_covers_of_asked hone Consistent.preserved (fun _ _ h => h.addUser) t
  exact (run_kept hcovers hstart hdb keeps_prog hsingle.1).inv

/-- The command line adds a user that breaks no constraint. -/
theorem run_addUser {a : Answer DbErr Serial Draw} (hfault : a.fault = none) {username name : String}
    (hname : decodeName (String.ofList (trim username.toList)) = some name)
    (hfresh : FreshUser db (newUser name ((List.ofFn (a.draw.bytes 0)).take 24)
      (.ofSecretKey a.draw.secretKey) a.serial)) (n : Nat) :
    ∃ row, postgres.run (fun _ => a) (addUser username) n db .closed =
      (some (.ok row), Database.apply (.insertKeyring row) db, .closed) := by
  generalize hrecord : newUser name ((List.ofFn (a.draw.bytes 0)).take 24)
    (.ofSecretKey a.draw.secretKey) = record at hfresh
  have hinsert : KeyringTable.insertStatement record a.serial db =
      .ok (.insertKeyring (record a.serial)) := by
    have hall : ∀ p : Keyring → Prop, [DecidablePred p] → (∀ k ∈ db.keyring, p k) →
        db.keyring.all (fun k => p k) = true := by simp
    simp only [KeyringTable.insertStatement, enforce, hall _ fun k hk => (hfresh k hk).1,
      hall _ fun k hk => (hfresh k hk).2.1, hall _ fun k hk => (hfresh k hk).2.2.1,
      hall _ fun k hk => (hfresh k hk).2.2.2]
    rfl
  refine ⟨record a.serial, ?_⟩
  rw [addUser]
  simp only [Store.run, hname, Prog.expect, Prog.ret_bind, hrecord, KeyringTable.insert,
    Store.onWrite, hfault, hinsert, Except.map]
  rfl

/-- A node that is asked twice, and a user. -/
def oneNode : Deployment Unit Nat where
  secretKey _ := none
  context _ := smallContext
  command i := if i < 2 then .request () (smallRequest "") else .user "carol"

/-- `alice` is served by the node once it listens. -/
theorem oneNode_asked {secret : String} {nonce : I64}
    {w : World (Unit ⊕ Nat) Database Write DbErr Serial Draw Outcome} {start}
    {events : List (Event (Unit ⊕ Nat) Database)} {i : Nat} (hi : i < 2)
    (hrun : oneNode.site.Run postgres start events w)
    (hunlocked : ∀ t, (w.threads t).locked = false)
    (hlistens : (w.threads (.inl ())).prog =
      .ret (.started .zero (.ofSecretKey smallContext.secretKey)))
    (hspawn : w.threads (.inr i) =
      .spawn (oneNode.prog (smallLibraries "alice" gamePayload) (.inr i)))
    (hplayed : Played secret w.db nonce) (hn : nonce.val < 21) :
    ∃ events' next db' t, oneNode.site.Run postgres start events'
        ⟨db', Function.update w.threads (.inr i) t⟩ ∧
      (∀ t', (Function.update w.threads (.inr i) t t').locked = false) ∧
      next.val = nonce.val + 1 ∧ Played secret db' next := by
  have hcommand : oneNode.command i = .request () (smallRequest "") := if_pos hi
  obtain ⟨next, db', hcall, hnext, hplayed'⟩ := run_orand_alice hplayed hn 0
  have hprog : postgres.run (fun _ => smallAnswer nonce)
      (oneNode.prog (smallLibraries "alice" gamePayload) (.inr i)) 0 w.db .closed =
      (some (.answered (ok "[]")), db', .closed) := by
    rw [Deployment.prog_request _ hcommand]
    exact Store.run_bind hcall
  obtain ⟨events', hrun', hunlocked'⟩ := hrun.call hunlocked hspawn
    (fun _ => Deployment.ready_request hcommand ⟨_, _, hlistens, rfl⟩) (balanced_prog _ _ _) hprog
  exact ⟨events', next, db', _, hrun', hunlocked', hnext, hplayed'⟩

/-- `carol` is new to the tables of `alice`. -/
theorem freshUser_carol {db : Database}
    (hkeyring : db.keyring = (aliceTables (Hex.encode
      (List.ofFn smallContext.secretKey.serialize))).keyring) (hmac : List Byte) {sk : SecretKey}
    (hsk : smallContext.secretKey ≠ sk) {serial : Serial} (hid : serial.id.val = 1) :
    FreshUser db (newUser "carol" hmac (.ofSecretKey sk) serial) := by
  have hids : I64.zero ≠ serial.id ∧ I64.max ≠ serial.id :=
    ⟨fun h => absurd (congrArg I64.val h) (by rw [hid]; decide),
      fun h => absurd (congrArg I64.val h) (by rw [hid]; decide)⟩
  have hpublic (s : String) (hs : Hex.decode s = some [] ∨ Hex.decode s = none) :
      s ≠ Hex.encode (KeyPair.ofSecretKey sk).toRaw.publicKey := by
    intro h
    rw [h, Hex.decode_encode] at hs
    rcases hs with hs | hs
    · cases hs
    · cases hs
  have hsecret : Hex.encode (List.ofFn smallContext.secretKey.serialize) ≠
      Hex.encode (List.ofFn sk.serialize) := by
    intro h
    have hread := congrArg KeyPair.ofString h
    rw [KeyPair.ofString_encode, KeyPair.ofString_encode, Option.some_inj] at hread
    exact hsk (congrArg KeyPair.secretKey hread)
  intro k hk
  rw [hkeyring] at hk
  rcases List.mem_cons.mp hk with rfl | hk
  · exact ⟨hids.1, (by decide : "orand" ≠ "carol"), hpublic "" (.inl rfl), hsecret⟩
  · obtain rfl := List.mem_singleton.mp hk
    exact ⟨hids.2, (by decide : "alice" ≠ "carol"), hpublic "0" (.inr rfl),
      encode_ne_empty fun h => absurd (congrArg List.length h) (by simp [KeyPair.toRaw])⟩

/-- The node takes its key from the tables, `alice` adds two epochs and `carol` becomes a user. -/
theorem tables_consistent_small :
    let lib := smallLibraries "alice" gamePayload
    let secret := Hex.encode (List.ofFn smallContext.secretKey.serialize)
    ∃ w events, oneNode.site.Run postgres (oneNode.world lib (aliceTables secret)) events w ∧
      w.db.keyring.length = 3 ∧ (w.db.epochs game.id).length = 2 ∧
      Consistent lib.toCrypto smallContext w.db := by
  intro lib secret
  have hsecret : secret ≠ "" :=
    (encode_ne_empty fun h => absurd (congrArg List.length h) (by simp)).symm
  have hholds : HoldsKey (aliceTables secret) .zero (.ofSecretKey smallContext.secretKey) :=
    ⟨_, rfl, rfl, KeyPair.ofString_encode smallContext.secretKey⟩
  have h₀ : oneNode.site.Run postgres (oneNode.world lib (aliceTables secret)) []
      (oneNode.world lib (aliceTables secret)) := .refl
  let node : Unit ⊕ Nat := .inl ()
  obtain ⟨_, h₁, hunlocked₁⟩ := h₀.call (i := node) (fun _ => rfl) rfl (fun _ => trivial)
    (balanced_prog lib oneNode node) (run_prog_start (a := smallAnswer .zero) rfl () 0 hholds)
  have hzero : Played secret (aliceTables secret) .zero :=
    .start (aliceTables secret).keyring [publicReceiver] game
  obtain ⟨_, nonce₂, db₂, t₂, h₂, hunlocked₂, hnext₂, hplayed₂⟩ :=
    oneNode_asked (i := 0) (by decide) h₁ hunlocked₁ rfl rfl hzero (by decide)
  obtain ⟨_, nonce₃, db₃, t₃, h₃, hunlocked₃, hnext₃, hplayed₃⟩ :=
    oneNode_asked (i := 1) (by decide) h₂ hunlocked₂ rfl rfl hplayed₂ (by rw [hnext₂]; decide)
  let answer : Answer DbErr Serial Draw :=
    ⟨none, ⟨⟨1, by decide, by decide⟩, 0⟩, ⟨fun _ _ => 0, ⟨2, by decide⟩, "other", 5⟩⟩
  have hfresh : FreshUser db₃ (newUser "carol" ((List.ofFn (answer.draw.bytes 0)).take 24)
      (.ofSecretKey answer.draw.secretKey) answer.serial) :=
    freshUser_carol hplayed₃.keyring _ (by decide) rfl
  have hname : decodeName (String.ofList (trim "carol".toList)) = some "carol" := by decide
  have hcarol : oneNode.command 2 = .user "carol" := rfl
  obtain ⟨row, hadd⟩ := run_addUser (a := answer) rfl hname hfresh 0
  have hprog : postgres.run (fun _ => answer) (oneNode.prog lib (.inr 2)) 0 db₃ .closed =
      (some (.added (.ok row)), Database.apply (.insertKeyring row) db₃, .closed) := by
    rw [Deployment.prog_user lib hcarol]
    exact Store.run_bind hadd
  obtain ⟨_, h₄, -⟩ := h₃.call hunlocked₃ rfl (fun _ => Deployment.ready_user hcarol _)
    (balanced_prog lib oneNode (.inr 2)) hprog
  have hone (i : Nat) (k : Unit) (req : Request) (_ : oneNode.command i = .request k req) :
      k = () := rfl
  refine ⟨_, _, h₄, ?_, ?_, tables_consistent hone (consistent_aliceTables _ _ hsecret) h₄⟩
  · change (db₃.keyring ++ [row]).length = 3
    rw [hplayed₃.keyring]
    rfl
  · have hlength := hplayed₃.chain.nonce
    have hnonce : nonce₂.val = 1 := hnext₂
    change (db₃.epochs game.id).length = 2
    rw [hplayed₃.epochs]
    omega

end Runs

end Node
