import Orochimaru.Lib.Processes
import Orochimaru.Node.Accounts

/-!
# Nodes

A node that starts takes the key of `orand` from the tables, or makes it, and is asked in this
context; the command line adds users. Each node has its own lock. Nodes that start side by side,
with requests and commands among them, hold one key, and a node that starts later holds it too.
-/

namespace Libecvrf.KeyPair

open Node

/-- `KeyPair::from` of a string. -/
def ofString (value : String) : Option KeyPair := do
  ofBytes (← Hex.decodeToSlice 32 (String.ofList (trim value.toList)))

theorem ofString_ofSecretKey {value : String} {keypair : KeyPair} (h : ofString value = some keypair) :
    ofSecretKey keypair.secretKey = keypair := by
  rw [ofString, Option.bind_eq_bind, Option.bind_eq_some_iff] at h
  obtain ⟨bytes, -, hbytes⟩ := h
  obtain ⟨sk, -, rfl⟩ := Option.map_eq_some_iff.mp hbytes
  rfl

theorem trim_of_black {s : List Char} (h : ∀ c ∈ s, ¬isWhiteSpace c) : trim s = s := by
  have hhead : ∀ c ∈ s.head?, ¬isWhiteSpace c := fun c hc => h c (List.mem_of_mem_head? hc)
  have hlast : ∀ c ∈ s.reverse.head?, ¬isWhiteSpace c := by
    intro c hc
    exact h c (List.mem_reverse.mp (List.mem_of_mem_head? hc))
  rw [trim, dropWhile_black hhead, dropWhile_black hlast, List.reverse_reverse]

/-- A key is read back from the row it is stored in. -/
theorem ofString_encode (sk : SecretKey) :
    ofString (Hex.encode (List.ofFn sk.serialize)) = some (ofSecretKey sk) := by
  have hblack : ∀ c ∈ (Hex.encode (List.ofFn sk.serialize)).toList, ¬isWhiteSpace c := by
    have hall : ∀ n, ¬isWhiteSpace (Hex.digit n) := by decide
    intro c hc
    obtain ⟨n, rfl⟩ := mem_encode hc
    exact hall n
  rw [ofString, trim_of_black hblack, String.ofList_toList, Hex.decodeToSlice_encode]
  change (SecretKey.parse sk.serialize).map ofSecretKey = _
  rw [SecretKey.parse_serialize]
  rfl

end Libecvrf.KeyPair

namespace Node

open Transactions Zkmemory Libecvrf QuickResponse

/-! ## Programs -/

/-- What `main` does before it listens, with the variable `SECRET_KEY`. -/
def start (secretKey : Option String) : Async (I64 × KeyPair) := do
  match ← KeyringTable.findByName orandKeyringName with
  | .error _ => .panic
  | .ok none => .draw fun d => do
    let newKeypair ← match secretKey with
      | some r => .expect (KeyPair.ofString r)
      | none => .ret (.ofSecretKey d.secretKey)
    match ← KeyringTable.insert (newUser orandKeyringName (List.ofFn (d.bytes 0)) newKeypair) with
    | .ok record => return (record.id, newKeypair)
    | .error _ => .panic
  | .ok (some k) => do
    let keypair ← .expect (KeyPair.ofString k.secretKey)
    return (k.id, keypair)

/-- The command `user` of the command line. -/
@[irreducible] def addUser (username : String) : Async (Except DbErr Keyring) := .draw fun d => do
  let username ← .expect (decodeName (String.ofList (trim username.toList)))
  KeyringTable.insert
    (newUser username ((List.ofFn (d.bytes 0)).take 24) (.ofSecretKey d.secretKey))

/-- A request at a node, or a user added on the command line. -/
inductive Command (κ : Type)
  | request (node : κ) (req : Request)
  | user (username : String)

inductive Outcome
  | started (keyId : I64) (keypair : KeyPair)
  | answered (resp : Response)
  | added (r : Except DbErr Keyring)

def NodeContext.new (keyId : I64) (keypair : KeyPair) : NodeContext := ⟨keyId, keypair.secretKey⟩

/-- Nodes over one database, each with its variable `SECRET_KEY` and the context its start
returns, and the commands among them. -/
structure Deployment (κ ι : Type) where
  secretKey : κ → Option String
  context : κ → NodeContext
  command : ι → Command κ

namespace Deployment

variable {κ ι : Type} (lib : Libraries) (d : Deployment κ ι)

/-- The start of each node, and the commands. -/
def prog : κ ⊕ ι → Async Outcome
  | .inl k => do
    let (keyId, keypair) ← start (d.secretKey k)
    return .started keyId keypair
  | .inr i =>
    match d.command i with
    | .request k req => return .answered (← orand lib (d.context k) req)
    | .user username => return .added (← addUser username)

/-- A request is served by the process of its node. -/
def process : κ ⊕ ι → κ ⊕ ι
  | .inl k => .inl k
  | .inr i =>
    match d.command i with
    | .request k _ => .inl k
    | .user _ => .inr i

/-- The start of the node has returned its context. -/
def Listens (threads : κ ⊕ ι → Thread Database Write DbErr Serial Draw Outcome) (k : κ) : Prop :=
  ∃ keyId keypair, (threads (.inl k)).prog = .ret (.started keyId keypair) ∧
    d.context k = .new keyId keypair

/-- A request waits for its node to listen. -/
def Ready (threads : κ ⊕ ι → Thread Database Write DbErr Serial Draw Outcome) : κ ⊕ ι → Prop
  | .inl _ => True
  | .inr i =>
    match d.command i with
    | .request k _ => d.Listens threads k
    | .user _ => True

def site : Site (κ ⊕ ι) (κ ⊕ ι) Database Write DbErr Serial Draw Outcome := ⟨d.process, d.Ready⟩

def world (db : Database) : World (κ ⊕ ι) Database Write DbErr Serial Draw Outcome :=
  ⟨db, fun t => .spawn (d.prog lib t)⟩

variable {d} {i : ι}

theorem prog_request {k : κ} {req : Request} (h : d.command i = .request k req) :
    d.prog lib (.inr i) = (do return .answered (← orand lib (d.context k) req)) := by
  rw [prog, h]

theorem prog_user {username : String} (h : d.command i = .user username) :
    d.prog lib (.inr i) = (do return .added (← addUser username)) := by
  rw [prog, h]

theorem process_request {k : κ} {req : Request} (h : d.command i = .request k req) :
    d.process (.inr i) = .inl k := by
  rw [process, h]

theorem ready_request {k : κ} {req : Request} (h : d.command i = .request k req)
    {threads : κ ⊕ ι → Thread Database Write DbErr Serial Draw Outcome}
    (hlistens : d.Listens threads k) : d.site.ready threads (.inr i) := by
  change d.Ready threads (.inr i)
  rw [Ready, h]
  exact hlistens

theorem ready_user {username : String} (h : d.command i = .user username)
    (threads : κ ⊕ ι → Thread Database Write DbErr Serial Draw Outcome) :
    d.site.ready threads (.inr i) := by
  change d.Ready threads (.inr i)
  rw [Ready, h]
  trivial

end Deployment

/-! ### The lock -/

theorem lockFree_insert (record : Serial → Keyring) : (KeyringTable.insert record).LockFree :=
  fun _ => trivial

/-- A start takes no lock, as nobody is served before it ends. -/
theorem lockFree_start (secretKey : Option String) : (start secretKey).LockFree := by
  rw [start, KeyringTable.findByName, Prog.query_bind]
  intro r
  rcases r with e | db
  · trivial
  simp only [Except.map]
  cases db.keyring.find? fun k => k.username = orandKeyringName with
  | some k =>
    dsimp only
    generalize KeyPair.ofString k.secretKey = read
    exact Prog.lockFree_expect fun keypair => trivial
  | none =>
    intro d
    cases secretKey with
    | none => exact (lockFree_insert _).bind fun r => by cases r <;> trivial
    | some value =>
      dsimp only
      generalize KeyPair.ofString value = read
      refine Prog.lockFree_expect fun keypair => (lockFree_insert _).bind fun r => ?_
      cases r <;> trivial

theorem lockFree_user (username : String) : (Node.addUser username).LockFree := by
  rw [Node.addUser]
  intro d
  beta_reduce
  generalize decodeName (String.ofList (trim username.toList)) = name
  exact Prog.lockFree_expect fun username => lockFree_insert _

/-- Only a request takes the lock, and it gives it back. -/
theorem balanced_prog {κ ι : Type} (lib : Libraries) (d : Deployment κ ι) (t : κ ⊕ ι) :
    (d.prog lib t).Balanced false := by
  cases t with
  | inl k => exact (lockFree_start (d.secretKey k)).balanced_bind fun _ => rfl
  | inr i =>
    cases hcommand : d.command i with
    | request k req =>
      rw [Deployment.prog_request lib hcommand]
      exact (balanced_orand req).bind fun _ => rfl
    | user username =>
      rw [Deployment.prog_user lib hcommand]
      exact (lockFree_user username).balanced_bind fun _ => rfl

/-! ## The key of `orand` -/

/-- The tables hold this key for `orand`. -/
def HoldsKey (db : Database) (keyId : I64) (keypair : KeyPair) : Prop :=
  ∃ row, db.keyring.find? (fun k => k.username = orandKeyringName) = some row ∧ row.id = keyId ∧
    KeyPair.ofString row.secretKey = some keypair

theorem HoldsKey.of_prefix {db db' : Database} {keyId : I64} {keypair : KeyPair}
    (h : HoldsKey db keyId keypair) (hkeyring : db.keyring <+: db'.keyring) :
    HoldsKey db' keyId keypair := by
  obtain ⟨row, hfind, hrow⟩ := h
  obtain ⟨rest, hrest⟩ := hkeyring
  refine ⟨row, ?_, hrow⟩
  rw [← hrest, List.find?_append, hfind]
  rfl

theorem HoldsKey.unique {db : Database} {keyId keyId' : I64} {keypair keypair' : KeyPair}
    (h : HoldsKey db keyId keypair) (h' : HoldsKey db keyId' keypair') :
    keyId' = keyId ∧ keypair' = keypair := by
  obtain ⟨row, hfind, rfl, hkey⟩ := h
  obtain ⟨row', hfind', rfl, hkey'⟩ := h'
  obtain rfl := Option.some.inj (hfind.symm.trans hfind')
  exact ⟨rfl, Option.some.inj (hkey'.symm.trans hkey)⟩

theorem FreshUser.ne {db : Database} {row : Keyring} : Database.apply (.insertKeyring row) db ≠ db := by
  intro heq
  have hlength := congrArg (fun db : Database => db.keyring.length) heq
  simp [Database.apply] at hlength

section Start

variable {c : Terms Database} {G : Guarantee Database}
  (hkeyring : ∀ db db', c.Any db db' → db.keyring <+: db'.keyring)
  (hinsert : ∀ db row, FreshUser db row → G false [] db (Database.apply (.insertKeyring row) db))
include hkeyring hinsert

/-- The end of a start, with the key it has made. -/
theorem keeps_insertKey (hmac : List Byte) {keypair : KeyPair}
    (hkey : KeyPair.ofSecretKey keypair.secretKey = keypair) {P : Database → Prop} :
    c.Keeps postgres G (Terms.Ends fun r _ now => HoldsKey now r.1 r.2)
      (KeyringTable.insert (newUser orandKeyringName hmac keypair) >>= fun
        | .ok record => .ret (record.id, keypair)
        | .error _ => .panic) false .closed [] P := by
  refine Terms.keeps_write_closed (fun _ _ => trivial) fun serial w db _ _ hw => ?_
  obtain ⟨rfl, hfresh⟩ := KeyringTable.insertStatement_fresh hw
  refine ⟨FreshUser.ne, hinsert db _ hfresh, fun db' hknown => ?_⟩
  refine HoldsKey.of_prefix ⟨_, hfresh.find, rfl, ?_⟩ (hkeyring _ _ hknown.1)
  have hread := KeyPair.ofString_encode keypair.secretKey
  rwa [hkey] at hread

theorem keeps_start (secretKey : Option String) :
    c.Keeps postgres G (Terms.Ends fun r _ now => HoldsKey now r.1 r.2) (start secretKey) false
      .closed [] fun _ => True := by
  rw [start, KeyringTable.findByName, Prog.query_bind]
  refine Terms.keeps_read_closed (fun _ _ => trivial) fun db _ _ => ?_
  simp only [Except.map]
  cases hfind : db.keyring.find? (fun k => k.username = orandKeyringName) with
  | none =>
    intro d
    cases secretKey with
    | none => exact keeps_insertKey hkeyring hinsert _ rfl
    | some r =>
      dsimp only
      generalize hread : KeyPair.ofString r = read
      refine Terms.keeps_expect fun keypair hkey => ?_
      exact keeps_insertKey hkeyring hinsert _ (KeyPair.ofString_ofSecretKey (hread.trans hkey))
  | some k =>
    dsimp only
    generalize hread : KeyPair.ofString k.secretKey = read
    refine Terms.keeps_expect fun keypair hkey now hknown => ?_
    exact HoldsKey.of_prefix ⟨k, hfind, rfl, hread.trans hkey⟩ (hkeyring _ _ hknown.1)

end Start

/-- A start over tables with a key. -/
theorem run_start {env : Nat → Answer DbErr Serial Draw} (hfault : ∀ k, (env k).fault = none)
    (n : Nat) (secretKey : Option String) {db : Database} {keyId : I64} {keypair : KeyPair}
    (h : HoldsKey db keyId keypair) :
    postgres.run env (start secretKey) n db .closed = (some (keyId, keypair), db, .closed) := by
  obtain ⟨row, hfind, rfl, hkey⟩ := h
  simp only [start, KeyringTable.findByName, Prog.query_bind, Store.run, Store.onRead, hfault,
    Store.view, Except.map, hfind, hkey, Prog.expect, Prog.ret_bind]
  rfl

theorem run_prog_start {κ ι : Type} {lib : Libraries} {d : Deployment κ ι}
    {a : Answer DbErr Serial Draw} (hfault : a.fault = none) (k : κ) (n : Nat) {db : Database}
    {keyId : I64} {keypair : KeyPair} (h : HoldsKey db keyId keypair) :
    postgres.run (fun _ => a) (d.prog lib (.inl k)) n db .closed =
      (some (.started keyId keypair), db, .closed) :=
  Store.run_bind (run_start (fun _ => hfault) n (d.secretKey k) h)

/-- Rows of the keyring are only added. -/
def keyringTerms : Terms Database where
  Inv _ := True
  Any db db' := db.keyring <+: db'.keyring
  Free db db' := db.keyring <+: db'.keyring
  any_refl _ := List.prefix_rfl
  any_trans := List.IsPrefix.trans
  free_refl _ := List.prefix_rfl
  free_trans := List.IsPrefix.trans

theorem apply_keyring (w : Write) (db : Database) : db.keyring <+: (Database.apply w db).keyring := by
  cases w with
  | insertKeyring row => exact List.prefix_append _ _
  | insertReceiver | deleteReceiver | updateNonce | insertRandomness => exact List.prefix_rfl

section Keys

variable {κ ι : Type} [DecidableEq κ] [DecidableEq ι] {lib : Libraries} {d : Deployment κ ι}
  {db : Database} {w : World (κ ⊕ ι) Database Write DbErr Serial Draw Outcome}
  {events : List (Event (κ ⊕ ι) Database)}

/-- The key a start returns is that of the tables from then on. -/
def KeyTold (r : Outcome) (_ : List (Database × Database)) (now : Database) : Prop :=
  ∀ keyId keypair, r = .started keyId keypair → HoldsKey now keyId keypair

omit [DecidableEq κ] [DecidableEq ι] in
theorem keeps_keys (t : κ ⊕ ι) :
    keyringTerms.Keeps postgres (fun _ _ => keyringTerms.Any) (Terms.Ends KeyTold)
      (d.prog lib t) false .closed [] fun _ => True := by
  cases t with
  | inl k =>
    have hkeeps := keeps_start (c := keyringTerms) (G := fun _ _ => keyringTerms.Any)
      (fun _ _ h => h) (fun db row _ => apply_keyring (.insertKeyring row) db) (d.secretKey k)
    refine Terms.Keeps.map (hkeeps.mono (fun _ _ _ _ h => h) fun r _ _ _ P h now hnow => ?_)
    intro keyId keypair hr
    cases hr
    exact h now hnow
  | inr i =>
    have htold : ∀ {α : Type} {f : α → Outcome} (p : Async α),
        (∀ a keyId keypair, f a ≠ .started keyId keypair) →
        keyringTerms.Keeps postgres (fun _ _ => keyringTerms.Any) (Terms.Ends KeyTold)
          (p >>= fun a => .ret (f a)) false .closed [] fun _ => True := by
      intro α f p hf
      refine Terms.Keeps.map ((Terms.keeps_any apply_keyring p false .closed [] _).mono
        (fun _ _ _ _ h => h) fun a _ _ _ _ _ _ _ => ?_)
      exact fun keyId keypair hr => absurd hr (hf a keyId keypair)
    cases hcommand : d.command i with
    | request k req =>
      rw [Deployment.prog_request lib hcommand]
      exact htold _ fun _ _ _ h => by cases h
    | user username =>
      rw [Deployment.prog_user lib hcommand]
      exact htold _ fun _ _ _ h => by cases h

/-- **One key.** However many nodes start side by side, with requests and commands among them and
whatever fails, those that get to listen hold one key, and a node that starts later holds it too
and changes nothing. -/
theorem nodes_share_key (hrun : d.site.Run postgres (d.world lib db) events w) {t : κ ⊕ ι}
    {keyId : I64} {keypair : KeyPair} (hret : (w.threads t).prog = .ret (.started keyId keypair)) :
    (∀ t' keyId' keypair', (w.threads t').prog = .ret (.started keyId' keypair') →
      keyId' = keyId ∧ keypair' = keypair) ∧
    ∀ (env : Nat → Answer DbErr Serial Draw) n secretKey, (∀ k, (env k).fault = none) →
      postgres.run env (start secretKey) n w.db .closed =
        (some (keyId, keypair), w.db, .closed) := by
  have hkept := Site.run_kept (c := keyringTerms) (G := fun _ _ _ => keyringTerms.Any)
    (Q := fun _ => KeyTold) (fun _ _ h => h) (fun _ _ _ _ _ _ h => ⟨trivial, h, fun _ => h⟩)
    (fun _ => rfl) trivial keeps_keys hrun
  have hholds := hkept.post hret _ _ rfl
  refine ⟨fun t' keyId' keypair' hret' => hholds.unique (hkept.post hret' _ _ rfl), ?_⟩
  exact fun env n secretKey hfault => run_start hfault n secretKey hholds

end Keys

/-- Three nodes without a variable, and nothing else. -/
def threeNodes : Deployment (Fin 3) Empty := ⟨fun _ => none, fun _ => smallContext, Empty.elim⟩

/-- Two nodes find no key, and the one that comes second fails. -/
theorem two_start (lib : Libraries) :
    let keypair := KeyPair.ofSecretKey smallContext.secretKey
    ∃ events w, threeNodes.site.Run postgres (threeNodes.world lib ⟨[], [], []⟩) events w ∧
      (w.threads (.inl 0)).prog = .ret (.started .max keypair) ∧
      (w.threads (.inl 1)).prog = .panic ∧
      w.threads (.inl 2) = .spawn (threeNodes.prog lib (.inl 2)) ∧
      (∀ t, (w.threads t).locked = false) ∧ HoldsKey w.db .max keypair := by
  intro keypair
  let start := threeNodes.world lib ⟨[], [], []⟩
  let first : Fin 3 ⊕ Empty := .inl 0
  let second : Fin 3 ⊕ Empty := .inl 1
  have h₀ : threeNodes.site.Run postgres start [] start := .refl
  have h₁ := h₀.tail (.exec (i := first) (smallAnswer .max) trivial rfl fun h => h.elim)
  have h₂ := h₁.tail (.exec (i := second) (smallAnswer .max) trivial rfl fun h => h.elim)
  have h₃ := h₂.tail (.exec (i := first) (smallAnswer .max) trivial rfl fun h => h.elim)
  have h₄ := h₃.tail (.exec (i := first) (smallAnswer .max) trivial rfl fun h => h.elim)
  have h₅ := h₄.tail (.exec (i := second) (smallAnswer .zero) trivial rfl fun h => h.elim)
  have h₆ := h₅.tail (.exec (i := second) (smallAnswer .zero) trivial rfl fun h => h.elim)
  refine ⟨_, _, h₆, rfl, rfl, rfl, ?_, _, rfl, rfl, KeyPair.ofString_encode smallContext.secretKey⟩
  rintro (t | t)
  · fin_cases t <;> rfl
  · exact t.elim

/-- A third node takes the key of the first one. -/
theorem nodes_share_key_three :
    let keypair := KeyPair.ofSecretKey smallContext.secretKey
    ∃ (w : World (Fin 3 ⊕ Empty) Database Write DbErr Serial Draw Outcome),
      (w.threads (.inl 0)).prog = .ret (.started .max keypair) ∧
      (w.threads (.inl 1)).prog = .panic ∧
      (w.threads (.inl 2)).prog = .ret (.started .max keypair) ∧
      (∀ t' keyId' keypair', (w.threads t').prog = .ret (.started keyId' keypair') →
        keyId' = .max ∧ keypair' = keypair) ∧
      ∀ (env : Nat → Answer DbErr Serial Draw) n secretKey, (∀ k, (env k).fault = none) →
        postgres.run env (start secretKey) n w.db .closed =
          (some (.max, keypair), w.db, .closed) := by
  intro keypair
  let lib := smallLibraries "alice" gamePayload
  obtain ⟨events, w, hrun, hfirst, hsecond, hthird, hunlocked, hholds⟩ := two_start lib
  have hcall : postgres.run (fun _ => smallAnswer .max) (threeNodes.prog lib (.inl 2)) 0 w.db
      .closed = (some (.started .max keypair), w.db, .closed) := run_prog_start rfl 2 0 hholds
  obtain ⟨events', hrun', -⟩ :=
    hrun.call hunlocked hthird (fun _ => trivial) (balanced_prog _ _ _) hcall
  let last : World (Fin 3 ⊕ Empty) Database Write DbErr Serial Draw Outcome :=
    ⟨w.db, Function.update w.threads (.inl 2) ⟨.ret (.started .max keypair), .closed, false⟩⟩
  exact ⟨last, hfirst, hsecond, rfl, nodes_share_key hrun' (t := .inl 0) hfirst⟩

end Node
