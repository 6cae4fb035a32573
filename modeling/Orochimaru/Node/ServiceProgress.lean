import Orochimaru.Node.EpochProgress
import Orochimaru.Node.ServiceRuns

/-!
# A request that gets through

Every request gives back the lock, so it gets through once it is left alone. A token that is valid
is let in, and the user of a receiver adds its epochs one request after the other.
-/

namespace Node

open Transactions Zkmemory Libecvrf QuickResponse

/-! ## The lock -/

section Locks

variable {lib : Libraries} {context : NodeContext}

theorem lockFree_verified {jwtPayload : JWTPayload} {e : Error} {key : Option JWT}
    {verify : JWT → Option Bool} :
    (do
      let jwt ← .expect key
      let verified ← .expect (verify jwt)
      if verified then return .ok jwtPayload
      else return .error e : Async (Except Error JWTPayload)).LockFree := by
  refine Prog.lockFree_expect fun jwt => Prog.lockFree_expect fun verified => ?_
  cases verified <;> trivial

theorem lockFree_authorize (authorization : Option (List Byte)) :
    (authorize lib authorization).LockFree := by
  cases authorization with
  | none => trivial
  | some value =>
    rw [authorize]
    split
    case h_1 => trivial
    case h_2 jsonWebToken _ =>
      intro d
      beta_reduce
      split
      case h_1 => trivial
      case h_2 jwtPayload _ =>
        intro r
        rcases r with e | db
        · trivial
        simp only [Except.map]
        cases db.keyring.find? fun k => k.username = jwtPayload.user with
        | none => trivial
        | some userRecord =>
          generalize JWT.new userRecord.hmacSecret = key
          exact lockFree_verified

theorem lockFree_getEpoch (network epoch : I64) (address : String) :
    (orandGetEpoch lib network address epoch).LockFree := by
  rw [orandGetEpoch_eq]
  intro r
  rcases r with e | db
  · trivial
  simp only [Except.map]
  cases db.receiver.find? fun r => r.address = address ∧ r.network = network with
  | none => trivial
  | some receiver =>
    intro r
    cases r <;> trivial

theorem lockFree_addUser (username : String) : (adminAddUser lib username).LockFree := by
  intro r
  rcases r with e | db
  · trivial
  simp only [Except.map]
  cases db.keyring.find? fun k => k.username = username with
  | some record => trivial
  | none =>
    intro d r
    cases r <;> trivial

theorem lockFree_addReceiver (username address : String) (network : I64) :
    (adminAddReceiver lib username address network).LockFree := by
  intro r
  rcases r with e | db
  · trivial
  simp only [Except.map]
  cases db.keyring.find? fun k => k.username = username with
  | none => trivial
  | some modelKeyring =>
    intro r
    rcases r with e | db
    · trivial
    simp only [Except.map]
    cases db.receiver.find? fun r => r.address = address ∧ r.network = network with
    | some receiver => trivial
    | none =>
      intro d r
      cases r <;> trivial

theorem lockFree_getUser (username : String) : (adminGetUser lib username).LockFree := by
  intro r
  rcases r with e | db
  · trivial
  simp only [Except.map]
  cases db.keyring.find? fun k => k.username = username <;> trivial

/-- Only a new epoch takes the lock. -/
theorem balanced_perform (user : String) (m : JSONRPCMethod) :
    (perform lib context user m).Balanced false := by
  cases m with
  | orandGetEpoch network address epoch => exact (lockFree_getEpoch _ _ _).balanced
  | orandNewEpoch network address =>
    rw [perform]
    split
    case isTrue => rfl
    case isFalse =>
      refine (balanced_safeInsert _ _ _).bind fun r => ?_
      cases r <;> rfl
  | orandNewPrivateEpoch => rfl
  | orandGetPublicKey keyName =>
    intro r
    cases r <;> trivial
  | adminAddUser username =>
    rw [perform]
    split
    case isTrue => exact (lockFree_addUser _).balanced
    case isFalse => rfl
  | adminAddReceiver username address network =>
    rw [perform]
    split
    case isTrue => exact (lockFree_addReceiver _ _ _).balanced
    case isFalse => rfl
  | adminGetUser username =>
    rw [perform]
    split
    case isTrue => exact (lockFree_getUser _).balanced
    case isFalse => rfl
  | adminGetReceiver username =>
    intro r
    cases r <;> trivial
  | adminRemoveReceiver username receiverId =>
    intro r
    cases r <;> rfl

/-- A request waits for the lock once and has given it back with its answer. -/
theorem balanced_orand (req : Request) : (orand lib context req).Balanced false := by
  rw [orand]
  split
  case isFalse => rfl
  case isTrue =>
    split
    case isTrue => rfl
    case isFalse =>
      refine Prog.balanced_expect fun wholeBody => Prog.balanced_expect fun jsonString => ?_
      refine Prog.balanced_expect fun parsed => ?_
      cases parsed with
      | error e => rfl
      | ok m =>
        refine (lockFree_authorize _).balanced.bind fun r => ?_
        cases r with
        | error e => rfl
        | ok jwtPayload => exact balanced_perform _ _

end Locks

/-! ## A request without failures -/

section Requests

variable {lib : Libraries} {context : NodeContext} {db : Database}

/-- Over the tables a token is authenticated with the stored secret of the user it names. -/
theorem run_authorize {env : Nat → Answer DbErr Serial Draw} (hfault : ∀ k, (env k).fault = none)
    (n : Nat) {authorization : Option (List Byte)} {jsonWebToken : String} {jwtPayload : JWTPayload}
    {record : Keyring} (hheader : authorization.bind headerToStr = some jsonWebToken)
    (hdecode : JWT.decodePayload lib.toTokenFormat (env n).draw.now jsonWebToken = .ok jwtPayload)
    (hfind : db.keyring.find? (fun k => k.username = jwtPayload.user) = some record) :
    postgres.run env (authorize lib authorization) n db .closed =
      (authenticate lib.toTokenFormat (fun _ => record.hmacSecret) (env n).draw.now jsonWebToken,
        db, .closed) := by
  obtain ⟨value, rfl, hvalue⟩ := Option.bind_eq_some_iff.mp hheader
  rw [authorize, authenticate, hdecode]
  simp only [hvalue, Store.run, hdecode, KeyringTable.findByName, Prog.query_bind, Store.onRead,
    hfault, Store.view, Except.map, hfind]
  generalize JWT.new record.hmacSecret = key
  cases key with
  | none => rfl
  | some jwt =>
    simp only [Prog.expect, Prog.ret_bind, Option.bind_eq_bind, Option.bind_some]
    generalize jwt.verify lib.toTokenFormat jsonWebToken = verified
    rcases verified with _ | _ | _ <;> rfl

/-- Up to the method it asks for. -/
theorem run_orand {a : Answer DbErr Serial Draw} {req : Request} {m : JSONRPCMethod}
    {jwtPayload : JWTPayload} (hmethod : req.method = "POST") (hpath : req.path = "/")
    (hupper : req.upper.getD (2 ^ 64 - 1) ≤ 1024 * 64) (hasks : Asks lib req m)
    (hauthorize : ∀ n, postgres.run (fun _ => a) (authorize lib req.authorization) n db .closed =
      (some (.ok jwtPayload), db, .closed)) (n : Nat) :
    postgres.run (fun _ => a) (orand lib context req) n db .closed =
      postgres.run (fun _ => a) (perform lib context jwtPayload.user m) n db .closed := by
  obtain ⟨body, jsonString, hbody, hutf8, hparse⟩ := hasks
  rw [orand, if_pos ⟨hmethod, hpath⟩, if_neg (not_lt.mpr hupper)]
  simp only [hbody, hutf8, hparse, Prog.expect, Prog.ret_bind]
  exact Store.run_bind (hauthorize n)

/-- A new epoch and its answer. -/
theorem run_newEpoch {a : Answer DbErr Serial Draw} {user address : String} {network : I64}
    (hprivate : address ≠ zeroAddress) {n : Nat} {row : Randomness} {db' : Database}
    (hcall : postgres.run (fun _ => a) (safeInsert lib.toCrypto context user network address) n db
      .closed = (some (.ok row), db', .closed)) :
    postgres.run (fun _ => a) (perform lib context user (.orandNewEpoch network address)) n db
      .closed = (some (resJson lib (row.toJson lib)), db', .closed) := by
  rw [perform, if_neg fun h => hprivate h.1]
  exact Store.run_bind hcall

end Requests

/-! ## A small service -/

/-- One token, of this user, and a payload for each body. -/
def smallLibraries (user : String) (payload : String → JSONRPCPayload) : Libraries where
  toCrypto := smallCrypto
  decode s := if s = "p" then some [1] else if s = "s" then some [2] else none
  fromSlice message := if message = [1] then some ⟨user, 0, 1, 9⟩ else none
  hmacSha256 _ message := if message = [1] then [2] else []
  fromStr s := some (payload s)
  fromUtf8 bytes := some (String.ofList (bytes.map fun b => Char.ofNat b.val))
  formatDate _ := "1970-01-01T00:00:00"
  toStringPretty
    | .arr elems => some (toString elems.length)
    | _ => some "[]"

def smallRequest (body : String) : Request :=
  ⟨"POST", "/", some 0, some (asciiBytes body), some (asciiBytes "h.p.s")⟩

def gameAddress : String := "0x1111111111111111111111111111111111111111"

def game : Receiver := ⟨.max, .max, "game", gameAddress, .zero, .zero, 0⟩

def publicReceiver : Receiver := ⟨.zero, .zero, "public", zeroAddress, .zero, .zero, 0⟩

/-- `orand` with its secrets and the public receiver, and `alice` with a game. -/
def aliceTables (secret : String) : Database :=
  ⟨[⟨.zero, "orand", secret, "", secret, 0⟩, ⟨.max, "alice", "00", "0", "", 0⟩],
    [publicReceiver, game], []⟩

/-- The payloads of `alice`, who asks for a new epoch of the game unless the body says what else. -/
def gamePayload (body : String) : JSONRPCPayload :=
  if body = "epochs" then ⟨"orand_getPrivateEpoch", ["0", gameAddress, "99"]⟩
  else if body = "key" then ⟨"orand_getPublicKey", ["orand"]⟩
  else ⟨"orand_newPrivateEpoch", ["0", gameAddress]⟩

/-- The tables of `alice` after some epochs of her game. -/
abbrev Played (secret : String) (db : Database) (nonce : I64) : Prop :=
  Growing (aliceTables secret).keyring [publicReceiver] game db nonce

theorem place_game (secret : String) :
    Place (aliceTables secret).keyring [publicReceiver] "alice" game where
  key := ⟨_, List.mem_cons_self, rfl⟩
  owned := by
    refine List.mem_map.mpr ⟨⟨.max, "alice", "00", "0", "", 0⟩, List.mem_filter.mpr ⟨?_, ?_⟩, rfl⟩
    · exact List.mem_cons_of_mem _ List.mem_cons_self
    · decide
  others := by decide
  address := ⟨fun _ => 17, by decide⟩

theorem run_authorize_alice {secret : String} {db : Database} {nonce : I64}
    (h : Played secret db nonce) (id : I64) (n : Nat) :
    postgres.run (fun _ => smallAnswer id) (authorize (smallLibraries "alice" gamePayload)
      (some (asciiBytes "h.p.s"))) n db .closed = (some (.ok ⟨"alice", 0, 1, 9⟩), db, .closed) := by
  have hfind : db.keyring.find? (fun k => k.username = "alice") =
      some ⟨.max, "alice", "00", "0", "", 0⟩ := by
    rw [h.keyring, aliceTables, List.find?_cons_of_neg (by simp), List.find?_cons_of_pos (by simp)]
  have hdecode : JWT.decodePayload (smallLibraries "alice" gamePayload).toTokenFormat 5 "h.p.s" =
      .ok ⟨"alice", 0, 1, 9⟩ := rfl
  have hheader : (some (asciiBytes "h.p.s")).bind headerToStr = some "h.p.s" := by decide
  rw [run_authorize (fun _ => rfl) n hheader hdecode hfind]
  rfl

/-- Each of her requests adds an epoch. -/
theorem run_orand_alice {secret : String} {db : Database} {nonce : I64} (h : Played secret db nonce)
    (hn : nonce.val < 21) (n : Nat) :
    ∃ next db', postgres.run (fun _ => smallAnswer nonce)
      (orand (smallLibraries "alice" gamePayload) smallContext (smallRequest "")) n db .closed =
        (some (ok "[]"), db', .closed) ∧ next.val = nonce.val + 1 ∧ Played secret db' next := by
  obtain ⟨next, row, db', hcall, hnext, hplayed⟩ := h.run (place_game secret) hn n
  have hasks : Asks (smallLibraries "alice" gamePayload) (smallRequest "")
      (.orandNewEpoch .zero gameAddress) := ⟨[], "", rfl, rfl, rfl⟩
  refine ⟨next, db', ?_, hnext, hplayed⟩
  rw [run_orand rfl rfl (by decide) hasks (run_authorize_alice h nonce) n]
  exact run_newEpoch (by decide) hcall

end Node
