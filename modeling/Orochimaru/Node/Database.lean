import Orochimaru.Lib.Transactions
import Orochimaru.Libecvrf.Ecvrf

/-!
# The tables

Three tables with the keys of `pg-init.sql`, the statements the node sends and what they answer.
The server adds the serial number and the date of a new row.
-/

namespace Node

open Transactions Zkmemory

/-- An `i64`. -/
structure I64 where
  val : Int
  lower : -2 ^ 63 ≤ val
  upper : val < 2 ^ 63
  deriving DecidableEq

namespace I64

@[ext] theorem ext {x y : I64} (h : x.val = y.val) : x = y := by
  cases x
  cases y
  cases h
  rfl

def zero : I64 := ⟨0, by decide, by decide⟩

/-- `i64::MAX` -/
def max : I64 := ⟨2 ^ 63 - 1, by decide, by decide⟩

/-- `n + 1`, which overflows at the end of the range. -/
def succ (n : I64) : Option I64 :=
  if h : n.val + 1 < 2 ^ 63 then some ⟨n.val + 1, by have := n.lower; omega, h⟩ else none

theorem val_succ {n m : I64} (h : n.succ = some m) : m.val = n.val + 1 := by
  rw [succ] at h
  split at h
  · cases h
    rfl
  · cases h

end I64

/-- A timestamp, in microseconds. -/
abbrev DateTime := Int

/-- `keyring::Model` -/
structure Keyring where
  id : I64
  username : String
  hmacSecret : String
  publicKey : String
  secretKey : String
  createdDate : DateTime
  deriving DecidableEq

/-- `receiver::Model` -/
structure Receiver where
  id : I64
  keyringId : I64
  name : String
  address : String
  network : I64
  nonce : I64
  createdDate : DateTime
  deriving DecidableEq

/-- `randomness::Model` -/
structure Randomness where
  id : I64
  keyringId : I64
  receiverId : I64
  epoch : I64
  alpha : String
  gamma : String
  c : String
  s : String
  y : String
  witnessAddress : String
  witnessGamma : String
  witnessHash : String
  inverseZ : String
  signatureProof : String
  createdDate : DateTime
  deriving DecidableEq

structure Database where
  keyring : List Keyring
  receiver : List Receiver
  randomness : List Randomness
  deriving DecidableEq

inductive Write
  | insertKeyring (row : Keyring)
  | insertReceiver (row : Receiver)
  | deleteReceiver (id : I64) (keyringIds : List I64)
  | updateNonce (id nonce : I64)
  | insertRandomness (row : Randomness)

/-- `DbErr`, with the constraint a statement would break. -/
inductive DbErr
  | recordNotFound (message : String)
  | exec (message : String)
  | recordNotUpdated
  | constraint (name : String)
  | inFailedTransaction
  | connection (message : String)

/-- What the server adds to a row. -/
structure Serial where
  id : I64
  createdDate : DateTime

/-- What a request draws from the operating system: random bytes, a random key, a random name and
the seconds since 1970. -/
structure Draw where
  bytes : Nat → Bytes 32
  secretKey : Libecvrf.SecretKey
  uuid : String
  now : Nat

namespace Database

def apply : Write → Database → Database
  | .insertKeyring row, db => { db with keyring := db.keyring ++ [row] }
  | .insertReceiver row, db => { db with receiver := db.receiver ++ [row] }
  | .deleteReceiver id keyringIds, db =>
    { db with receiver := db.receiver.filter fun r => ¬(r.id = id ∧ r.keyringId ∈ keyringIds) }
  | .updateNonce id nonce, db =>
    { db with receiver := db.receiver.map fun r => if r.id = id then { r with nonce } else r }
  | .insertRandomness row, db => { db with randomness := db.randomness ++ [row] }

end Database

def postgres : Store Database Write DbErr := ⟨Database.apply, .inFailedTransaction⟩

/-- An `async` block of the node. -/
abbrev Async := Prog Database Write DbErr Serial Draw

/-- The write, if the row breaks none of the constraints. -/
def enforce (constraints : List (String × Bool)) (w : Write) : Except DbErr Write :=
  match constraints.find? fun c => !c.2 with
  | some c => .error (.constraint c.1)
  | none => .ok w

theorem enforce_ok {constraints : List (String × Bool)} {w w' : Write}
    (h : enforce constraints w = .ok w') : w' = w ∧ ∀ c ∈ constraints, c.2 = true := by
  rw [enforce] at h
  split at h
  · cases h
  · next hnone =>
    cases h
    refine ⟨rfl, fun c hc => ?_⟩
    simpa using List.find?_eq_none.mp hnone c hc

/-! ## keyring -/

namespace KeyringTable

def findByName (name : String) : Async (Except DbErr (Option Keyring)) :=
  .query fun db => db.keyring.find? fun k => k.username = name

/-- The columns the server fills in come from its answer. -/
def insertStatement (record : Serial → Keyring) (serial : Serial) (db : Database) :
    Except DbErr Write :=
  let row := record serial
  enforce [
    ("keyring_pkey", db.keyring.all fun k => k.id ≠ row.id),
    ("index_username", db.keyring.all fun k => k.username ≠ row.username),
    ("keyring_public_key_key", db.keyring.all fun k => k.publicKey ≠ row.publicKey),
    ("keyring_secret_key_key", db.keyring.all fun k => k.secretKey ≠ row.secretKey)]
    (.insertKeyring row)

def insert (record : Serial → Keyring) : Async (Except DbErr Keyring) :=
  .write (insertStatement record) fun r => .ret (r.map record)

end KeyringTable

/-- `SELECT id FROM keyring WHERE username = ..` -/
def Database.keyringIds (db : Database) (username : String) : List I64 :=
  (db.keyring.filter fun k => k.username = username).map (·.id)

/-! ## receiver -/

namespace ReceiverTable

def findByUsername (username : String) : Async (Except DbErr (List Receiver)) :=
  .query fun db => db.receiver.flatMap fun r =>
    ((db.keyring.filter fun k => k.id = r.keyringId).filter fun k => k.username = username).map
      fun _ => r

def findOne (network : I64) (address : String) : Async (Except DbErr (Option Receiver)) :=
  .query fun db => db.receiver.find? fun r => r.address = address ∧ r.network = network

/-- The lookup of `safe_insert`: the receiver must be one of the user's. -/
def findOwned (username : String) (network : I64) (address : String) :
    Async (Except DbErr (Option Receiver)) :=
  .query fun db => db.receiver.find? fun r =>
    r.address = address ∧ r.network = network ∧ r.keyringId ∈ db.keyringIds username

def insertStatement (record : Serial → Receiver) (serial : Serial) (db : Database) :
    Except DbErr Write :=
  let row := record serial
  enforce [
    ("receiver_pkey", db.receiver.all fun r => r.id ≠ row.id),
    ("index_name", db.receiver.all fun r => r.name ≠ row.name),
    ("unique_address_and_network", db.receiver.all fun r =>
      ¬(r.address = row.address ∧ r.network = row.network)),
    ("link_receiver_to_keyring", db.keyring.any fun k => k.id = row.keyringId)]
    (.insertReceiver row)

theorem insertStatement_ok {record : Serial → Receiver} {serial : Serial} {db : Database}
    {w : Write} (h : insertStatement record serial db = .ok w) :
    w = .insertReceiver (record serial) ∧ ∀ r ∈ db.receiver, r.id ≠ (record serial).id := by
  obtain ⟨hw, hc⟩ := enforce_ok h
  refine ⟨hw, fun r hr => ?_⟩
  simpa using List.all_eq_true.mp (hc _ List.mem_cons_self) r hr

def insert (record : Serial → Receiver) : Async (Except DbErr Receiver) :=
  .write (insertStatement record) fun r => .ret (r.map record)

/-- The row of a receiver the service adds. -/
def newRow (keyringId : I64) (name address : String) (network : I64) (serial : Serial) :
    Receiver :=
  ⟨serial.id, keyringId, name, address, network, .zero, serial.createdDate⟩

def deleteStatement (username : String) (receiverId : I64) (_ : Serial) (db : Database) :
    Except DbErr Write :=
  let removed := db.receiver.filter fun r =>
    r.id = receiverId ∧ r.keyringId ∈ db.keyringIds username
  enforce [
    ("link_randomness_to_receiver", removed.all fun r =>
      db.randomness.all fun x => x.receiverId ≠ r.id)]
    (.deleteReceiver receiverId (db.keyringIds username))

def delete (username : String) (receiverId : I64) : Async (Except DbErr Unit) :=
  .write (deleteStatement username receiverId) fun r => .ret (r.map fun _ => ())

/-- `save` of a record with a new nonce. -/
def updateStatement (id nonce : I64) (_ : Serial) (db : Database) : Except DbErr Write :=
  if db.receiver.any fun r => r.id = id then .ok (.updateNonce id nonce)
  else .error .recordNotUpdated

theorem updateStatement_ok {id nonce : I64} {serial : Serial} {db : Database} {w : Write}
    (h : updateStatement id nonce serial db = .ok w) : w = .updateNonce id nonce := by
  rw [updateStatement] at h
  split at h
  · cases h
    rfl
  · cases h

def updateNonce (id nonce : I64) : Async (Except DbErr Unit) :=
  .write (updateStatement id nonce) fun r => .ret (r.map fun _ => ())

end ReceiverTable

/-! ## randomness -/

namespace RandomnessTable

/-- `ORDER BY epoch DESC` -/
def ordered (rows : List Randomness) : List Randomness :=
  rows.mergeSort fun x x' => x'.epoch.val ≤ x.epoch.val

def findRecentEpoch (network : I64) (address : String) :
    Async (Except DbErr (List Randomness)) := do
  match ← ReceiverTable.findOne network address with
  | .error _ => .panic
  | .ok none => .ret (.ok [])
  | .ok (some receiver) =>
    .query fun db => (ordered (db.randomness.filter fun x => x.receiverId = receiver.id)).take 20

def findClosureEpoch (network : I64) (address : String) (epoch : I64) :
    Async (Except DbErr (List Randomness)) := do
  match ← ReceiverTable.findOne network address with
  | .error _ => .panic
  | .ok none => .ret (.ok [])
  | .ok (some receiver) =>
    .query fun db => (ordered (db.randomness.filter fun x =>
      x.receiverId = receiver.id ∧ x.epoch.val ≤ epoch.val)).take 20

/-- The row `safe_insert` reads the next `alpha` from. -/
def latestEpoch (receiverId : I64) : Async (Except DbErr (Option Randomness)) :=
  .query fun db => (ordered (db.randomness.filter fun x => x.receiverId = receiverId)).head?

def insertStatement (record : Serial → Randomness) (serial : Serial) (db : Database) :
    Except DbErr Write :=
  let row := record serial
  enforce [
    ("randomness_pkey", db.randomness.all fun x => x.id ≠ row.id),
    ("index_alpha", db.randomness.all fun x => x.alpha ≠ row.alpha),
    ("index_y", db.randomness.all fun x => x.y ≠ row.y),
    ("randomness_signature_proof_key", db.randomness.all fun x =>
      x.signatureProof ≠ row.signatureProof),
    ("link_randomness_to_keyring", db.keyring.any fun k => k.id = row.keyringId),
    ("link_randomness_to_receiver", db.receiver.any fun r => r.id = row.receiverId)]
    (.insertRandomness row)

theorem insertStatement_ok {record : Serial → Randomness} {serial : Serial} {db : Database}
    {w : Write} (h : insertStatement record serial db = .ok w) :
    w = .insertRandomness (record serial) := (enforce_ok h).1

def insert (record : Serial → Randomness) : Async (Except DbErr Randomness) :=
  .write (insertStatement record) fun r => .ret (r.map record)

end RandomnessTable

end Node
