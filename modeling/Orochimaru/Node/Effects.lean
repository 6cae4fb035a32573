import Orochimaru.Lib.Guarantees
import Orochimaru.Node.EpochChain
import Orochimaru.Node.Service

/-!
# What a request may do

One case for each way the service changes its tables and one for each answer it reads from them.
Requests side by side change the tables only so, at most once each, and the answer of a request
is the row it has changed, what it has read, or an error after which nothing is changed.
-/

namespace Node

open Transactions Zkmemory Libecvrf QuickResponse

/-! ## Growth -/

/-- A receiver without what an epoch changes of it. -/
def Receiver.identity (r : Receiver) : Receiver := { r with nonce := .zero }

/-- No row is ever lost, and only the nonces of receivers change. -/
structure Grows (db db' : Database) : Prop where
  keyring : db.keyring <+: db'.keyring
  receiver : db.receiver.map Receiver.identity <+: db'.receiver.map Receiver.identity
  randomness : db.randomness <+: db'.randomness

namespace Grows

variable {db db' db'' : Database}

theorem refl (db : Database) : Grows db db :=
  ⟨List.prefix_rfl, List.prefix_rfl, List.prefix_rfl⟩

theorem trans (h : Grows db db') (h' : Grows db' db'') : Grows db db'' :=
  ⟨h.keyring.trans h'.keyring, h.receiver.trans h'.receiver, h.randomness.trans h'.randomness⟩

/-- A row that was found is found again. -/
theorem findByName (h : Grows db db') {username : String} {record : Keyring}
    (hfind : db.keyring.find? (fun k => k.username = username) = some record) :
    db'.keyring.find? (fun k => k.username = username) = some record := by
  obtain ⟨rest, hrest⟩ := h.keyring
  rw [← hrest, List.find?_append, hfind]
  rfl

theorem mem_receiver (h : Grows db db') {r : Receiver} (hr : r ∈ db.receiver) :
    ∃ r' ∈ db'.receiver, r'.identity = r.identity :=
  List.mem_map.mp (h.receiver.subset (List.mem_map_of_mem hr))

theorem keyringIds_subset (h : Grows db db') (username : String) :
    db.keyringIds username ⊆ db'.keyringIds username := by
  obtain ⟨rest, hrest⟩ := h.keyring
  rw [Database.keyringIds, Database.keyringIds, ← hrest, List.filter_append, List.map_append]
  exact List.subset_append_left _ _

end Grows

theorem Receiver.identity_eq_iff {r r' : Receiver} : r.identity = r'.identity ↔
    r.id = r'.id ∧ r.keyringId = r'.keyringId ∧ r.name = r'.name ∧ r.address = r'.address ∧
      r.network = r'.network ∧ r.createdDate = r'.createdDate := by
  simp [identity]

/-! ## Users -/

section Users

variable (lib : Libraries) (authorization : Option (List Byte))

/-- The header carries a token that names this user and verifies under the stored secret. -/
structure Authenticated (db : Database) (user jsonWebToken : String) (jwtPayload : JWTPayload)
    (userRecord : Keyring) (jwt : JWT) : Prop where
  header : authorization.bind headerToStr = some jsonWebToken
  decoded : ∃ now, JWT.decodePayload lib.toTokenFormat now jsonWebToken = .ok jwtPayload
  named : jwtPayload.user = user
  found : db.keyring.find? (fun k => k.username = user) = some userRecord
  key : JWT.new userRecord.hmacSecret = some jwt
  verified : jwt.verify lib.toTokenFormat jsonWebToken = some true

/-- The tables vouch for the user of the token. -/
def Vouches (db : Database) (user : String) : Prop :=
  ∃ jsonWebToken jwtPayload userRecord jwt,
    Authenticated lib authorization db user jsonWebToken jwtPayload userRecord jwt

variable {lib authorization}

theorem Vouches.grows {db db' : Database} {user : String} (h : Vouches lib authorization db user)
    (hgrows : Grows db db') : Vouches lib authorization db' user := by
  obtain ⟨jsonWebToken, jwtPayload, userRecord, jwt, h⟩ := h
  exact ⟨jsonWebToken, jwtPayload, userRecord, jwt,
    { h with found := hgrows.findByName h.found }⟩

end Users

/-! ## Effects -/

/-- The input of the next epoch of a receiver: the last output, or a drawn one. -/
def Continues (db : Database) (receiver : Receiver) (alpha : Scalar) : Prop :=
  match (RandomnessTable.ordered (db.epochs receiver.id)).head? with
  | some latest => ∃ buf, Hex.decodeToSlice 32 latest.y = some buf ∧ alpha = Scalar.fromBytes buf
  | none => ∃ bytes : Bytes 32, alpha = Scalar.randomize bytes

/-- The row that goes on with the epochs of a receiver. -/
structure NextEpoch (crypto : Crypto) (context : NodeContext) (db : Database) (receiver : Receiver)
    (row : Randomness) : Prop where
  proved : ∃ alpha draws record serial, Continues db receiver alpha ∧
    newRecord crypto context receiver receiver.address alpha draws = some (.ok record) ∧
    row = record serial
  fresh : ∀ x ∈ db.randomness, x.id ≠ row.id ∧ x.alpha ≠ row.alpha ∧ x.y ≠ row.y ∧
    x.signatureProof ≠ row.signatureProof
  linked : ∃ k ∈ db.keyring, k.id = row.keyringId

/-- A keyring row that breaks no constraint. -/
def FreshUser (db : Database) (row : Keyring) : Prop :=
  ∀ k ∈ db.keyring, k.id ≠ row.id ∧ k.username ≠ row.username ∧ k.publicKey ≠ row.publicKey ∧
    k.secretKey ≠ row.secretKey

structure FreshReceiver (db : Database) (row : Receiver) : Prop where
  fresh : ∀ r ∈ db.receiver, r.id ≠ row.id ∧ r.name ≠ row.name ∧
    ¬(r.address = row.address ∧ r.network = row.network)
  linked : ∃ k ∈ db.keyring, k.id = row.keyringId

section Effects

variable (lib : Libraries) (context : NodeContext) (user : String)

/-- A change of the tables on behalf of a user, with the method that makes it, whether it holds
the lock, and the answer. -/
inductive Effect (db : Database) : JSONRPCMethod → Bool → Json → Database → Prop
  | newEpoch {network : I64} {address : String} {receiver : Receiver} {nonce : I64}
      {row : Randomness} (hreceiver : receiver ∈ db.receiver) (haddress : receiver.address = address)
      (hnetwork : receiver.network = network) (howned : receiver.keyringId ∈ db.keyringIds user)
      (hpublic : address = zeroAddress → user = orandKeyringName)
      (hnonce : receiver.nonce.succ = some nonce)
      (hrow : NextEpoch lib.toCrypto context db receiver row) :
      Effect db (.orandNewEpoch network address) true (row.toJson lib)
        (postgres.applyAll [.updateNonce receiver.id nonce, .insertRandomness row] db)
  | addUser {username : String} {bytes : Bytes 32} {secretKey : SecretKey} {serial : Serial}
      (hadmin : user = orandKeyringName)
      (hfresh : FreshUser db (newUser username (List.ofFn bytes) (.ofSecretKey secretKey) serial)) :
      Effect db (.adminAddUser username) false
        (userResponse lib (newUser username (List.ofFn bytes) (.ofSecretKey secretKey) serial))
        (Database.apply (.insertKeyring
          (newUser username (List.ofFn bytes) (.ofSecretKey secretKey) serial)) db)
  | addReceiver {username address : String} {network : I64} {row : Receiver}
      (hadmin : user = orandKeyringName) (haddress : row.address = address)
      (hnetwork : row.network = network) (hnonce : row.nonce = .zero)
      (howned : row.keyringId ∈ db.keyringIds username) (hfresh : FreshReceiver db row) :
      Effect db (.adminAddReceiver username address network) false (row.toJson lib)
        (Database.apply (.insertReceiver row) db)

/-- The epochs of a receiver a request may see. -/
def recentEpochs (db : Database) (id epoch : I64) : List Randomness :=
  (RandomnessTable.ordered (db.randomness.filter fun x =>
    x.receiverId = id ∧ (epoch = .max ∨ x.epoch.val ≤ epoch.val))).take 20

/-- What a method answers from the tables. -/
inductive Read (db : Database) : JSONRPCMethod → Json → Prop
  | epochs {network epoch : I64} {address : String} {receiver : Receiver}
      (hreceiver : receiver ∈ db.receiver) (haddress : receiver.address = address)
      (hnetwork : receiver.network = network) :
      Read db (.orandGetEpoch network address epoch)
        (.arr ((recentEpochs db receiver.id epoch).map (·.toJson lib)))
  | noEpochs {network epoch : I64} {address : String}
      (hnone : ∀ receiver ∈ db.receiver, ¬(receiver.address = address ∧ receiver.network = network)) :
      Read db (.orandGetEpoch network address epoch) (.arr [])
  | publicKey {keyName : String} :
      Read db (.orandGetPublicKey keyName)
        (optionJson (·.toJson lib) (db.keyring.find? fun k => k.username = keyName))
  | receiverExists {username address : String} {network : I64} {receiver : Receiver}
      (hadmin : user = orandKeyringName) (hreceiver : receiver ∈ db.receiver)
      (haddress : receiver.address = address) (hnetwork : receiver.network = network) :
      Read db (.adminAddReceiver username address network) (receiver.toJson lib)
  | user {username : String} {record : Keyring} (hadmin : user = orandKeyringName)
      (hfind : db.keyring.find? (fun k => k.username = username) = some record) :
      Read db (.adminGetUser username) (userSecret lib record)
  | receivers {username : String} {records : List Receiver}
      (hrecords : records = db.receiver.flatMap fun r =>
        ((db.keyring.filter fun k => k.id = r.keyringId).filter fun k =>
          k.username = username).map fun _ => r) :
      Read db (.adminGetReceiver username) (.arr (records.map (·.toJson lib)))

/-- The answer to a method, with the changes made for it and the tables as they are now. -/
inductive Answered (Inv : Database → Prop) (m : JSONRPCMethod) :
    Response → List (Database × Database) → Database → Prop
  | refused (e : Error) (now : Database) : Answered Inv m (err e) [] now
  | read {db now : Database} {json : Json} (hinv : Inv db) (hgrows : Grows db now)
      (h : Read lib user db m json) : Answered Inv m (resJson lib json) [] now
  | changed {db db' now : Database} {locked : Bool} {json : Json} (hgrows : Grows db' now)
      (h : Effect lib context user db m locked json db') :
      Answered Inv m (resJson lib json) [(db, db')] now

end Effects

/-! ### What an effect leaves alone -/

section Frames

variable {lib : Libraries} {context : NodeContext} {user : String} {db db' : Database}
  {m : JSONRPCMethod} {locked : Bool} {json : Json}

/-- The tables after an epoch. -/
theorem applyAll_newEpoch (id nonce : I64) (row : Randomness) (db : Database) :
    postgres.applyAll [.updateNonce id nonce, .insertRandomness row] db =
      ⟨db.keyring, db.receiver.map fun r => if r.id = id then { r with nonce } else r,
        db.randomness ++ [row]⟩ := rfl

theorem Effect.ne (h : Effect lib context user db m locked json db') : db' ≠ db := by
  have happend : ∀ {α : Type} (rows : List α) (row : α), rows ++ [row] ≠ rows := by
    intro α rows row heq
    simpa using congrArg List.length heq
  intro heq
  cases h with
  | newEpoch => exact happend _ _ (congrArg Database.randomness heq)
  | addUser => exact happend _ _ (congrArg Database.keyring heq)
  | addReceiver => exact happend _ _ (congrArg Database.receiver heq)

theorem Effect.grows (h : Effect lib context user db m locked json db') : Grows db db' := by
  cases h with
  | @newEpoch _ _ receiver nonce row =>
    have hsame : (db.receiver.map fun r => if r.id = receiver.id then { r with nonce } else r).map
        Receiver.identity = db.receiver.map Receiver.identity := by
      rw [List.map_map]
      refine List.map_congr_left fun r _ => ?_
      simp only [Function.comp_apply]
      split <;> rfl
    refine ⟨List.prefix_rfl, ?_, List.prefix_append _ _⟩
    rw [applyAll_newEpoch, hsame]
  | addUser => exact ⟨List.prefix_append _ _, List.prefix_rfl, List.prefix_rfl⟩
  | addReceiver =>
    refine ⟨List.prefix_rfl, ?_, List.prefix_rfl⟩
    rw [Database.apply, List.map_append]
    exact List.prefix_append _ _

/-- Without the lock rows are added, and no epochs. -/
theorem Effect.free (h : Effect lib context user db m locked json db') (hlocked : locked = false) :
    db'.randomness = db.randomness ∧ db.receiver <+: db'.receiver := by
  cases h with
  | newEpoch => cases hlocked
  | addUser => exact ⟨rfl, List.prefix_rfl⟩
  | addReceiver => exact ⟨rfl, List.prefix_append _ _⟩

end Frames

end Node
