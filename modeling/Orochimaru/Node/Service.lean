import Orochimaru.Libecvrf.KeyPair
import Orochimaru.Node.SafeInsert
import Orochimaru.Node.Jwt

/-!
# The service

One HTTP request: its token is checked against the stored secret of the user it names, then the
method it asks for is run. Only `orand` may add users and receivers, read the secret of a user
and ask for public epochs. What the service answers of a row leaves out the columns its model
skips.
-/

namespace Node

open Transactions Zkmemory Libecvrf

/-! ## Answers -/

/-- The values `serde` writes. -/
inductive Json
  | null
  | bool (b : Bool)
  | int (n : Int)
  | str (s : String)
  | arr (elems : List Json)
  | obj (fields : List (String × Json))

/-- What the service calls of other libraries. -/
structure Libraries extends Crypto, TokenFormat where
  /-- `serde_json::from_str` of a payload. -/
  fromStr : String → Option JSONRPCPayload
  /-- `from_utf8` -/
  fromUtf8 : List Byte → Option String
  formatDate : DateTime → String
  toStringPretty : Json → Option String

structure Response where
  status : Nat
  headers : List (String × String)
  body : String

namespace QuickResponse

def headers : List (String × String) :=
  [("Access-Control-Allow-Origin", "*"), ("Content-Type", "application/json")]

def err (e : Error) : Response := ⟨500, headers, e.toJsonString⟩

def ok (body : String) : Response := ⟨200, headers, body⟩

def res : Except Error String → Response
  | .ok body => ok body
  | .error e => err e

def jsonEncode (lib : Libraries) (value : Json) : Except Error String :=
  match lib.toStringPretty value with
  | some s => .ok s
  | none => .error ⟨"SERIALIZE_ERROR", "Can not serialize data"⟩

def resJson (lib : Libraries) (value : Json) : Response := res (jsonEncode lib value)

end QuickResponse

open QuickResponse

/-! ## Rows -/

section Rows

variable (lib : Libraries)

/-- Without the id and the secrets. -/
def Keyring.toJson (record : Keyring) : Json :=
  .obj [("username", .str record.username), ("public_key", .str record.publicKey),
    ("created_date", .str (lib.formatDate record.createdDate))]

/-- Without the id of the key. -/
def Receiver.toJson (record : Receiver) : Json :=
  .obj [("id", .int record.id.val), ("name", .str record.name), ("address", .str record.address),
    ("network", .int record.network.val), ("nonce", .int record.nonce.val),
    ("created_date", .str (lib.formatDate record.createdDate))]

/-- Without the ids. -/
def Randomness.toJson (record : Randomness) : Json :=
  .obj [("epoch", .int record.epoch.val), ("alpha", .str record.alpha), ("gamma", .str record.gamma),
    ("c", .str record.c), ("s", .str record.s), ("y", .str record.y),
    ("witness_address", .str record.witnessAddress), ("witness_gamma", .str record.witnessGamma),
    ("witness_hash", .str record.witnessHash), ("inverse_z", .str record.inverseZ),
    ("signature_proof", .str record.signatureProof),
    ("created_date", .str (lib.formatDate record.createdDate))]

def optionJson {α : Type} (toJson : α → Json) : Option α → Json
  | some record => toJson record
  | none => .null

/-- `UserResponse`, what the administrator is told of a new user. -/
def userResponse (record : Keyring) : Json :=
  .obj [("username", .str record.username), ("hmac_secret", .str record.hmacSecret),
    ("public_key", .str record.publicKey),
    ("created_date", .str (lib.formatDate record.createdDate))]

/-- What the administrator is told of a user. -/
def userSecret (record : Keyring) : Json :=
  .obj [("username", .str record.username), ("hmac_secret", .str record.hmacSecret),
    ("created_date", .str (lib.formatDate record.createdDate))]

end Rows

/-! ## Methods -/

def orandKeyringName : String := "orand"

/-- The row of a new user, its secrets drawn. -/
def newUser (username : String) (hmacSecret : List Byte) (keypair : KeyPair) (serial : Serial) :
    Keyring :=
  let rawKeypair := keypair.toRaw
  ⟨serial.id, username, Hex.encode hmacSecret, Hex.encode rawKeypair.publicKey,
    Hex.encode rawKeypair.secretKey, serial.createdDate⟩

section Methods

variable (lib : Libraries) (context : NodeContext)

def orandGetEpoch (network : I64) (address : String) (epoch : I64) : Async Response := do
  let found ← if epoch = .max then RandomnessTable.findRecentEpoch network address
    else RandomnessTable.findClosureEpoch network address epoch
  match found with
  | .ok recentEpochs => return resJson lib (.arr (recentEpochs.map (·.toJson lib)))
  | .error _ => return err ⟨"NOT_FOUND", "Epoch was not found"⟩

def orandNewEpoch (username : String) (network : I64) (address : String) : Async Response := do
  match ← safeInsert lib.toCrypto context username network address with
  | .ok record => return resJson lib (record.toJson lib)
  | .error _ => return err ⟨"INTERNAL_SERVER_ERROR", "Unknown error"⟩

def orandGetPublicKey (keyName : String) : Async Response := do
  match ← KeyringTable.findByName keyName with
  | .ok keyRecord => return resJson lib (optionJson (·.toJson lib) keyRecord)
  | .error _ => .panic

def adminAddUser (username : String) : Async Response := do
  match ← KeyringTable.findByName username with
  | .error _ => .panic
  | .ok (some _) => return err ⟨"UNABLE_TO_CREATE_USER", "Unable to create user"⟩
  | .ok none => .draw fun d => do
    match ← KeyringTable.insert
      (newUser username (List.ofFn (d.bytes 0)) (.ofSecretKey d.secretKey)) with
    | .ok record => return resJson lib (userResponse lib record)
    | .error _ => .panic

def adminAddReceiver (username receiverAddress : String) (network : I64) : Async Response := do
  match ← KeyringTable.findByName username with
  | .error _ => .panic
  | .ok none => return err ⟨"ACCESS_DENIED", "User may not exist or database error"⟩
  | .ok (some modelKeyring) =>
    match ← ReceiverTable.findOne network receiverAddress with
    | .error _ => .panic
    | .ok (some receiver) => return resJson lib (receiver.toJson lib)
    | .ok none => .draw fun d => do
      match ← ReceiverTable.insert
        (ReceiverTable.newRow modelKeyring.id d.uuid receiverAddress network) with
      | .ok modelReceiver => return resJson lib (modelReceiver.toJson lib)
      | .error _ => return err ⟨"INTERNAL_SERVER_ERROR", "Unable to add new receiver"⟩

def adminGetUser (username : String) : Async Response := do
  match ← KeyringTable.findByName username with
  | .error _ => .panic
  | .ok (some record) => return resJson lib (userSecret lib record)
  | .ok none => return err ⟨"ACCESS_DENIED", "User may not exist or database error"⟩

def adminGetReceiver (username : String) : Async Response := do
  match ← ReceiverTable.findByUsername username with
  | .error _ => .panic
  | .ok records => return resJson lib (.arr (records.map (·.toJson lib)))

def adminRemoveReceiver (username : String) (receiverId : I64) : Async Response := do
  let removed : Json :=
    .obj [("success", .bool true), ("message", .str "Receiver has been removed")]
  match ← ReceiverTable.delete username receiverId with
  | .ok () => return resJson lib removed
  | .error _ => return err ⟨"INTERNAL_SERVER_ERROR", "Unable to remove receiver"⟩

/-- A method on behalf of a user. -/
def perform (user : String) : JSONRPCMethod → Async Response
  | .orandGetEpoch network address epoch => orandGetEpoch lib network address epoch
  | .orandNewEpoch network address =>
    if address = zeroAddress ∧ user ≠ orandKeyringName then
      return err ⟨"ACCESS_DENIED", "Access denied, you do not have ability to create public epoch"⟩
    else orandNewEpoch lib context user network address
  | .orandGetPublicKey keyName => orandGetPublicKey lib keyName
  | .adminAddUser username =>
    if user = orandKeyringName then adminAddUser lib username
    else return err ⟨"ACCESS_DENIED", "Access denied, you do not have ability add new user"⟩
  | .adminAddReceiver username receiverAddress network =>
    if user = orandKeyringName then adminAddReceiver lib username receiverAddress network
    else return err ⟨"ACCESS_DENIED", "Access denied, you do not have ability to add new receiver"⟩
  | .adminGetUser username =>
    if user = orandKeyringName then adminGetUser lib username
    else return err ⟨"ACCESS_DENIED", "Access denied, you do not have ability to add new receiver"⟩
  | .adminGetReceiver username => adminGetReceiver lib username
  | .adminRemoveReceiver username receiverId => adminRemoveReceiver lib username receiverId
  | .orandNewPrivateEpoch _ _ =>
    return err ⟨"NOT_IMPLEMENTED", "It is not working in this way"⟩

end Methods

/-! ## Requests -/

structure Request where
  method : String
  path : String
  /-- The upper bound of the size hint of the body. -/
  upper : Option Nat
  /-- The collected body, none where the connection breaks. -/
  body : Option (List Byte)
  authorization : Option (List Byte)

/-- `HeaderValue::to_str`: visible ASCII characters and tabs. -/
def headerToStr (value : List Byte) : Option String :=
  if value.all fun b => (32 ≤ b.val && b.val < 127) || b.val = 9 then
    some (String.ofList (value.map fun b => Char.ofNat b.val))
  else none

section Requests

variable (lib : Libraries) (context : NodeContext)

/-- The user a token names, if it is valid under the secret of that user. -/
def authorize (authorization : Option (List Byte)) : Async (Except Error JWTPayload) :=
  match authorization with
  | none => return .error ⟨"INVALID_JWT", "Access denied, this method required authorization"⟩
  | some value =>
    match headerToStr value with
    | none => return .error ⟨"INVALID_JWT", "Unable to decode authorization header"⟩
    | some jsonWebToken => .draw fun d =>
      match JWT.decodePayload lib.toTokenFormat d.now jsonWebToken with
      | .error e => return .error e
      | .ok jwtPayload => do
        match ← KeyringTable.findByName jwtPayload.user with
        | .error _ => .panic
        | .ok none =>
          return .error ⟨"INVALID_JWT", "Access denied, this method required authorization"⟩
        | .ok (some userRecord) =>
          let jwt ← .expect (JWT.new userRecord.hmacSecret)
          let verified ← .expect (jwt.verify lib.toTokenFormat jsonWebToken)
          if verified then return .ok jwtPayload
          else return .error ⟨"ACCESS_DENIED", "Access denied, incorrect key"⟩

/-- The answer to a request; a panic ends the connection without one. -/
def orand (req : Request) : Async Response :=
  if req.method = "POST" ∧ req.path = "/" then
    if 1024 * 64 < req.upper.getD (2 ^ 64 - 1) then
      return err ⟨"PAYLOAD_TOO_LARGE", "Your body too big, can not fit the body bag"⟩
    else do
      let wholeBody ← .expect req.body
      let jsonString ← .expect (lib.fromUtf8 wholeBody)
      match ← .expect (JSONRPCMethod.fromJsonString lib.fromStr jsonString) with
      | .error e => return err e
      | .ok jsonRpcPayload =>
        match ← authorize lib req.authorization with
        | .error e => return err e
        | .ok jwtPayload => perform lib context jwtPayload.user jsonRpcPayload
  else return err ⟨"NOT_IMPLEMENTED", "It is not working in this way"⟩

end Requests

end Node
