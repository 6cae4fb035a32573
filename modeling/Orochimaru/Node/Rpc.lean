import Orochimaru.Node.Database

/-!
# Requests

A request body names a method with string parameters. The parameters are checked by regular
expressions; a bad or missing one panics. The JSON parser is an argument.
-/

namespace Node

structure Error where
  code : String
  reason : String

/-- The text `format!` writes, with its two braces. -/
def Error.toJsonString (e : Error) : String :=
  "\x7b\"success\":false,\"message\":\"Code [" ++ e.code ++ "]: " ++ e.reason ++ "\"\x7d"

structure JSONRPCPayload where
  method : String
  params : List String

inductive JSONRPCMethod
  | orandNewEpoch (network : I64) (address : String)
  | orandGetEpoch (network : I64) (address : String) (epoch : I64)
  | orandNewPrivateEpoch (network : I64) (address : String)
  | orandGetPublicKey (username : String)
  | adminGetUser (username : String)
  | adminAddUser (username : String)
  | adminGetReceiver (username : String)
  | adminAddReceiver (username address : String) (network : I64)
  | adminRemoveReceiver (username : String) (receiverId : I64)

def zeroAddress : String := "0x0000000000000000000000000000000000000000"

/-! ## Parameters -/

/-- The value of decimal digits, the first the highest. -/
def digitsVal : List Char → Option Nat
  | [] => none
  | digits => digits.foldlM (fun n c =>
      if c.isDigit then some (10 * n + (c.toNat - '0'.toNat)) else none) 0

def I64.ofInt (n : Int) : Option I64 :=
  if h : -2 ^ 63 ≤ n ∧ n < 2 ^ 63 then some ⟨n, h.1, h.2⟩ else none

/-- `parse::<i64>`: one sign at most. -/
def parseI64 (s : String) : Option I64 :=
  match s.toList with
  | '-' :: digits => do I64.ofInt (-(← digitsVal digits))
  | '+' :: digits => do I64.ofInt (← digitsVal digits)
  | digits => do I64.ofInt (← digitsVal digits)

/-- The regular expression asks for a digit somewhere, which whatever parses has. -/
def decodeI64 (val : String) : Option I64 := parseI64 val

def isHexDigit (c : Char) : Bool := ('a' ≤ c && c ≤ 'f') || ('A' ≤ c && c ≤ 'F') || c.isDigit

/-- `^0x[a-fA-F0-9]{40}$`, to lower case. -/
def decodeAddress (val : String) : Option String :=
  match val.toList with
  | '0' :: 'x' :: digits =>
    if digits.length = 40 ∧ digits.all isHexDigit then
      some (String.ofList ('0' :: 'x' :: digits.map Char.toLower))
    else none
  | _ => none

/-- `^[a-z][a-z0-9\_]{3,40}$` -/
def checkName (val : String) : Bool :=
  match val.toList with
  | [] => false
  | c :: rest => c.isLower && 3 ≤ rest.length && rest.length ≤ 40 &&
    rest.all fun c => c.isLower || c.isDigit || c = '_'

def decodeName (val : String) : Option String := if checkName val then some val else none

/-! ## Methods -/

namespace JSONRPCMethod

/-- A method from its payload, none after a panic. -/
def ofPayload (payload : JSONRPCPayload) : Option (Except Error JSONRPCMethod) :=
  let params (i : Nat) : Option String := payload.params[i]?
  match payload.method with
  | "orand_getPublicEpoch" => do
    return .ok (.orandGetEpoch (← decodeI64 (← params 0)) zeroAddress (← decodeI64 (← params 1)))
  | "orand_getPrivateEpoch" => do
    return .ok (.orandGetEpoch (← decodeI64 (← params 0)) (← decodeAddress (← params 1))
      (← decodeI64 (← params 2)))
  | "orand_newPublicEpoch" => do
    return .ok (.orandNewEpoch (← decodeI64 (← params 0)) zeroAddress)
  | "orand_newPrivateEpoch" => do
    return .ok (.orandNewEpoch (← decodeI64 (← params 0)) (← decodeAddress (← params 1)))
  | "orand_getPublicKey" => do return .ok (.orandGetPublicKey (← decodeName (← params 0)))
  | "admin_getUser" => do return .ok (.adminGetUser (← decodeName (← params 0)))
  | "admin_addUser" => do return .ok (.adminAddUser (← decodeName (← params 0)))
  | "admin_getReceiver" => do return .ok (.adminGetReceiver (← decodeName (← params 0)))
  | "admin_addReceiver" => do
    return .ok (.adminAddReceiver (← decodeName (← params 0)) (← decodeAddress (← params 1))
      (← decodeI64 (← params 2)))
  | _ => some (.error ⟨"INVALID_METHOD", "Unsupported method"⟩)

def fromJsonString (fromStr : String → Option JSONRPCPayload) (jsonString : String) :
    Option (Except Error JSONRPCMethod) :=
  match fromStr jsonString with
  | some payload => ofPayload payload
  | none => some (.error ⟨"INVALID_JSON", "Invalid JSON"⟩)

/-- No request asks for a removal. -/
theorem fromJsonString_ne_removal {fromStr : String → Option JSONRPCPayload} {jsonString : String}
    {username : String} {receiverId : I64} :
    fromJsonString fromStr jsonString ≠ some (.ok (.adminRemoveReceiver username receiverId)) := by
  rw [fromJsonString]
  split
  · simp only [ofPayload]
    split <;> simp [Option.bind_eq_some_iff]
  · simp

end JSONRPCMethod

end Node
