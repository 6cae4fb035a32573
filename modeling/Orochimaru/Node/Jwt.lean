import Orochimaru.Node.Hex
import Orochimaru.Node.RequestGrammar

/-!
# Web tokens

A token is read twice. `decode_payload` refuses what it cannot read; `verify` decodes
the same parts again and panics on what it cannot read. The formats and the message
authentication code are arguments.
-/

namespace Node

open Zkmemory

structure JWTPayload where
  user : String
  nonce : Nat
  iat : Nat
  exp : Nat

/-- `base64_url::decode`, `serde_json::from_slice` and the code of a key and a message. -/
structure TokenFormat where
  decode : String → Option (List Byte)
  fromSlice : List Byte → Option JWTPayload
  hmacSha256 : List Byte → List Byte → List Byte

/-- `char::is_whitespace` -/
def isWhiteSpace (c : Char) : Bool :=
  let n := c.toNat
  (0x9 ≤ n && n ≤ 0xd) || n = 0x20 || n = 0x85 || n = 0xa0 || n = 0x1680 ||
    (0x2000 ≤ n && n ≤ 0x200a) || n = 0x2028 || n = 0x2029 || n = 0x202f || n = 0x205f ||
    n = 0x3000

def trim (s : List Char) : List Char :=
  ((s.dropWhile isWhiteSpace).reverse.dropWhile isWhiteSpace).reverse

/-- `token.trim().split('.')` -/
def splitJwt (jsonWebToken : String) : List String :=
  ((trim jsonWebToken.toList).splitOn '.').map String.ofList

structure JWT where
  secretKey : List Byte

namespace JWT

/-- None where the secret is no hexadecimal string. -/
def new (secretHexString : String) : Option JWT := do
  return ⟨← Hex.decode (Hex.withoutPrefixes secretHexString)⟩

def decodePayload (format : TokenFormat) (currentTime : Nat) (jsonWebToken : String) :
    Except Error JWTPayload :=
  match splitJwt jsonWebToken with
  | [_, payload, _] =>
    match format.decode payload with
    | none => .error ⟨"INVALID_PAYLOAD", "Unable to decode payload"⟩
    | some decodedPayload =>
      match format.fromSlice decodedPayload with
      | none => .error ⟨"INVALID_PAYLOAD", "Unable to deserialize payload"⟩
      | some jwtPayload =>
        if currentTime > jwtPayload.exp ∨ currentTime < jwtPayload.iat ∨
            jwtPayload.iat > jwtPayload.exp then
          .error ⟨"EXPIRED_JWT", "JWT is expired"⟩
        else if checkName jwtPayload.user then .ok jwtPayload
        else .error ⟨"INVALID_USERNAME", "Invalid username"⟩
  | _ => .error ⟨"INVALID_JWT", "Invalid JWT format"⟩

/-- None where a part does not decode. -/
def verify (jwt : JWT) (format : TokenFormat) (jsonWebToken : String) : Option Bool :=
  match splitJwt jsonWebToken with
  | [_, payload, signature] => do
    let message ← format.decode payload
    let tag ← format.decode signature
    return format.hmacSha256 jwt.secretKey message = tag
  | _ => some false

end JWT

/-- The two steps of the service, with the stored secrets of the users; none after a panic. -/
def authenticate (format : TokenFormat) (hmacSecret : String → String) (currentTime : Nat)
    (jsonWebToken : String) : Option (Except Error JWTPayload) :=
  match JWT.decodePayload format currentTime jsonWebToken with
  | .error e => some (.error e)
  | .ok jwtPayload => do
    let jwt ← JWT.new (hmacSecret jwtPayload.user)
    if ← jwt.verify format jsonWebToken then return .ok jwtPayload
    else return .error ⟨"ACCESS_DENIED", "Access denied, incorrect key"⟩

/-! ## The parts of a token -/

/-- `core` is `s` without the white space at its ends. -/
structure Trimmed (s core left right : List Char) : Prop where
  split : s = left ++ (core ++ right)
  left_white : ∀ c ∈ left, isWhiteSpace c
  right_white : ∀ c ∈ right, isWhiteSpace c
  head_black : ∀ c ∈ core.head?, ¬ isWhiteSpace c
  last_black : ∀ c ∈ core.getLast?, ¬ isWhiteSpace c

theorem dropWhile_black {s : List Char} (h : ∀ c ∈ s.head?, ¬ isWhiteSpace c) :
    s.dropWhile isWhiteSpace = s := by
  cases s with
  | nil => rfl
  | cons c s => simpa using h c rfl

theorem Trimmed.trim_eq {s core left right : List Char} (h : Trimmed s core left right) :
    trim s = core := by
  rw [trim, h.split, List.dropWhile_append_of_pos h.left_white]
  cases core with
  | nil =>
    rw [List.nil_append, List.dropWhile_eq_nil_iff.mpr h.right_white]
    rfl
  | cons c core =>
    have hlast : ∀ d ∈ (c :: core).reverse.head?, ¬ isWhiteSpace d := by
      rw [List.head?_reverse]
      exact h.last_black
    rw [dropWhile_black (s := c :: core ++ right) h.head_black, List.reverse_append,
      List.dropWhile_append_of_pos (fun d hd => h.right_white d (List.mem_reverse.mp hd)),
      dropWhile_black hlast, List.reverse_reverse]

theorem not_white_dropWhile (s : List Char) :
    ∀ c ∈ (s.dropWhile isWhiteSpace).head?, ¬ isWhiteSpace c := by
  intro c hc
  have := List.head?_dropWhile_not isWhiteSpace s
  rw [Option.mem_def.mp hc] at this
  simpa using this

theorem trim_trimmed (s : List Char) : ∃ left right, Trimmed s (trim s) left right := by
  generalize hm : s.dropWhile isWhiteSpace = m
  have hcut : m = trim s ++ (m.reverse.takeWhile isWhiteSpace).reverse := by
    rw [trim, hm, ← List.reverse_append, List.takeWhile_append_dropWhile, List.reverse_reverse]
  refine ⟨s.takeWhile isWhiteSpace, (m.reverse.takeWhile isWhiteSpace).reverse, ?_, ?_, ?_, ?_, ?_⟩
  · rw [← hcut, ← hm, List.takeWhile_append_dropWhile]
  · exact fun c hc => List.mem_takeWhile_imp hc
  · exact fun c hc => List.mem_takeWhile_imp (List.mem_reverse.mp hc)
  · intro c hc
    refine not_white_dropWhile s c ?_
    rw [hm, hcut, List.head?_append, Option.mem_def.mp hc]
    rfl
  · rw [trim, List.getLast?_reverse]
    exact not_white_dropWhile _

/-- The trimmed token is these three parts with a dot between them. -/
structure IsToken (jsonWebToken : String) (header payload signature : List Char) : Prop where
  trimmed : ∃ left right,
    Trimmed jsonWebToken.toList (header ++ '.' :: (payload ++ '.' :: signature)) left right
  header_dots : '.' ∉ header
  payload_dots : '.' ∉ payload
  signature_dots : '.' ∉ signature

theorem not_mem_of_mem_splitOn {s part : List Char} (h : part ∈ s.splitOn '.') : '.' ∉ part := by
  induction s generalizing part with
  | nil =>
    rw [List.splitOn_nil, List.mem_singleton] at h
    simp [h]
  | cons c s ih =>
    obtain ⟨first, parts, hs⟩ := List.exists_cons_of_ne_nil (List.splitOn_ne_nil '.' s)
    rw [hs] at ih
    rw [List.splitOn_cons_eq_if_modifyHead, hs] at h
    split at h
    case isTrue =>
      rcases List.mem_cons.mp h with rfl | h
      · simp
      · exact ih h
    case isFalse hc =>
      rcases List.mem_cons.mp h with rfl | h
      · have hfirst := ih List.mem_cons_self
        rw [List.mem_cons, not_or]
        exact ⟨fun he => hc (beq_iff_eq.mpr he.symm), hfirst⟩
      · exact ih (List.mem_cons_of_mem _ h)

theorem splitJwt_iff {jsonWebToken : String} {header payload signature : List Char} :
    splitJwt jsonWebToken =
      [String.ofList header, String.ofList payload, String.ofList signature] ↔
      IsToken jsonWebToken header payload signature := by
  have hjoin : ['.'].intercalate [header, payload, signature] =
      header ++ '.' :: (payload ++ '.' :: signature) := by simp [List.intercalate]
  constructor
  · intro h
    have hparts : (trim jsonWebToken.toList).splitOn '.' = [header, payload, signature] := by
      refine List.map_injective_iff.mpr (fun a b hab => ?_) (h : _ = List.map String.ofList _)
      exact String.ofList_injective hab
    have hdots := fun part => @not_mem_of_mem_splitOn (trim jsonWebToken.toList) part
    rw [hparts] at hdots
    refine ⟨?_, hdots header (by simp), hdots payload (by simp), hdots signature (by simp)⟩
    rw [← hjoin, ← hparts, List.intercalate_splitOn]
    exact trim_trimmed _
  · rintro ⟨⟨left, right, htrim⟩, hheader, hpayload, hsignature⟩
    rw [splitJwt, htrim.trim_eq, ← hjoin,
      List.splitOn_intercalate '.' (by simp [hheader, hpayload, hsignature]) (by simp)]
    rfl

/-! ## Who is let in -/

section Authenticate

variable (format : TokenFormat) (hmacSecret : String → String) (currentTime : Nat)

/-- A payload part: of a named user, and in its time. -/
structure IsPayload (part : List Char) (message : List Byte) (jwtPayload : JWTPayload) : Prop where
  decoded : format.decode (String.ofList part) = some message
  read : format.fromSlice message = some jwtPayload
  issued : jwtPayload.iat ≤ currentTime
  alive : currentTime ≤ jwtPayload.exp
  named : IsName jwtPayload.user

/-- Three parts, the second one a payload, the third one its code under the secret of the
user it names. -/
def ValidToken (jsonWebToken : String) (jwtPayload : JWTPayload) : Prop :=
  ∃ header payload signature message key, IsToken jsonWebToken header payload signature ∧
    IsPayload format currentTime payload message jwtPayload ∧
    Hex.decode (Hex.withoutPrefixes (hmacSecret jwtPayload.user)) = some key ∧
    format.decode (String.ofList signature) = some (format.hmacSha256 key message)

/-- The service answers, and lets a payload in exactly where its token is valid. -/
def Authenticates (jsonWebToken : String) : Prop :=
  ∃ answer, authenticate format hmacSecret currentTime jsonWebToken = some answer ∧
    ∀ jwtPayload, answer = .ok jwtPayload ↔
      ValidToken format hmacSecret currentTime jsonWebToken jwtPayload

variable {format hmacSecret currentTime}

theorem decodePayload_ok_iff {jsonWebToken : String} {jwtPayload : JWTPayload} :
    JWT.decodePayload format currentTime jsonWebToken = .ok jwtPayload ↔
      ∃ header payload signature message, IsToken jsonWebToken header payload signature ∧
        IsPayload format currentTime payload message jwtPayload := by
  constructor
  · intro h
    rw [JWT.decodePayload] at h
    split at h
    case h_2 => cases h
    case h_1 header payload signature hsplit =>
      split at h
      case h_1 => cases h
      case h_2 message hdecode =>
        split at h
        case h_1 => cases h
        case h_2 read hread =>
          split at h
          case isTrue => cases h
          case isFalse htime =>
            split at h
            case isFalse => cases h
            case isTrue hname =>
              cases h
              refine ⟨header.toList, payload.toList, signature.toList, message,
                splitJwt_iff.mp (by simpa using hsplit), by simpa using hdecode, hread, ?_, ?_,
                checkName_iff.mp hname⟩
              · omega
              · omega
  · rintro ⟨header, payload, signature, message, htoken, hpayload⟩
    rw [JWT.decodePayload, splitJwt_iff.mpr htoken]
    have hissued := hpayload.issued
    have halive := hpayload.alive
    simp only [hpayload.decoded, hpayload.read]
    rw [if_neg (by omega), if_pos (checkName_iff.mpr hpayload.named)]

/-- Where there are three parts, `verify` needs both of the last two to decode. -/
theorem verify_parts {jsonWebToken : String} {header payload signature : List Char}
    {message : List Byte} (h : IsToken jsonWebToken header payload signature)
    (hdecode : format.decode (String.ofList payload) = some message) (jwt : JWT) :
    jwt.verify format jsonWebToken = (format.decode (String.ofList signature)).map fun tag =>
      decide (format.hmacSha256 jwt.secretKey message = tag) := by
  rw [JWT.verify, splitJwt_iff.mpr h]
  simp only [hdecode, Option.bind_eq_bind, Option.bind_some, Option.pure_def]
  cases format.decode (String.ofList signature) <;> rfl

theorem IsToken.unique {jsonWebToken : String}
    {header header' payload payload' signature signature' : List Char}
    (h : IsToken jsonWebToken header payload signature)
    (h' : IsToken jsonWebToken header' payload' signature') :
    payload = payload' ∧ signature = signature' := by
  have hsplit := (splitJwt_iff.mpr h).symm.trans (splitJwt_iff.mpr h')
  simp only [List.cons.injEq, and_true] at hsplit
  exact ⟨String.ofList_injective hsplit.2.1, String.ofList_injective hsplit.2.2⟩

/-- A token with a good payload is decided by its third part. -/
theorem authenticate_parts {jsonWebToken : String} {header payload signature : List Char}
    {message key : List Byte} {jwtPayload : JWTPayload}
    (htoken : IsToken jsonWebToken header payload signature)
    (hpayload : IsPayload format currentTime payload message jwtPayload)
    (hkey : Hex.decode (Hex.withoutPrefixes (hmacSecret jwtPayload.user)) = some key) :
    authenticate format hmacSecret currentTime jsonWebToken =
      (format.decode (String.ofList signature)).map fun tag =>
        if format.hmacSha256 key message = tag then .ok jwtPayload
        else .error ⟨"ACCESS_DENIED", "Access denied, incorrect key"⟩ := by
  rw [authenticate, decodePayload_ok_iff.mpr ⟨header, payload, signature, message, htoken, hpayload⟩]
  simp only [JWT.new, hkey, Option.bind_eq_bind, Option.bind_some, Option.pure_def,
    verify_parts htoken hpayload.decoded]
  cases format.decode (String.ofList signature) with
  | none => rfl
  | some tag =>
    simp only [Option.map_some, Option.bind_some, decide_eq_true_eq]
    split <;> rfl

/-- **When authentication is total.** With secrets in hexadecimal, a token is answered,
and accepted exactly where it is valid, if and only if it is refused for its payload or
its third part decodes. -/
theorem authenticates_iff
    (hsecret : ∀ user, (Hex.decode (Hex.withoutPrefixes (hmacSecret user))).isSome)
    (jsonWebToken : String) :
    Authenticates format hmacSecret currentTime jsonWebToken ↔
      ∀ header payload signature message jwtPayload,
        IsToken jsonWebToken header payload signature →
        IsPayload format currentTime payload message jwtPayload →
        ∃ tag, format.decode (String.ofList signature) = some tag := by
  constructor
  · rintro ⟨answer, hanswer, -⟩ header payload signature message jwtPayload htoken hpayload
    obtain ⟨key, hkey⟩ := Option.isSome_iff_exists.mp (hsecret jwtPayload.user)
    rw [authenticate_parts htoken hpayload hkey] at hanswer
    obtain ⟨tag, htag, -⟩ := Option.map_eq_some_iff.mp hanswer
    exact ⟨tag, htag⟩
  · intro hdecodes
    cases hpay : JWT.decodePayload format currentTime jsonWebToken with
    | error e =>
      refine ⟨.error e, by rw [authenticate, hpay], fun jwtPayload => ?_⟩
      refine ⟨fun h => (by cases h), fun ⟨header, payload, signature, message, _, ht, hp, _⟩ => ?_⟩
      have := decodePayload_ok_iff.mpr ⟨header, payload, signature, message, ht, hp⟩
      rw [hpay] at this
      cases this
    | ok jwtPayload =>
      obtain ⟨header, payload, signature, message, htoken, hpayload⟩ :=
        decodePayload_ok_iff.mp hpay
      obtain ⟨key, hkey⟩ := Option.isSome_iff_exists.mp (hsecret jwtPayload.user)
      obtain ⟨tag, htag⟩ := hdecodes _ _ _ _ _ htoken hpayload
      have hrun := authenticate_parts htoken hpayload hkey
      rw [htag, Option.map_some] at hrun
      refine ⟨_, hrun, fun accepted => ⟨fun h => ?_, ?_⟩⟩
      · split at h
        case isFalse => cases h
        case isTrue hmac =>
          cases h
          exact ⟨header, payload, signature, message, key, htoken, hpayload, hkey, hmac ▸ htag⟩
      · rintro ⟨header', payload', signature', message', key', htoken', hpayload', hkey', htag'⟩
        -- the parts, what they decode to and the key are those found above
        obtain ⟨rfl, rfl⟩ := htoken.unique htoken'
        obtain rfl := Option.some.inj (hpayload.decoded.symm.trans hpayload'.decoded)
        obtain rfl := Option.some.inj (hpayload.read.symm.trans hpayload'.read)
        obtain rfl := Option.some.inj (hkey.symm.trans hkey')
        rw [if_pos (Option.some.inj (htag'.symm.trans htag))]

end Authenticate

/-! ## A token of one user -/

/-- A payload of `alice`, issued at 1 and good until 9. -/
def aliceMessage : List Byte :=
  "\x7b\"user\":\"alice\",\"nonce\":0,\"iat\":1,\"exp\":9\x7d".toList.map fun c =>
    Fin.ofNat 256 c.toNat

def alicePayload : List Char := "eyJ1c2VyIjoiYWxpY2UiLCJub25jZSI6MCwiaWF0IjoxLCJleHAiOjl9".toList

/-- The code of the payload under the one-byte secret 0. -/
def aliceTag : List Byte := [240, 153, 87, 205, 157, 8, 103, 145, 8, 161, 16, 16, 153, 183, 80, 221,
  117, 239, 117, 86, 164, 160, 206, 40, 156, 199, 12, 221, 226, 93, 122, 16]

def aliceSignature : List Char := "8JlXzZ0IZ5EIoRAQmbdQ3XXvdVakoM4onMcM3eJdehA".toList

/-- The formats on what these tokens decode to. -/
def aliceFormat : TokenFormat where
  decode s :=
    if s = String.ofList alicePayload then some aliceMessage
    else if s = String.ofList aliceSignature then some aliceTag else none
  fromSlice message := if message = aliceMessage then some ⟨"alice", 0, 1, 9⟩ else none
  hmacSha256 key message := if key = [0] ∧ message = aliceMessage then aliceTag else []

def aliceToken (signature : List Char) : String :=
  String.ofList ("e30".toList ++ '.' :: (alicePayload ++ '.' :: signature))

theorem aliceToken_parts {signature : List Char} {c : Char} (hdots : '.' ∉ signature ++ [c])
    (hlast : ¬ isWhiteSpace c) :
    IsToken (aliceToken (signature ++ [c])) "e30".toList alicePayload (signature ++ [c]) := by
  refine ⟨⟨[], [], by simp [aliceToken], by simp, by simp, ?_, ?_⟩, by decide, by decide, hdots⟩
  · intro d hd
    cases hd
    decide
  · intro d hd
    rw [← List.cons_append, ← List.append_assoc, ← List.cons_append, ← List.append_assoc,
      List.getLast?_concat] at hd
    cases hd
    exact hlast

theorem alice_payload : IsPayload aliceFormat 5 alicePayload aliceMessage ⟨"alice", 0, 1, 9⟩ :=
  ⟨by simp [aliceFormat], by simp [aliceFormat], by decide, by decide,
    checkName_iff.mp (by decide)⟩

theorem alice_secret : (Hex.decode (Hex.withoutPrefixes "00")).isSome := by decide

/-- Her token is answered. -/
theorem authenticates_iff_alice :
    Authenticates aliceFormat (fun _ => "00") 5 (aliceToken aliceSignature) := by
  have htoken : IsToken (aliceToken aliceSignature) "e30".toList alicePayload aliceSignature :=
    @aliceToken_parts aliceSignature.dropLast 'A' (by decide) (by decide)
  refine (authenticates_iff (fun _ => alice_secret) _).mpr fun _ _ _ _ _ htoken' _ => ?_
  obtain ⟨-, rfl⟩ := htoken.unique htoken'
  have hne : aliceSignature ≠ alicePayload := by decide
  refine ⟨aliceTag, ?_⟩
  change (if String.ofList aliceSignature = String.ofList alicePayload then some aliceMessage
    else if String.ofList aliceSignature = String.ofList aliceSignature then some aliceTag
    else none) = some aliceTag
  rw [if_neg fun h => hne (String.ofList_injective h), if_pos rfl]

/-- With a third part that is no base64 it ends the call. -/
theorem not_authenticates_alice :
    ¬ ∀ (format : TokenFormat) (hmacSecret : String → String) (currentTime : Nat),
      (∀ user, (Hex.decode (Hex.withoutPrefixes (hmacSecret user))).isSome) →
      ∀ jsonWebToken, Authenticates format hmacSecret currentTime jsonWebToken := by
  intro h
  obtain ⟨answer, hanswer, -⟩ := h aliceFormat (fun _ => "00") 5 (fun _ => alice_secret)
    (aliceToken ['!'])
  have htoken : IsToken (aliceToken ['!']) "e30".toList alicePayload ['!'] :=
    @aliceToken_parts [] '!' (by decide) (by decide)
  have hnone : aliceFormat.decode (String.ofList ['!']) = none := by decide
  have hrun : authenticate aliceFormat (fun _ => "00") 5 (aliceToken ['!']) = _ :=
    authenticate_parts htoken alice_payload rfl
  rw [hnone] at hrun
  cases hanswer.symm.trans hrun

end Node
