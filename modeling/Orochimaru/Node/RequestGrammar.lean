import Orochimaru.Node.Rpc

/-!
# The grammar of requests

What a request body may say, as a relation between a payload and the method it names:
which parameters each method takes, and what every kind of parameter denotes. The
decoders accept exactly this language. What lies outside it is refused with an error
only for an unknown method: a bad or missing parameter of a known one ends the call.
-/

namespace Node

/-! ## Kinds of parameters -/

def digitVal (c : Char) : Nat := c.toNat - '0'.toNat

/-- Decimal digits after one sign at most, with their value. -/
structure IsDecimal (s : List Char) (n : Int) (sign digits : List Char) : Prop where
  split : s = sign ++ digits
  signed : sign = [] ∨ sign = ['+'] ∨ sign = ['-']
  nonempty : digits ≠ []
  digit : ∀ c ∈ digits, c.isDigit
  value : n = (if sign = ['-'] then -1 else 1) *
    (Nat.ofDigits 10 (digits.reverse.map digitVal) : Nat)

/-- A decimal integer that fits. -/
def IsI64 (s : String) (v : I64) : Prop := ∃ sign digits, IsDecimal s.toList v.val sign digits

/-- `0x` and 40 hexadecimal digits; an address is kept in lower case. -/
def IsAddress (s a : String) : Prop :=
  ∃ digits, s.toList = '0' :: 'x' :: digits ∧ digits.length = 40 ∧
    (∀ c ∈ digits, isHexDigit c) ∧ a = String.ofList (s.toList.map Char.toLower)

/-- A letter, then 3 to 40 letters, digits and underscores. -/
def IsName (s : String) : Prop :=
  ∃ c rest, s.toList = c :: rest ∧ c.isLower ∧ 3 ≤ rest.length ∧ rest.length ≤ 40 ∧
    ∀ d ∈ rest, d.isLower ∨ d.isDigit ∨ d = '_'

theorem foldlM_digits {digits : List Char} {n m : Nat} :
    digits.foldlM (fun n c =>
      if c.isDigit then some (10 * n + (c.toNat - '0'.toNat)) else none) n = some m ↔
      (∀ c ∈ digits, c.isDigit) ∧
        m = 10 ^ digits.length * n + Nat.ofDigits 10 (digits.reverse.map digitVal) := by
  induction digits generalizing n with
  | nil =>
    simp only [List.foldlM_nil, List.reverse_nil, List.map_nil, Nat.ofDigits_nil, List.length_nil,
      pow_zero, one_mul, List.not_mem_nil, false_implies, implies_true, true_and, add_zero]
    exact ⟨fun h => (Option.some.inj h).symm, fun h => congrArg some h.symm⟩
  | cons c digits ih =>
    rw [List.foldlM_cons]
    by_cases hc : c.isDigit = true
    · have hval : 10 ^ digits.length * (10 * n + (c.toNat - '0'.toNat)) +
          Nat.ofDigits 10 (digits.reverse.map digitVal) =
          10 ^ (c :: digits).length * n +
            Nat.ofDigits 10 ((c :: digits).reverse.map digitVal) := by
        simp only [List.reverse_cons, List.map_append, List.map_cons, List.map_nil,
          Nat.ofDigits_append, List.length_map, List.length_reverse, Nat.ofDigits_singleton,
          List.length_cons, digitVal]
        ring
      simp only [hc, if_true, Option.bind_eq_bind, Option.bind_some, ih, hval,
        List.forall_mem_cons, true_and]
    · simp [hc]

theorem digitsVal_iff {digits : List Char} {n : Nat} :
    digitsVal digits = some n ↔ digits ≠ [] ∧ (∀ c ∈ digits, c.isDigit) ∧
      n = Nat.ofDigits 10 (digits.reverse.map digitVal) := by
  cases digits with
  | nil => simp [digitsVal]
  | cons c digits =>
    refine (foldlM_digits (n := 0)).trans ?_
    simp

theorem ofInt_iff {n : Int} {v : I64} : I64.ofInt n = some v ↔ v.val = n := by
  unfold I64.ofInt
  split
  case isTrue h =>
    rw [Option.some_inj]
    exact ⟨fun he => he ▸ rfl, fun he => I64.ext he.symm⟩
  case isFalse h =>
    refine ⟨fun he => (by cases he), fun he => absurd ?_ h⟩
    exact he ▸ ⟨v.lower, v.upper⟩

/-- The sign is what stands before the first digit. -/
theorem isI64_split {s : String} {v : I64} {sign digits : List Char}
    (hsplit : s.toList = sign ++ digits) (hsign : sign = [] ∨ sign = ['+'] ∨ sign = ['-'])
    (hhead : sign = [] → ∀ rest, digits ≠ '+' :: rest ∧ digits ≠ '-' :: rest) :
    IsI64 s v ↔ digits ≠ [] ∧ (∀ c ∈ digits, c.isDigit) ∧
      v.val = (if sign = ['-'] then -1 else 1) *
        (Nat.ofDigits 10 (digits.reverse.map digitVal) : Nat) := by
  refine ⟨fun ⟨sign', digits', h⟩ => ?_, fun ⟨hne, hdigit, hval⟩ =>
    ⟨sign, digits, hsplit, hsign, hne, hdigit, hval⟩⟩
  suffices hsame : sign = sign' ∧ digits = digits' by
    obtain ⟨rfl, rfl⟩ := hsame
    exact ⟨h.nonempty, h.digit, h.value⟩
  have hcut := hsplit.symm.trans h.split
  have hfirst : ∀ c, ¬ c.isDigit → ∀ rest, digits' ≠ c :: rest := by
    rintro c hc rest rfl
    exact hc (h.digit c (by simp))
  rcases hsign with rfl | rfl | rfl <;> rcases h.signed with hs | hs | hs <;> rw [hs] at hcut ⊢
  · exact ⟨rfl, hcut⟩
  · exact absurd hcut (hhead rfl digits').1
  · exact absurd hcut (hhead rfl digits').2
  · exact absurd hcut.symm (hfirst '+' (by decide) digits)
  · exact ⟨rfl, List.append_cancel_left hcut⟩
  · exact absurd (List.cons.inj hcut).1 (by decide)
  · exact absurd hcut.symm (hfirst '-' (by decide) digits)
  · exact absurd (List.cons.inj hcut).1 (by decide)
  · exact ⟨rfl, List.append_cancel_left hcut⟩

theorem decodeI64_iff {s : String} {v : I64} : decodeI64 s = some v ↔ IsI64 s v := by
  rw [decodeI64, parseI64]
  split
  case h_1 digits h =>
    rw [@isI64_split s v ['-'] digits h (by simp) (by simp)]
    simp [Option.bind_eq_some_iff, digitsVal_iff, ofInt_iff, and_assoc]
  case h_2 digits h =>
    rw [@isI64_split s v ['+'] digits h (by simp) (by simp)]
    simp [Option.bind_eq_some_iff, digitsVal_iff, ofInt_iff, and_assoc]
  case h_3 hminus hplus =>
    rw [isI64_split (List.nil_append s.toList).symm (by simp)
      fun _ rest => ⟨hplus rest, hminus rest⟩]
    simp [Option.bind_eq_some_iff, digitsVal_iff, ofInt_iff, and_assoc]

/-- The test made before the parse asks for a digit somewhere: what parses passes it. -/
theorem any_isDigit_of_decodeI64 {s : String} {v : I64} (h : decodeI64 s = some v) :
    s.toList.any Char.isDigit := by
  obtain ⟨sign, digits, hd⟩ := decodeI64_iff.mp h
  obtain ⟨c, rest, rfl⟩ := List.exists_cons_of_ne_nil hd.nonempty
  rw [hd.split, List.any_eq_true]
  exact ⟨c, by simp, hd.digit c (by simp)⟩

theorem decodeAddress_iff {s a : String} : decodeAddress s = some a ↔ IsAddress s a := by
  rw [decodeAddress, IsAddress]
  split
  case h_1 digits h =>
    rw [h]
    simp only [List.cons.injEq, true_and, List.map_cons]
    split
    case isTrue hd =>
      rw [Option.some_inj]
      constructor
      · rintro rfl
        exact ⟨digits, rfl, hd.1, List.all_eq_true.mp hd.2, rfl⟩
      · rintro ⟨_, rfl, -, -, ha⟩
        exact ha.symm
    case isFalse hd =>
      refine ⟨fun h => (by cases h), ?_⟩
      rintro ⟨_, rfl, hlen, hhex, -⟩
      exact absurd ⟨hlen, List.all_eq_true.mpr hhex⟩ hd
  case h_2 h =>
    refine ⟨fun h => (by cases h), ?_⟩
    rintro ⟨digits, hs, -⟩
    exact absurd hs (h digits)

theorem checkName_iff {s : String} : checkName s = true ↔ IsName s := by
  rw [checkName, IsName]
  split
  case h_1 h => simp [h]
  case h_2 c rest h => simp [h, and_assoc, or_assoc]

theorem decodeName_iff {s name : String} : decodeName s = some name ↔ IsName s ∧ name = s := by
  rw [decodeName, ← checkName_iff]
  split
  case isTrue h => simp [h, eq_comm]
  case isFalse h => simp [h]

/-! ## Methods -/

/-- What a payload asks for: the method with the values its parameters denote. -/
inductive Requests : JSONRPCPayload → JSONRPCMethod → Prop
  | getPublicEpoch {network epoch : String} {n e : I64} {rest : List String} :
    IsI64 network n → IsI64 epoch e →
    Requests ⟨"orand_getPublicEpoch", network :: epoch :: rest⟩ (.orandGetEpoch n zeroAddress e)
  | getPrivateEpoch {network address epoch a : String} {n e : I64} {rest : List String} :
    IsI64 network n → IsAddress address a → IsI64 epoch e →
    Requests ⟨"orand_getPrivateEpoch", network :: address :: epoch :: rest⟩ (.orandGetEpoch n a e)
  | newPublicEpoch {network : String} {n : I64} {rest : List String} :
    IsI64 network n →
    Requests ⟨"orand_newPublicEpoch", network :: rest⟩ (.orandNewEpoch n zeroAddress)
  | newPrivateEpoch {network address a : String} {n : I64} {rest : List String} :
    IsI64 network n → IsAddress address a →
    Requests ⟨"orand_newPrivateEpoch", network :: address :: rest⟩ (.orandNewEpoch n a)
  | getPublicKey {name : String} {rest : List String} :
    IsName name → Requests ⟨"orand_getPublicKey", name :: rest⟩ (.orandGetPublicKey name)
  | getUser {name : String} {rest : List String} :
    IsName name → Requests ⟨"admin_getUser", name :: rest⟩ (.adminGetUser name)
  | addUser {name : String} {rest : List String} :
    IsName name → Requests ⟨"admin_addUser", name :: rest⟩ (.adminAddUser name)
  | getReceiver {name : String} {rest : List String} :
    IsName name → Requests ⟨"admin_getReceiver", name :: rest⟩ (.adminGetReceiver name)
  | addReceiver {name address network a : String} {n : I64} {rest : List String} :
    IsName name → IsAddress address a → IsI64 network n →
    Requests ⟨"admin_addReceiver", name :: address :: network :: rest⟩ (.adminAddReceiver name a n)

theorem params_cons {params : List String} {p : String} (h : params[0]? = some p) :
    ∃ rest, params = p :: rest ∧ ∀ i, params[i + 1]? = rest[i]? := by
  cases params with
  | nil => cases h
  | cons q rest => exact ⟨rest, by simpa using h, fun i => List.getElem?_cons_succ⟩

/-- A method is delivered exactly where the grammar has it. -/
theorem ofPayload_ok_iff {payload : JSONRPCPayload} {m : JSONRPCMethod} :
    JSONRPCMethod.ofPayload payload = some (.ok m) ↔ Requests payload m := by
  constructor
  · intro h
    obtain ⟨method, params⟩ := payload
    simp only [JSONRPCMethod.ofPayload, Option.bind_eq_bind, Option.pure_def] at h
    split at h <;> simp only [Option.bind_eq_some_iff, Option.some_inj, Except.ok.injEq,
      decodeI64_iff, decodeAddress_iff, decodeName_iff] at h
    · obtain ⟨network, h₀, n, hn, epoch, h₁, e, he, rfl⟩ := h
      obtain ⟨rest, rfl, htail⟩ := params_cons h₀
      obtain ⟨rest, rfl, -⟩ := params_cons (htail 0 ▸ h₁)
      exact .getPublicEpoch hn he
    · obtain ⟨network, h₀, n, hn, address, h₁, a, ha, epoch, h₂, e, he, rfl⟩ := h
      obtain ⟨rest, rfl, htail⟩ := params_cons h₀
      obtain ⟨rest, rfl, htail'⟩ := params_cons (htail 0 ▸ h₁)
      obtain ⟨rest, rfl, -⟩ := params_cons (htail' 0 ▸ htail 1 ▸ h₂)
      exact .getPrivateEpoch hn ha he
    · obtain ⟨network, h₀, n, hn, rfl⟩ := h
      obtain ⟨rest, rfl, -⟩ := params_cons h₀
      exact .newPublicEpoch hn
    · obtain ⟨network, h₀, n, hn, address, h₁, a, ha, rfl⟩ := h
      obtain ⟨rest, rfl, htail⟩ := params_cons h₀
      obtain ⟨rest, rfl, -⟩ := params_cons (htail 0 ▸ h₁)
      exact .newPrivateEpoch hn ha
    · obtain ⟨name, h₀, _, ⟨hname, rfl⟩, rfl⟩ := h
      obtain ⟨rest, rfl, -⟩ := params_cons h₀
      exact .getPublicKey hname
    · obtain ⟨name, h₀, _, ⟨hname, rfl⟩, rfl⟩ := h
      obtain ⟨rest, rfl, -⟩ := params_cons h₀
      exact .getUser hname
    · obtain ⟨name, h₀, _, ⟨hname, rfl⟩, rfl⟩ := h
      obtain ⟨rest, rfl, -⟩ := params_cons h₀
      exact .addUser hname
    · obtain ⟨name, h₀, _, ⟨hname, rfl⟩, rfl⟩ := h
      obtain ⟨rest, rfl, -⟩ := params_cons h₀
      exact .getReceiver hname
    · obtain ⟨name, h₀, _, ⟨hname, rfl⟩, address, h₁, a, ha, network, h₂, n, hn, rfl⟩ := h
      obtain ⟨rest, rfl, htail⟩ := params_cons h₀
      obtain ⟨rest, rfl, htail'⟩ := params_cons (htail 0 ▸ h₁)
      obtain ⟨rest, rfl, -⟩ := params_cons (htail' 0 ▸ htail 1 ▸ h₂)
      exact .addReceiver hname ha hn
    · cases h
  · intro h
    cases h <;>
      simp_all [JSONRPCMethod.ofPayload, ← decodeI64_iff, ← decodeAddress_iff, decodeName,
        ← checkName_iff]

/-! ## What becomes of the other requests -/

inductive Kind
  | int
  | address
  | name

def Kind.Matches (kind : Kind) (s : String) : Prop :=
  match kind with
  | .int => ∃ v, IsI64 s v
  | .address => ∃ a, IsAddress s a
  | .name => IsName s

/-- The parameters of the supported methods. -/
def signature (method : String) : Option (List Kind) :=
  match method with
  | "orand_getPublicEpoch" => some [.int, .int]
  | "orand_getPrivateEpoch" => some [.int, .address, .int]
  | "orand_newPublicEpoch" => some [.int]
  | "orand_newPrivateEpoch" => some [.int, .address]
  | "orand_getPublicKey" => some [.name]
  | "admin_getUser" => some [.name]
  | "admin_addUser" => some [.name]
  | "admin_getReceiver" => some [.name]
  | "admin_addReceiver" => some [.name, .address, .int]
  | _ => none

/-- Every parameter a method needs is there and of its kind. -/
def Fits : List Kind → List String → Prop
  | [], _ => True
  | _ :: _, [] => False
  | kind :: kinds, param :: params => kind.Matches param ∧ Fits kinds params

theorem fits_cons_iff {kind : Kind} {kinds : List Kind} {params : List String} :
    Fits (kind :: kinds) params ↔
      ∃ param rest, params = param :: rest ∧ kind.Matches param ∧ Fits kinds rest := by
  cases params with
  | nil => simp [Fits]
  | cons param rest => simp [Fits, and_assoc]

theorem fits_iff {payload : JSONRPCPayload} {kinds : List Kind}
    (hsig : signature payload.method = some kinds) :
    Fits kinds payload.params ↔ ∃ m, Requests payload m := by
  obtain ⟨method, params⟩ := payload
  constructor
  · intro h
    dsimp only [signature] at hsig
    split at hsig <;> cases hsig <;> simp only [fits_cons_iff, Kind.Matches] at h
    · obtain ⟨_, _, rfl, ⟨n, hn⟩, _, _, rfl, ⟨e, he⟩, -⟩ := h
      exact ⟨_, .getPublicEpoch hn he⟩
    · obtain ⟨_, _, rfl, ⟨n, hn⟩, _, _, rfl, ⟨a, ha⟩, _, _, rfl, ⟨e, he⟩, -⟩ := h
      exact ⟨_, .getPrivateEpoch hn ha he⟩
    · obtain ⟨_, _, rfl, ⟨n, hn⟩, -⟩ := h
      exact ⟨_, .newPublicEpoch hn⟩
    · obtain ⟨_, _, rfl, ⟨n, hn⟩, _, _, rfl, ⟨a, ha⟩, -⟩ := h
      exact ⟨_, .newPrivateEpoch hn ha⟩
    · obtain ⟨_, _, rfl, hname, -⟩ := h
      exact ⟨_, .getPublicKey hname⟩
    · obtain ⟨_, _, rfl, hname, -⟩ := h
      exact ⟨_, .getUser hname⟩
    · obtain ⟨_, _, rfl, hname, -⟩ := h
      exact ⟨_, .addUser hname⟩
    · obtain ⟨_, _, rfl, hname, -⟩ := h
      exact ⟨_, .getReceiver hname⟩
    · obtain ⟨_, _, rfl, hname, _, _, rfl, ⟨a, ha⟩, _, _, rfl, ⟨n, hn⟩, -⟩ := h
      exact ⟨_, .addReceiver hname ha hn⟩
  · rintro ⟨m, h⟩
    cases h with
    | getPublicEpoch hn he => cases hsig; exact ⟨⟨_, hn⟩, ⟨_, he⟩, trivial⟩
    | getPrivateEpoch hn ha he => cases hsig; exact ⟨⟨_, hn⟩, ⟨_, ha⟩, ⟨_, he⟩, trivial⟩
    | newPublicEpoch hn => cases hsig; exact ⟨⟨_, hn⟩, trivial⟩
    | newPrivateEpoch hn ha => cases hsig; exact ⟨⟨_, hn⟩, ⟨_, ha⟩, trivial⟩
    | getPublicKey hname => cases hsig; exact ⟨hname, trivial⟩
    | getUser hname => cases hsig; exact ⟨hname, trivial⟩
    | addUser hname => cases hsig; exact ⟨hname, trivial⟩
    | getReceiver hname => cases hsig; exact ⟨hname, trivial⟩
    | addReceiver hname ha hn => cases hsig; exact ⟨hname, ⟨_, ha⟩, ⟨_, hn⟩, trivial⟩

/-- A method, or a panic: no error. -/
def Delivered (answer : Option (Except Error JSONRPCMethod)) : Prop :=
  (∃ m, answer = some (.ok m)) ∨ answer = none

theorem delivered_pure (m : JSONRPCMethod) : Delivered (pure (.ok m)) := .inl ⟨m, rfl⟩

theorem delivered_bind {α : Type} {param : Option α}
    {f : α → Option (Except Error JSONRPCMethod)} (hf : ∀ a, Delivered (f a)) :
    Delivered (param >>= f) := by
  cases param with
  | none => exact .inr rfl
  | some a => exact hf a

/-- An unknown method is refused; a known one is delivered or ends in a panic. -/
theorem ofPayload_cases (payload : JSONRPCPayload) :
    (signature payload.method = none ∧ ∃ e, JSONRPCMethod.ofPayload payload = some (.error e)) ∨
    ∃ kinds, signature payload.method = some kinds ∧
      Delivered (JSONRPCMethod.ofPayload payload) := by
  obtain ⟨method, params⟩ := payload
  dsimp only [signature, JSONRPCMethod.ofPayload]
  split
  case h_10 =>
    refine .inl ⟨rfl, ⟨"INVALID_METHOD", "Unsupported method"⟩, ?_⟩
    simp_all
  all_goals
    refine .inr ⟨_, rfl, ?_⟩
    repeat' first
      | exact delivered_pure _
      | refine delivered_bind fun _ => ?_

/-- The request of a body, when it is one. -/
def RequestsBody (fromStr : String → Option JSONRPCPayload) (jsonString : String)
    (m : JSONRPCMethod) : Prop :=
  ∃ payload, fromStr jsonString = some payload ∧ Requests payload m

/-- Parsing answers, and with a method exactly where the body requests it. -/
def ParsesGrammar (fromStr : String → Option JSONRPCPayload) (jsonString : String) : Prop :=
  ∃ answer, JSONRPCMethod.fromJsonString fromStr jsonString = some answer ∧
    ∀ m, answer = .ok m ↔ RequestsBody fromStr jsonString m

theorem fromJsonString_payload {fromStr : String → Option JSONRPCPayload} {jsonString : String}
    {payload : JSONRPCPayload} (h : fromStr jsonString = some payload) :
    JSONRPCMethod.fromJsonString fromStr jsonString = JSONRPCMethod.ofPayload payload := by
  rw [JSONRPCMethod.fromJsonString, h]

/-- **When parsing is total.** A body is answered as the grammar asks exactly when it
does not name a supported method with a parameter missing or malformed. -/
theorem parsesGrammar_iff (fromStr : String → Option JSONRPCPayload) (jsonString : String) :
    ParsesGrammar fromStr jsonString ↔
      ∀ payload kinds, fromStr jsonString = some payload →
        signature payload.method = some kinds → Fits kinds payload.params := by
  have hbody : ∀ payload, fromStr jsonString = some payload →
      ∀ m, RequestsBody fromStr jsonString m ↔ Requests payload m := by
    intro payload hp m
    simp [RequestsBody, hp]
  constructor
  · rintro ⟨answer, hanswer, hgrammar⟩ payload kinds hp hsig
    rw [fromJsonString_payload hp] at hanswer
    rcases ofPayload_cases payload with ⟨hnone, -⟩ | ⟨-, -, ⟨m, hm⟩ | hpanic⟩
    · rw [hnone] at hsig
      cases hsig
    · exact (fits_iff hsig).mpr ⟨m, ofPayload_ok_iff.mp hm⟩
    · rw [hpanic] at hanswer
      cases hanswer
  · intro hfits
    cases hp : fromStr jsonString with
    | none =>
      refine ⟨_, by rw [JSONRPCMethod.fromJsonString, hp], fun m => ?_⟩
      simp [RequestsBody, hp]
    | some payload =>
      have hparse := fromJsonString_payload hp
      rcases ofPayload_cases payload with ⟨hnone, e, he⟩ | ⟨kinds, hsig, -⟩
      · refine ⟨.error e, hparse.trans he, fun m => ?_⟩
        rw [hbody payload hp, ← ofPayload_ok_iff, he, Option.some_inj]
      · obtain ⟨m, hm⟩ := (fits_iff hsig).mp (hfits payload kinds hp hsig)
        have hok := ofPayload_ok_iff.mpr hm
        refine ⟨.ok m, hparse.trans hok, fun m' => ?_⟩
        rw [hbody payload hp, ← ofPayload_ok_iff, hok, Option.some_inj]

/-- A request without its parameter. -/
def bareRequest : String := "\x7b\"method\":\"admin_getUser\",\"params\":[]\x7d"

/-- It ends in a panic, before the caller's token is looked at. -/
theorem not_parsesGrammar_bareRequest :
    ¬ ∀ fromStr jsonString, ParsesGrammar fromStr jsonString := by
  intro h
  obtain ⟨answer, hanswer, -⟩ := h
    (fun s => if s = bareRequest then some ⟨"admin_getUser", []⟩ else none) bareRequest
  rw [JSONRPCMethod.fromJsonString, if_pos rfl] at hanswer
  cases hanswer

end Node
