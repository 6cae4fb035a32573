import Orochimaru.Node.RequestGrammar
import Orochimaru.Node.EpochQueries

/-!
# What the node signs

A published row carries a message with its epoch, the address of its receiver and the digest of
its proof, signed under the key of the node. Addresses are stored in one spelling, so on one
network no two rows carry a message for the same epoch and address.
-/

namespace Node

open Transactions Zkmemory Libecvrf QuickResponse

/-! ## Addresses -/

/-- The spelling of an address in the tables. -/
def addressString (address : Bytes 20) : String :=
  String.ofList ('0' :: 'x' :: (Hex.encode (List.ofFn address)).toList)

theorem digit_of_isHexDigit {c : Char} (h : isHexDigit c) : ∃ n, c.toLower = Hex.digit n := by
  have hall : ∀ k : Fin 128, isHexDigit (Char.ofNat k) →
      ∃ n, (Char.ofNat k).toLower = Hex.digit n := by decide
  have hlt : c.toNat < 128 := by
    simp only [isHexDigit, Char.isDigit, Bool.or_eq_true, Bool.and_eq_true, decide_eq_true_eq,
      Char.le_def, UInt32.le_iff_toNat_le] at h
    change c.val.toNat < 128
    have hf : 'f'.val.toNat = 102 := rfl
    have hF : 'F'.val.toNat = 70 := rfl
    have h9 : '9'.val.toNat = 57 := rfl
    omega
  have hc := hall ⟨c.toNat, hlt⟩
  rw [Char.ofNat_toNat] at hc
  exact hc h

theorem toList_encode_cons (b : Byte) (bytes : List Byte) : ∃ high low : Fin 16,
    high.val = b.val / 16 ∧ low.val = b.val % 16 ∧ (Hex.encode (b :: bytes)).toList =
      Hex.digit high :: Hex.digit low :: (Hex.encode bytes).toList := by
  refine ⟨⟨b.val / 16, by omega⟩, ⟨b.val % 16, by omega⟩, rfl, rfl, ?_⟩
  simp only [Hex.encode, String.toList_ofList, List.flatMap_cons]
  rfl

theorem mem_encode {bytes : List Byte} {c : Char} (h : c ∈ (Hex.encode bytes).toList) :
    ∃ n, c = Hex.digit n := by
  induction bytes with
  | nil =>
    simp only [Hex.encode, String.toList_ofList] at h
    cases h
  | cons b bytes ih =>
    obtain ⟨high, low, -, -, hcons⟩ := toList_encode_cons b bytes
    rw [hcons, List.mem_cons, List.mem_cons] at h
    rcases h with rfl | rfl | h
    · exact ⟨high, rfl⟩
    · exact ⟨low, rfl⟩
    · exact ih h

/-- Hexadecimal digits in lower case are the code of some bytes. -/
theorem exists_encode {digits : List Char} {k : Nat} (hlength : digits.length = 2 * k)
    (hdigits : ∀ c ∈ digits, isHexDigit c) :
    ∃ bytes : List Byte, bytes.length = k ∧
      (Hex.encode bytes).toList = digits.map Char.toLower := by
  induction k generalizing digits with
  | zero =>
    obtain rfl := List.length_eq_zero_iff.mp hlength
    exact ⟨[], rfl, String.toList_ofList⟩
  | succ k ih =>
    obtain ⟨c, d, rest, rfl⟩ : ∃ c d rest, digits = c :: d :: rest := by
      match digits, hlength with
      | c :: d :: rest, _ => exact ⟨c, d, rest, rfl⟩
    simp only [List.forall_mem_cons] at hdigits
    obtain ⟨hc, hd, hrest⟩ := hdigits
    obtain ⟨high, hhigh⟩ := digit_of_isHexDigit hc
    obtain ⟨low, hlow⟩ := digit_of_isHexDigit hd
    obtain ⟨bytes, hbytes, hencode⟩ := ih (by simpa [Nat.mul_succ] using hlength) hrest
    refine ⟨⟨16 * high.val + low.val, by omega⟩ :: bytes, by rw [List.length_cons, hbytes], ?_⟩
    obtain ⟨high', low', hhigh', hlow', hcons⟩ :=
      toList_encode_cons ⟨16 * high.val + low.val, by omega⟩ bytes
    obtain rfl : high = high' := Fin.ext (by simp only at hhigh'; omega)
    obtain rfl : low = low' := Fin.ext (by simp only at hlow'; omega)
    rw [hcons, hencode, List.map_cons, List.map_cons, hhigh, hlow]

theorem IsAddress.eq_addressString {s a : String} (h : IsAddress s a) :
    ∃ address, a = addressString address := by
  obtain ⟨digits, hs, hlength, hdigits, rfl⟩ := h
  obtain ⟨bytes, hbytes, hencode⟩ := exists_encode (k := 20) hlength hdigits
  refine ⟨fun i => bytes.get (i.cast hbytes.symm), ?_⟩
  have hofFn : List.ofFn (fun i : Fin 20 => bytes.get (i.cast hbytes.symm)) = bytes := by
    refine List.ext_getElem (List.length_ofFn.trans hbytes.symm) fun i hi hi' => ?_
    rw [List.getElem_ofFn]
    rfl
  rw [addressString, hofFn, hencode, hs]
  rfl

/-- What stands after the signature and its recovery id. -/
def signedMessage (row : Randomness) : Option (List Byte) :=
  (Hex.decode row.signatureProof).map (·.drop 65)

/-- The row carries a message for this epoch and address. -/
def SignsFor (row : Randomness) (nonce : I64) (address : Bytes 20) : Prop :=
  ∃ digest, signedMessage row = some (composeOperatorProof nonce address digest)

theorem SignsFor.unique {row : Randomness} {nonce nonce' : I64} {address address' : Bytes 20}
    (h : SignsFor row nonce address) (h' : SignsFor row nonce' address') :
    nonce = nonce' ∧ address = address' := by
  obtain ⟨digest, h⟩ := h
  obtain ⟨digest', h'⟩ := h'
  obtain ⟨hnonce, haddress, -⟩ :=
    composeOperatorProof_injective (Option.some.inj (h.symm.trans h'))
  exact ⟨hnonce, haddress⟩

section Messages

variable {crypto : Crypto} {context : NodeContext} {db : Database}

end Messages

/-! ## Any requests -/

section Runs

variable {ι : Type} [DecidableEq ι] {lib : Libraries} {context : NodeContext} {db : Database}
  {requests : ι → Request} {w : World ι Database Write DbErr Serial Draw Response}
  {events : List (Event ι Database)}

theorem Asks.addReceiver {req : Request} {username address : String} {network : I64}
    (h : Asks lib req (.adminAddReceiver username address network)) :
    ∃ bytes, address = addressString bytes := by
  obtain ⟨body, jsonString, -, -, hparse⟩ := h
  rw [JSONRPCMethod.fromJsonString] at hparse
  split at hparse
  case h_1 payload _ =>
    cases ofPayload_ok_iff.mp hparse with
    | addReceiver _ haddress _ => exact haddress.eq_addressString
  case h_2 => cases hparse

end Runs

end Node
