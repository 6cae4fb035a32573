import Orochimaru.Zkmemory.Base

/-!
# Hexadecimal strings

`hex::encode` and `hex::decode`, as the tables store bytes.
-/

namespace Node.Hex

open Zkmemory

def digit (n : Fin 16) : Char :=
  ['0', '1', '2', '3', '4', '5', '6', '7', '8', '9', 'a', 'b', 'c', 'd', 'e', 'f'].get n

/-- Both cases are read. -/
def value (c : Char) : Option (Fin 16) := (List.finRange 16).find? fun n => digit n = c.toLower

def encode (bytes : List Byte) : String :=
  String.ofList (bytes.flatMap fun b => [digit ⟨b.val / 16, by omega⟩, digit ⟨b.val % 16, by omega⟩])

def decodeChars : List Char → Option (List Byte)
  | [] => some []
  | [_] => none
  | c :: d :: rest => do
    let high ← value c
    let low ← value d
    let bytes ← decodeChars rest
    return ⟨16 * high.val + low.val, by omega⟩ :: bytes

def decode (s : String) : Option (List Byte) := decodeChars s.toList

def decodeToSlice (k : Nat) (s : String) : Option (Bytes k) := do
  let bytes ← decode s
  if h : bytes.length = k then some fun i => bytes.get (i.cast h.symm) else none

theorem value_digit : ∀ n, value (digit n) = some n := by decide

theorem decode_encode (bytes : List Byte) : decode (encode bytes) = some bytes := by
  rw [decode, encode, String.toList_ofList]
  induction bytes with
  | nil => rfl
  | cons b bytes ih =>
    have hb : 16 * (b.val / 16) + b.val % 16 = b.val := by omega
    simp only [List.flatMap_cons, List.cons_append, List.nil_append, decodeChars, value_digit, ih]
    exact congrArg (fun c => some (c :: bytes)) (Fin.ext hb)

theorem decodeToSlice_encode {k : Nat} (bytes : Bytes k) :
    decodeToSlice k (encode (List.ofFn bytes)) = some bytes := by
  rw [decodeToSlice, decode_encode]
  simp

/-- `str::replace` of two characters by nothing. -/
def removeAll (a b : Char) : List Char → List Char
  | c :: d :: rest => if c = a ∧ d = b then removeAll a b rest else c :: removeAll a b (d :: rest)
  | rest => rest

/-- `s.replace("0x", "").replace("0X", "")` -/
def withoutPrefixes (s : String) : String :=
  String.ofList (removeAll '0' 'X' (removeAll '0' 'x' s.toList))

end Node.Hex
