import Orochimaru.Libecvrf.FieldHash
import Orochimaru.Node.Hex
import Orochimaru.Node.Database

/-!
# A new epoch

`safe_insert` holds the lock of the node while one transaction reads the latest epoch of a
receiver, proves the next one, moves the nonce of the receiver and inserts the row. Signatures
and the virtual machine of the chain are arguments.
-/

namespace Node

open Transactions Zkmemory Libecvrf

/-- The primitives the node calls. -/
structure Crypto where
  keccak : List Byte → Bytes 32
  /-- Of the loop that hashes to the curve. -/
  fuel : Nat
  /-- The bytes of the signature and the recovery id. -/
  signWithContext : Scalar → SecretKey → List Byte × Byte
  /-- What the contract returns for its input, if it returns; none if the machine fails. -/
  transact : List Byte → Option (Option (List Byte))

structure NodeContext where
  keyId : I64
  secretKey : SecretKey

/-- The fields set by `NodeContext::new`. -/
def NodeContext.ecvrf (context : NodeContext) : ECVRF := .new context.secretKey

/-! ## The proof and its signature -/

/-- What the digest and the contract read of a proof, `witness` for the witness address. -/
def proofBytes (contractProof : ECVRFContractProof) (witness : List Byte) : List Byte :=
  contractProof.pk.b32 ++ contractProof.gamma.b32 ++ Scalar.b32 contractProof.c ++
    Scalar.b32 contractProof.s ++ Scalar.b32 contractProof.alpha ++ witness ++
    contractProof.witnessGamma.b32 ++ contractProof.witnessHash.b32 ++
    Field.b32 contractProof.inverseZ

/-- None where the machine fails or returns more than a scalar. -/
def evmVerify (crypto : Crypto) (contractProof : ECVRFContractProof) : Option Bool := do
  let witness := List.replicate 12 0 ++ addressBytes contractProof.witnessAddress
  let data := [0xc8, 0xd2, 0x0a, 0x77] ++ proofBytes contractProof witness
  match ← crypto.transact data with
  | some output =>
    if output.length ≤ 32 then some (Scalar.fromBytes output.get = contractProof.y) else none
  | none => some false

def ecvrfProofDigest (crypto : Crypto) (contractProof : ECVRFContractProof) : Bytes 32 :=
  crypto.keccak (proofBytes contractProof (addressBytes contractProof.witnessAddress))

/-- `put_i64` -/
def I64.toBeBytes (n : I64) : Bytes 8 := (Uint.ofNat (n.val % 2 ^ 64).toNat : Uint 8).toBeBytes

def composeOperatorProof (nonce : I64) (receiver : Bytes 20) (digest : Bytes 32) : List Byte :=
  List.replicate 4 0 ++ List.ofFn nonce.toBeBytes ++ List.ofFn receiver ++ List.ofFn digest

theorem I64.toBeBytes_injective {n m : I64} (h : n.toBeBytes = m.toBeBytes) : n = m := by
  have hval := congrArg Uint.val (Uint.toBeBytes_injective h)
  have hn := n.lower
  have hm := m.lower
  have hn' := n.upper
  have hm' := m.upper
  have hpow : (256 : Nat) ^ 8 = 2 ^ 64 := by norm_num
  rw [Uint.ofNat_val (by omega), Uint.ofNat_val (by omega)] at hval
  exact I64.ext (by omega)

/-- The message has one reading. -/
theorem composeOperatorProof_injective {nonce nonce' : I64} {receiver receiver' : Bytes 20}
    {digest digest' : Bytes 32}
    (h : composeOperatorProof nonce receiver digest = composeOperatorProof nonce' receiver' digest') :
    nonce = nonce' ∧ receiver = receiver' ∧ digest = digest' := by
  simp only [composeOperatorProof, List.append_assoc, List.append_cancel_left_eq] at h
  obtain ⟨hnonce, h⟩ := List.append_inj h (by simp only [List.length_ofFn])
  obtain ⟨hreceiver, hdigest⟩ := List.append_inj h (by simp only [List.length_ofFn])
  exact ⟨I64.toBeBytes_injective (List.ofFn_injective hnonce), List.ofFn_injective hreceiver,
    List.ofFn_injective hdigest⟩

/-- The bytes of a string of ASCII characters. -/
def asciiBytes (s : String) : List Byte := s.toList.map fun c => Fin.ofNat 256 c.toNat

def signEthereumMessage (crypto : Crypto) (sk : SecretKey) (message : List Byte) : List Byte :=
  let start := asciiBytes ("\x19Ethereum Signed Message:\n" ++ toString message.length)
  let (signature, recoverId) :=
    crypto.signWithContext (Scalar.fromBytes (crypto.keccak (start ++ message))) sk
  let recoverId := if recoverId < 27 then recoverId + 27 else recoverId
  signature ++ [recoverId] ++ message

def toHexString (a : Affine) : String := Hex.encode a.b32

theorem encode_b32_injective {x x' : Scalar}
    (h : Hex.encode (Scalar.b32 x) = Hex.encode (Scalar.b32 x')) : x = x' := by
  have hbytes := congrArg (Hex.decodeToSlice 32) h
  rw [Scalar.b32, Scalar.b32, Hex.decodeToSlice_encode, Hex.decodeToSlice_encode] at hbytes
  rw [← Scalar.fromBytes_toBeBytes x, Option.some.inj hbytes, Scalar.fromBytes_toBeBytes]

/-- The row of the next epoch, none where the node panics. -/
def newRecord (crypto : Crypto) (context : NodeContext) (receiver : Receiver) (address : String)
    (alpha : Scalar) (draws : Nat → Bytes 32) : Option (Except DbErr (Serial → Randomness)) :=
  match context.ecvrf.proveContract crypto.keccak alpha crypto.fuel draws with
  | .error (.panic _) => none
  | .error .retriesExceeded => some (.error (.exec "Unable to prove contract"))
  | .ok contractProof => do
    if ¬(← evmVerify crypto contractProof) then return .error (.exec "EVM unable to verify")
    let bytesAddress ← Hex.decodeToSlice 20 (Hex.withoutPrefixes address)
    let rawProof := composeOperatorProof receiver.nonce bytesAddress
      (ecvrfProofDigest crypto contractProof)
    let ecdsaProof := signEthereumMessage crypto context.secretKey rawProof
    return .ok fun serial => {
      id := serial.id
      keyringId := context.keyId
      receiverId := receiver.id
      epoch := receiver.nonce
      alpha := Hex.encode (Scalar.b32 alpha)
      gamma := toHexString contractProof.gamma
      c := Hex.encode (Scalar.b32 contractProof.c)
      s := Hex.encode (Scalar.b32 contractProof.s)
      y := Hex.encode (Scalar.b32 contractProof.y)
      witnessAddress :=
        String.ofList ((Hex.encode (Scalar.b32 contractProof.witnessAddress)).toList.take 40)
      witnessGamma := toHexString contractProof.witnessGamma
      witnessHash := toHexString contractProof.witnessHash
      inverseZ := Hex.encode (Field.b32 contractProof.inverseZ)
      signatureProof := Hex.encode ecdsaProof
      createdDate := serial.createdDate }

/-- What the columns of the next epoch say of its receiver. -/
theorem newRecord_ok {crypto : Crypto} {context : NodeContext} {receiver : Receiver}
    {address : String} {alpha : Scalar} {draws : Nat → Bytes 32} {record : Serial → Randomness}
    (h : newRecord crypto context receiver address alpha draws = some (.ok record))
    (serial : Serial) :
    (record serial).receiverId = receiver.id ∧ (record serial).epoch = receiver.nonce ∧
      (record serial).alpha = Hex.encode (Scalar.b32 alpha) ∧
      ∃ y : Scalar, (record serial).y = Hex.encode (Scalar.b32 y) := by
  rw [newRecord] at h
  split at h
  · cases h
  · cases h
  · obtain ⟨verified, -, h⟩ := Option.bind_eq_some_iff.mp h
    split at h
    · cases h
    · obtain ⟨bytesAddress, -, h⟩ := Option.bind_eq_some_iff.mp h
      cases h
      exact ⟨rfl, rfl, rfl, _, rfl⟩

/-! ## The transaction -/

/-- The end of the scope of the transaction and of the lock. -/
def leave (result : Except DbErr Randomness) : Async (Except DbErr Randomness) :=
  .unlock (.ret result)

/-- `alpha` is the last output of the receiver, or drawn for the first epoch. -/
def nextAlpha : Option Randomness → Async Scalar
  | some latest =>
    match Hex.decodeToSlice 32 latest.y with
    | some buf => .ret (Scalar.fromBytes buf)
    | none => .panic
  | none => .draw fun d => .ret (Scalar.randomize (d.bytes 0))

/-- The result of the insertion is looked at after the commit only. -/
def writeEpoch (receiver : Receiver) (nonce : I64) (record : Serial → Randomness) :
    Async (Except DbErr Randomness) := do
  match ← ReceiverTable.updateNonce receiver.id nonce with
  | .error e => leave (.error e)
  | .ok () =>
    let result ← RandomnessTable.insert record
    .commit fun
      | .ok () => leave result
      | .error e => leave (.error e)

def proveEpoch (crypto : Crypto) (context : NodeContext) (receiver : Receiver) (address : String)
    (alpha : Scalar) : Async (Except DbErr Randomness) :=
  .draw fun d =>
    match newRecord crypto context receiver address alpha d.bytes with
    | none => .panic
    | some (.error e) => leave (.error e)
    | some (.ok record) =>
      match receiver.nonce.succ with
      | none => .panic
      | some nonce => writeEpoch receiver nonce record

def safeInsert (crypto : Crypto) (context : NodeContext) (username : String) (network : I64)
    (address : String) : Async (Except DbErr Randomness) :=
  .lock (.start fun
    | .error e => leave (.error e)
    | .ok () => do
      match ← ReceiverTable.findOwned username network address with
      | .error e => leave (.error e)
      | .ok none => leave (.error (.recordNotFound "Receiver record not found"))
      | .ok (some receiver) =>
        match ← RandomnessTable.latestEpoch receiver.id with
        | .error e => leave (.error e)
        | .ok latest => do
          let alpha ← nextAlpha latest
          proveEpoch crypto context receiver address alpha)

end Node
