import Orochimaru.Lib.Processes
import Orochimaru.Libecvrf.ContractProof
import Orochimaru.Libecvrf.HashToCurve
import Orochimaru.Node.EpochChain

/-!
# A call that gets through

`safe_insert` gives back its lock, and a call that meets no failure adds the next epoch of its
receiver. Calls one after the other number the rows of a receiver, over a small hash that counts
the points of the curve.
-/

namespace Node

open Transactions Zkmemory Libecvrf

/-! ## The lock -/

section Locks

variable {crypto : Crypto} {context : NodeContext}

theorem balanced_leave (result : Except DbErr Randomness) (locked : Bool) :
    (leave result).Balanced locked := rfl

theorem balanced_writeEpoch (receiver : Receiver) (nonce : I64) (record : Serial → Randomness)
    (locked : Bool) : (writeEpoch receiver nonce record).Balanced locked := by
  intro r
  cases r with
  | error e => exact balanced_leave _ _
  | ok =>
    intro inserted r
    cases r with
    | error e => exact balanced_leave _ _
    | ok => exact balanced_leave _ _

theorem balanced_proveEpoch (receiver : Receiver) (address : String) (alpha : Scalar)
    (locked : Bool) : (proveEpoch crypto context receiver address alpha).Balanced locked := by
  intro d
  beta_reduce
  split
  · trivial
  · exact balanced_leave _ _
  · split
    · trivial
    · exact balanced_writeEpoch _ _ _ _

theorem lockFree_nextAlpha (latest : Option Randomness) : (nextAlpha latest).LockFree := by
  cases latest with
  | none => exact fun _ => trivial
  | some latest =>
    rw [nextAlpha]
    split <;> trivial

theorem balanced_safeInsert (username : String) (network : I64) (address : String) :
    (safeInsert crypto context username network address).Balanced false := by
  refine ⟨rfl, fun r => ?_⟩
  cases r with
  | error e => exact balanced_leave _ _
  | ok =>
    intro found
    rcases found with e | db
    · exact balanced_leave _ _
    simp only [Except.map]
    cases db.receiver.find? fun r =>
      r.address = address ∧ r.network = network ∧ r.keyringId ∈ db.keyringIds username with
    | none => exact balanced_leave _ _
    | some receiver =>
      intro latest
      rcases latest with e | db
      · exact balanced_leave _ _
      exact (lockFree_nextAlpha _).balanced_bind fun _ => balanced_proveEpoch _ _ _ _

end Locks

/-! ## A call without failures -/

section Calls

variable {crypto : Crypto} {context : NodeContext} {a : Answer DbErr Serial Draw} {db : Database}
  {txn : Txn Write} {receiver : Receiver} {address : String} {alpha : Scalar}
  {record : Serial → Randomness} {nonce : I64}

theorem run_nextAlpha_some {latest : Randomness} {y : Scalar}
    (hy : latest.y = Hex.encode (Scalar.b32 y)) (n : Nat) :
    postgres.run (fun _ => a) (nextAlpha (some latest)) n db txn = (some y, db, txn) := by
  simp only [nextAlpha, hy, Scalar.b32, Hex.decodeToSlice_encode, Scalar.fromBytes_toBeBytes]
  rfl

/-- Up to the writes. -/
theorem run_safeInsert (hfault : a.fault = none) {username : String} {network : I64}
    (hfind : db.receiver.find? (fun r => r.address = address ∧ r.network = network ∧
      r.keyringId ∈ db.keyringIds username) = some receiver)
    (halpha : ∀ n, postgres.run (fun _ => a) (nextAlpha (RandomnessTable.ordered
      (db.randomness.filter fun x => x.receiverId = receiver.id)).head?) n db (.opened []) =
        (some alpha, db, .opened []))
    (hrecord : newRecord crypto context receiver address alpha a.draw.bytes = some (.ok record))
    (hnonce : receiver.nonce.succ = some nonce) (n : Nat) :
    postgres.run (fun _ => a) (safeInsert crypto context username network address) n db .closed =
      postgres.run (fun _ => a) (writeEpoch receiver nonce record) n db (.opened []) := by
  simp only [safeInsert, ReceiverTable.findOwned, RandomnessTable.latestEpoch, Prog.query_bind,
    Store.run, Store.onStart, Store.onRead, Store.view, Store.applyAll_nil, hfault, Except.map,
    hfind]
  rw [Store.run_bind (halpha _), proveEpoch]
  simp only [Store.run, hrecord, hnonce]
  exact Store.run_steady _ _ _ _ _

theorem updateStatement_of_mem (hreceiver : receiver ∈ db.receiver) (nonce : I64)
    (serial : Serial) :
    ReceiverTable.updateStatement receiver.id nonce serial db =
      .ok (.updateNonce receiver.id nonce) := by
  rw [ReceiverTable.updateStatement, if_pos]
  exact List.any_eq_true.mpr ⟨receiver, hreceiver, by simp⟩

/-- The writes of an epoch whose row breaks no constraint. -/
theorem run_writeEpoch (hfault : a.fault = none) (hreceiver : receiver ∈ db.receiver) {w : Write}
    (hinsert : RandomnessTable.insertStatement record a.serial
      (Database.apply (.updateNonce receiver.id nonce) db) = .ok w) (n : Nat) :
    postgres.run (fun _ => a) (writeEpoch receiver nonce record) n db (.opened []) =
      (some (.ok (record a.serial)),
        postgres.applyAll [.updateNonce receiver.id nonce, w] db, .closed) := by
  have hupdate := updateStatement_of_mem hreceiver nonce a.serial
  rw [writeEpoch, ReceiverTable.updateNonce, RandomnessTable.insert]
  refine (Store.run_write_ok hfault hupdate).trans ?_
  refine (Store.run_write_ok hfault hinsert).trans ?_
  exact Store.run_commit_opened hfault

/-- A row that breaks a constraint is refused after the commit, and the nonce is as it was. -/
theorem run_writeEpoch_refused (hfault : a.fault = none) (hreceiver : receiver ∈ db.receiver)
    {e : DbErr} (hinsert : RandomnessTable.insertStatement record a.serial
      (Database.apply (.updateNonce receiver.id nonce) db) = .error e) (n : Nat) :
    postgres.run (fun _ => a) (writeEpoch receiver nonce record) n db (.opened []) =
      (some (.error e), db, .closed) := by
  have hupdate := updateStatement_of_mem hreceiver nonce a.serial
  rw [writeEpoch, ReceiverTable.updateNonce, RandomnessTable.insert]
  refine (Store.run_write_ok hfault hupdate).trans ?_
  refine (Store.run_write_error hfault hinsert).trans ?_
  exact Store.run_commit_aborted hfault

end Calls

theorem enforce_of_all {constraints : List (String × Bool)} {w : Write}
    (h : ∀ c ∈ constraints, c.2 = true) : enforce constraints w = .ok w := by
  have hnone : constraints.find? (fun c => !c.2) = none :=
    List.find?_eq_none.mpr fun c hc => by simp [h c hc]
  rw [enforce, hnone]

/-- A new row that agrees with none in a unique column, and links to a key and a receiver. -/
theorem insertStatement_of_fresh {record : Serial → Randomness} {serial : Serial} {db : Database}
    (hfresh : ∀ x ∈ db.randomness, x.id ≠ (record serial).id ∧ x.alpha ≠ (record serial).alpha ∧
      x.y ≠ (record serial).y ∧ x.signatureProof ≠ (record serial).signatureProof)
    (hkeyring : ∃ k ∈ db.keyring, k.id = (record serial).keyringId)
    (hreceiver : ∃ r ∈ db.receiver, r.id = (record serial).receiverId) :
    RandomnessTable.insertStatement record serial db = .ok (.insertRandomness (record serial)) := by
  refine enforce_of_all ?_
  simp only [List.forall_mem_cons, List.all_eq_true, List.any_eq_true, decide_eq_true_eq,
    List.not_mem_nil, false_imp_iff, implies_true, and_true]
  exact ⟨fun x hx => (hfresh x hx).1, fun x hx => (hfresh x hx).2.1,
    fun x hx => (hfresh x hx).2.2.1, fun x hx => (hfresh x hx).2.2.2, hkeyring, hreceiver⟩

/-- The row of an epoch where the hash to the curve ends and the contract accepts the proof. -/
theorem newRecord_of_hash (crypto : Crypto) (context : NodeContext) (receiver : Receiver)
    {address : String} {alpha k : Scalar} {draws : Nat → Bytes 32} {h : Affine}
    {bytesAddress : Bytes 20}
    (hh : hashToCurvePrefix crypto.keccak crypto.fuel alpha context.ecvrf.publicKey = .ok h)
    (hk : Libecvrf.nonce draws 0 = .ok k)
    (hcontract : ∀ p : ECVRFContractProof,
      p.y = Scalar.fromBytes (p.gamma.keccak256 crypto.keccak) → evmVerify crypto p = some true)
    (haddress : Hex.decodeToSlice 20 (Hex.withoutPrefixes address) = some bytesAddress) :
    ∃ record digest, newRecord crypto context receiver address alpha draws = some (.ok record) ∧
      ∀ serial, (record serial).id = serial.id ∧ (record serial).keyringId = context.keyId ∧
        (record serial).y = Hex.encode (Scalar.b32 (Scalar.fromBytes
          ((ecmult h context.secretKey).keccak256 crypto.keccak))) ∧
        (record serial).signatureProof = Hex.encode (signEthereumMessage crypto context.secretKey
          (composeOperatorProof receiver.nonce bytesAddress digest)) := by
  obtain ⟨p, hp, hgamma, hy⟩ : ∃ p, context.ecvrf.proveContract crypto.keccak alpha crypto.fuel
      draws = .ok p ∧ p.gamma = ecmult h context.secretKey ∧
      p.y = Scalar.fromBytes (p.gamma.keccak256 crypto.keccak) :=
    ⟨_, ECVRF.proveContract_ok_iff.mpr ⟨h, k, hh, hk, rfl⟩, rfl, rfl⟩
  rw [newRecord, hp]
  simp only [hcontract p hy, haddress, Option.bind_eq_bind, Option.bind_some]
  refine ⟨_, ecvrfProofDigest crypto p, rfl, fun serial => ⟨rfl, rfl, ?_, rfl⟩⟩
  rw [← hgamma, ← hy]

/-! ## A hash that counts points -/

/-- First coordinates of points of the curve. -/
def coordinates : List Nat :=
  [1, 2, 3, 4, 6, 8, 12, 13, 14, 16, 20, 22, 25, 27, 32, 33, 38, 39, 43, 44, 45, 47]

def coordinate (i : Nat) : Nat := coordinates.getD i 0

theorem coordinates_nodup : coordinates.Nodup := by decide

theorem coordinate_lt (i : Nat) : coordinate i < 48 := by
  by_cases hi : i < coordinates.length
  · rw [coordinate, List.getD_eq_getElem _ _ hi]
    have hall : ∀ x ∈ coordinates, x < 48 := by decide
    exact hall _ (List.getElem_mem hi)
  · rw [coordinate, List.getD_eq_default _ _ (not_lt.mp hi)]
    decide

theorem coordinate_inj {i j : Nat} (hi : i < 22) (hj : j < 22) (h : coordinate i = coordinate j) :
    i = j := by
  have hi' : i < coordinates.length := hi
  have hj' : j < coordinates.length := hj
  rw [coordinate, coordinate, List.getD_eq_getElem _ _ hi', List.getD_eq_getElem _ _ hj'] at h
  exact (List.Nodup.getElem_inj_iff coordinates_nodup).mp h

theorem admissible_coordinate {i : Nat} (hi : i < 22) : Admissible (coordinate i : Nat) := by
  have hall : ∀ x ∈ coordinates,
      Lucas.powMod fieldSize 256 (x ^ 3 + 7) (fieldSize / 2) % fieldSize = 1 := by decide +kernel
  rw [admissible_iff]
  have hi' : i < coordinates.length := hi
  rw [coordinate, List.getD_eq_getElem _ _ hi']
  exact hall _ (List.getElem_mem hi')

/-- The coordinate after this one. -/
def following (x : Nat) : Nat := coordinate (coordinates.idxOf x + 1)

theorem following_coordinate {i : Nat} (hi : i < 22) :
    following (coordinate i) = coordinate (i + 1) := by
  have hi' : i < coordinates.length := hi
  have hx : coordinate i = coordinates[i] := List.getD_eq_getElem _ _ hi'
  rw [following, hx, coordinates_nodup.idxOf_getElem]

/-- The bytes of a point hash to the coordinate after its own, other messages to their last
bytes. -/
def countingHash (message : List Byte) : Bytes 32 :=
  if message.length = 64 then
    (Uint.ofNat (following (Uint.fromBeBytes fun i : Fin 32 => message.getD i 0).val)).toBeBytes
  else fun i => message.getD (message.length - 32 + i) 0

theorem countingHash_point (a : Affine) :
    countingHash a.b32 = (Uint.ofNat (following a.x.val)).toBeBytes := by
  have hlength : a.b32.length = 64 := by simp [Affine.b32, Field.b32]
  have hlt : a.x.val < 256 ^ 32 := (ZMod.val_lt _).trans (by norm_num [fieldSize])
  have hfront : (fun i : Fin 32 => a.b32.getD i 0) = (Uint.ofNat a.x.val : Uint 32).toBeBytes := by
    funext i
    have hi : i.val < (Field.b32 a.x).length := by simp [Field.b32]
    rw [Affine.b32, List.getD_append _ _ _ _ hi, List.getD_eq_getElem _ _ hi]
    simp only [Field.b32, List.getElem_ofFn]
  rw [countingHash, if_pos hlength, hfront, Uint.fromBeBytes_toBeBytes, Uint.ofNat_val hlt]

theorem countingHash_last {front : List Byte} (hfront : front.length ≠ 32) (bytes : Bytes 32) :
    countingHash (front ++ List.ofFn bytes) = bytes := by
  have hlength : (front ++ List.ofFn bytes).length = front.length + 32 := by simp
  rw [countingHash, if_neg (by omega)]
  funext i
  rw [hlength, Nat.add_sub_cancel, List.getD_append_right _ _ _ _ (Nat.le_add_right _ _),
    Nat.add_sub_cancel_left, List.getD_eq_getElem _ _ (by simp), List.getElem_ofFn]

/-! ## A small node -/

/-- The contract returns the hash of `gamma`. -/
def smallCrypto : Crypto where
  keccak := countingHash
  fuel := 1
  signWithContext _ _ := (List.replicate 64 0, 0)
  transact data := some (some (List.ofFn (countingHash ((data.drop 68).take 64))))

def smallContext : NodeContext := ⟨.zero, ⟨1, one_ne_zero⟩⟩

/-- No failure, a serial number and the draw `1`, at second 5. -/
def smallAnswer (id : I64) : Answer DbErr Serial Draw :=
  ⟨none, ⟨id, 0⟩, ⟨fun _ => (Uint.ofNat (1 : Scalar).val).toBeBytes, ⟨1, one_ne_zero⟩, "other", 5⟩⟩

theorem smallAnswer_draw (id : I64) (i : Nat) :
    Scalar.randomize ((smallAnswer id).draw.bytes i) = 1 := Scalar.fromBytes_toBeBytes 1

/-- The selector and the public key stand before `gamma`. -/
theorem take_gamma (p : ECVRFContractProof) (witness : List Byte) :
    (([0xc8, 0xd2, 0x0a, 0x77] ++ proofBytes p witness).drop 68).take 64 = p.gamma.b32 := by
  have hlength : ∀ a : Affine, a.b32.length = 64 := by simp [Affine.b32, Field.b32]
  simp only [proofBytes, List.append_assoc]
  rw [← List.append_assoc, List.drop_left' (by simp [hlength]), List.take_left' (hlength _)]

theorem fromBytes_get (bytes : Bytes 32) :
    Scalar.fromBytes (List.ofFn bytes).get = Scalar.fromBytes bytes := by
  simp only [Scalar.fromBytes, List.length_ofFn, List.get_ofFn]
  rfl

theorem evmVerify_small {p : ECVRFContractProof}
    (hy : p.y = Scalar.fromBytes (p.gamma.keccak256 countingHash)) :
    evmVerify smallCrypto p = some true := by
  simp only [evmVerify, smallCrypto, take_gamma, Option.bind_eq_bind, Option.bind_some,
    List.length_ofFn, le_refl, if_true, fromBytes_get, Option.some_inj, decide_eq_true_eq]
  exact hy.symm

theorem val_coordinate (i : Nat) : (coordinate i : Scalar).val = coordinate i :=
  ZMod.val_cast_of_lt ((coordinate_lt i).trans (by norm_num [groupOrder]))

/-- The input that is a coordinate hashes to its point. -/
theorem hashToCurvePrefix_coordinate {i : Nat} (hi : i < 22) (pk : Affine) :
    ∃ y, hashToCurvePrefix countingHash 1 (coordinate i : Nat) pk =
      .ok ⟨(coordinate i : Nat), y, false⟩ := by
  refine hashToCurvePrefix_of_admissible 0 ?_ (admissible_coordinate hi)
  have hfront : (Field.b32 1 ++ pk.b32).length ≠ 32 := by simp [Affine.b32, Field.b32]
  rw [hashField, Scalar.b32, countingHash_last hfront, Scalar.fromBytes_toBeBytes, val_coordinate]

/-- The output for the coordinate is the next one. -/
theorem keccak256_coordinate {i : Nat} (hi : i < 22) {pk h : Affine}
    (hh : hashToCurvePrefix countingHash 1 (coordinate i : Nat) pk = .ok h) :
    Scalar.fromBytes ((ecmult h smallContext.secretKey).keccak256 countingHash) =
      (coordinate (i + 1) : Nat) := by
  obtain ⟨y, hy⟩ := hashToCurvePrefix_coordinate hi pk
  obtain rfl : ⟨(coordinate i : Nat), y, false⟩ = h := Except.ok.inj (hy.symm.trans hh)
  have hvalid := hashToCurvePrefix_isValidVar countingHash hh
  have hone : ecmult ⟨(coordinate i : Nat), y, false⟩ smallContext.secretKey =
      ⟨(coordinate i : Nat), y, false⟩ := by
    change ecmult _ (1 : Scalar) = _
    rw [ecmult_eq, one_smul, Affine.fromJacobian_toJacobian hvalid]
  have hval : ((coordinate i : Nat) : Field).val = coordinate i :=
    ZMod.val_cast_of_lt ((coordinate_lt i).trans (by norm_num [fieldSize]))
  rw [hone, Affine.keccak256, countingHash_point, hval, following_coordinate hi,
    ← val_coordinate (i + 1), Scalar.fromBytes_toBeBytes, val_coordinate]

/-! ### Its rows -/

/-- The row of the `i`-th epoch. -/
structure Counted (receiverId : I64) (i : Nat) (row : Randomness) : Prop where
  id : row.id.val = i
  receiverId : row.receiverId = receiverId
  alpha : row.alpha = Hex.encode (Scalar.b32 (coordinate i : Nat))
  y : row.y = Hex.encode (Scalar.b32 (coordinate (i + 1) : Nat))
  signatureProof : ∃ address digest, row.signatureProof = Hex.encode
    (signEthereumMessage smallCrypto smallContext.secretKey
      (composeOperatorProof row.epoch address digest))

/-- The tables where one receiver, behind some others, has had all the epochs. -/
structure Growing (keyring : List Keyring) (others : List Receiver) (receiver : Receiver)
    (db : Database) (nonce : I64) : Prop where
  keyring : db.keyring = keyring
  receivers : db.receiver = others ++ [{ receiver with nonce }]
  chain : EpochChain db.randomness nonce
  rows : ∀ i (hi : i < db.randomness.length), Counted receiver.id i db.randomness[i]

/-- What lets a user add epochs of a receiver. -/
structure Place (keyring : List Keyring) (others : List Receiver) (username : String)
    (receiver : Receiver) : Prop where
  key : ∃ k ∈ keyring, k.id = smallContext.keyId
  owned : receiver.keyringId ∈ Database.keyringIds ⟨keyring, [], []⟩ username
  others : ∀ r ∈ others, r.id ≠ receiver.id ∧
    ¬(r.address = receiver.address ∧ r.network = receiver.network)
  address : ∃ bytesAddress : Bytes 20,
    Hex.decodeToSlice 20 (Hex.withoutPrefixes receiver.address) = some bytesAddress

theorem coordinate_encode_inj {i j : Nat} (hi : i < 22) (hj : j < 22)
    (h : Hex.encode (Scalar.b32 (coordinate i : Nat)) =
      Hex.encode (Scalar.b32 (coordinate j : Nat))) : i = j := by
  refine coordinate_inj hi hj ?_
  rw [← val_coordinate i, encode_b32_injective h, val_coordinate]

theorem signature_inj {nonce nonce' : I64} {address address' : Bytes 20} {digest digest' : Bytes 32}
    (h : Hex.encode (signEthereumMessage smallCrypto smallContext.secretKey
        (composeOperatorProof nonce address digest)) =
      Hex.encode (signEthereumMessage smallCrypto smallContext.secretKey
        (composeOperatorProof nonce' address' digest'))) : nonce = nonce' := by
  have hbytes := congrArg Hex.decode h
  rw [Hex.decode_encode, Hex.decode_encode, Option.some_inj] at hbytes
  exact (composeOperatorProof_injective (List.append_cancel_left hbytes)).1

section Growing

variable {keyring : List Keyring} {others : List Receiver} {username : String}
  {receiver : Receiver} {db : Database} {nonce : I64}

theorem Growing.start (keyring : List Keyring) (others : List Receiver) (receiver : Receiver) :
    Growing keyring others receiver ⟨keyring, others ++ [{ receiver with nonce := .zero }], []⟩
      .zero :=
  ⟨rfl, rfl, .nil rfl, fun i hi => absurd hi (Nat.not_lt_zero i)⟩

theorem Growing.find (h : Growing keyring others receiver db nonce)
    (hplace : Place keyring others username receiver) :
    db.receiver.find? (fun r => r.address = receiver.address ∧ r.network = receiver.network ∧
      r.keyringId ∈ db.keyringIds username) = some { receiver with nonce } := by
  have hids : db.keyringIds username = Database.keyringIds ⟨keyring, [], []⟩ username := by
    rw [Database.keyringIds, h.keyring, Database.keyringIds]
  have hnone : others.find? (fun r => r.address = receiver.address ∧
      r.network = receiver.network ∧ r.keyringId ∈ db.keyringIds username) = none := by
    refine List.find?_eq_none.mpr fun r hr hfound => (hplace.others r hr).2 ?_
    obtain ⟨haddress, hnetwork, -⟩ := of_decide_eq_true hfound
    exact ⟨haddress, hnetwork⟩
  rw [h.receivers, List.find?_append, hnone, hids]
  simpa using hplace.owned

theorem Growing.epochs (h : Growing keyring others receiver db nonce) :
    db.epochs receiver.id = db.randomness := by
  refine List.filter_eq_self.mpr fun x hx => ?_
  obtain ⟨i, hi, rfl⟩ := List.getElem_of_mem hx
  exact decide_eq_true (h.rows i hi).receiverId

/-- The next input is the next coordinate. -/
theorem Growing.run_nextAlpha (h : Growing keyring others receiver db nonce) (id : I64)
    (txn : Txn Write) (n : Nat) :
    postgres.run (fun _ => smallAnswer id) (nextAlpha (RandomnessTable.ordered
      (db.randomness.filter fun x => x.receiverId = receiver.id)).head?) n db txn =
      (some ((coordinate db.randomness.length : Nat) : Scalar), db, txn) := by
  change postgres.run _ (nextAlpha (RandomnessTable.ordered (db.epochs receiver.id)).head?) n db txn = _
  rw [h.epochs, h.chain.head?_ordered]
  by_cases hempty : db.randomness.length = 0
  · rw [List.length_eq_zero_iff.mp hempty]
    change (some (Scalar.randomize ((smallAnswer id).draw.bytes 0)), db, txn) = _
    rw [smallAnswer_draw]
    rfl
  · have hlast : db.randomness.length - 1 < db.randomness.length := by omega
    have hy := (h.rows _ hlast).y
    rw [Nat.sub_add_cancel (by omega)] at hy
    rw [List.getLast?_eq_getElem?, List.getElem?_eq_getElem hlast]
    exact run_nextAlpha_some hy n

/-- A call gets through to its writes with the next row. -/
theorem Growing.proved (h : Growing keyring others receiver db nonce)
    (hplace : Place keyring others username receiver) (hn : nonce.val < 21) (id : I64) :
    ∃ next record, nonce.succ = some next ∧
      (∀ n, postgres.run (fun _ => smallAnswer id)
        (safeInsert smallCrypto smallContext username receiver.network receiver.address) n db
          .closed =
        postgres.run (fun _ => smallAnswer id) (writeEpoch { receiver with nonce } next record) n
          db (.opened [])) ∧
      ∀ serial, (record serial).id = serial.id ∧ (record serial).keyringId = smallContext.keyId ∧
        (record serial).epoch = nonce ∧
        (serial.id = nonce → Counted receiver.id db.randomness.length (record serial)) := by
  have hlength := h.chain.nonce
  obtain ⟨next, hnext⟩ : ∃ next, nonce.succ = some next := by
    rw [I64.succ, dif_pos (by omega)]
    exact ⟨_, rfl⟩
  obtain ⟨bytesAddress, haddress⟩ := hplace.address
  obtain ⟨y, hh⟩ := hashToCurvePrefix_coordinate (i := db.randomness.length) (by omega)
    smallContext.ecvrf.publicKey
  have hdraw := smallAnswer_draw id 0
  have hk : Libecvrf.nonce (smallAnswer id).draw.bytes 0 = .ok 1 := by
    rw [nonce_of_ne_zero (hdraw ▸ one_ne_zero), hdraw]
  obtain ⟨record, digest, hrecord, hfields⟩ := newRecord_of_hash smallCrypto smallContext
    { receiver with nonce } hh hk (fun _ => evmVerify_small) haddress
  refine ⟨next, record, hnext, run_safeInsert rfl (h.find hplace)
    (h.run_nextAlpha id _) hrecord hnext, fun serial => ?_⟩
  obtain ⟨hid, hkey, hy, hsignature⟩ := hfields serial
  obtain ⟨hreceiver, hepoch, halpha, -⟩ := newRecord_ok hrecord serial
  refine ⟨hid, hkey, hepoch, fun hserial => ⟨?_, hreceiver, halpha, ?_, bytesAddress, digest, ?_⟩⟩
  · rw [hid, hserial, hlength]
  · have hout := keccak256_coordinate (i := db.randomness.length) (by omega) hh
    exact hy.trans (congrArg (fun x => Hex.encode (Scalar.b32 x)) hout)
  · rw [hsignature, hepoch]

theorem Growing.mem (h : Growing keyring others receiver db nonce) :
    { receiver with nonce } ∈ db.receiver := by
  rw [h.receivers]
  exact List.mem_append_right _ List.mem_cons_self

/-- The next row breaks no constraint. -/
theorem Growing.fresh (h : Growing keyring others receiver db nonce) (hn : nonce.val < 21)
    {row : Randomness} (hrow : Counted receiver.id db.randomness.length row)
    (hepoch : row.epoch = nonce) :
    ∀ x ∈ db.randomness, x.id ≠ row.id ∧ x.alpha ≠ row.alpha ∧ x.y ≠ row.y ∧
      x.signatureProof ≠ row.signatureProof := by
  have hlength := h.chain.nonce
  intro x hx
  obtain ⟨i, hi, rfl⟩ := List.getElem_of_mem hx
  have hcounted := h.rows i hi
  refine ⟨fun hid => ?_, fun halpha => ?_, fun hy => ?_, fun hsignature => ?_⟩
  · have hval := congrArg I64.val hid
    rw [hcounted.id, hrow.id] at hval
    omega
  · rw [hcounted.alpha, hrow.alpha] at halpha
    exact absurd (coordinate_encode_inj (by omega) (by omega) halpha) (by omega)
  · rw [hcounted.y, hrow.y] at hy
    exact absurd (coordinate_encode_inj (by omega) (by omega) hy) (by omega)
  · obtain ⟨_, _, hproof⟩ := hcounted.signatureProof
    obtain ⟨_, _, hproof'⟩ := hrow.signatureProof
    have hval := congrArg I64.val (signature_inj (hproof.symm.trans (hsignature.trans hproof')))
    rw [h.chain.epoch_getElem hi, hepoch] at hval
    omega

/-- The tables after the next epoch. -/
theorem Growing.next (h : Growing keyring others receiver db nonce)
    (hothers : ∀ r ∈ others, r.id ≠ receiver.id) {next : I64} (hnext : next.val = nonce.val + 1)
    {row : Randomness} (hrow : Counted receiver.id db.randomness.length row)
    (hepoch : row.epoch = nonce) :
    Growing keyring others receiver
      (postgres.applyAll [.updateNonce receiver.id next, .insertRandomness row] db) next where
  keyring := h.keyring
  receivers := by
    change db.receiver.map (fun r => if r.id = receiver.id then { r with nonce := next } else r) = _
    rw [h.receivers, List.map_append, List.map_singleton, if_pos rfl]
    congr 1
    exact (List.map_congr_left fun r hr => if_neg (hothers r hr)).trans (List.map_id _)
  chain := by
    refine h.chain.concat hnext hepoch (fun x hx => ?_) ⟨_, hrow.y⟩
    rw [List.getLast?_eq_getElem?, Option.mem_def] at hx
    obtain ⟨hlast, rfl⟩ := List.getElem?_eq_some_iff.mp hx
    rw [hrow.alpha, (h.rows _ hlast).y, Nat.sub_add_cancel (by omega)]
  rows := by
    change ∀ i (hi : i < (db.randomness ++ [row]).length),
      Counted receiver.id i (db.randomness ++ [row])[i]
    intro i hi
    rw [List.length_append, List.length_singleton] at hi
    rcases Nat.lt_succ_iff_lt_or_eq.mp hi with hi | rfl
    · rw [List.getElem_append_left hi]
      exact h.rows i hi
    · simpa using hrow

/-- A call that meets no failure adds the next epoch. -/
theorem Growing.run (h : Growing keyring others receiver db nonce)
    (hplace : Place keyring others username receiver) (hn : nonce.val < 21) (n : Nat) :
    ∃ next row db', postgres.run (fun _ => smallAnswer nonce)
      (safeInsert smallCrypto smallContext username receiver.network receiver.address) n db .closed =
        (some (.ok row), db', .closed) ∧
      next.val = nonce.val + 1 ∧ Growing keyring others receiver db' next := by
  obtain ⟨next, record, hnext, hwrites, hfields⟩ := h.proved hplace hn nonce
  obtain ⟨-, hkey, hepoch, hcounted⟩ := hfields (smallAnswer nonce).serial
  have hrow := hcounted rfl
  have hkeyring : ∃ k ∈ db.keyring, k.id = (record (smallAnswer nonce).serial).keyringId := by
    rw [h.keyring, hkey]
    exact hplace.key
  have hreceiver : ∃ r ∈ (Database.apply (.updateNonce receiver.id next) db).receiver,
      r.id = (record (smallAnswer nonce).serial).receiverId := by
    refine ⟨_, List.mem_map_of_mem h.mem, ?_⟩
    rw [hrow.receiverId, if_pos rfl]
  have hinsert : RandomnessTable.insertStatement record (smallAnswer nonce).serial
      (Database.apply (.updateNonce receiver.id next) db) = .ok (.insertRandomness _) :=
    insertStatement_of_fresh (h.fresh hn hrow hepoch) hkeyring hreceiver
  refine ⟨next, _, _, (hwrites n).trans (run_writeEpoch rfl h.mem hinsert n), I64.val_succ hnext, ?_⟩
  exact h.next (fun r hr => (hplace.others r hr).1) (I64.val_succ hnext) hrow hepoch

/-- A call whose row is given a serial number again is refused. -/
theorem Growing.run_refused (h : Growing keyring others receiver db nonce)
    (hplace : Place keyring others username receiver) (hn : nonce.val < 21) (id : I64)
    (hid : 0 ≤ id.val ∧ id.val < nonce.val) (n : Nat) :
    postgres.run (fun _ => smallAnswer id)
      (safeInsert smallCrypto smallContext username receiver.network receiver.address) n db .closed =
        (some (.error (.constraint "randomness_pkey")), db, .closed) := by
  obtain ⟨next, record, -, hwrites, hfields⟩ := h.proved hplace hn id
  have hrow : (record (smallAnswer id).serial).id = id := (hfields (smallAnswer id).serial).1
  have hlength := h.chain.nonce
  have hi : id.val.toNat < db.randomness.length := by omega
  have htaken : (db.randomness.all fun x => x.id ≠ (record (smallAnswer id).serial).id) = false := by
    rw [List.all_eq_false]
    refine ⟨_, List.getElem_mem hi, ?_⟩
    have hsame : db.randomness[id.val.toNat].id = id := by
      refine I64.ext ?_
      rw [(h.rows _ hi).id]
      omega
    simp [hsame, hrow]
  have hinsert : RandomnessTable.insertStatement record (smallAnswer id).serial
      (Database.apply (.updateNonce receiver.id next) db) =
        .error (.constraint "randomness_pkey") := by
    change enforce ((_, db.randomness.all _) :: _) _ = _
    rw [htaken]
    rfl
  exact (hwrites n).trans (run_writeEpoch_refused rfl h.mem hinsert n)

end Growing

end Node
