import Orochimaru.Libecvrf.ContractProof
import Orochimaru.Node.Serving

/-!
# The tables of a running node

The keys and links of `pg-init.sql`, the chains of epochs and where each published row comes
from: what holds of the tables holds after any requests side by side. So the outputs of a
receiver are fixed by the key of the node and its first input.
-/

namespace Node

open Transactions Zkmemory Libecvrf

/-! ## What the columns of a row are -/

/-- Hash to the curve, multiply by the secret key, hash again. -/
def vrfOutput (crypto : Crypto) (context : NodeContext) (alpha : Scalar) : Option Scalar :=
  match hashToCurvePrefix crypto.keccak crypto.fuel alpha context.ecvrf.publicKey with
  | .ok h => some (Scalar.fromBytes ((ecmult h context.secretKey).keccak256 crypto.keccak))
  | .error _ => none

/-- A row with the proof and the signature it publishes. -/
structure Certified (crypto : Crypto) (context : NodeContext) (nonce : I64) (address : String)
    (row : Randomness) (alpha : Scalar) (contractProof : ECVRFContractProof)
    (bytesAddress : Bytes 20) : Prop where
  proved : ∃ draws, context.ecvrf.proveContract crypto.keccak alpha crypto.fuel draws =
    .ok contractProof
  accepted : evmVerify crypto contractProof = some true
  address : Hex.decodeToSlice 20 (Hex.withoutPrefixes address) = some bytesAddress
  key : row.keyringId = context.keyId
  alpha : row.alpha = Hex.encode (Scalar.b32 alpha)
  gamma : row.gamma = toHexString contractProof.gamma
  c : row.c = Hex.encode (Scalar.b32 contractProof.c)
  s : row.s = Hex.encode (Scalar.b32 contractProof.s)
  y : row.y = Hex.encode (Scalar.b32 contractProof.y)
  witnessGamma : row.witnessGamma = toHexString contractProof.witnessGamma
  witnessHash : row.witnessHash = toHexString contractProof.witnessHash
  inverseZ : row.inverseZ = Hex.encode (Field.b32 contractProof.inverseZ)
  signatureProof : row.signatureProof = Hex.encode (signEthereumMessage crypto context.secretKey
    (composeOperatorProof nonce bytesAddress (ecvrfProofDigest crypto contractProof)))

section Rows

variable {crypto : Crypto} {context : NodeContext} {receiver : Receiver} {address : String}
  {alpha : Scalar} {draws : Nat → Bytes 32} {record : Serial → Randomness}

theorem newRecord_certified
    (h : newRecord crypto context receiver address alpha draws = some (.ok record))
    (serial : Serial) : ∃ contractProof bytesAddress,
      Certified crypto context receiver.nonce address (record serial) alpha contractProof
        bytesAddress := by
  rw [newRecord] at h
  split at h
  case h_1 => cases h
  case h_2 => cases h
  case h_3 contractProof hproof =>
    obtain ⟨verified, hverified, h⟩ := Option.bind_eq_some_iff.mp h
    split at h
    case isTrue => cases h
    case isFalse haccepted =>
      obtain ⟨bytesAddress, haddress, h⟩ := Option.bind_eq_some_iff.mp h
      cases h
      refine ⟨contractProof, bytesAddress, ⟨draws, hproof⟩, ?_, haddress, rfl, rfl, rfl, rfl, rfl,
        rfl, rfl, rfl, rfl, rfl⟩
      rw [hverified, not_not.mp haccepted]

/-- The output does not depend on the nonce of the proof. -/
theorem Certified.output {nonce : I64} {row : Randomness} {contractProof : ECVRFContractProof}
    {bytesAddress : Bytes 20}
    (h : Certified crypto context nonce address row alpha contractProof bytesAddress) :
    vrfOutput crypto context alpha = some contractProof.y := by
  obtain ⟨draws, hproof⟩ := h.proved
  obtain ⟨point, k, hpoint, -, rfl⟩ := ECVRF.proveContract_ok_iff.mp hproof
  rw [vrfOutput, hpoint]
  rfl

end Rows

/-! ## The invariant -/

/-- No two rows agree in a column. -/
def Unique {α β : Type} (rows : List α) (column : α → β) : Prop := (rows.map column).Nodup

theorem Unique.concat {α β : Type} {rows : List α} {column : α → β} (h : Unique rows column)
    {row : α} (hrow : ∀ r ∈ rows, column r ≠ column row) : Unique (rows ++ [row]) column := by
  rw [Unique, List.map_append]
  refine List.nodup_append.mpr ⟨h, List.nodup_singleton _, fun value hvalue value' hvalue' => ?_⟩
  obtain ⟨r, hr, rfl⟩ := List.mem_map.mp hvalue
  rw [List.mem_singleton.mp hvalue']
  exact hrow r hr

theorem Unique.of_map {α β : Type} {rows : List α} {column : α → β} (h : Unique rows column)
    {update : α → α} (hupdate : ∀ r, column (update r) = column r) :
    Unique (rows.map update) column := by
  rw [Unique, List.map_map]
  exact (congrArg List.Nodup (List.map_congr_left fun r _ => hupdate r)).mpr h

/-- A published row was made for the receiver it belongs to. -/
def Published (crypto : Crypto) (context : NodeContext) (db : Database) (row : Randomness) : Prop :=
  ∃ receiver ∈ db.receiver, receiver.id = row.receiverId ∧
    ∃ alpha contractProof bytesAddress,
      Certified crypto context row.epoch receiver.address row alpha contractProof bytesAddress

/-- The constraints of the tables, the chains and the rows. -/
structure Consistent (crypto : Crypto) (context : NodeContext) (db : Database) : Prop where
  keyringIds : Unique db.keyring (·.id)
  usernames : Unique db.keyring (·.username)
  publicKeys : Unique db.keyring (·.publicKey)
  secretKeys : Unique db.keyring (·.secretKey)
  receiverNames : Unique db.receiver (·.name)
  receiverPlaces : Unique db.receiver fun r => (r.address, r.network)
  receiverKeys : ∀ r ∈ db.receiver, ∃ k ∈ db.keyring, k.id = r.keyringId
  randomnessIds : Unique db.randomness (·.id)
  alphas : Unique db.randomness (·.alpha)
  outputs : Unique db.randomness (·.y)
  signatureProofs : Unique db.randomness (·.signatureProof)
  randomnessKeys : ∀ x ∈ db.randomness, ∃ k ∈ db.keyring, k.id = x.keyringId
  intact : Intact db
  published : ∀ x ∈ db.randomness, Published crypto context db x

theorem Published.grows {crypto : Crypto} {context : NodeContext} {db db' : Database}
    {row : Randomness}
    (h : Published crypto context db row) (hgrows : Grows db db') :
    Published crypto context db' row := by
  obtain ⟨receiver, hreceiver, hid, hrow⟩ := h
  obtain ⟨receiver', hreceiver', hsame⟩ := hgrows.mem_receiver hreceiver
  obtain ⟨hid', -, -, haddress, -⟩ := Receiver.identity_eq_iff.mp hsame
  exact ⟨receiver', hreceiver', hid'.trans hid, haddress ▸ hrow⟩

namespace Consistent

variable {lib : Libraries} {context : NodeContext} {db : Database}

theorem addUser (h : Consistent lib.toCrypto context db) {row : Keyring} (hfresh : FreshUser db row) :
    Consistent lib.toCrypto context (Database.apply (.insertKeyring row) db) where
  keyringIds := h.keyringIds.concat fun k hk => (hfresh k hk).1
  usernames := h.usernames.concat fun k hk => (hfresh k hk).2.1
  publicKeys := h.publicKeys.concat fun k hk => (hfresh k hk).2.2.1
  secretKeys := h.secretKeys.concat fun k hk => (hfresh k hk).2.2.2
  receiverNames := h.receiverNames
  receiverPlaces := h.receiverPlaces
  receiverKeys r hr := by
    obtain ⟨k, hk, hid⟩ := h.receiverKeys r hr
    exact ⟨k, List.mem_append_left _ hk, hid⟩
  randomnessIds := h.randomnessIds
  alphas := h.alphas
  outputs := h.outputs
  signatureProofs := h.signatureProofs
  randomnessKeys x hx := by
    obtain ⟨k, hk, hid⟩ := h.randomnessKeys x hx
    exact ⟨k, List.mem_append_left _ hk, hid⟩
  intact := ⟨h.intact.ids, h.intact.linked, h.intact.chains⟩
  published x hx := h.published x hx

theorem addReceiver (h : Consistent lib.toCrypto context db) {row : Receiver}
    (hnonce : row.nonce = .zero) (hfresh : FreshReceiver db row) :
    Consistent lib.toCrypto context (Database.apply (.insertReceiver row) db) where
  keyringIds := h.keyringIds
  usernames := h.usernames
  publicKeys := h.publicKeys
  secretKeys := h.secretKeys
  receiverNames := h.receiverNames.concat fun r hr => (hfresh.fresh r hr).2.1
  receiverPlaces := h.receiverPlaces.concat fun r hr hsame =>
    (hfresh.fresh r hr).2.2 (Prod.mk.injEq .. ▸ hsame)
  receiverKeys r hr := by
    rcases List.mem_append.mp hr with hr | hr
    · exact h.receiverKeys r hr
    · rw [List.mem_singleton.mp hr]
      exact hfresh.linked
  randomnessIds := h.randomnessIds
  alphas := h.alphas
  outputs := h.outputs
  signatureProofs := h.signatureProofs
  randomnessKeys := h.randomnessKeys
  intact := h.intact.insertReceiver (fun r hr => (hfresh.fresh r hr).1) (by rw [hnonce]; rfl)
  published x hx := by
    obtain ⟨receiver, hreceiver, hrow⟩ := h.published x hx
    exact ⟨receiver, List.mem_append_left _ hreceiver, hrow⟩

/-- The row that goes on links to the last one. -/
theorem alpha_last {crypto : Crypto} (h : Consistent crypto context db) {receiver : Receiver}
    (hreceiver : receiver ∈ db.receiver) {row : Randomness}
    (hrow : NextEpoch crypto context db receiver row) :
    ∀ x ∈ (db.epochs receiver.id).getLast?, row.alpha = x.y := by
  obtain ⟨alpha, draws, record, serial, hcontinues, hrecord, rfl⟩ := hrow.proved
  have hchain := h.intact.chains receiver hreceiver
  intro x hx
  rw [Continues, hchain.head?_ordered, Option.mem_def.mp hx] at hcontinues
  obtain ⟨buf, hdecode, rfl⟩ := hcontinues
  obtain ⟨y, hy⟩ := hchain.outputs x (List.mem_of_getLast? hx)
  rw [hy, Scalar.b32, Hex.decodeToSlice_encode] at hdecode
  obtain rfl := Option.some.inj hdecode
  rw [(newRecord_ok hrecord serial).2.2.1, Scalar.fromBytes_toBeBytes, hy]

theorem newEpoch (h : Consistent lib.toCrypto context db) {receiver : Receiver}
    (hreceiver : receiver ∈ db.receiver) {nonce : I64} (hnonce : receiver.nonce.succ = some nonce)
    {row : Randomness} (hrow : NextEpoch lib.toCrypto context db receiver row)
    (hgrows : Grows db (postgres.applyAll [.updateNonce receiver.id nonce, .insertRandomness row] db)) :
    Consistent lib.toCrypto context
      (postgres.applyAll [.updateNonce receiver.id nonce, .insertRandomness row] db) := by
  obtain ⟨hid, hepoch⟩ := hrow.row
  obtain ⟨alpha, draws, record, serial, -, hrecord, hrecorded⟩ := hrow.proved
  have hsame : ∀ {β : Type} (column : Receiver → β),
      (∀ r nonce, column { r with nonce } = column r) → Unique db.receiver column →
      Unique (db.receiver.map fun r => if r.id = receiver.id then { r with nonce } else r)
        column := by
    intro β column hcolumn hunique
    refine hunique.of_map fun r => ?_
    split
    · exact hcolumn r nonce
    · rfl
  have hpublished : Published lib.toCrypto context db row := by
    obtain ⟨contractProof, bytesAddress, hcertified⟩ := newRecord_certified hrecord serial
    rw [← hepoch, ← hrecorded] at hcertified
    exact ⟨receiver, hreceiver, hid.symm, alpha, contractProof, bytesAddress, hcertified⟩
  exact {
    keyringIds := h.keyringIds
    usernames := h.usernames
    publicKeys := h.publicKeys
    secretKeys := h.secretKeys
    receiverNames := hsame _ (fun _ _ => rfl) h.receiverNames
    receiverPlaces := hsame _ (fun _ _ => rfl) h.receiverPlaces
    receiverKeys := by
      intro r' hr'
      obtain ⟨r, hr, rfl⟩ := List.mem_map.mp hr'
      obtain ⟨k, hk, hkey⟩ := h.receiverKeys r hr
      refine ⟨k, hk, hkey.trans ?_⟩
      split <;> rfl
    randomnessIds := h.randomnessIds.concat fun x hx => (hrow.fresh x hx).1
    alphas := h.alphas.concat fun x hx => (hrow.fresh x hx).2.1
    outputs := h.outputs.concat fun x hx => (hrow.fresh x hx).2.2.1
    signatureProofs := h.signatureProofs.concat fun x hx => (hrow.fresh x hx).2.2.2
    randomnessKeys := by
      intro x hx
      rcases List.mem_append.mp hx with hx | hx
      · exact h.randomnessKeys x hx
      · rw [List.mem_singleton.mp hx]
        exact hrow.linked
    intact := h.intact.insertEpoch hreceiver (I64.val_succ hnonce) hid hepoch
      (h.alpha_last hreceiver hrow) (hrecorded ▸ (newRecord_ok hrecord serial).2.2.2)
    published := by
      intro x hx
      rcases List.mem_append.mp hx with hx | hx
      · exact Published.grows (h.published x hx) hgrows
      · rw [List.mem_singleton.mp hx]
        exact Published.grows hpublished hgrows }

theorem preserved : Preserved lib context (Consistent lib.toCrypto context) := by
  intro user db m locked json db' h heffect
  have hgrows := heffect.grows
  cases heffect with
  | newEpoch hreceiver _ _ _ _ hnonce hrow => exact h.newEpoch hreceiver hnonce hrow hgrows
  | addUser _ hfresh => exact h.addUser hfresh
  | addReceiver _ _ _ hnonce _ hfresh => exact h.addReceiver hnonce hfresh

end Consistent

/-! ## Any requests -/

/-- The outputs from a first input on. -/
def orbit (crypto : Crypto) (context : NodeContext) (alpha : Scalar) : Nat → Option Scalar
  | 0 => some alpha
  | e + 1 => (orbit crypto context alpha e).bind (vrfOutput crypto context)

section Outputs

variable {crypto : Crypto} {context : NodeContext} {db : Database}

theorem Published.output {row : Randomness} (h : Published crypto context db row) :
    ∃ x y, row.alpha = Hex.encode (Scalar.b32 x) ∧ row.y = Hex.encode (Scalar.b32 y) ∧
      vrfOutput crypto context x = some y := by
  obtain ⟨_, -, -, alpha, contractProof, _, h⟩ := h
  exact ⟨alpha, contractProof.y, h.alpha, h.y, h.output⟩

/-- The rows of a receiver, one after the other. -/
theorem EpochChain.on_orbit {rows : List Randomness} {nonce : I64} (h : EpochChain rows nonce)
    (hrows : ∀ row ∈ rows, Published crypto context db row) :
    ∃ alpha, ∀ i (hi : i < rows.length), ∃ x y, orbit crypto context alpha i = some x ∧
      orbit crypto context alpha (i + 1) = some y ∧
      rows[i].alpha = Hex.encode (Scalar.b32 x) ∧ rows[i].y = Hex.encode (Scalar.b32 y) := by
  by_cases hempty : rows.length = 0
  · exact ⟨0, fun i hi => absurd hi (by omega)⟩
  have hzero : 0 < rows.length := by omega
  obtain ⟨alpha, -, hfirst, -⟩ := (hrows _ (List.getElem_mem hzero)).output
  refine ⟨alpha, fun i => ?_⟩
  induction i with
  | zero =>
    intro hi
    obtain ⟨x, y, hx, hy, hout⟩ := (hrows _ (List.getElem_mem hi)).output
    obtain rfl := encode_b32_injective (hfirst.symm.trans hx)
    exact ⟨alpha, y, rfl, hout, hx, hy⟩
  | succ i ih =>
    intro hi
    obtain ⟨x, y, -, hnext, -, hlast⟩ := ih (by omega)
    obtain ⟨x', y', hx', hy', hout⟩ := (hrows _ (List.getElem_mem hi)).output
    have hlink : rows[i + 1].alpha = rows[i].y := h.links.getElem i hi
    obtain rfl := encode_b32_injective (hx'.symm.trans (hlink.trans hlast))
    exact ⟨x', y', hnext, by rw [orbit, hnext]; exact hout, hx', hy'⟩

end Outputs

section Runs

variable {ι : Type} [DecidableEq ι] {lib : Libraries} {context : NodeContext} {db : Database}
  {requests : ι → Request} {w : World ι Database Write DbErr Serial Draw Response}
  {events : List (Event ι Database)}

/-- **The outputs are determined.** In any run there is one input for each receiver from which all
its rows follow: the row of epoch `e` publishes the `e + 1`-st output, whatever the nonces drawn,
the requests and the failures. -/
theorem outputs_determined (hdb : Consistent lib.toCrypto context db)
    (hrun : Run postgres (serving lib context db requests) events w) :
    ∀ receiver ∈ w.db.receiver, ∃ alpha, ∀ row ∈ w.db.epochs receiver.id, ∃ (e : Nat) (x y : Scalar),
      row.epoch.val = e ∧ orbit lib.toCrypto context alpha e = some x ∧
      orbit lib.toCrypto context alpha (e + 1) = some y ∧
      row.alpha = Hex.encode (Scalar.b32 x) ∧ row.y = Hex.encode (Scalar.b32 y) := by
  have hinv := (serving_kept Consistent.preserved hdb hrun).inv
  intro receiver hreceiver
  have hchain := hinv.intact.chains receiver hreceiver
  obtain ⟨alpha, hrows⟩ := hchain.on_orbit fun row hrow =>
    hinv.published row (List.mem_of_mem_filter hrow)
  refine ⟨alpha, fun row hrow => ?_⟩
  obtain ⟨i, hi, rfl⟩ := List.getElem_of_mem hrow
  obtain ⟨x, y, hx, hy, hrest⟩ := hrows i hi
  exact ⟨i, x, y, hchain.epoch_getElem hi, hx, hy, hrest⟩

theorem consistent_aliceTables (crypto : Crypto) (context : NodeContext) {secret : String}
    (hsecret : secret ≠ "") : Consistent crypto context (aliceTables secret) where
  keyringIds := by
    change [I64.zero, I64.max].Nodup
    decide
  usernames := by
    change ["orand", "alice"].Nodup
    decide
  publicKeys := by
    change ["", "0"].Nodup
    decide
  secretKeys := by
    change [secret, ""].Nodup
    simpa using hsecret
  receiverNames := by
    change ["public", "game"].Nodup
    decide
  receiverPlaces := by
    change [(zeroAddress, I64.zero), (gameAddress, I64.zero)].Nodup
    decide
  receiverKeys := by simp [aliceTables, publicReceiver, game]
  randomnessIds := List.nodup_nil
  alphas := List.nodup_nil
  outputs := List.nodup_nil
  signatureProofs := List.nodup_nil
  randomnessKeys := by simp [aliceTables]
  intact := by
    refine ⟨nodup_aliceTables secret, by simp [aliceTables], fun r hr => ?_⟩
    have hr : r ∈ [publicReceiver, game] := hr
    have hzero : ∀ r ∈ [publicReceiver, game], r.nonce = .zero := by decide
    refine .nil ?_
    rw [hzero r hr]
    rfl
  published := by simp [aliceTables]

/-- `alice` adds three epochs of her game. -/
theorem outputs_determined_small :
    let lib := smallLibraries "alice" gamePayload
    ∃ (w : World Nat Database Write DbErr Serial Draw Response),
      game.id ∈ w.db.receiver.map (·.id) ∧ (w.db.epochs game.id).length = 3 ∧
      ∀ receiver ∈ w.db.receiver, ∃ alpha, ∀ row ∈ w.db.epochs receiver.id,
        ∃ (e : Nat) (x y : Scalar), row.epoch.val = e ∧
          orbit lib.toCrypto smallContext alpha e = some x ∧
          orbit lib.toCrypto smallContext alpha (e + 1) = some y ∧
          row.alpha = Hex.encode (Scalar.b32 x) ∧ row.y = Hex.encode (Scalar.b32 y) := by
  intro lib
  obtain ⟨events, w, nonce, hrun, hplayed, hlength, -, -⟩ :=
    alice_plays "01" (fun _ => smallRequest "") (by decide : 3 ≤ 21) fun _ _ => rfl
  have hgame := List.mem_map_of_mem (f := fun r : Receiver => r.id) hplayed.mem
  exact ⟨w, hgame, hlength,
    outputs_determined (consistent_aliceTables _ _ (by decide)) hrun⟩

end Runs

end Node
