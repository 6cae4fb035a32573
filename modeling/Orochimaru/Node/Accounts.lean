import Orochimaru.Node.OperatorProofs

/-!
# New users

The secret the administrator is told of a new user is the one the tables keep: from then on a
token signed with it is let in, whatever is asked meanwhile.
-/

namespace Node

open Transactions Zkmemory Libecvrf QuickResponse

section Authorize

variable {lib : Libraries} {db : Database} {env : Nat → Answer DbErr Serial Draw}

theorem authenticate_of_validToken {format : TokenFormat} {hmacSecret : String → String}
    {now : Nat} {jsonWebToken : String} {jwtPayload : JWTPayload}
    (h : ValidToken format hmacSecret now jsonWebToken jwtPayload) :
    authenticate format hmacSecret now jsonWebToken = some (.ok jwtPayload) := by
  obtain ⟨header, payload, signature, message, key, htoken, hpayload, hkey, htag⟩ := h
  rw [authenticate_parts htoken hpayload hkey, htag, Option.map_some, if_pos rfl]

/-- A token signed with the secret of this row is let in, unless the database fails. -/
def SignsIn (lib : Libraries) (db : Database) (record : Keyring) : Prop :=
  ∀ (env : Nat → Answer DbErr Serial Draw) (n : Nat) authorization jsonWebToken jwtPayload,
    (∀ k, (env k).fault = none) → authorization.bind headerToStr = some jsonWebToken →
    ValidToken lib.toTokenFormat (fun _ => record.hmacSecret) (env n).draw.now jsonWebToken
      jwtPayload → jwtPayload.user = record.username →
    postgres.run env (authorize lib authorization) n db .closed =
      (some (.ok jwtPayload), db, .closed)

theorem signsIn_of_find {record : Keyring}
    (h : db.keyring.find? (fun k => k.username = record.username) = some record) :
    SignsIn lib db record := by
  intro env n authorization jsonWebToken jwtPayload hfault hheader hvalid huser
  have hdecode : JWT.decodePayload lib.toTokenFormat (env n).draw.now jsonWebToken =
      .ok jwtPayload := by
    obtain ⟨header, payload, signature, message, -, htoken, hpayload, -⟩ := hvalid
    exact decodePayload_ok_iff.mpr ⟨header, payload, signature, message, htoken, hpayload⟩
  rw [run_authorize hfault n hheader hdecode (huser ▸ h), authenticate_of_validToken hvalid]

end Authorize

section Runs

variable {ι : Type} [DecidableEq ι] {lib : Libraries} {context : NodeContext} {db : Database}
  {requests : ι → Request} {w : World ι Database Write DbErr Serial Draw Response}
  {events : List (Event ι Database)}

theorem FreshUser.find {row : Keyring} (h : FreshUser db row) :
    (Database.apply (.insertKeyring row) db).keyring.find? (fun k => k.username = row.username) =
      some row := by
  have hnone : db.keyring.find? (fun k => k.username = row.username) = none := by
    refine List.find?_eq_none.mpr fun k hk => ?_
    simpa using (h k hk).2.1
  rw [Database.apply, List.find?_append, hnone]
  simp

/-- The row a request is told the secret of. -/
theorem getUser_answered {i : ι} {username : String} {resp : Response}
    (hrun : Run postgres (serving lib context db requests) events w)
    (hasks : Asks lib (requests i) (.adminGetUser username))
    (hret : (w.threads i).prog = .ret resp) :
    (∃ e, resp = err e) ∨ ∃ record, resp = resJson lib (userSecret lib record) ∧
      w.db.keyring.find? (fun k => k.username = username) = some record := by
  have hpost := (serving_kept preserved_true trivial hrun).post hret
  generalize changes i events = history at hpost
  cases hpost with
  | refused e => exact .inl ⟨e, rfl⟩
  | performed hasks' _ h =>
    obtain rfl := hasks.unique hasks'
    cases h with
    | refused e => exact .inl ⟨e, rfl⟩
    | changed _ heffect => cases heffect
    | read _ hgrows hread =>
      cases hread with
      | user _ hfind => exact .inr ⟨_, rfl, hgrows.findByName hfind⟩

/-- **A new user can sign in.** A request for a new user is refused, or answered a record with a
drawn secret, and in any order of requests from then on a token signed with this secret is let in
and whoever is told the secret of the user is told this one. -/
theorem added_users_sign_in (hrun : Run postgres (serving lib context db requests) events w)
    {i : ι} {username : String} (hasks : Asks lib (requests i) (.adminAddUser username))
    {resp : Response} (hret : (w.threads i).prog = .ret resp) :
    (∃ e, resp = err e) ∨ ∃ record : Keyring, resp = resJson lib (userResponse lib record) ∧
      record.username = username ∧
      (∃ bytes : Bytes 32, record.hmacSecret = Hex.encode (List.ofFn bytes)) ∧
      SignsIn lib w.db record ∧
      ∀ j resp', Asks lib (requests j) (.adminGetUser username) →
        (w.threads j).prog = .ret resp' →
        (∃ e, resp' = err e) ∨ resp' = resJson lib (userSecret lib record) := by
  have hpost := (serving_kept preserved_true trivial hrun).post hret
  generalize changes i events = history at hpost
  cases hpost with
  | refused e => exact .inl ⟨e, rfl⟩
  | performed hasks' _ h =>
    obtain rfl := hasks.unique hasks'
    cases h with
    | refused e => exact .inl ⟨e, rfl⟩
    | read _ _ hread => cases hread
    | changed hgrows heffect =>
      cases heffect with
      | @addUser _ bytes secretKey serial _ hfresh =>
        have hfind := hgrows.findByName hfresh.find
        refine .inr ⟨_, rfl, rfl, ⟨bytes, rfl⟩, signsIn_of_find hfind, fun j resp' hasks' hret' => ?_⟩
        rcases getUser_answered hrun hasks' hret' with herror | ⟨record, rfl, hrecord⟩
        · exact .inl herror
        · obtain rfl := Option.some.inj (hrecord.symm.trans hfind)
          exact .inr rfl

theorem encode_ne_empty {bytes : List Byte} (h : bytes ≠ []) : "" ≠ Hex.encode bytes := by
  obtain ⟨b, rest, rfl⟩ := List.exists_cons_of_ne_nil h
  obtain ⟨high, low, -, -, hcons⟩ := toList_encode_cons b rest
  intro heq
  have hchars := congrArg String.toList heq
  rw [hcons] at hchars
  cases hchars

theorem next_insert {record : Serial → Keyring} {a : Answer DbErr Serial Draw} {w : Write}
    (hw : KeyringTable.insertStatement record a.serial db = .ok w) (hfault : a.fault = none)
    (k : Except DbErr Serial → Async Response) :
    (⟨.write (KeyringTable.insertStatement record) k, .closed, false⟩ : Thread ..).next postgres a db =
      some (⟨k (.ok a.serial), .closed, false⟩, Database.apply w db) := by
  simp only [Thread.next, Store.onWrite, hfault, hw]
  rfl

/-- `carol` is added. -/
theorem added_users_sign_in_carol :
    let lib := smallLibraries "orand" fun _ => ⟨"admin_addUser", ["carol"]⟩
    ∃ (w : World Unit Database Write DbErr Serial Draw Response),
      (w.threads ()).prog = .ret (ok "[]") ∧ ∃ record : Keyring, record.username = "carol" ∧
        SignsIn lib w.db record := by
  intro lib
  let answer := smallAnswer .max
  let start := serving lib smallContext orandTables fun _ : Unit => smallRequest ""
  let row := newUser "carol" (List.ofFn (answer.draw.bytes 0)) (.ofSecretKey answer.draw.secretKey)
  have hpublic : "" ≠ (row answer.serial).publicKey := encode_ne_empty (List.cons_ne_nil _ _)
  have hsecret : "" ≠ (row answer.serial).secretKey :=
    encode_ne_empty fun h => absurd (congrArg List.length h) (by simp [KeyPair.toRaw])
  have hinsert : KeyringTable.insertStatement row answer.serial orandTables =
      .ok (.insertKeyring (row answer.serial)) := by
    have hid : I64.zero ≠ (row answer.serial).id := by decide
    have hname : "orand" ≠ (row answer.serial).username := by decide
    simp [KeyringTable.insertStatement, enforce, orandTables, hid, hname, hpublic, hsecret]
  have h₀ : Run postgres start [] start := .refl
  have h₁ := h₀.tail (.exec (i := ()) answer rfl fun h => h.elim)
  have h₂ := h₁.tail (.exec (i := ()) answer rfl fun h => h.elim)
  have h₃ := h₂.tail (.exec (i := ()) answer rfl fun h => h.elim)
  have h₄ := h₃.tail (.exec (i := ()) answer rfl fun h => h.elim)
  have h₅ := h₄.tail (.exec (i := ()) answer (next_insert hinsert rfl _) fun h => h.elim)
  have hasks : Asks lib (smallRequest "") (.adminAddUser "carol") := ⟨[], "", rfl, rfl, rfl⟩
  rcases added_users_sign_in (i := ()) h₅ hasks rfl with ⟨e, he⟩ | ⟨record, -, hname, -, hsigns, -⟩
  · have hstatus : 200 = 500 := congrArg Response.status he
    exact absurd hstatus (by decide)
  · exact ⟨_, rfl, record, hname, hsigns⟩

end Runs

end Node
