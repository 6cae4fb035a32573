import Orochimaru.Node.Consistency

/-!
# Asking for epochs

The epochs a request is answered are the newest of a receiver up to the one it asks for, twenty
at most, without gaps and each with the output of the next as its input.
-/

namespace Node

open Transactions Zkmemory Libecvrf QuickResponse

/-! ## Sorted chains -/

/-- Rows numbered one after the other, up to a bound. -/
theorem filter_epoch_le {rows : List Randomness} {k : Nat}
    (h : rows.map (·.epoch.val) = (List.range' k rows.length).map Int.ofNat) (e : Int) :
    rows.filter (fun x => x.epoch.val ≤ e) = rows.take (e + 1 - k).toNat := by
  induction rows generalizing k with
  | nil => simp
  | cons x rows ih =>
    rw [List.map_cons, List.length_cons, List.range'_succ, List.map_cons, List.cons.injEq] at h
    obtain ⟨hx, hrows⟩ := h
    have hx : x.epoch.val = k := hx
    by_cases hle : x.epoch.val ≤ e
    · obtain ⟨n, hn⟩ : ∃ n, (e + 1 - k).toNat = n + 1 := ⟨(e - k).toNat, by omega⟩
      rw [List.filter_cons_of_pos (by simpa using hle), ih hrows, hn, List.take_succ_cons]
      congr 2
      push_cast
      omega
    · rw [List.filter_cons_of_neg (by simpa using hle), ih hrows]
      have hzero : (e + 1 - k).toNat = 0 := by omega
      have hzero' : (e + 1 - (k + 1 : Nat)).toNat = 0 := by omega
      rw [hzero, hzero', List.take_zero, List.take_zero]

/-- The newest epochs of the first `n`, twenty at most. -/
structure Page (rows page : List Randomness) (n : Nat) : Prop where
  length : page.length = min 20 n
  newest : ∀ i (hi : i < page.length), rows[n - 1 - i]? = some page[i]
  epochs : ∀ i (hi : i < page.length), page[i].epoch.val = n - 1 - i
  links : page.IsChain fun x x' => x.alpha = x'.y

namespace EpochChain

variable {rows : List Randomness} {nonce : I64}

/-- Where epochs are numbered from zero the highest come last. -/
theorem ordered_take (h : EpochChain rows nonce) (n : Nat) :
    RandomnessTable.ordered (rows.take n) = (rows.take n).reverse := by
  have hrows : rows.Pairwise fun x x' => x.epoch.val < x'.epoch.val := by
    refine List.pairwise_iff_getElem.mpr fun i j hi hj hij => ?_
    rw [h.epoch_getElem hi, h.epoch_getElem hj]
    exact_mod_cast hij
  have hsorted : (rows.take n).reverse.Pairwise fun x x' => x'.epoch.val ≤ x.epoch.val := by
    rw [List.pairwise_reverse]
    exact (hrows.sublist (List.take_sublist n rows)).imp le_of_lt
  have hperm : (RandomnessTable.ordered (rows.take n)).Perm (rows.take n).reverse :=
    (List.mergeSort_perm _ _).trans (List.reverse_perm _).symm
  refine hperm.eq_of_pairwise (fun x x' hx hx' hle hle' => ?_) (ordered_pairwise _) hsorted
  have hx : x ∈ rows := List.mem_of_mem_take (List.mem_reverse.mp (hperm.mem_iff.mp hx))
  have hx' : x' ∈ rows := List.mem_of_mem_take (List.mem_reverse.mp hx')
  obtain ⟨i, hi, rfl⟩ := List.getElem_of_mem hx
  obtain ⟨j, hj, rfl⟩ := List.getElem_of_mem hx'
  rw [h.epoch_getElem hi, h.epoch_getElem hj] at hle hle'
  obtain rfl : i = j := by omega
  rfl

theorem page (h : EpochChain rows nonce) {n : Nat} (hn : n ≤ rows.length) :
    Page rows ((rows.take n).reverse.take 20) n := by
  have hlength : ((rows.take n).reverse.take 20).length = min 20 n := by
    rw [List.length_take, List.length_reverse, List.length_take, min_eq_left hn]
  have hget : ∀ i (hi : i < ((rows.take n).reverse.take 20).length),
      rows[n - 1 - i]? = some ((rows.take n).reverse.take 20)[i] := by
    intro i hi
    have hlt : n - 1 - i < rows.length := by omega
    rw [List.getElem?_eq_getElem hlt, List.getElem_take, List.getElem_reverse, List.getElem_take]
    congr 2
    rw [List.length_take, min_eq_left hn]
  refine ⟨hlength, hget, fun i hi => ?_, List.isChain_iff_getElem.mpr fun i hi => ?_⟩
  · have hlt : n - 1 - i < rows.length := by omega
    have hrow := hget i hi
    rw [List.getElem?_eq_getElem hlt, Option.some_inj] at hrow
    rw [← hrow, h.epoch_getElem hlt]
    omega
  · have hlt : n - 1 - i < rows.length := by omega
    have hrow := hget i (by omega)
    have hrow' := hget (i + 1) hi
    rw [List.getElem?_eq_getElem hlt, Option.some_inj] at hrow
    rw [List.getElem?_eq_getElem (by omega : n - 1 - (i + 1) < rows.length), Option.some_inj] at hrow'
    rw [← hrow, ← hrow']
    obtain ⟨j, hj⟩ : ∃ j, n - 1 - i = j + 1 := ⟨n - 1 - (i + 1), by omega⟩
    have hj' : n - 1 - (i + 1) = j := by omega
    simp only [hj, hj']
    exact h.links.getElem j (by omega)

end EpochChain

/-! ## Answers -/

/-- What a request sees of the epochs of a receiver. -/
theorem recentEpochs_eq {db : Database} {id : I64} {nonce : I64}
    (h : EpochChain (db.epochs id) nonce) (epoch : I64) :
    recentEpochs db id epoch =
      ((db.epochs id).take (epoch.val + 1).toNat).reverse.take 20 := by
  have hbound : ∀ x : Randomness, (epoch = .max ∨ x.epoch.val ≤ epoch.val) ↔
      x.epoch.val ≤ epoch.val := by
    refine fun x => or_iff_right_of_imp fun hmax => ?_
    rw [hmax]
    exact Int.le_of_lt_add_one x.epoch.upper
  have hrows : (db.epochs id).map (·.epoch.val) =
      (List.range' 0 (db.epochs id).length).map Int.ofNat := by
    rw [h.epochs, List.range_eq_range']
  have hseen : (db.randomness.filter fun x =>
      x.receiverId = id ∧ (epoch = .max ∨ x.epoch.val ≤ epoch.val)) =
      (db.epochs id).take (epoch.val + 1).toNat := by
    have hfilter := filter_epoch_le hrows epoch.val
    rw [Nat.cast_zero, sub_zero] at hfilter
    rw [← hfilter, Database.epochs, List.filter_filter]
    refine List.filter_congr fun x _ => ?_
    simp only [hbound, Bool.decide_and]
    exact Bool.and_comm _ _
  rw [recentEpochs, hseen, h.ordered_take]

theorem Asks.unique {lib : Libraries} {req : Request} {m m' : JSONRPCMethod} (h : Asks lib req m)
    (h' : Asks lib req m') : m = m' := by
  obtain ⟨body, jsonString, hbody, hutf8, hparse⟩ := h
  obtain ⟨body', jsonString', hbody', hutf8', hparse'⟩ := h'
  obtain rfl := Option.some.inj (hbody.symm.trans hbody')
  obtain rfl := Option.some.inj (hutf8.symm.trans hutf8')
  exact Except.ok.inj (Option.some.inj (hparse.symm.trans hparse'))

theorem Grows.epochs {db db' : Database} (h : Grows db db') (id : I64) :
    db.epochs id <+: db'.epochs id := h.randomness.filter _

section Runs

variable {ι : Type} [DecidableEq ι] {lib : Libraries} {context : NodeContext} {db : Database}
  {requests : ι → Request} {w : World ι Database Write DbErr Serial Draw Response}
  {events : List (Event ι Database)}

/-- The answer to a request for epochs: the newest of a receiver at some moment since the start,
or none where there was no such receiver at the start. -/
inductive EpochsAnswered (lib : Libraries) (start now : Database) (network : I64)
    (address : String) (epoch : I64) : Response → Prop
  | refused (e : Error) : EpochsAnswered lib start now network address epoch (err e)
  | unknown (hnone : ∀ receiver ∈ start.receiver,
      ¬(receiver.address = address ∧ receiver.network = network)) :
      EpochsAnswered lib start now network address epoch (resJson lib (.arr []))
  | page {receiver : Receiver} {page : List Randomness} {n : Nat}
      (hreceiver : receiver ∈ now.receiver) (haddress : receiver.address = address)
      (hnetwork : receiver.network = network) (hpage : Page (now.epochs receiver.id) page n)
      (hpast : min (epoch.val + 1).toNat (start.epochs receiver.id).length ≤ n)
      (hfuture : n ≤ min (epoch.val + 1).toNat (now.epochs receiver.id).length) :
      EpochsAnswered lib start now network address epoch
        (resJson lib (.arr (page.map (·.toJson lib))))

/-- **Epochs are answered without gaps.** Whatever happens meanwhile, a request for epochs is
answered an error, or the newest epochs up to the one it asks for, twenty at most, one after the
other and linked by their outputs, at least as new as those it started from. -/
theorem epochs_answered (hdb : Consistent lib.toCrypto context db)
    (hrun : Run postgres (serving lib context db requests) events w) {i : ι} {network epoch : I64}
    {address : String} (hasks : Asks lib (requests i) (.orandGetEpoch network address epoch))
    {resp : Response} (hret : (w.threads i).prog = .ret resp) :
    EpochsAnswered lib db w.db network address epoch resp := by
  have hkept := serving_kept (Consistent.preserved.and (preserved_grows db)) ⟨hdb, .refl db⟩ hrun
  have hpost := hkept.post hret
  generalize changes i events = history at hpost
  cases hpost with
  | refused e => exact .refused e
  | performed hasks' _ h =>
    obtain rfl := hasks.unique hasks'
    cases h with
    | refused e => exact .refused e
    | changed _ heffect => cases heffect
    | @read seen _ _ hinv hgrows hread =>
      obtain ⟨hconsistent, hsince⟩ := hinv
      cases hread with
      | noEpochs hnone =>
        refine .unknown fun receiver hreceiver hplace => ?_
        obtain ⟨receiver', hreceiver', hsame⟩ := hsince.mem_receiver hreceiver
        obtain ⟨-, -, -, haddress, hnetwork, -⟩ := Receiver.identity_eq_iff.mp hsame
        exact hnone receiver' hreceiver' ⟨haddress.trans hplace.1, hnetwork.trans hplace.2⟩
      | @epochs _ _ _ receiver hreceiver haddress hnetwork =>
        obtain ⟨receiver', hreceiver', hsame⟩ := hgrows.mem_receiver hreceiver
        obtain ⟨hid, -, -, haddress', hnetwork', -⟩ := Receiver.identity_eq_iff.mp hsame
        have hchain := hconsistent.intact.chains receiver hreceiver
        obtain ⟨later, hlater⟩ := hgrows.epochs receiver.id
        obtain ⟨earlier, hearlier⟩ := hsince.epochs receiver.id
        have hchain' := hkept.inv.1.intact.chains receiver' hreceiver'
        rw [hid, ← hlater] at hchain'
        have hlength := congrArg List.length hearlier
        rw [List.length_append] at hlength
        have hn : min (epoch.val + 1).toNat (seen.epochs receiver.id).length ≤
            (seen.epochs receiver.id ++ later).length := by
          rw [List.length_append]
          omega
        have htake : (seen.epochs receiver.id).take (epoch.val + 1).toNat =
            (seen.epochs receiver.id ++ later).take
              (min (epoch.val + 1).toNat (seen.epochs receiver.id).length) := by
          rw [List.take_append_of_le_length (min_le_right _ _), List.take_eq_take_min]
        rw [recentEpochs_eq hchain, htake]
        refine .page hreceiver' (haddress'.trans haddress) (hnetwork'.trans hnetwork)
          (n := min (epoch.val + 1).toNat (seen.epochs receiver.id).length) ?_ ?_ ?_
        · rw [hid, ← hlater]
          exact hchain'.page hn
        · rw [hid]
          omega
        · rw [hid, ← hlater, List.length_append]
          omega

/-- Without failures the answer is what the tables hold. -/
theorem run_getEpoch {a : Answer DbErr Serial Draw} (hfault : a.fault = none) {network epoch : I64}
    {address : String} {receiver : Receiver}
    (hfind : db.receiver.find? (fun r => r.address = address ∧ r.network = network) = some receiver)
    (n : Nat) : postgres.run (fun _ => a) (orandGetEpoch lib network address epoch) n db .closed =
      (some (resJson lib (.arr ((recentEpochs db receiver.id epoch).map (·.toJson lib)))), db,
        .closed) := by
  rw [orandGetEpoch_eq, ReceiverTable.findOne, Prog.query_bind]
  simp only [Store.run, Store.onRead, hfault, Store.view, Except.map, hfind, Prog.query_bind]

/-- `alice` adds 21 epochs of her game, then asks for those up to the 99th. -/
theorem epochs_answered_small :
    let lib := smallLibraries "alice" gamePayload
    ∃ (w : World Nat Database Write DbErr Serial Draw Response) (epoch : I64), epoch.val = 99 ∧
      (w.db.epochs game.id).length = 21 ∧ (w.threads 21).prog = .ret (ok "20") ∧
      EpochsAnswered lib (aliceTables "01") w.db .zero gameAddress epoch (ok "20") := by
  intro lib
  let requests (i : Nat) : Request := if i = 21 then smallRequest "epochs" else smallRequest ""
  obtain ⟨events, w, nonce, hrun, hplayed, hlength, hunlocked, hrest⟩ :=
    alice_plays "01" requests le_rfl fun i hi => if_neg (by omega)
  let epoch : I64 := ⟨99, by decide, by decide⟩
  have hasks : Asks lib (requests 21) (.orandGetEpoch .zero gameAddress epoch) :=
    ⟨asciiBytes "epochs", "epochs", rfl, rfl, rfl⟩
  have hfind : w.db.receiver.find? (fun r => r.address = gameAddress ∧ r.network = .zero) =
      some { game with nonce } := by
    rw [hplayed.receivers]
    rfl
  have hchain : EpochChain (w.db.epochs game.id) nonce := by
    rw [hplayed.epochs]
    exact hplayed.chain
  have hpage : (recentEpochs w.db game.id epoch).length = 20 := by
    rw [recentEpochs_eq hchain]
    simp only [List.length_take, List.length_reverse, hlength]
    rfl
  have hanswer : resJson lib (.arr ((recentEpochs w.db game.id epoch).map (·.toJson lib))) =
      ok "20" := by
    change ok (toString ((recentEpochs w.db game.id epoch).map (·.toJson lib)).length) = _
    rw [List.length_map, hpage]
    rfl
  have hcall : postgres.run (fun _ => smallAnswer .zero) (orand lib smallContext (requests 21)) 0
      w.db .closed = (some (ok "20"), w.db, .closed) := by
    rw [run_orand rfl rfl (by decide) hasks (run_authorize_alice hplayed .zero) 0, ← hanswer,
      perform]
    exact run_getEpoch (a := smallAnswer .zero) rfl hfind 0
  obtain ⟨events', hrun', -⟩ := hrun.call hunlocked (hrest 21 le_rfl) (balanced_orand _) hcall
  let last : World Nat Database Write DbErr Serial Draw Response :=
    ⟨w.db, Function.update w.threads 21 ⟨.ret (ok "20"), .closed, false⟩⟩
  have hret : (last.threads 21).prog = .ret (ok "20") := by simp only [last, Function.update_self]
  exact ⟨last, epoch, rfl, hlength, hret,
    epochs_answered (consistent_aliceTables _ _ (by decide)) hrun' hasks hret⟩

end Runs

end Node
