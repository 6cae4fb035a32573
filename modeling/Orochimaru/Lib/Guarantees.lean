import Orochimaru.Lib.Interleaving

/-!
# What each program may change

Programs side by side, each with the changes it may make to the store: which ones depends on the
changes it has made before and on whether it holds the lock. A program is proved alone, against
what any statement does and what a statement without the lock does. The history of a thread is
the list of its own changes; a result is judged with it.
-/

namespace Transactions

variable {D W E S R α β ι : Type}

/-- An invariant of the store, what any statement does to it and what one without the lock does. -/
structure Terms (D : Type) where
  Inv : D → Prop
  Any : D → D → Prop
  Free : D → D → Prop
  any_refl : ∀ db, Any db db
  any_trans : ∀ {db db' db''}, Any db db' → Any db' db'' → Any db db''
  free_refl : ∀ db, Free db db
  free_trans : ∀ {db db' db''}, Free db db' → Free db' db'' → Free db db''

/-- What a program with this history may change next. -/
abbrev Guarantee (D : Type) := Bool → List (D × D) → D → D → Prop

/-- A history with one more statement. -/
def note [DecidableEq D] (history : List (D × D)) (db db' : D) : List (D × D) :=
  if db' = db then history else history ++ [(db, db')]

@[simp] theorem note_self [DecidableEq D] (history : List (D × D)) (db : D) :
    note history db db = history := if_pos rfl

theorem note_of_ne [DecidableEq D] {history : List (D × D)} {db db' : D} (h : db' ≠ db) :
    note history db db' = history ++ [(db, db')] := if_neg h

/-- Every change of a history was allowed when it was made. -/
inductive Promised (G : Guarantee D) : List (D × D) → Prop
  | nil : Promised G []
  | snoc {history : List (D × D)} {db db' : D} (locked : Bool) (h : Promised G history)
      (hstep : G locked history db db') : Promised G (history ++ [(db, db')])

namespace Terms

variable (c : Terms D) (store : Store D W E) (G : Guarantee D)

/-- The changes a guarantee allows are within the terms. -/
def Covers : Prop := ∀ locked history db db', c.Inv db → G locked history db db' →
  c.Inv db' ∧ c.Any db db' ∧ (locked = false → c.Free db db')

/-- What stays known of the store a statement left. -/
def Known (locked : Bool) (db db' : D) : Prop := c.Any db db' ∧ (locked = true → c.Free db db')

/-- What is known of the store survives the steps of the other threads. -/
def Stable (locked : Bool) (P : D → Prop) : Prop :=
  ∀ db db', P db → c.Known locked db db' → P db'

/-- Every statement keeps the guarantee, whatever the store it meets among those `P` allows; a
result satisfies `Post` where the program ends. -/
def Keeps [DecidableEq D] (Post : α → Bool → Txn W → List (D × D) → (D → Prop) → Prop) :
    Prog D W E S R α → Bool → Txn W → List (D × D) → (D → Prop) → Prop
  | .ret a, locked, txn, history, P => Post a locked txn history P
  | .panic, _, _, _, _ => True
  | .lock k, _, txn, history, P => Keeps Post k true txn history P
  | .unlock k, _, _, history, P =>
    Keeps Post k false .closed history fun db' => ∃ db, P db ∧ c.Any db db'
  | .start k, locked, txn, history, P => ∀ a : Answer E S R,
    Keeps Post (k (Store.onStart a txn).1) locked (Store.onStart a txn).2 history P
  | .read k, locked, txn, history, P => ∀ (a : Answer E S R) db, c.Inv db → P db →
    Keeps Post (k (store.onRead a db txn).1) locked (store.onRead a db txn).2 history
      (c.Known locked db)
  | .write f k, locked, txn, history, P => ∀ (a : Answer E S R) db, c.Inv db → P db →
    let r := store.onWrite a f db txn
    (r.2.1 ≠ db → G locked history db r.2.1) ∧
      Keeps Post (k r.1) locked r.2.2 (note history db r.2.1) (c.Known locked r.2.1)
  | .commit k, locked, txn, history, P => ∀ (a : Answer E S R) db, c.Inv db → P db →
    let r := store.onCommit a db txn
    (r.2.1 ≠ db → G locked history db r.2.1) ∧
      Keeps Post (k r.1) locked r.2.2 (note history db r.2.1) (c.Known locked r.2.1)
  | .draw k, locked, txn, history, P => ∀ r, Keeps Post (k r) locked txn history P

/-- A postcondition of the result, the history and the store, from then on. -/
abbrev Ends (Q : α → List (D × D) → D → Prop) :
    α → Bool → Txn W → List (D × D) → (D → Prop) → Prop :=
  fun a _ _ history P => ∀ db, P db → Q a history db

variable {c store G}

theorem known_self (locked : Bool) (db : D) : c.Known locked db db :=
  ⟨c.any_refl db, fun _ => c.free_refl db⟩

theorem Known.trans {locked : Bool} {db db' db'' : D} (h : c.Known locked db db')
    (h' : c.Known locked db' db'') : c.Known locked db db'' :=
  ⟨c.any_trans h.1 h'.1, fun hl => c.free_trans (h.2 hl) (h'.2 hl)⟩

theorem stable_known (locked : Bool) (db : D) : c.Stable locked (c.Known locked db) :=
  fun _ _ h h' => h.trans h'

theorem stable_true (locked : Bool) : c.Stable locked fun _ => True := fun _ _ _ _ => trivial

/-! ### Rules for the statements -/

section Rules

variable [DecidableEq D] {Post : α → Bool → Txn W → List (D × D) → (D → Prop) → Prop} {locked : Bool}
  {txn : Txn W} {writes : List W} {history : List (D × D)} {P : D → Prop}

/-- More may be known. -/
theorem Keeps.weaken {P' : D → Prop} {p : Prog D W E S R α} {Q : α → List (D × D) → D → Prop}
    (h : c.Keeps store G (Ends Q) p locked txn history P) (hP : ∀ db, P' db → P db) :
    c.Keeps store G (Ends Q) p locked txn history P' := by
  induction p generalizing locked txn history P P' with
  | ret a => exact fun db hdb => h db (hP db hdb)
  | panic => trivial
  | lock k ih => exact ih h hP
  | unlock k ih => exact ih h fun _ ⟨db, hdb, hany⟩ => ⟨db, hP db hdb, hany⟩
  | start k ih => exact fun a => ih _ (h a) hP
  | read k _ => exact fun a db hinv hdb => h a db hinv (hP db hdb)
  | write f k _ => exact fun a db hinv hdb => h a db hinv (hP db hdb)
  | commit k _ => exact fun a db hinv hdb => h a db hinv (hP db hdb)
  | draw k ih => exact fun r => ih _ (h r) hP

/-- The rest goes on from where the first program ends. -/
theorem Keeps.bind {Post' : β → Bool → Txn W → List (D × D) → (D → Prop) → Prop}
    {p : Prog D W E S R α} {f : α → Prog D W E S R β}
    (h : c.Keeps store G (fun a => c.Keeps store G Post' (f a)) p locked txn history P) :
    c.Keeps store G Post' (p >>= f) locked txn history P := by
  induction p generalizing locked txn history P with
  | ret a => exact h
  | panic => trivial
  | lock k ih => exact ih h
  | unlock k ih => exact ih h
  | start k ih => exact fun a => ih _ (h a)
  | read k ih => exact fun a db hinv hP => ih _ (h a db hinv hP)
  | write f k ih => exact fun a db hinv hP => ⟨(h a db hinv hP).1, ih _ (h a db hinv hP).2⟩
  | commit k ih => exact fun a db hinv hP => ⟨(h a db hinv hP).1, ih _ (h a db hinv hP).2⟩
  | draw k ih => exact fun r => ih _ (h r)

/-- More may be allowed, and less promised of the end. -/
theorem Keeps.mono {G' : Guarantee D}
    {Post' : α → Bool → Txn W → List (D × D) → (D → Prop) → Prop} {p : Prog D W E S R α}
    (h : c.Keeps store G Post p locked txn history P)
    (hG : ∀ locked history db db', G locked history db db' → G' locked history db db')
    (hpost : ∀ a locked txn history P, Post a locked txn history P →
      Post' a locked txn history P) :
    c.Keeps store G' Post' p locked txn history P := by
  induction p generalizing locked txn history P with
  | ret a => exact hpost _ _ _ _ _ h
  | panic => trivial
  | lock k ih => exact ih h
  | unlock k ih => exact ih h
  | start k ih => exact fun a => ih _ (h a)
  | read k ih => exact fun a db hinv hP => ih _ (h a db hinv hP)
  | write f k ih =>
    intro a db hinv hP
    obtain ⟨hstep, hrest⟩ := h a db hinv hP
    exact ⟨fun hne => hG _ _ _ _ (hstep hne), ih _ hrest⟩
  | commit k ih =>
    intro a db hinv hP
    obtain ⟨hstep, hrest⟩ := h a db hinv hP
    exact ⟨fun hne => hG _ _ _ _ (hstep hne), ih _ hrest⟩
  | draw k ih => exact fun r => ih _ (h r)

/-- The result, and one function of it. -/
theorem Keeps.map {f : α → β} {p : Prog D W E S R α} {Q : β → List (D × D) → D → Prop}
    (h : c.Keeps store G (Ends fun a => Q (f a)) p locked txn history P) :
    c.Keeps store G (Ends Q) (p >>= fun a => .ret (f a)) locked txn history P :=
  Keeps.bind (h.mono (fun _ _ _ _ h => h) fun _ _ _ _ _ h => h)

/-- What no statement makes false is still true at the end. -/
theorem Keeps.frame {T : D → Prop} {p : Prog D W E S R α} {Q : α → List (D × D) → D → Prop}
    (hG : ∀ locked history db db', G locked history db db' → c.Any db db')
    (hT : ∀ db db', T db → c.Any db db' → T db')
    (h : c.Keeps store G (Ends Q) p locked txn history P) (hP : ∀ db, P db → T db) :
    c.Keeps store G (Ends fun a history db => Q a history db ∧ T db) p locked txn history P := by
  have hstep : ∀ {locked history db db'}, T db → (db' ≠ db → G locked history db db') → T db' := by
    intro locked history db db' hdb hchange
    by_cases heq : db' = db
    · exact heq ▸ hdb
    · exact hT db db' hdb (hG _ _ _ _ (hchange heq))
  induction p generalizing locked txn history P with
  | ret a => exact fun db hdb => ⟨h db hdb, hP db hdb⟩
  | panic => trivial
  | lock k ih => exact ih h hP
  | unlock k ih => exact ih h fun db' ⟨db, hdb, hany⟩ => hT db db' (hP db hdb) hany
  | start k ih => exact fun a => ih _ (h a) hP
  | read k ih =>
    intro a db hinv hdb
    exact ih _ (h a db hinv hdb) fun db' hknown => hT db db' (hP db hdb) hknown.1
  | write f k ih =>
    intro a db hinv hdb
    obtain ⟨hchange, hrest⟩ := h a db hinv hdb
    exact ⟨hchange, ih _ hrest fun db' hknown => hT _ db' (hstep (hP db hdb) hchange) hknown.1⟩
  | commit k ih =>
    intro a db hinv hdb
    obtain ⟨hchange, hrest⟩ := h a db hinv hdb
    exact ⟨hchange, ih _ hrest fun db' hknown => hT _ db' (hstep (hP db hdb) hchange) hknown.1⟩
  | draw k ih => exact fun r => ih _ (h r) hP

theorem keeps_lock {k : Prog D W E S R α} (h : c.Keeps store G Post k true txn history P) :
    c.Keeps store G Post (.lock k) locked txn history P := h

/-- A panic promises nothing. -/
theorem keeps_expect {o : Option β} {f : β → Prog D W E S R α}
    (h : ∀ a, o = some a → c.Keeps store G Post (f a) locked txn history P) :
    c.Keeps store G Post (Prog.expect o >>= f) locked txn history P := by
  cases o with
  | none => trivial
  | some a => exact h a rfl

theorem keeps_start {k : Except E Unit → Prog D W E S R α}
    (herror : ∀ e, c.Keeps store G Post (k (.error e)) locked txn history P)
    (hok : c.Keeps store G Post (k (.ok ())) locked (.opened []) history P) :
    c.Keeps store G Post (.start k) locked txn history P := by
  intro a
  rw [Store.onStart]
  cases a.fault with
  | some e => exact herror e
  | none => exact hok

theorem keeps_read_closed {k : Except E D → Prog D W E S R α}
    (herror : ∀ e db, c.Keeps store G Post (k (.error e)) locked .closed history
      (c.Known locked db))
    (hok : ∀ db, c.Inv db → P db → c.Keeps store G Post (k (.ok db)) locked .closed history
      (c.Known locked db)) :
    c.Keeps store G Post (.read k) locked .closed history P := by
  intro a db hinv hP
  cases hfault : a.fault with
  | some e =>
    simp only [Store.onRead, hfault]
    exact herror e db
  | none =>
    simp only [Store.onRead, hfault]
    exact hok db hinv hP

theorem keeps_read_opened {k : Except E D → Prog D W E S R α}
    (herror : ∀ e db, c.Keeps store G Post (k (.error e)) locked .aborted history
      (c.Known locked db))
    (hok : ∀ db, c.Inv db → P db → c.Keeps store G Post (k (.ok (store.applyAll writes db)))
      locked (.opened writes) history (c.Known locked db)) :
    c.Keeps store G Post (.read k) locked (.opened writes) history P := by
  intro a db hinv hP
  cases hfault : a.fault with
  | some e =>
    simp only [Store.onRead, hfault]
    exact herror e db
  | none =>
    simp only [Store.onRead, hfault]
    exact hok db hinv hP

theorem keeps_write_closed {f : S → D → Except E W} {k : Except E S → Prog D W E S R α}
    (herror : ∀ e db, c.Keeps store G Post (k (.error e)) locked .closed history
      (c.Known locked db))
    (hok : ∀ s w db, c.Inv db → P db → f s db = .ok w →
      store.apply w db ≠ db ∧ G locked history db (store.apply w db) ∧
        c.Keeps store G Post (k (.ok s)) locked .closed
          (history ++ [(db, store.apply w db)]) (c.Known locked (store.apply w db))) :
    c.Keeps store G Post (.write f k) locked .closed history P := by
  intro a db hinv hP
  cases hfault : a.fault with
  | some e =>
    simp only [Store.onWrite, hfault, note_self]
    exact ⟨fun h => absurd rfl h, herror e db⟩
  | none =>
    cases hw : f a.serial db with
    | error e =>
      simp only [Store.onWrite, hfault, hw, note_self]
      exact ⟨fun h => absurd rfl h, herror e db⟩
    | ok w =>
      obtain ⟨hne, hstep, hrest⟩ := hok a.serial w db hinv hP hw
      simp only [Store.onWrite, hfault, hw, note_of_ne hne]
      exact ⟨fun _ => hstep, hrest⟩

/-- Inside a transaction a write waits for the commit. -/
theorem keeps_write_opened {f : S → D → Except E W} {k : Except E S → Prog D W E S R α}
    (herror : ∀ e db, c.Keeps store G Post (k (.error e)) locked .aborted history
      (c.Known locked db))
    (hok : ∀ s w db, c.Inv db → P db → f s (store.applyAll writes db) = .ok w →
      c.Keeps store G Post (k (.ok s)) locked (.opened (writes ++ [w])) history
        (c.Known locked db)) :
    c.Keeps store G Post (.write f k) locked (.opened writes) history P := by
  intro a db hinv hP
  cases hfault : a.fault with
  | some e =>
    simp only [Store.onWrite, hfault, note_self]
    exact ⟨fun h => absurd rfl h, herror e db⟩
  | none =>
    cases hw : f a.serial (store.applyAll writes db) with
    | error e =>
      simp only [Store.onWrite, hfault, hw, note_self]
      exact ⟨fun h => absurd rfl h, herror e db⟩
    | ok w =>
      simp only [Store.onWrite, hfault, hw, note_self]
      exact ⟨fun h => absurd rfl h, hok a.serial w db hinv hP hw⟩

theorem keeps_commit_opened {k : Except E Unit → Prog D W E S R α}
    (herror : ∀ e db, c.Keeps store G Post (k (.error e)) locked .closed history
      (c.Known locked db))
    (hok : ∀ db, c.Inv db → P db →
      store.applyAll writes db ≠ db ∧ G locked history db (store.applyAll writes db) ∧
        c.Keeps store G Post (k (.ok ())) locked .closed
          (history ++ [(db, store.applyAll writes db)])
          (c.Known locked (store.applyAll writes db))) :
    c.Keeps store G Post (.commit k) locked (.opened writes) history P := by
  intro a db hinv hP
  cases hfault : a.fault with
  | some e =>
    simp only [Store.onCommit, hfault, note_self]
    exact ⟨fun h => absurd rfl h, herror e db⟩
  | none =>
    obtain ⟨hne, hstep, hrest⟩ := hok db hinv hP
    simp only [Store.onCommit, hfault, note_of_ne hne]
    exact ⟨fun _ => hstep, hrest⟩

/-- The commit of an aborted transaction changes nothing, whatever it answers. -/
theorem keeps_commit_aborted {k : Except E Unit → Prog D W E S R α}
    (hk : ∀ r db, c.Keeps store G Post (k r) locked .closed history (c.Known locked db)) :
    c.Keeps store G Post (.commit k) locked .aborted history P := by
  intro a db hinv hP
  cases hfault : a.fault with
  | some e =>
    simp only [Store.onCommit, hfault, note_self]
    exact ⟨fun h => absurd rfl h, hk _ db⟩
  | none =>
    simp only [Store.onCommit, hfault, note_self]
    exact ⟨fun h => absurd rfl h, hk _ db⟩

end Rules

/-! ### One program alone -/

/-- The changes lead from one store to the other. -/
def Leads : List (D × D) → D → D → Prop
  | [], db, db' => db' = db
  | change :: rest, db, db' => change.1 = db ∧ Leads rest change.2 db'

section Runs

variable [DecidableEq D] {Q : α → List (D × D) → D → Prop}

theorem promised_note {history : List (D × D)} (h : Promised G history) {locked : Bool} {db db' : D}
    (hstep : db' ≠ db → G locked history db db') : Promised G (note history db db') := by
  by_cases heq : db' = db
  · rwa [heq, note_self]
  · rw [note_of_ne heq]
    exact h.snoc locked (hstep heq)

theorem Covers.step (hG : c.Covers G) {locked : Bool} {history : List (D × D)} {db db' : D}
    (hinv : c.Inv db) (hstep : db' ≠ db → G locked history db db') :
    c.Inv db' ∧ c.Any db db' ∧ (locked = false → c.Free db db') := by
  by_cases heq : db' = db
  · rw [heq]
    exact ⟨hinv, c.any_refl db, fun _ => c.free_refl db⟩
  · exact hG locked history db db' hinv (hstep heq)

/-- The history of a step, and where the rest leads. -/
theorem leads_note {history later : List (D × D)} {db db' db'' : D} (h : Leads later db' db'') :
    ∃ later', note history db db' ++ later = history ++ later' ∧ Leads later' db db'' := by
  by_cases heq : db' = db
  · rw [heq, note_self]
    exact ⟨later, rfl, heq ▸ h⟩
  · rw [note_of_ne heq]
    exact ⟨(db, db') :: later, List.append_assoc _ _ _, rfl, h⟩

/-- What a program alone changes, it was allowed to. -/
theorem Keeps.run (hG : c.Covers G) {p : Prog D W E S R α} {locked : Bool} {txn : Txn W}
    {history : List (D × D)} {P : D → Prop} {db : D}
    (h : c.Keeps store G (Ends Q) p locked txn history P) (hinv : c.Inv db) (hP : P db)
    (hpromised : Promised G history) (env : Nat → Answer E S R) (n : Nat) :
    ∃ later, Promised G (history ++ later) ∧ Leads later db (store.run env p n db txn).2.1 ∧
      ∀ a, (store.run env p n db txn).1 = some a →
        Q a (history ++ later) (store.run env p n db txn).2.1 := by
  induction p generalizing locked txn history P db n with
  | ret a =>
    refine ⟨[], by rwa [List.append_nil], rfl, fun a' ha => ?_⟩
    cases ha
    rw [List.append_nil]
    exact h db hP
  | panic =>
    refine ⟨[], by rwa [List.append_nil], rfl, fun a ha => ?_⟩
    cases ha
  | lock k ih => exact ih h hinv hP hpromised n
  | unlock k ih => exact ih h hinv ⟨db, hP, c.any_refl db⟩ hpromised n
  | start k ih => exact ih _ (h (env n)) hinv hP hpromised (n + 1)
  | read k ih => exact ih _ (h (env n) db hinv hP) hinv (known_self _ _) hpromised (n + 1)
  | write f k ih =>
    obtain ⟨hstep, hrest⟩ := h (env n) db hinv hP
    obtain ⟨later, hlater, hleads, hpost⟩ :=
      ih _ hrest (hG.step hinv hstep).1 (known_self _ _) (promised_note hpromised hstep) (n + 1)
    obtain ⟨later', heq, hleads'⟩ := leads_note hleads
    exact ⟨later', heq ▸ hlater, hleads', heq ▸ hpost⟩
  | commit k ih =>
    obtain ⟨hstep, hrest⟩ := h (env n) db hinv hP
    obtain ⟨later, hlater, hleads, hpost⟩ :=
      ih _ hrest (hG.step hinv hstep).1 (known_self _ _) (promised_note hpromised hstep) (n + 1)
    obtain ⟨later', heq, hleads'⟩ := leads_note hleads
    exact ⟨later', heq ▸ hlater, hleads', heq ▸ hpost⟩
  | draw k ih => exact ih _ (h (env n).draw) hinv hP hpromised (n + 1)

/-! ### Threads -/

variable (c store G Q)

/-- The rest of a thread keeps its guarantee, with what it knows of the store. -/
def KeptAt (t : Thread D W E S R α) (history : List (D × D)) (db : D) : Prop :=
  ∃ P, P db ∧ c.Stable t.locked P ∧
    c.Keeps store G (Ends Q) t.prog t.locked t.txn history P

variable {c store G Q}

theorem keptAt_dropped (history : List (D × D)) (db : D) :
    c.KeptAt store G Q (Thread.dropped : Thread D W E S R α) history db :=
  ⟨fun _ => True, trivial, stable_true _, trivial⟩

/-- Another thread's step. -/
theorem KeptAt.of_known {t : Thread D W E S R α} {history : List (D × D)} {db db' : D}
    (h : c.KeptAt store G Q t history db) (hknown : c.Known t.locked db db') :
    c.KeptAt store G Q t history db' := by
  obtain ⟨P, hP, hstable, hkeeps⟩ := h
  exact ⟨P, hstable db db' hP hknown, hstable, hkeeps⟩

/-- One statement of a thread. -/
theorem KeptAt.next {t t' : Thread D W E S R α} {history : List (D × D)} {db db' : D}
    {a : Answer E S R} (h : c.KeptAt store G Q t history db) (hinv : c.Inv db)
    (hnext : t.next store a db = some (t', db')) :
    (db' ≠ db → G t.locked history db db') ∧
      c.KeptAt store G Q t' (note history db db') db' := by
  obtain ⟨prog, txn, locked⟩ := t
  obtain ⟨P, hP, hstable, hkeeps⟩ := h
  have hsame : ∀ {t : Thread D W E S R α}, c.KeptAt store G Q t history db →
      (db ≠ db → G locked history db db) ∧ c.KeptAt store G Q t (note history db db) db := by
    intro t ht
    rw [note_self]
    exact ⟨fun hne => absurd rfl hne, ht⟩
  cases prog with
  | ret => cases hnext
  | panic =>
    cases hnext
    exact hsame (keptAt_dropped _ _)
  | lock k =>
    cases hnext
    refine hsame ⟨P, hP, fun db db' hdb hknown => ?_, hkeeps⟩
    exact hstable db db' hdb ⟨hknown.1, fun _ => hknown.2 rfl⟩
  | unlock k =>
    cases hnext
    refine hsame ⟨_, ⟨db, hP, c.any_refl db⟩, fun db' db'' hdb hknown => ?_, hkeeps⟩
    obtain ⟨db₀, hdb₀, hany⟩ := hdb
    exact ⟨db₀, hdb₀, c.any_trans hany hknown.1⟩
  | start k =>
    cases hnext
    exact hsame ⟨P, hP, hstable, hkeeps a⟩
  | read k =>
    cases hnext
    exact hsame ⟨_, known_self _ _, stable_known _ _, hkeeps a db hinv hP⟩
  | write f k =>
    cases hnext
    obtain ⟨hstep, hrest⟩ := hkeeps a db hinv hP
    exact ⟨hstep, _, known_self _ _, stable_known _ _, hrest⟩
  | commit k =>
    cases hnext
    obtain ⟨hstep, hrest⟩ := hkeeps a db hinv hP
    exact ⟨hstep, _, known_self _ _, stable_known _ _, hrest⟩
  | draw k =>
    cases hnext
    exact hsame ⟨P, hP, hstable, hkeeps a.draw⟩

end Runs

end Terms

/-! ## Programs side by side -/

section Soundness

variable [DecidableEq ι] [DecidableEq D]

/-- The changes one thread has made. -/
def changes (i : ι) (events : List (Event ι D)) : List (D × D) :=
  events.foldl (fun history ev =>
    if ev.thread = i then note history ev.before ev.after else history) []

@[simp] theorem changes_nil (i : ι) : changes i ([] : List (Event ι D)) = [] := rfl

theorem changes_snoc_self (i : ι) (events : List (Event ι D)) (db db' : D) :
    changes i (events ++ [⟨i, db, db'⟩]) = note (changes i events) db db' := by
  simp [changes]

theorem changes_snoc_of_ne {i j : ι} (h : i ≠ j) (events : List (Event ι D)) (db db' : D) :
    changes j (events ++ [⟨i, db, db'⟩]) = changes j events := by
  simp [changes, h]

variable {store : Store D W E} (c : Terms D) (G : ι → Guarantee D) (Q : ι → α → List (D × D) → D → Prop)

/-- What holds after any steps of programs that keep their guarantees. -/
structure Kept (store : Store D W E) (events : List (Event ι D)) (w : World ι D W E S R α) :
    Prop where
  inv : c.Inv w.db
  exclusive : ∀ i j, (w.threads i).locked = true → (w.threads j).locked = true → i = j
  promised : ∀ i, Promised (G i) (changes i events)
  keeps : ∀ i, c.KeptAt store (G i) (Q i) (w.threads i) (changes i events) w.db

variable {c G Q}

/-- The rest of the world while `i` goes on as `t`. -/
theorem Kept.update (hG : ∀ i, c.Covers (G i)) {events : List (Event ι D)}
    {w : World ι D W E S R α} {i : ι} {t : Thread D W E S R α} {db : D}
    (h : Kept c G Q store events w)
    (hstep : db ≠ w.db → G i (w.threads i).locked (changes i events) w.db db)
    (hlocked : t.locked = true →
      (w.threads i).locked = true ∨ ∀ j, (w.threads j).locked = false)
    (hkeeps : c.KeptAt store (G i) (Q i) t (note (changes i events) w.db db) db) :
    Kept c G Q store (events ++ [⟨i, w.db, db⟩]) ⟨db, Function.update w.threads i t⟩ := by
  obtain ⟨hinv, hany, hfree⟩ := (hG i).step h.inv hstep
  have hother : ∀ j, j ≠ i → t.locked = true → (w.threads j).locked = false := by
    intro j hj ht
    rcases hlocked ht with hi | hfree
    · exact Bool.eq_false_iff.mpr fun hlj => hj (h.exclusive j i hlj hi)
    · exact hfree j
  refine ⟨hinv, fun j k => ?_, fun j => ?_, fun j => ?_⟩
  · by_cases hj : j = i <;> by_cases hk : k = i
    · exact fun _ _ => hj.trans hk.symm
    · subst hj
      simp only [Function.update_self, Function.update_of_ne hk]
      exact fun hl hlk => absurd hlk (Bool.eq_false_iff.mp (hother k hk hl))
    · subst hk
      simp only [Function.update_self, Function.update_of_ne hj]
      exact fun hlj hl => absurd hlj (Bool.eq_false_iff.mp (hother j hj hl))
    · simp only [Function.update_of_ne hj, Function.update_of_ne hk]
      exact h.exclusive j k
  · by_cases hj : i = j
    · subst hj
      rw [changes_snoc_self]
      exact Terms.promised_note (h.promised i) hstep
    · rw [changes_snoc_of_ne hj]
      exact h.promised j
  · by_cases hj : i = j
    · subst hj
      rw [changes_snoc_self]
      simpa using hkeeps
    · rw [changes_snoc_of_ne hj]
      simp only [Function.update_of_ne (Ne.symm hj)]
      refine (h.keeps j).of_known ⟨hany, fun hlj => hfree ?_⟩
      exact Bool.eq_false_iff.mpr fun hli => hj (h.exclusive i j hli hlj)

theorem Kept.step (hG : ∀ i, c.Covers (G i)) {events : List (Event ι D)}
    {w w' : World ι D W E S R α} {i : ι} (h : Kept c G Q store events w)
    (hstep : Step store w i w') :
    Kept c G Q store (events ++ [⟨i, w.db, w'.db⟩]) w' := by
  cases hstep with
  | exec a hnext hfree =>
    obtain ⟨hchange, hkeeps⟩ := (h.keeps i).next h.inv hnext
    refine h.update hG hchange (fun ht => ?_) hkeeps
    rcases Thread.locked_of_next hnext ht with hw | hl
    · exact .inr (hfree hw)
    · exact .inl hl
  | drop hlive =>
    refine h.update hG (fun hne => absurd rfl hne) (fun ht => absurd ht Bool.false_ne_true) ?_
    rw [note_self]
    exact Terms.keptAt_dropped _ _

/-- Programs proved alone keep their guarantees side by side. -/
theorem run_kept (hG : ∀ i, c.Covers (G i)) {prog : ι → Prog D W E S R α}
    {start w : World ι D W E S R α} {events : List (Event ι D)}
    (hstart : ∀ i, start.threads i = .spawn (prog i)) (hinv : c.Inv start.db)
    (hkeeps : ∀ i, c.Keeps store (G i) (Terms.Ends (Q i)) (prog i) false .closed [] fun _ => True)
    (hrun : Run store start events w) : Kept c G Q store events w := by
  induction hrun with
  | refl =>
    refine ⟨hinv, fun i j hi => ?_, fun i => .nil, fun i => ?_⟩
    · rw [hstart i] at hi
      cases hi
    · rw [hstart i]
      exact ⟨_, trivial, Terms.stable_true _, hkeeps i⟩
  | tail _ hstep ih => exact ih.step hG hstep

/-- The result of a thread, with its changes and the store as it is now. -/
theorem Kept.post {events : List (Event ι D)} {w : World ι D W E S R α}
    (h : Kept c G Q store events w) {i : ι} {a : α} (hret : (w.threads i).prog = .ret a) :
    Q i a (changes i events) w.db := by
  obtain ⟨P, hP, -, hkeeps⟩ := h.keeps i
  rw [hret] at hkeeps
  exact hkeeps w.db hP

end Soundness

end Transactions
