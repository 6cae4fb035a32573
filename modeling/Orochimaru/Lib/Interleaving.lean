import Orochimaru.Lib.Transactions

/-!
# Programs side by side

Any number of programs over one transactional store, one statement at a time, with one lock among
them. Each may be dropped at any point. A program is proved alone: what it reads while it holds
the lock changes only as the others are known to change it without the lock.
-/

namespace Transactions

variable {D W E S R α β ι : Type}

structure Thread (D W E S R α : Type) where
  prog : Prog D W E S R α
  txn : Txn W
  locked : Bool

namespace Thread

def spawn (p : Prog D W E S R α) : Thread D W E S R α := ⟨p, .closed, false⟩

/-- A thread that unwinds drops its transaction and its lock. -/
def dropped : Thread D W E S R α := spawn .panic

/-- One statement of a thread, the store after it with it. -/
def next (store : Store D W E) (a : Answer E S R) (db : D) :
    Thread D W E S R α → Option (Thread D W E S R α × D)
  | ⟨.ret _, _, _⟩ => none
  | ⟨.panic, _, _⟩ => some (dropped, db)
  | ⟨.lock k, txn, _⟩ => some (⟨k, txn, true⟩, db)
  | ⟨.unlock k, _, _⟩ => some (⟨k, .closed, false⟩, db)
  | ⟨.start k, txn, locked⟩ =>
    let r := Store.onStart a txn
    some (⟨k r.1, r.2, locked⟩, db)
  | ⟨.read k, txn, locked⟩ =>
    let r := store.onRead a db txn
    some (⟨k r.1, r.2, locked⟩, db)
  | ⟨.write f k, txn, locked⟩ =>
    let r := store.onWrite a f db txn
    some (⟨k r.1, r.2.2, locked⟩, r.2.1)
  | ⟨.commit k, txn, locked⟩ =>
    let r := store.onCommit a db txn
    some (⟨k r.1, r.2.2, locked⟩, r.2.1)
  | ⟨.draw k, txn, locked⟩ => some (⟨k a.draw, txn, locked⟩, db)

/-- The statements that wait for the lock. -/
def Waits : Thread D W E S R α → Prop
  | ⟨.lock _, _, _⟩ => True
  | _ => False

/-- The thread has a result. -/
def Done (t : Thread D W E S R α) : Prop := ∃ a, t.prog = .ret a

end Thread

structure World (ι D W E S R α : Type) where
  db : D
  threads : ι → Thread D W E S R α

/-- What one step of a thread did to the store. -/
structure Event (ι D : Type) where
  thread : ι
  before : D
  after : D

section Runs

variable [DecidableEq ι] (store : Store D W E)

inductive Step (w : World ι D W E S R α) (i : ι) : World ι D W E S R α → Prop
  | exec (a : Answer E S R) {t : Thread D W E S R α} {db : D}
      (hnext : (w.threads i).next store a w.db = some (t, db))
      (hfree : (w.threads i).Waits → ∀ j, (w.threads j).locked = false) :
      Step w i ⟨db, Function.update w.threads i t⟩
  | drop (hlive : ¬(w.threads i).Done) :
      Step w i ⟨w.db, Function.update w.threads i .dropped⟩

inductive Run (start : World ι D W E S R α) :
    List (Event ι D) → World ι D W E S R α → Prop
  | refl : Run start [] start
  | tail {events : List (Event ι D)} {w w' : World ι D W E S R α} {i : ι}
      (hrun : Run start events w) (hstep : Step store w i w') :
      Run start (events ++ [⟨i, w.db, w'.db⟩]) w'

end Runs

/-! ## A program alone -/

/-- An invariant of the store and what a statement without the lock may do to it. -/
structure Contract (D : Type) where
  Inv : D → Prop
  Rely : D → D → Prop
  refl : ∀ db, Rely db db
  trans : ∀ {db db' db''}, Rely db db' → Rely db' db'' → Rely db db''

namespace Contract

variable (c : Contract D) (store : Store D W E) (Post : α → Prop → Prop)

/-- What stays known of the store a locked statement left; nothing without the lock. -/
def Known (locked : Bool) (db : D) : D → Prop := fun db' => locked = true → c.Rely db db'

/-- Every statement keeps the invariant, and the relation where the lock is not held, whatever the
store it meets among those `P` allows; a result satisfies `Post` with whether the program has
changed the store. -/
def Safe : Prog D W E S R α → Bool → Txn W → Prop → (D → Prop) → Prop
  | .ret a, _, _, wrote, _ => Post a wrote
  | .panic, _, _, _, _ => True
  | .lock k, _, txn, wrote, _ => Safe k true txn wrote fun _ => True
  | .unlock k, _, _, wrote, _ => Safe k false .closed wrote fun _ => True
  | .start k, locked, txn, wrote, P => ∀ a : Answer E S R,
    Safe (k (Store.onStart a txn).1) locked (Store.onStart a txn).2 wrote P
  | .read k, locked, txn, wrote, P => ∀ (a : Answer E S R) db, c.Inv db → P db →
    Safe (k (store.onRead a db txn).1) locked (store.onRead a db txn).2 wrote (c.Known locked db)
  | .write f k, locked, txn, wrote, P => ∀ (a : Answer E S R) db, c.Inv db → P db →
    let r := store.onWrite a f db txn
    c.Inv r.2.1 ∧ (locked = false → c.Rely db r.2.1) ∧
      Safe (k r.1) locked r.2.2 (wrote ∨ r.2.1 ≠ db) (c.Known locked r.2.1)
  | .commit k, locked, txn, wrote, P => ∀ (a : Answer E S R) db, c.Inv db → P db →
    let r := store.onCommit a db txn
    c.Inv r.2.1 ∧ (locked = false → c.Rely db r.2.1) ∧
      Safe (k r.1) locked r.2.2 (wrote ∨ r.2.1 ≠ db) (c.Known locked r.2.1)
  | .draw k, locked, txn, wrote, P => ∀ r, Safe (k r) locked txn wrote P

/-- What is known of the store survives the steps of the other threads. -/
def Stable (locked : Bool) (P : D → Prop) : Prop :=
  if locked then ∀ db db', P db → c.Rely db db' → P db' else ∀ db, P db

/-- The rest of a thread is safe, with what it knows of the store; it has changed the store only
if `wrote` holds. -/
def SafeAt (t : Thread D W E S R α) (wrote : Prop) (db : D) : Prop :=
  ∃ P, P db ∧ c.Stable t.locked P ∧ c.Safe store Post t.prog t.locked t.txn wrote P

variable {c store Post}

theorem stable_true (locked : Bool) : c.Stable locked fun _ => True := by
  cases locked <;> simp [Stable]

theorem stable_known (locked : Bool) (db : D) : c.Stable locked (c.Known locked db) := by
  cases locked with
  | false => exact fun _ h => absurd h Bool.false_ne_true
  | true => exact fun _ _ h hrely _ => c.trans (h rfl) hrely

theorem Stable.apply {locked : Bool} {P : D → Prop} (hstable : c.Stable locked P) {db db' : D}
    (h : P db) (hrely : locked = true → c.Rely db db') : P db' := by
  cases locked with
  | false => exact hstable db'
  | true => exact hstable db db' h (hrely rfl)

theorem known_self (locked : Bool) (db : D) : c.Known locked db db := fun _ => c.refl db

theorem safeAt_dropped (wrote : Prop) (db : D) :
    c.SafeAt store Post (Thread.dropped : Thread D W E S R α) wrote db :=
  ⟨fun _ => True, trivial, stable_true _, trivial⟩

/-! ### Threads -/

/-- Another thread's step leaves a safe thread safe. -/
theorem SafeAt.of_rely {t : Thread D W E S R α} {wrote : Prop} {db db' : D}
    (h : c.SafeAt store Post t wrote db) (hrely : t.locked = true → c.Rely db db') :
    c.SafeAt store Post t wrote db' := by
  obtain ⟨P, hP, hstable, hsafe⟩ := h
  exact ⟨P, hstable.apply hP hrely, hstable, hsafe⟩

/-- One statement of a safe thread. -/
theorem SafeAt.next {t t' : Thread D W E S R α} {wrote : Prop} {db db' : D} {a : Answer E S R}
    (h : c.SafeAt store Post t wrote db) (hinv : c.Inv db) (hnext : t.next store a db = some (t', db')) :
    c.Inv db' ∧ (t.locked = false → c.Rely db db') ∧
      c.SafeAt store Post t' (wrote ∨ db' ≠ db) db' := by
  obtain ⟨prog, txn, locked⟩ := t
  obtain ⟨P, hP, hstable, hsafe⟩ := h
  have hsame : ∀ {t : Thread D W E S R α}, c.SafeAt store Post t wrote db →
      c.SafeAt store Post t (wrote ∨ db ≠ db) db := by simp
  cases prog with
  | ret => cases hnext
  | panic =>
    cases hnext
    exact ⟨hinv, fun _ => c.refl db, safeAt_dropped _ _⟩
  | lock k =>
    cases hnext
    exact ⟨hinv, fun _ => c.refl db, hsame ⟨_, trivial, stable_true _, hsafe⟩⟩
  | unlock k =>
    cases hnext
    exact ⟨hinv, fun _ => c.refl db, hsame ⟨_, trivial, stable_true _, hsafe⟩⟩
  | start k =>
    cases hnext
    exact ⟨hinv, fun _ => c.refl db, hsame ⟨P, hP, hstable, hsafe a⟩⟩
  | read k =>
    cases hnext
    exact ⟨hinv, fun _ => c.refl db,
      hsame ⟨_, known_self _ _, stable_known _ _, hsafe a db hinv hP⟩⟩
  | write f k =>
    cases hnext
    obtain ⟨hinv', hrely, hsafe⟩ := hsafe a db hinv hP
    exact ⟨hinv', hrely, _, known_self _ _, stable_known _ _, hsafe⟩
  | commit k =>
    cases hnext
    obtain ⟨hinv', hrely, hsafe⟩ := hsafe a db hinv hP
    exact ⟨hinv', hrely, _, known_self _ _, stable_known _ _, hsafe⟩
  | draw k =>
    cases hnext
    exact ⟨hinv, fun _ => c.refl db, hsame ⟨P, hP, hstable, hsafe a.draw⟩⟩

/-! ### Rules for the statements -/

section Rules

variable {locked : Bool} {txn : Txn W} {writes : List W} {wrote : Prop} {P : D → Prop}

theorem safe_lock {k : Prog D W E S R α} (h : c.Safe store Post k true txn wrote fun _ => True) :
    c.Safe store Post (.lock k) locked txn wrote P := h

theorem safe_start {k : Except E Unit → Prog D W E S R α}
    (herror : ∀ e, c.Safe store Post (k (.error e)) locked txn wrote P)
    (hok : c.Safe store Post (k (.ok ())) locked (.opened []) wrote P) :
    c.Safe store Post (.start k) locked txn wrote P := by
  intro a
  rw [Store.onStart]
  cases a.fault with
  | some e => exact herror e
  | none => exact hok

theorem safe_read_opened {k : Except E D → Prog D W E S R α}
    (herror : ∀ e db, c.Safe store Post (k (.error e)) locked .aborted wrote (c.Known locked db))
    (hok : ∀ db, c.Inv db → P db → c.Safe store Post (k (.ok (store.applyAll writes db))) locked
      (.opened writes) wrote (c.Known locked db)) :
    c.Safe store Post (.read k) locked (.opened writes) wrote P := by
  intro a db hinv hP
  cases hfault : a.fault with
  | some e =>
    simp only [Store.onRead, hfault]
    exact herror e db
  | none =>
    simp only [Store.onRead, hfault]
    exact hok db hinv hP

/-- Inside a transaction a write waits for the commit. -/
theorem safe_write_opened {f : S → D → Except E W} {k : Except E S → Prog D W E S R α}
    (herror : ∀ e db, c.Safe store Post (k (.error e)) locked .aborted wrote (c.Known locked db))
    (hok : ∀ s w db, c.Inv db → P db → f s (store.applyAll writes db) = .ok w →
      c.Safe store Post (k (.ok s)) locked (.opened (writes ++ [w])) wrote (c.Known locked db)) :
    c.Safe store Post (.write f k) locked (.opened writes) wrote P := by
  intro a db hinv hP
  have hsame : (wrote ∨ db ≠ db) = wrote := by simp
  cases hfault : a.fault with
  | some e =>
    simp only [Store.onWrite, hfault, hsame]
    exact ⟨hinv, fun _ => c.refl db, herror e db⟩
  | none =>
    cases hw : f a.serial (store.applyAll writes db) with
    | error e =>
      simp only [Store.onWrite, hfault, hw, hsame]
      exact ⟨hinv, fun _ => c.refl db, herror e db⟩
    | ok w =>
      simp only [Store.onWrite, hfault, hw, hsame]
      exact ⟨hinv, fun _ => c.refl db, hok a.serial w db hinv hP hw⟩

theorem safe_write_closed {f : S → D → Except E W} {k : Except E S → Prog D W E S R α}
    (herror : ∀ e db, c.Safe store Post (k (.error e)) locked .closed wrote (c.Known locked db))
    (hok : ∀ s w db, c.Inv db → P db → f s db = .ok w →
      c.Inv (store.apply w db) ∧ (locked = false → c.Rely db (store.apply w db)) ∧
        c.Safe store Post (k (.ok s)) locked .closed (wrote ∨ store.apply w db ≠ db)
          (c.Known locked (store.apply w db))) :
    c.Safe store Post (.write f k) locked .closed wrote P := by
  intro a db hinv hP
  have hsame : (wrote ∨ db ≠ db) = wrote := by simp
  cases hfault : a.fault with
  | some e =>
    simp only [Store.onWrite, hfault, hsame]
    exact ⟨hinv, fun _ => c.refl db, herror e db⟩
  | none =>
    cases hw : f a.serial db with
    | error e =>
      simp only [Store.onWrite, hfault, hw, hsame]
      exact ⟨hinv, fun _ => c.refl db, herror e db⟩
    | ok w =>
      simp only [Store.onWrite, hfault, hw]
      exact hok a.serial w db hinv hP hw

theorem safe_commit_opened {k : Except E Unit → Prog D W E S R α}
    (herror : ∀ e db, c.Safe store Post (k (.error e)) locked .closed wrote (c.Known locked db))
    (hok : ∀ db, c.Inv db → P db →
      c.Inv (store.applyAll writes db) ∧ (locked = false → c.Rely db (store.applyAll writes db)) ∧
        c.Safe store Post (k (.ok ())) locked .closed (wrote ∨ store.applyAll writes db ≠ db)
          (c.Known locked (store.applyAll writes db))) :
    c.Safe store Post (.commit k) locked (.opened writes) wrote P := by
  intro a db hinv hP
  have hsame : (wrote ∨ db ≠ db) = wrote := by simp
  cases hfault : a.fault with
  | some e =>
    simp only [Store.onCommit, hfault, hsame]
    exact ⟨hinv, fun _ => c.refl db, herror e db⟩
  | none =>
    simp only [Store.onCommit, hfault]
    exact hok db hinv hP

/-- The commit of an aborted transaction changes nothing, whatever it answers. -/
theorem safe_commit_aborted {k : Except E Unit → Prog D W E S R α}
    (hk : ∀ r db, c.Safe store Post (k r) locked .closed wrote (c.Known locked db)) :
    c.Safe store Post (.commit k) locked .aborted wrote P := by
  intro a db hinv hP
  have hsame : (wrote ∨ db ≠ db) = wrote := by simp
  cases hfault : a.fault with
  | some e =>
    simp only [Store.onCommit, hfault, hsame]
    exact ⟨hinv, fun _ => c.refl db, hk _ db⟩
  | none =>
    simp only [Store.onCommit, hfault, hsame]
    exact ⟨hinv, fun _ => c.refl db, hk _ db⟩

/-- A function of the result of a safe program. -/
theorem safe_map {p : Prog D W E S R α} {f : α → β} {Post' : β → Prop → Prop}
    (h : c.Safe store Post p locked txn wrote P)
    (hf : ∀ a wrote, Post a wrote → Post' (f a) wrote) :
    c.Safe store Post' (p >>= fun a => .ret (f a)) locked txn wrote P := by
  induction p generalizing locked txn wrote P with
  | ret a => exact hf a wrote h
  | panic => exact h
  | lock k ih => exact ih h
  | unlock k ih => exact ih h
  | start k ih => exact fun a => ih _ (h a)
  | read k ih => exact fun a db hinv hP => ih _ (h a db hinv hP)
  | write f k ih =>
    intro a db hinv hP
    obtain ⟨hinv', hrely, hsafe⟩ := h a db hinv hP
    exact ⟨hinv', hrely, ih _ hsafe⟩
  | commit k ih =>
    intro a db hinv hP
    obtain ⟨hinv', hrely, hsafe⟩ := h a db hinv hP
    exact ⟨hinv', hrely, ih _ hsafe⟩
  | draw k ih => exact fun r => ih _ (h r)

end Rules

end Contract

/-- Only a statement that waits for the lock takes it. -/
theorem Thread.locked_of_next {store : Store D W E} {t t' : Thread D W E S R α} {db db' : D}
    {a : Answer E S R} (hnext : t.next store a db = some (t', db')) (hlocked : t'.locked = true) :
    t.Waits ∨ t.locked = true := by
  obtain ⟨prog, txn, locked⟩ := t
  cases prog with
  | lock k => exact .inl trivial
  | ret => cases hnext
  | panic | unlock =>
    cases hnext
    cases hlocked
  | start | read | write | commit | draw =>
    cases hnext
    exact .inr hlocked

section Soundness

variable {store : Store D W E} (c : Contract D) (Post : ι → α → Prop → Prop)

/-- What holds after any steps of safe programs. -/
structure Sound (store : Store D W E) (events : List (Event ι D)) (w : World ι D W E S R α) :
    Prop where
  inv : c.Inv w.db
  exclusive : ∀ i j, (w.threads i).locked = true → (w.threads j).locked = true → i = j
  safe : ∀ i, ∃ wrote, c.SafeAt store (Post i) (w.threads i) wrote w.db ∧
    (¬wrote → ∀ ev ∈ events, ev.thread = i → ev.after = ev.before)

variable {c Post}

/-- A thread that has ended satisfies its postcondition, with whether one of its steps changed
the store. -/
theorem Sound.post {events : List (Event ι D)} {w : World ι D W E S R α}
    (h : Sound c Post store events w) {i : ι} {a : α} (hret : (w.threads i).prog = .ret a) :
    ∃ wrote, Post i a wrote ∧ (¬wrote → ∀ ev ∈ events, ev.thread = i → ev.after = ev.before) := by
  obtain ⟨wrote, ⟨P, -, -, hsafe⟩, hwrote⟩ := h.safe i
  rw [hret] at hsafe
  exact ⟨wrote, hsafe, hwrote⟩

variable [DecidableEq ι]

/-- The rest of the world while `i` goes on as `t`. -/
theorem Sound.update {events : List (Event ι D)} {w : World ι D W E S R α} {i : ι}
    {t : Thread D W E S R α} {db : D} (h : Sound c Post store events w) (hinv : c.Inv db)
    (hrely : (w.threads i).locked = false → c.Rely w.db db)
    (hlocked : t.locked = true →
      (w.threads i).locked = true ∨ ∀ j, (w.threads j).locked = false)
    (hsafe : ∀ wrote, c.SafeAt store (Post i) (w.threads i) wrote w.db →
      c.SafeAt store (Post i) t (wrote ∨ db ≠ w.db) db) :
    Sound c Post store (events ++ [⟨i, w.db, db⟩]) ⟨db, Function.update w.threads i t⟩ := by
  have hother : ∀ j, j ≠ i → t.locked = true → (w.threads j).locked = false := by
    intro j hj ht
    rcases hlocked ht with hi | hfree
    · exact Bool.eq_false_iff.mpr fun hlj => hj (h.exclusive j i hlj hi)
    · exact hfree j
  refine ⟨hinv, fun j k => ?_, fun j => ?_⟩
  · by_cases hj : j = i <;> by_cases hk : k = i
    · exact fun _ _ => hj.trans hk.symm
    · subst hj
      simp only [Function.update_self, Function.update_of_ne hk]
      exact fun hl hlk => absurd hlk (Bool.eq_false_iff.mp (hother k hk hl))
    · subst hk
      simp only [Function.update_self, Function.update_of_ne hj]
      exact fun hlj hl => absurd hlj (Bool.eq_false_iff.mp (hother j hj hl))
    · simp only [Function.update_of_ne hj, Function.update_of_ne hk]
      exact h.exclusive j k
  · obtain ⟨wrote, hat, hwrote⟩ := h.safe j
    by_cases hj : j = i
    · subst hj
      refine ⟨wrote ∨ db ≠ w.db, ?_, fun hn ev hev hthread => ?_⟩
      · simp only [Function.update_self]
        exact hsafe wrote hat
      · rcases List.mem_append.mp hev with hev | hev
        · exact hwrote (fun hw => hn (.inl hw)) ev hev hthread
        · rw [List.mem_singleton.mp hev]
          exact not_not.mp fun hne => hn (.inr hne)
    · refine ⟨wrote, ?_, fun hn ev hev hthread => ?_⟩
      · simp only [Function.update_of_ne hj]
        exact hat.of_rely fun hlj =>
          hrely (Bool.eq_false_iff.mpr fun hli => hj (h.exclusive j i hlj hli))
      · rcases List.mem_append.mp hev with hev | hev
        · exact hwrote hn ev hev hthread
        · rw [List.mem_singleton.mp hev] at hthread
          exact absurd hthread.symm hj

theorem Sound.step {events : List (Event ι D)} {w w' : World ι D W E S R α} {i : ι}
    (h : Sound c Post store events w) (hstep : Step store w i w') :
    Sound c Post store (events ++ [⟨i, w.db, w'.db⟩]) w' := by
  obtain ⟨wrote₀, hat₀, -⟩ := h.safe i
  cases hstep with
  | exec a hnext hfree =>
    obtain ⟨hinv, hrely, -⟩ := hat₀.next h.inv hnext
    refine h.update hinv hrely (fun ht => ?_) fun wrote hat => (hat.next h.inv hnext).2.2
    rcases Thread.locked_of_next hnext ht with hw | hl
    · exact .inr (hfree hw)
    · exact .inl hl
  | drop hlive =>
    exact h.update h.inv (fun _ => c.refl _) (fun ht => absurd ht Bool.false_ne_true)
      fun wrote _ => Contract.safeAt_dropped _ _

/-- Programs proved alone keep their contract side by side. -/
theorem run_sound {prog : ι → Prog D W E S R α} {start w : World ι D W E S R α}
    {events : List (Event ι D)} (hstart : ∀ i, start.threads i = .spawn (prog i))
    (hinv : c.Inv start.db)
    (hsafe : ∀ i, c.Safe store (Post i) (prog i) false .closed False fun _ => True)
    (hrun : Run store start events w) : Sound c Post store events w := by
  induction hrun with
  | refl =>
    refine ⟨hinv, fun i j hi => ?_, fun i => ⟨False, ?_, ?_⟩⟩
    · rw [hstart i] at hi
      cases hi
    · rw [hstart i]
      exact ⟨_, trivial, Contract.stable_true _, hsafe i⟩
    · exact fun _ ev hev => absurd hev List.not_mem_nil
  | tail _ hstep ih => exact ih.step hstep

end Soundness

end Transactions
