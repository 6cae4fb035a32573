import Orochimaru.Lib.Interleaving

/-!
# What an observer cannot tell

A relation between stores, of those an observer cannot tell apart, and programs that do the same
on both. Side by side, whatever happens over the one store can happen over the other, with the
same results.
-/

namespace Transactions

variable {D W E S R α β ι : Type}

/-- Programs that do the same on stores related by `Sim`, with a result that satisfies `Post`. -/
inductive Indistinct (Sim : D → D → Prop) (Post : α → Prop) :
    Prog D W E S R α → Prog D W E S R α → Prop
  | ret {a : α} (h : Post a) : Indistinct Sim Post (.ret a) (.ret a)
  | panic : Indistinct Sim Post .panic .panic
  | lock {k k' : Prog D W E S R α} (h : Indistinct Sim Post k k') :
      Indistinct Sim Post (.lock k) (.lock k')
  | unlock {k k' : Prog D W E S R α} (h : Indistinct Sim Post k k') :
      Indistinct Sim Post (.unlock k) (.unlock k')
  | start {k k' : Except E Unit → Prog D W E S R α} (h : ∀ r, Indistinct Sim Post (k r) (k' r)) :
      Indistinct Sim Post (.start k) (.start k')
  | read {k k' : Except E D → Prog D W E S R α}
      (herror : ∀ e, Indistinct Sim Post (k (.error e)) (k' (.error e)))
      (hok : ∀ db db', Sim db db' → Indistinct Sim Post (k (.ok db)) (k' (.ok db'))) :
      Indistinct Sim Post (.read k) (.read k')
  | write {f f' : S → D → Except E W} {k k' : Except E S → Prog D W E S R α}
      (hf : ∀ s db db', Sim db db' → f s db = f' s db')
      (h : ∀ r, Indistinct Sim Post (k r) (k' r)) :
      Indistinct Sim Post (.write f k) (.write f' k')
  | commit {k k' : Except E Unit → Prog D W E S R α} (h : ∀ r, Indistinct Sim Post (k r) (k' r)) :
      Indistinct Sim Post (.commit k) (.commit k')
  | draw {k k' : R → Prog D W E S R α} (h : ∀ r, Indistinct Sim Post (k r) (k' r)) :
      Indistinct Sim Post (.draw k) (.draw k')

namespace Indistinct

variable {Sim : D → D → Prop} {Post : α → Prop} {Post' : β → Prop}

theorem bind {p p' : Prog D W E S R α} {f f' : α → Prog D W E S R β}
    (h : Indistinct Sim Post p p') (hf : ∀ a, Post a → Indistinct Sim Post' (f a) (f' a)) :
    Indistinct Sim Post' (p >>= f) (p' >>= f') := by
  induction h with
  | ret h => exact hf _ h
  | panic => exact .panic
  | lock _ ih => exact .lock ih
  | unlock _ ih => exact .unlock ih
  | start _ ih => exact .start ih
  | read _ _ iherror ihok => exact .read iherror ihok
  | write hw _ ih => exact .write hw ih
  | commit _ ih => exact .commit ih
  | draw _ ih => exact .draw ih

/-- A question with one answer on related stores. -/
theorem query {q q' : D → α} {k k' : Except E α → Prog D W E S R β}
    (hq : ∀ db db', Sim db db' → q db = q' db') (hk : ∀ r, Indistinct Sim Post' (k r) (k' r)) :
    Indistinct Sim Post' (Prog.query q >>= k) (Prog.query q' >>= k') := by
  refine .read (fun e => hk (.error e)) fun db db' hdb => ?_
  change Indistinct Sim Post' (k (.ok (q db))) (k' (.ok (q' db')))
  rw [hq db db' hdb]
  exact hk _

theorem expect {o : Option α} {f f' : α → Prog D W E S R β}
    (hf : ∀ a, Indistinct Sim Post' (f a) (f' a)) :
    Indistinct Sim Post' (Prog.expect o >>= f) (Prog.expect o >>= f') := by
  cases o with
  | none => exact .panic
  | some a => exact hf a

end Indistinct

/-! ## Statements -/

section Statements

variable {store : Store D W E} {Sim : D → D → Prop} {db db' : D}

theorem sim_applyAll (happly : ∀ w db db', Sim db db' → Sim (store.apply w db) (store.apply w db'))
    (writes : List W) (h : Sim db db') :
    Sim (store.applyAll writes db) (store.applyAll writes db') := by
  induction writes generalizing db db' with
  | nil => exact h
  | cons w writes ih => exact ih (happly w db db' h)

variable (happly : ∀ w db db', Sim db db' → Sim (store.apply w db) (store.apply w db'))
  (hdb : Sim db db') (a : Answer E S R) (txn : Txn W)
include happly hdb

theorem onRead_alike {Post : α → Prop} {k k' : Except E D → Prog D W E S R α}
    (herror : ∀ e, Indistinct Sim Post (k (.error e)) (k' (.error e)))
    (hok : ∀ db db', Sim db db' → Indistinct Sim Post (k (.ok db)) (k' (.ok db'))) :
    Indistinct Sim Post (k (store.onRead a db txn).1) (k' (store.onRead a db' txn).1) ∧
      (store.onRead a db' txn).2 = (store.onRead a db txn).2 := by
  cases txn with
  | aborted => exact ⟨herror _, rfl⟩
  | closed =>
    cases hfault : a.fault with
    | some e =>
      simp only [Store.onRead, hfault, and_true]
      exact herror e
    | none =>
      simp only [Store.onRead, hfault, and_true]
      exact hok _ _ hdb
  | opened writes =>
    cases hfault : a.fault with
    | some e =>
      simp only [Store.onRead, hfault, and_true]
      exact herror e
    | none =>
      simp only [Store.onRead, hfault, and_true]
      exact hok _ _ (sim_applyAll happly writes hdb)

theorem onWrite_alike {f f' : S → D → Except E W} (hf : ∀ s db db', Sim db db' → f s db = f' s db') :
    (store.onWrite a f' db' txn).1 = (store.onWrite a f db txn).1 ∧
      Sim (store.onWrite a f db txn).2.1 (store.onWrite a f' db' txn).2.1 ∧
      (store.onWrite a f' db' txn).2.2 = (store.onWrite a f db txn).2.2 := by
  cases txn with
  | aborted => exact ⟨rfl, hdb, rfl⟩
  | closed =>
    have hw := hf a.serial db db' hdb
    cases hfault : a.fault with
    | some e =>
      simp only [Store.onWrite, hfault, and_true, true_and]
      exact hdb
    | none =>
      simp only [Store.onWrite, hfault, hw]
      cases f' a.serial db' with
      | error e => exact ⟨rfl, hdb, rfl⟩
      | ok w => exact ⟨rfl, happly w _ _ hdb, rfl⟩
  | opened writes =>
    have hw := hf a.serial _ _ (sim_applyAll happly writes hdb)
    cases hfault : a.fault with
    | some e =>
      simp only [Store.onWrite, hfault, and_true, true_and]
      exact hdb
    | none =>
      simp only [Store.onWrite, hfault, hw]
      cases f' a.serial (store.applyAll writes db') with
      | error e => exact ⟨rfl, hdb, rfl⟩
      | ok w => exact ⟨rfl, hdb, rfl⟩

theorem onCommit_alike :
    (store.onCommit a db' txn).1 = (store.onCommit a db txn).1 ∧
      Sim (store.onCommit a db txn).2.1 (store.onCommit a db' txn).2.1 ∧
      (store.onCommit a db' txn).2.2 = (store.onCommit a db txn).2.2 := by
  simp only [Store.onCommit]
  cases a.fault with
  | some e => exact ⟨rfl, hdb, rfl⟩
  | none =>
    cases txn with
    | opened writes => exact ⟨rfl, sim_applyAll happly writes hdb, rfl⟩
    | closed => exact ⟨rfl, hdb, rfl⟩
    | aborted => exact ⟨rfl, hdb, rfl⟩

end Statements

/-- Alone on related stores: the same result, and related stores again. -/
theorem Indistinct.run {store : Store D W E} {Sim : D → D → Prop} {Post : α → Prop}
    (happly : ∀ w db db', Sim db db' → Sim (store.apply w db) (store.apply w db'))
    {p p' : Prog D W E S R α} (h : Indistinct Sim Post p p') {db db' : D} (hdb : Sim db db')
    (env : Nat → Answer E S R) (n : Nat) (txn : Txn W) :
    (store.run env p' n db' txn).1 = (store.run env p n db txn).1 ∧
      Sim (store.run env p n db txn).2.1 (store.run env p' n db' txn).2.1 := by
  induction p generalizing p' n db db' txn with
  | ret =>
    cases h
    exact ⟨rfl, hdb⟩
  | panic =>
    cases h
    exact ⟨rfl, hdb⟩
  | lock k ih =>
    cases h with
    | lock hk => exact ih hk hdb n txn
  | unlock k ih =>
    cases h with
    | unlock hk => exact ih hk hdb n .closed
  | start k ih =>
    cases h with
    | start hk => exact ih _ (hk _) hdb (n + 1) _
  | draw k ih =>
    cases h with
    | draw hk => exact ih _ (hk _) hdb (n + 1) txn
  | read k ih =>
    cases h with
    | read herror hok =>
      obtain ⟨hk, htxn⟩ := onRead_alike happly hdb (env n) txn herror hok
      simp only [Store.run, htxn]
      exact ih _ hk hdb (n + 1) _
  | write f k ih =>
    cases h with
    | write hf hk =>
      obtain ⟨hanswer, hdb₁, htxn⟩ := onWrite_alike happly hdb (env n) txn hf
      simp only [Store.run, hanswer, htxn]
      exact ih _ (hk _) hdb₁ (n + 1) _
  | commit k ih =>
    cases h with
    | commit hk =>
      obtain ⟨hanswer, hdb₁, htxn⟩ := onCommit_alike happly hdb (env n) txn
      simp only [Store.run, hanswer, htxn]
      exact ih _ (hk _) hdb₁ (n + 1) _

/-! ## Threads -/

/-- Threads at the same point of such programs. -/
structure Thread.Alike (Sim : D → D → Prop) (Post : α → Prop) (t t' : Thread D W E S R α) : Prop where
  prog : Indistinct Sim Post t.prog t'.prog
  txn : t'.txn = t.txn
  locked : t'.locked = t.locked

section Threads

variable {store : Store D W E} {Sim : D → D → Prop} {Post : α → Prop}

theorem Thread.alike_dropped : (Thread.dropped : Thread D W E S R α).Alike Sim Post .dropped :=
  ⟨.panic, rfl, rfl⟩

theorem Thread.Alike.waits {t t' : Thread D W E S R α} (h : t.Alike Sim Post t') (hwaits : t'.Waits) :
    t.Waits := by
  obtain ⟨prog, txn, locked⟩ := t
  obtain ⟨prog', txn', locked'⟩ := t'
  cases h.prog with
  | lock => trivial
  | _ => exact hwaits

theorem Thread.Alike.done {t t' : Thread D W E S R α} (h : t.Alike Sim Post t') (hdone : t'.Done) :
    t.Done := by
  obtain ⟨prog, txn, locked⟩ := t
  obtain ⟨a, ha⟩ := hdone
  obtain ⟨hprog, -, -⟩ := h
  rw [ha] at hprog
  cases hprog
  exact ⟨a, rfl⟩

/-- One statement, the same on both stores. -/
theorem Thread.Alike.next
    (happly : ∀ w db db', Sim db db' → Sim (store.apply w db) (store.apply w db'))
    {t t' u : Thread D W E S R α} {db db' db₁ : D} {a : Answer E S R} (h : t.Alike Sim Post t')
    (hdb : Sim db db') (hnext : t.next store a db = some (u, db₁)) :
    ∃ u' db₁', t'.next store a db' = some (u', db₁') ∧ u.Alike Sim Post u' ∧ Sim db₁ db₁' := by
  obtain ⟨prog, txn, locked⟩ := t
  obtain ⟨prog', txn', locked'⟩ := t'
  obtain ⟨hprog, rfl, rfl⟩ := h
  cases hprog with
  | ret => cases hnext
  | panic =>
    cases hnext
    exact ⟨_, _, rfl, alike_dropped, hdb⟩
  | lock hk =>
    cases hnext
    exact ⟨_, _, rfl, ⟨hk, rfl, rfl⟩, hdb⟩
  | unlock hk =>
    cases hnext
    exact ⟨_, _, rfl, ⟨hk, rfl, rfl⟩, hdb⟩
  | start hk =>
    cases hnext
    exact ⟨_, _, rfl, ⟨hk _, rfl, rfl⟩, hdb⟩
  | draw hk =>
    cases hnext
    exact ⟨_, _, rfl, ⟨hk _, rfl, rfl⟩, hdb⟩
  | read herror hok =>
    cases hnext
    obtain ⟨hk, htxn⟩ := onRead_alike happly hdb a _ herror hok
    exact ⟨_, _, rfl, ⟨hk, htxn, rfl⟩, hdb⟩
  | write hf hk =>
    cases hnext
    obtain ⟨hanswer, hdb₁, htxn⟩ := onWrite_alike happly hdb a _ hf
    exact ⟨_, _, rfl, ⟨hanswer ▸ hk _, htxn, rfl⟩, hdb₁⟩
  | commit hk =>
    cases hnext
    obtain ⟨hanswer, hdb₁, htxn⟩ := onCommit_alike happly hdb a _
    exact ⟨_, _, rfl, ⟨hanswer ▸ hk _, htxn, rfl⟩, hdb₁⟩

end Threads

/-! ## Programs side by side -/

structure World.Alike (Sim : D → D → Prop) (Post : α → Prop) (w w' : World ι D W E S R α) : Prop where
  db : Sim w.db w'.db
  threads : ∀ i, (w.threads i).Alike Sim Post (w'.threads i)

theorem World.Alike.ret {Sim : D → D → Prop} {Post : α → Prop} {w w' : World ι D W E S R α}
    (h : w.Alike Sim Post w') {i : ι} {a : α} (hret : (w.threads i).prog = .ret a) :
    (w'.threads i).prog = .ret a := by
  have hprog := (h.threads i).prog
  rw [hret] at hprog
  generalize (w'.threads i).prog = prog' at hprog
  cases hprog
  rfl

section Runs

variable [DecidableEq ι] {store : Store D W E} {Sim : D → D → Prop} {Post : α → Prop}

theorem World.Alike.update {w w' : World ι D W E S R α} (h : w.Alike Sim Post w') (i : ι)
    {t t' : Thread D W E S R α} (ht : t.Alike Sim Post t') {db db' : D} (hdb : Sim db db') :
    World.Alike Sim Post ⟨db, Function.update w.threads i t⟩ ⟨db', Function.update w'.threads i t'⟩ := by
  refine ⟨hdb, fun j => ?_⟩
  by_cases hj : j = i
  · subst hj
    simpa using ht
  · simpa [hj] using h.threads j

theorem World.Alike.step
    (happly : ∀ w db db', Sim db db' → Sim (store.apply w db) (store.apply w db'))
    {w w' w₁ : World ι D W E S R α} {i : ι} (h : w.Alike Sim Post w') (hstep : Step store w i w₁) :
    ∃ w₁', Step store w' i w₁' ∧ w₁.Alike Sim Post w₁' := by
  cases hstep with
  | exec a hnext hfree =>
    obtain ⟨t', db', hnext', ht, hdb⟩ := (h.threads i).next happly h.db hnext
    refine ⟨_, .exec a hnext' fun hwaits j => ?_, h.update i ht hdb⟩
    exact (h.threads j).locked.trans (hfree ((h.threads i).waits hwaits) j)
  | drop hlive =>
    refine ⟨_, .drop fun hdone => hlive ((h.threads i).done hdone), ?_⟩
    exact h.update i Thread.alike_dropped h.db

/-- What happens from one world can happen from the other, in the same order of steps. -/
theorem run_alike (happly : ∀ w db db', Sim db db' → Sim (store.apply w db) (store.apply w db'))
    {start start' w : World ι D W E S R α} {events : List (Event ι D)}
    (h : start.Alike Sim Post start') (hrun : Run store start events w) :
    ∃ events' w', Run store start' events' w' ∧ w.Alike Sim Post w' ∧
      events'.map (·.thread) = events.map (·.thread) := by
  induction hrun with
  | refl => exact ⟨[], start', .refl, h, rfl⟩
  | tail _ hstep ih =>
    obtain ⟨events', w', hrun', hw, hthreads⟩ := ih
    obtain ⟨w₁', hstep', hw₁⟩ := hw.step happly hstep
    exact ⟨_, w₁', hrun'.tail hstep', hw₁, by simp [hthreads]⟩

end Runs

end Transactions
