import Orochimaru.Lib.Guarantees

/-!
# Programs in processes

Programs over one store, each in a process with a lock of its own, and each acting only where the
world is ready for it. Beside programs that take no lock, those of one process run as if there
were one lock for all. A program that gives back the lock it takes gets through once the others
leave it alone.
-/

namespace Transactions

variable {D W E S R α β ι π : Type}

/-! ## Locks -/

namespace Prog

/-- Neither takes the lock nor gives it back. -/
def LockFree : Prog D W E S R α → Prop
  | ret _ => True
  | panic => True
  | lock _ => False
  | unlock _ => False
  | start k => ∀ r, (k r).LockFree
  | read k => ∀ r, (k r).LockFree
  | write _ k => ∀ r, (k r).LockFree
  | commit k => ∀ r, (k r).LockFree
  | draw k => ∀ r, (k r).LockFree

/-- Takes the lock only where it does not hold it, and has given it back with its result. -/
def Balanced : Prog D W E S R α → Bool → Prop
  | ret _, locked => locked = false
  | panic, _ => True
  | lock k, locked => locked = false ∧ k.Balanced true
  | unlock k, _ => k.Balanced false
  | start k, locked => ∀ r, (k r).Balanced locked
  | read k, locked => ∀ r, (k r).Balanced locked
  | write _ k, locked => ∀ r, (k r).Balanced locked
  | commit k, locked => ∀ r, (k r).Balanced locked
  | draw k, locked => ∀ r, (k r).Balanced locked

theorem LockFree.bind {p : Prog D W E S R α} {f : α → Prog D W E S R β} (h : p.LockFree)
    (hf : ∀ a, (f a).LockFree) : (p >>= f).LockFree := by
  induction p with
  | ret a => exact hf a
  | panic => trivial
  | lock | unlock => exact h.elim
  | start k ih => exact fun r => ih r (h r)
  | read k ih => exact fun r => ih r (h r)
  | write g k ih => exact fun r => ih r (h r)
  | commit k ih => exact fun r => ih r (h r)
  | draw k ih => exact fun r => ih r (h r)

theorem LockFree.balanced_bind {p : Prog D W E S R α} {f : α → Prog D W E S R β} {locked : Bool}
    (h : p.LockFree) (hf : ∀ a, (f a).Balanced locked) : (p >>= f).Balanced locked := by
  induction p with
  | ret a => exact hf a
  | panic => trivial
  | lock | unlock => exact h.elim
  | start k ih => exact fun r => ih r (h r)
  | read k ih => exact fun r => ih r (h r)
  | write g k ih => exact fun r => ih r (h r)
  | commit k ih => exact fun r => ih r (h r)
  | draw k ih => exact fun r => ih r (h r)

theorem Balanced.bind {p : Prog D W E S R α} {f : α → Prog D W E S R β} {locked : Bool}
    (h : p.Balanced locked) (hf : ∀ a, (f a).Balanced false) : (p >>= f).Balanced locked := by
  induction p generalizing locked with
  | ret a =>
    obtain rfl : locked = false := h
    exact hf a
  | panic => trivial
  | lock k ih => exact ⟨h.1, ih h.2⟩
  | unlock k ih => exact ih h
  | start k ih => exact fun r => ih r (h r)
  | read k ih => exact fun r => ih r (h r)
  | write g k ih => exact fun r => ih r (h r)
  | commit k ih => exact fun r => ih r (h r)
  | draw k ih => exact fun r => ih r (h r)

theorem LockFree.balanced {p : Prog D W E S R α} (h : p.LockFree) : p.Balanced false := by
  induction p with
  | ret | panic => trivial
  | lock | unlock => exact h.elim
  | start k ih => exact fun r => ih r (h r)
  | read k ih => exact fun r => ih r (h r)
  | write f k ih => exact fun r => ih r (h r)
  | commit k ih => exact fun r => ih r (h r)
  | draw k ih => exact fun r => ih r (h r)

theorem balanced_expect {o : Option α} {f : α → Prog D W E S R β} {locked : Bool}
    (hf : ∀ a, (f a).Balanced locked) : (expect o >>= f).Balanced locked := by
  cases o with
  | none => trivial
  | some a => exact hf a

theorem lockFree_expect {o : Option α} {f : α → Prog D W E S R β}
    (hf : ∀ a, (f a).LockFree) : (expect o >>= f).LockFree := by
  cases o with
  | none => trivial
  | some a => exact hf a

end Prog

/-- Neither holds the lock nor takes it. -/
def Thread.LockFree (t : Thread D W E S R α) : Prop := t.prog.LockFree ∧ t.locked = false

theorem Thread.LockFree.not_waits {t : Thread D W E S R α} (h : t.LockFree) : ¬t.Waits := by
  obtain ⟨prog, txn, locked⟩ := t
  intro hwaits
  cases prog with
  | lock => exact h.1.elim
  | _ => exact hwaits

theorem Thread.LockFree.next {store : Store D W E} {t t' : Thread D W E S R α} {a : Answer E S R}
    {db db' : D} (h : t.LockFree) (hnext : t.next store a db = some (t', db')) : t'.LockFree := by
  obtain ⟨prog, txn, locked⟩ := t
  obtain ⟨hprog, hlocked⟩ := h
  cases prog with
  | ret => cases hnext
  | lock | unlock => exact hprog.elim
  | panic =>
    cases hnext
    exact ⟨trivial, rfl⟩
  | start | read | write | commit | draw =>
    cases hnext
    exact ⟨hprog _, hlocked⟩

/-! ## One program alone -/

section Alone

variable {store : Store D W E} {a : Answer E S R}

/-- Where every statement is answered the same, it does not matter which comes first. -/
theorem Store.run_steady (p : Prog D W E S R α) (n m : Nat) (db : D) (txn : Txn W) :
    store.run (fun _ => a) p n db txn = store.run (fun _ => a) p m db txn := by
  induction p generalizing n m db txn with
  | ret | panic => rfl
  | lock k ih => exact ih n m db txn
  | unlock k ih => exact ih n m db .closed
  | start k ih => exact ih _ (n + 1) (m + 1) db _
  | read k ih => exact ih _ (n + 1) (m + 1) db _
  | write f k ih => exact ih _ (n + 1) (m + 1) _ _
  | commit k ih => exact ih _ (n + 1) (m + 1) _ _
  | draw k ih => exact ih _ (n + 1) (m + 1) db txn

/-- The rest goes on from where the first program ends. -/
theorem Store.run_bind {p : Prog D W E S R α} {f : α → Prog D W E S R β} {n : Nat} {db db' : D}
    {txn txn' : Txn W} {r : α}
    (h : store.run (fun _ => a) p n db txn = (some r, db', txn')) :
    store.run (fun _ => a) (p >>= f) n db txn = store.run (fun _ => a) (f r) n db' txn' := by
  induction p generalizing n db txn with
  | ret b =>
    cases h
    rfl
  | panic => cases h
  | lock k ih => exact ih h
  | unlock k ih => exact ih h
  | start k ih => exact (ih _ h).trans (run_steady _ _ _ _ _)
  | read k ih => exact (ih _ h).trans (run_steady _ _ _ _ _)
  | write g k ih => exact (ih _ h).trans (run_steady _ _ _ _ _)
  | commit k ih => exact (ih _ h).trans (run_steady _ _ _ _ _)
  | draw k ih => exact (ih _ h).trans (run_steady _ _ _ _ _)

variable {env : Nat → Answer E S R} {n : Nat} {db : D} {writes : List W} {f : S → D → Except E W}
  {k : Except E S → Prog D W E S R α}

theorem Store.run_write_ok {w : W} (hfault : (env n).fault = none)
    (hw : f (env n).serial (store.applyAll writes db) = .ok w) :
    store.run env (.write f k) n db (.opened writes) =
      store.run env (k (.ok (env n).serial)) (n + 1) db (.opened (writes ++ [w])) := by
  simp only [run, onWrite, hfault, hw]

theorem Store.run_write_error {e : E} (hfault : (env n).fault = none)
    (hw : f (env n).serial (store.applyAll writes db) = .error e) :
    store.run env (.write f k) n db (.opened writes) =
      store.run env (k (.error e)) (n + 1) db .aborted := by
  simp only [run, onWrite, hfault, hw]

theorem Store.run_commit_opened {k : Except E Unit → Prog D W E S R α}
    (hfault : (env n).fault = none) :
    store.run env (.commit k) n db (.opened writes) =
      store.run env (k (.ok ())) (n + 1) (store.applyAll writes db) .closed := by
  simp only [run, onCommit, hfault]

theorem Store.run_commit_aborted {k : Except E Unit → Prog D W E S R α}
    (hfault : (env n).fault = none) :
    store.run env (.commit k) n db .aborted = store.run env (k (.ok ())) (n + 1) db .closed := by
  simp only [run, onCommit, hfault]

end Alone

/-! ## Sites -/

/-- The process of each thread, and what it waits for before it acts. -/
structure Site (ι π D W E S R α : Type) where
  process : ι → π
  ready : (ι → Thread D W E S R α) → ι → Prop

namespace Site

section Runs

variable [DecidableEq ι] (site : Site ι π D W E S R α) (store : Store D W E)

/-- A lock is free where no thread of its process holds it. -/
inductive Step (w : World ι D W E S R α) (i : ι) : World ι D W E S R α → Prop
  | exec (a : Answer E S R) {t : Thread D W E S R α} {db : D} (hready : site.ready w.threads i)
      (hnext : (w.threads i).next store a w.db = some (t, db))
      (hfree : (w.threads i).Waits → ∀ j, site.process j = site.process i →
        (w.threads j).locked = false) :
      Step w i ⟨db, Function.update w.threads i t⟩
  | drop (hlive : ¬(w.threads i).Done) :
      Step w i ⟨w.db, Function.update w.threads i .dropped⟩

inductive Run (start : World ι D W E S R α) :
    List (Event ι D) → World ι D W E S R α → Prop
  | refl : Run start [] start
  | tail {events : List (Event ι D)} {w w' : World ι D W E S R α} {i : ι}
      (hrun : Run start events w) (hstep : site.Step store w i w') :
      Run start (events ++ [⟨i, w.db, w'.db⟩]) w'

end Runs

variable [DecidableEq ι] {site : Site ι π D W E S R α} {store : Store D W E}
  {start w : World ι D W E S R α} {events : List (Event ι D)}

/-! ### One process -/

theorem Step.lockFree {w w' : World ι D W E S R α} {i j : ι} (hstep : site.Step store w i w')
    (h : (w.threads j).LockFree) : (w'.threads j).LockFree := by
  cases hstep with
  | exec a _ hnext _ =>
    by_cases hj : j = i
    · subst hj
      simp only [Function.update_self]
      exact h.next hnext
    · simpa only [Function.update_of_ne hj] using h
  | drop hlive =>
    by_cases hj : j = i
    · subst hj
      simp only [Function.update_self]
      exact ⟨trivial, rfl⟩
    · simpa only [Function.update_of_ne hj] using h

/-- Where the threads of the other processes take no lock, the lock of one process might be that
of all. -/
theorem Run.single (p : π) (hother : ∀ i, site.process i ≠ p → (start.threads i).LockFree)
    (hrun : site.Run store start events w) :
    Transactions.Run store start events w ∧
      ∀ i, site.process i ≠ p → (w.threads i).LockFree := by
  induction hrun with
  | refl => exact ⟨.refl, hother⟩
  | @tail _ w w' i _ hstep ih =>
    obtain ⟨hrun, hlockFree⟩ := ih
    refine ⟨hrun.tail ?_, fun j hj => hstep.lockFree (hlockFree j hj)⟩
    cases hstep with
    | exec a _ hnext hfree =>
      refine .exec a hnext fun hwaits j => ?_
      have hi : site.process i = p := by
        by_contra hi
        exact (hlockFree i hi).not_waits hwaits
      by_cases hj : site.process j = p
      · exact hfree hwaits j (hj.trans hi.symm)
      · exact (hlockFree j hj).2
    | drop hlive => exact .drop hlive

/-! ### A program left alone -/

/-- Thread `i` stands here, is ready whatever it does itself, and the lock of its process is held
by no other. -/
structure Alone (site : Site ι π D W E S R α) (w : World ι D W E S R α) (i : ι)
    (t : Thread D W E S R α) : Prop where
  thread : w.threads i = t
  ready : ∀ t, site.ready (Function.update w.threads i t) i
  others : ∀ j, j ≠ i → site.process j = site.process i → (w.threads j).locked = false

theorem Alone.next {i : ι} {t t' : Thread D W E S R α} {db : D} (h : site.Alone w i t)
    (a : Answer E S R) (hrun : site.Run store start events w)
    (hnext : t.next store a w.db = some (t', db)) (hunlocked : t.Waits → t.locked = false) :
    site.Run store start (events ++ [⟨i, w.db, db⟩]) ⟨db, Function.update w.threads i t'⟩ ∧
      site.Alone ⟨db, Function.update w.threads i t'⟩ i t' := by
  obtain ⟨rfl, hready, hothers⟩ := h
  have hself := hready (w.threads i)
  rw [Function.update_eq_self] at hself
  refine ⟨hrun.tail (.exec a hself hnext fun hwaits j hj => ?_), ?_⟩
  · by_cases hji : j = i
    · exact hji ▸ hunlocked hwaits
    · exact hothers j hji hj
  · exact ⟨Function.update_self .., fun t => by simpa using hready t,
      fun j hji hj => by simpa [hji] using hothers j hji hj⟩

/-- A program that gives back its lock gets through, with the result and the store it has alone. -/
theorem Alone.run {i : ι} {p : Prog D W E S R α} {locked : Bool} {txn txn' : Txn W}
    {env : Nat → Answer E S R} {n : Nat} {db' : D} {a : α}
    (h : site.Alone w i ⟨p, txn, locked⟩) (hrun : site.Run store start events w)
    (hbalanced : p.Balanced locked) (hres : store.run env p n w.db txn = (some a, db', txn')) :
    ∃ events', site.Run store start events'
      ⟨db', Function.update w.threads i ⟨.ret a, txn', false⟩⟩ := by
  induction p generalizing events w locked txn n with
  | ret b =>
    cases hres
    obtain rfl : locked = false := hbalanced
    refine ⟨events, ?_⟩
    rw [← h.thread, Function.update_eq_self]
    exact hrun
  | panic => cases hres
  | lock k ih =>
    obtain ⟨hrun', h'⟩ := h.next (env n) hrun rfl fun _ => hbalanced.1
    simpa using ih h' hrun' hbalanced.2 hres
  | unlock k ih =>
    obtain ⟨hrun', h'⟩ := h.next (env n) hrun rfl fun hwaits => hwaits.elim
    simpa using ih h' hrun' hbalanced hres
  | start k ih | read k ih | write f k ih | commit k ih | draw k ih =>
    obtain ⟨hrun', h'⟩ := h.next (env n) hrun rfl fun hwaits => hwaits.elim
    simpa using ih _ h' hrun' (hbalanced _) hres

/-- While no thread holds a lock, a program gets through and leaves none held. -/
theorem Run.call {i : ι} {p : Prog D W E S R α} {txn' : Txn W} {env : Nat → Answer E S R} {n : Nat}
    {db' : D} {a : α} (hrun : site.Run store start events w)
    (hunlocked : ∀ j, (w.threads j).locked = false) (hi : w.threads i = .spawn p)
    (hready : ∀ t, site.ready (Function.update w.threads i t) i) (hbalanced : p.Balanced false)
    (hres : store.run env p n w.db .closed = (some a, db', txn')) :
    ∃ events', site.Run store start events' ⟨db', Function.update w.threads i ⟨.ret a, txn', false⟩⟩ ∧
      ∀ j, (Function.update w.threads i ⟨.ret a, txn', false⟩ j).locked = false := by
  have halone : site.Alone w i (.spawn p) := ⟨hi, hready, fun j _ _ => hunlocked j⟩
  obtain ⟨events', hrun'⟩ := halone.run hrun hbalanced hres
  refine ⟨events', hrun', fun j => ?_⟩
  by_cases hj : j = i
  · subst hj
    simp only [Function.update_self]
  · simpa only [Function.update_of_ne hj] using hunlocked j

/-! ### Programs that need no lock -/

/-- What holds after any steps of programs whose guarantees do not depend on a lock. -/
structure Kept [DecidableEq D] (c : Terms D) (G : ι → Guarantee D)
    (Q : ι → α → List (D × D) → D → Prop) (store : Store D W E) (events : List (Event ι D))
    (w : World ι D W E S R α) : Prop where
  inv : c.Inv w.db
  keeps : ∀ i, c.KeptAt store (G i) (Q i) (w.threads i) (changes i events) w.db

section Kept

variable [DecidableEq D] {c : Terms D} {G : ι → Guarantee D} {Q : ι → α → List (D × D) → D → Prop}

theorem Kept.update (hfree : ∀ db db', c.Any db db' → c.Free db db') (hG : ∀ i, c.Covers (G i))
    {i : ι} {t : Thread D W E S R α} {db : D} (h : Kept c G Q store events w)
    (hstep : db ≠ w.db → G i (w.threads i).locked (changes i events) w.db db)
    (hkeeps : c.KeptAt store (G i) (Q i) t (note (changes i events) w.db db) db) :
    Kept c G Q store (events ++ [⟨i, w.db, db⟩]) ⟨db, Function.update w.threads i t⟩ := by
  obtain ⟨hinv, hany, -⟩ := (hG i).step h.inv hstep
  refine ⟨hinv, fun j => ?_⟩
  by_cases hj : i = j
  · subst hj
    rw [changes_snoc_self]
    simpa using hkeeps
  · rw [changes_snoc_of_ne hj]
    simp only [Function.update_of_ne (Ne.symm hj)]
    exact (h.keeps j).of_known ⟨hany, fun _ => hfree _ _ hany⟩

/-- Programs proved alone keep their guarantees in any processes, where these do not depend on a
lock. -/
theorem run_kept (hfree : ∀ db db', c.Any db db' → c.Free db db') (hG : ∀ i, c.Covers (G i))
    {prog : ι → Prog D W E S R α} (hstart : ∀ i, start.threads i = .spawn (prog i))
    (hinv : c.Inv start.db)
    (hkeeps : ∀ i, c.Keeps store (G i) (Terms.Ends (Q i)) (prog i) false .closed [] fun _ => True)
    (hrun : site.Run store start events w) : Kept c G Q store events w := by
  induction hrun with
  | refl =>
    refine ⟨hinv, fun i => ?_⟩
    rw [hstart i]
    exact ⟨_, trivial, Terms.stable_true _, hkeeps i⟩
  | @tail _ w w' i _ hstep ih =>
    cases hstep with
    | exec a _ hnext _ =>
      obtain ⟨hchange, hkeeps⟩ := (ih.keeps i).next ih.inv hnext
      exact ih.update hfree hG hchange hkeeps
    | drop _ =>
      refine ih.update hfree hG (fun hne => absurd rfl hne) ?_
      rw [note_self]
      exact Terms.keptAt_dropped _ _

theorem Kept.post (h : Kept c G Q store events w) {i : ι} {a : α}
    (hret : (w.threads i).prog = .ret a) : Q i a (changes i events) w.db := by
  obtain ⟨P, hP, -, hkeeps⟩ := h.keeps i
  rw [hret] at hkeeps
  exact hkeeps w.db hP

end Kept

end Site

section Writes

variable {c : Terms D} {store : Store D W E} (happly : ∀ w db, c.Any db (store.apply w db))
include happly

theorem Terms.any_applyAll (writes : List W) (db : D) : c.Any db (store.applyAll writes db) := by
  induction writes generalizing db with
  | nil => exact c.any_refl db
  | cons w writes ih => exact c.any_trans (happly w db) (ih _)

theorem Terms.any_onWrite (a : Answer E S R) (f : S → D → Except E W) (db : D) (txn : Txn W) :
    c.Any db (store.onWrite a f db txn).2.1 := by
  cases txn with
  | aborted => exact c.any_refl db
  | closed =>
    cases hfault : a.fault with
    | some e =>
      simp only [Store.onWrite, hfault]
      exact c.any_refl db
    | none =>
      simp only [Store.onWrite, hfault]
      cases f a.serial db with
      | error e => exact c.any_refl db
      | ok w => exact happly w db
  | opened writes =>
    cases hfault : a.fault with
    | some e =>
      simp only [Store.onWrite, hfault]
      exact c.any_refl db
    | none =>
      simp only [Store.onWrite, hfault]
      cases f a.serial (store.applyAll writes db) with
      | error e => exact c.any_refl db
      | ok w => exact c.any_refl db

theorem Terms.any_onCommit (a : Answer E S R) (db : D) (txn : Txn W) :
    c.Any db (store.onCommit a db txn).2.1 := by
  simp only [Store.onCommit]
  cases a.fault with
  | some e => exact c.any_refl db
  | none =>
    cases txn with
    | opened writes => exact any_applyAll happly writes db
    | closed => exact c.any_refl db
    | aborted => exact c.any_refl db

/-- What every write does, every program does. -/
theorem Terms.keeps_any [DecidableEq D] (p : Prog D W E S R α) (locked : Bool) (txn : Txn W)
    (history : List (D × D)) (P : D → Prop) :
    c.Keeps store (fun _ _ => c.Any) (fun _ _ _ _ _ => True) p locked txn history P := by
  induction p generalizing locked txn history P with
  | ret | panic => trivial
  | lock k ih => exact ih true txn history P
  | unlock k ih => exact ih false .closed history _
  | start k ih => exact fun a => ih _ _ _ _ _
  | read k ih => exact fun a db _ _ => ih _ _ _ _ _
  | write f k ih =>
    exact fun a db _ _ => ⟨fun _ => any_onWrite happly a f db txn, ih _ _ _ _ _⟩
  | commit k ih =>
    exact fun a db _ _ => ⟨fun _ => any_onCommit happly a db txn, ih _ _ _ _ _⟩
  | draw k ih => exact fun r => ih _ _ _ _ _

end Writes

/-! ## One lock -/

section Single

variable [DecidableEq ι] {store : Store D W E} {start w : World ι D W E S R α}
  {events : List (Event ι D)}

/-- All threads in one process, always ready. -/
def Site.whole : Site ι Unit D W E S R α := ⟨fun _ => (), fun _ _ => True⟩

theorem Run.whole (hrun : Run store start events w) : Site.whole.Run store start events w := by
  induction hrun with
  | refl => exact .refl
  | tail _ hstep ih =>
    refine ih.tail ?_
    cases hstep with
    | exec a hnext hfree => exact .exec a trivial hnext fun hwaits j _ => hfree hwaits j
    | drop hlive => exact .drop hlive

theorem Run.call {i : ι} {p : Prog D W E S R α} {txn' : Txn W} {env : Nat → Answer E S R}
    {n : Nat} {db' : D} {a : α} (hrun : Run store start events w)
    (hunlocked : ∀ j, (w.threads j).locked = false) (hi : w.threads i = .spawn p)
    (hbalanced : p.Balanced false) (hres : store.run env p n w.db .closed = (some a, db', txn')) :
    ∃ events', Run store start events' ⟨db', Function.update w.threads i ⟨.ret a, txn', false⟩⟩ ∧
      ∀ j, (Function.update w.threads i ⟨.ret a, txn', false⟩ j).locked = false := by
  obtain ⟨events', hrun', hunlocked'⟩ :=
    hrun.whole.call hunlocked hi (fun _ => trivial) hbalanced hres
  exact ⟨events', (hrun'.single () fun i hi => absurd rfl hi).1, hunlocked'⟩

/-- One program after the other is one of the ways they run side by side. -/
theorem Run.sequence (store : Store D W E) (P : Nat → D → Prop)
    {start : World Nat D W E S R α} {prog : Nat → Prog D W E S R α}
    (hstart : ∀ i, start.threads i = .spawn (prog i)) (hbalanced : ∀ i, (prog i).Balanced false)
    (hzero : P 0 start.db) (n : Nat)
    (hnext : ∀ i db, i < n → P i db → ∃ env m a db' txn',
      store.run env (prog i) m db .closed = (some a, db', txn') ∧ P (i + 1) db') :
    ∃ events w, Run store start events w ∧ P n w.db ∧ (∀ j, (w.threads j).locked = false) ∧
      ∀ i, n ≤ i → w.threads i = .spawn (prog i) := by
  induction n with
  | zero =>
    refine ⟨[], start, .refl, hzero, fun j => ?_, fun i _ => hstart i⟩
    rw [hstart j]
    rfl
  | succ n ih =>
    obtain ⟨events, w, hrun, hP, hunlocked, hrest⟩ := ih fun i db hi => hnext i db (by omega)
    obtain ⟨env, m, a, db', txn', hres, hP'⟩ := hnext n w.db (Nat.lt_succ_self n) hP
    obtain ⟨events', hrun', hunlocked'⟩ := hrun.call hunlocked (hrest n le_rfl) (hbalanced n) hres
    refine ⟨events', _, hrun', hP', hunlocked', fun i hi => ?_⟩
    simpa [show i ≠ n by omega] using hrest i (by omega)

end Single

end Transactions
