import Mathlib
import Orochimaru.Lib.Literals

/-!
# Programs over a transactional store

A program reads and writes a store, outside a transaction or inside one, and may hold the one
lock of its process. The writes of a transaction become visible together when it commits; a
statement that fails aborts the transaction, and the commit of an aborted transaction answers as
if it had succeeded and changes nothing. Every answer of the outside, failures included, comes
from an environment.
-/

namespace Transactions

/-- How writes change the store, and what a statement of an aborted transaction answers. -/
structure Store (D W E : Type) where
  apply : W → D → D
  aborted : E

/-- `S` is what the server adds to a write, `R` what a program draws at random. -/
inductive Prog (D W E S R : Type) (α : Type)
  | ret (a : α)
  | panic
  | lock (k : Prog D W E S R α)
  /-- The end of the scope of a lock and of a transaction: both are dropped. -/
  | unlock (k : Prog D W E S R α)
  | start (k : Except E Unit → Prog D W E S R α)
  | read (k : Except E D → Prog D W E S R α)
  /-- The write may depend on what the server adds, and answers with it. -/
  | write (f : S → D → Except E W) (k : Except E S → Prog D W E S R α)
  | commit (k : Except E Unit → Prog D W E S R α)
  | draw (k : R → Prog D W E S R α)

variable {D W E S R α β : Type}

namespace Prog

def bind : Prog D W E S R α → (α → Prog D W E S R β) → Prog D W E S R β
  | ret a, f => f a
  | panic, _ => panic
  | lock k, f => lock (k.bind f)
  | unlock k, f => unlock (k.bind f)
  | start k, f => start fun r => (k r).bind f
  | read k, f => read fun r => (k r).bind f
  | write g k, f => write g fun r => (k r).bind f
  | commit k, f => commit fun r => (k r).bind f
  | draw k, f => draw fun r => (k r).bind f

instance : Monad (Prog D W E S R) where
  pure := ret
  bind := bind

@[simp] theorem pure_eq (a : α) : (pure a : Prog D W E S R α) = ret a := rfl

@[simp] theorem ret_bind (a : α) (f : α → Prog D W E S R β) : (ret a >>= f) = f a := rfl

@[simp] theorem panic_bind (f : α → Prog D W E S R β) : ((panic : Prog D W E S R α) >>= f) = panic :=
  rfl

/-- One statement that asks the store a question. -/
def query (q : D → α) : Prog D W E S R (Except E α) := read fun r => ret (r.map q)

/-- One statement that writes. -/
def execute (f : S → D → Except E W) : Prog D W E S R (Except E S) := write f ret

/-- The value of an `Option`, or a panic. -/
def expect : Option α → Prog D W E S R α
  | some a => ret a
  | none => panic

@[simp] theorem query_bind (q : D → α) (f : Except E α → Prog D W E S R β) :
    (query q >>= f) = read fun r => f (r.map q) := rfl

@[simp] theorem execute_bind (g : S → D → Except E W) (f : Except E S → Prog D W E S R β) :
    (execute g >>= f) = write g f := rfl

end Prog

/-! ## Statements -/

inductive Txn (W : Type)
  | closed
  /-- Writes that are not committed. -/
  | opened (writes : List W)
  | aborted

/-- An answer of the outside to one statement. -/
structure Answer (E S R : Type) where
  fault : Option E
  serial : S
  draw : R

namespace Store

variable (store : Store D W E)

def applyAll (writes : List W) (db : D) : D := writes.foldl (fun db w => store.apply w db) db

@[simp] theorem applyAll_nil (db : D) : store.applyAll [] db = db := rfl

@[simp] theorem applyAll_cons (w : W) (writes : List W) (db : D) :
    store.applyAll (w :: writes) db = store.applyAll writes (store.apply w db) := rfl

/-- What a statement of a transaction sees: the committed store and its own writes. -/
def view (db : D) : Txn W → D
  | .opened writes => store.applyAll writes db
  | _ => db

def onStart (a : Answer E S R) (txn : Txn W) : Except E Unit × Txn W :=
  match a.fault with
  | some e => (.error e, txn)
  | none => (.ok (), .opened [])

def onRead (a : Answer E S R) (db : D) (txn : Txn W) : Except E D × Txn W :=
  match txn, a.fault with
  | .aborted, _ => (.error store.aborted, .aborted)
  | .closed, some e => (.error e, .closed)
  | .opened _, some e => (.error e, .aborted)
  | txn, none => (.ok (store.view db txn), txn)

/-- A write that is answered an error is taken as not made. -/
def onWrite (a : Answer E S R) (f : S → D → Except E W) (db : D) (txn : Txn W) :
    Except E S × D × Txn W :=
  match txn, a.fault with
  | .aborted, _ => (.error store.aborted, db, .aborted)
  | .closed, some e => (.error e, db, .closed)
  | .opened _, some e => (.error e, db, .aborted)
  | .closed, none =>
    match f a.serial db with
    | .error e => (.error e, db, .closed)
    | .ok w => (.ok a.serial, store.apply w db, .closed)
  | .opened writes, none =>
    match f a.serial (store.applyAll writes db) with
    | .error e => (.error e, db, .aborted)
    | .ok w => (.ok a.serial, db, .opened (writes ++ [w]))

/-- A commit that is answered an error is taken as not made. -/
def onCommit (a : Answer E S R) (db : D) (txn : Txn W) : Except E Unit × D × Txn W :=
  match txn, a.fault with
  | _, some e => (.error e, db, .closed)
  | .opened writes, none => (.ok (), store.applyAll writes db, .closed)
  | _, none => (.ok (), db, .closed)

/-! ## One program alone -/

/-- The result of a program, none after a panic, the committed store it leaves and what is left
of its transaction. -/
def run (env : Nat → Answer E S R) :
    Prog D W E S R α → Nat → D → Txn W → Option α × D × Txn W
  | .ret a, _, db, txn => (some a, db, txn)
  | .panic, _, db, txn => (none, db, txn)
  | .lock k, n, db, txn => run env k n db txn
  | .unlock k, n, db, _ => run env k n db .closed
  | .start k, n, db, txn =>
    let r := onStart (env n) txn
    run env (k r.1) (n + 1) db r.2
  | .read k, n, db, txn =>
    let r := store.onRead (env n) db txn
    run env (k r.1) (n + 1) db r.2
  | .write f k, n, db, txn =>
    let r := store.onWrite (env n) f db txn
    run env (k r.1) (n + 1) r.2.1 r.2.2
  | .commit k, n, db, txn =>
    let r := store.onCommit (env n) db txn
    run env (k r.1) (n + 1) r.2.1 r.2.2
  | .draw k, n, db, txn => run env (k (env n).draw) (n + 1) db txn

variable {store}

end Store

end Transactions
