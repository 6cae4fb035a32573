import Mathlib
import Orochimaru.Lib.Literals

/-!
# Loops that may fail

Invariant rules for `foldlM` in an `Except` monad: one that shows a counted loop
ends without an error, one that follows the state of a loop that has ended.
-/

namespace Loops

variable {ε σ α β : Type}

@[simp] theorem ok_bind (a : α) (f : α → Except ε β) : (Except.ok a >>= f) = f a := rfl

@[simp] theorem error_bind (e : ε) (f : α → Except ε β) :
    (Except.error e >>= f) = Except.error e := rfl

/-- A successful sequence splits at its first step. -/
theorem bind_ok_iff {x : Except ε α} {f : α → Except ε β} {b : β} :
    x >>= f = .ok b ↔ ∃ a, x = .ok a ∧ f a = .ok b := by
  cases x with
  | error e => simp
  | ok a => simp

@[simp] theorem mapError_ok_iff {ε' : Type} {x : Except ε α} {f : ε → ε'} {a : α} :
    x.mapError f = .ok a ↔ x = .ok a := by
  cases x with
  | error e => simp [Except.mapError]
  | ok b => simp [Except.mapError]

/-- Counted loop: an invariant that every step re-establishes without failing
holds at the end, and the loop does not fail. -/
theorem foldlM_range_ok {f : σ → Nat → Except ε σ} {n : Nat} {s : σ} (Inv : Nat → σ → Prop)
    (hinit : Inv 0 s)
    (hstep : ∀ i < n, ∀ t, Inv i t → ∃ t', f t i = .ok t' ∧ Inv (i + 1) t') :
    ∃ t, (List.range n).foldlM f s = .ok t ∧ Inv n t := by
  induction n with
  | zero => exact ⟨s, rfl, hinit⟩
  | succ n ih =>
    obtain ⟨t, ht, hinv⟩ := ih fun i hi => hstep i (by omega)
    obtain ⟨t', ht', hinv'⟩ := hstep n (by omega) t hinv
    refine ⟨t', ?_, hinv'⟩
    rw [List.range_succ, List.foldlM_append, ht, ok_bind]
    change (f t n >>= fun u => Except.ok u) = _
    rw [ht', ok_bind]

/-- A loop that collects results: when every step succeeds with a result in `P`. -/
theorem mapM_ok {P : α → β → Prop} {f : α → Except ε β} {l : List α}
    (h : ∀ a ∈ l, ∃ b, f a = .ok b ∧ P a b) : ∃ l', l.mapM f = .ok l' ∧ List.Forall₂ P l l' := by
  induction l with
  | nil => exact ⟨[], rfl, .nil⟩
  | cons a l ih =>
    obtain ⟨b, hb, hP⟩ := h a (by simp)
    obtain ⟨l', hl', hall⟩ := ih fun x hx => h x (by simp [hx])
    refine ⟨b :: l', ?_, .cons hP hall⟩
    rw [List.mapM_cons, hb, ok_bind, hl', ok_bind]
    rfl

theorem forall₂_of_mapM {f : α → Except ε β} {l : List α} {l' : List β} (h : l.mapM f = .ok l') :
    List.Forall₂ (fun a b => f a = .ok b) l l' := by
  induction l generalizing l' with
  | nil =>
    rw [List.mapM_nil] at h
    cases h
    exact .nil
  | cons a l ih =>
    rw [List.mapM_cons] at h
    obtain ⟨b, hb, h⟩ := bind_ok_iff.mp h
    obtain ⟨rest, hrest, h⟩ := bind_ok_iff.mp h
    cases h
    exact .cons hb (ih hrest)

/-- The results of a counted loop that has ended, by position. -/
theorem getElem?_of_mapM_range {f : Nat → Except ε β} {n : Nat} {l : List β}
    (h : (List.range n).mapM f = .ok l) :
    l.length = n ∧ ∀ i < n, ∃ b, l[i]? = some b ∧ f i = .ok b := by
  obtain ⟨hlen, hget⟩ := List.forall₂_iff_get.mp (forall₂_of_mapM h)
  rw [List.length_range] at hlen
  refine ⟨hlen.symm, fun i hi => ?_⟩
  have hrun := hget i (by simpa using hi) (hlen ▸ hi)
  exact ⟨l.get ⟨i, hlen ▸ hi⟩, List.getElem?_eq_getElem _, by simpa using hrun⟩

/-- The counted case, by position. -/
theorem mapM_range_ok {P : Nat → β → Prop} {f : Nat → Except ε β} {n : Nat}
    (h : ∀ i < n, ∃ b, f i = .ok b ∧ P i b) :
    ∃ l, (List.range n).mapM f = .ok l ∧ l.length = n ∧
      ∀ i < n, ∃ b, l[i]? = some b ∧ P i b := by
  obtain ⟨l, hl, hall⟩ := mapM_ok (l := List.range n) (P := P) fun i hi => h i (List.mem_range.mp hi)
  obtain ⟨hlen, hget⟩ := List.forall₂_iff_get.mp hall
  rw [List.length_range] at hlen
  refine ⟨l, hl, hlen.symm, fun i hi => ?_⟩
  have := hget i (by simpa using hi) (hlen ▸ hi)
  exact ⟨l.get ⟨i, hlen ▸ hi⟩, List.getElem?_eq_getElem _, by simpa using this⟩

/-! ## Postconditions -/

/-- A computation ends with a value in `P` or fails with an error in `bad`. -/
def Ends (bad : ε → Prop) (P : α → Prop) : Except ε α → Prop
  | .ok a => P a
  | .error e => bad e

variable {bad : ε → Prop} {P Q : α → Prop}

@[simp] theorem ends_ok {a : α} : Ends bad P (.ok a) ↔ P a := Iff.rfl

@[simp] theorem ends_error {e : ε} : Ends bad P (.error e : Except ε α) ↔ bad e := Iff.rfl

theorem Ends.mono {x : Except ε α} (h : Ends bad P x) (hPQ : ∀ a, P a → Q a) : Ends bad Q x := by
  cases x with
  | error e => exact h
  | ok a => exact hPQ a h

theorem Ends.weaken {bad' : ε → Prop} {x : Except ε α} (h : Ends bad P x)
    (hbad : ∀ e, bad e → bad' e) : Ends bad' P x := by
  cases x with
  | error e => exact hbad e h
  | ok a => exact h

/-- What is known of every value adds to a postcondition. -/
theorem Ends.and_ok {x : Except ε α} (h : Ends bad P x) (hQ : ∀ a, x = .ok a → Q a) :
    Ends bad (fun a => P a ∧ Q a) x := by
  cases x with
  | error e => exact h
  | ok a => exact ⟨h, hQ a rfl⟩

theorem Ends.bind {R : β → Prop} {x : Except ε α} {f : α → Except ε β} (h : Ends bad P x)
    (hf : ∀ a, P a → Ends bad R (f a)) : Ends bad R (x >>= f) := by
  cases x with
  | error e => exact h
  | ok a => exact hf a h

/-- The invariant rule: what every step keeps, or fails badly, so does the loop. -/
theorem Ends.foldlM_mem {f : σ → α → Except ε σ} (Inv : σ → Prop) {l : List α}
    (hstep : ∀ s, ∀ a ∈ l, Inv s → Ends bad Inv (f s a)) {s : σ} (hs : Inv s) :
    Ends bad Inv (l.foldlM f s) := by
  induction l generalizing s with
  | nil => exact hs
  | cons a l ih =>
    rw [List.foldlM_cons]
    exact Ends.bind (hstep s a List.mem_cons_self hs) fun s' hs' =>
      ih (fun s b hb => hstep s b (List.mem_cons_of_mem a hb)) hs'

theorem Ends.foldlM {f : σ → α → Except ε σ} (Inv : σ → Prop)
    (hstep : ∀ s a, Inv s → Ends bad Inv (f s a)) (l : List α) {s : σ} (hs : Inv s) :
    Ends bad Inv (l.foldlM f s) :=
  Ends.foldlM_mem Inv (fun s a _ => hstep s a) hs

end Loops
