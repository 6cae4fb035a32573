import Orochimaru.Lib.Loops

/-!
# Vectors behind functions

Indexing that may be out of bounds, and vectors given by a function of the index. A loop
over a vector is a loop over the function behind it.
-/

namespace Vectors

variable {ε α σ τ : Type}

/-- `xs[i]` -/
def get (e : ε) (xs : List α) (i : Nat) : Except ε α :=
  match xs[i]? with
  | some a => .ok a
  | none => .error e

/-- `xs[i] = a` -/
def set (e : ε) (xs : List α) (i : Nat) (a : α) : Except ε (List α) :=
  if i < xs.length then .ok (xs.set i a) else .error e

/-- The vector of the values of `f` below `n`. -/
def tabulate (n : Nat) (f : Nat → α) : List α := (List.range n).map f

variable {e : ε} {n i : Nat} {f g : Nat → α}

@[simp] theorem length_tabulate : (tabulate n f).length = n := by
  rw [tabulate, List.length_map, List.length_range]

theorem getElem?_tabulate (hi : i < n) : (tabulate n f)[i]? = some (f i) := by
  simp [tabulate, hi]

theorem get_tabulate (hi : i < n) : get e (tabulate n f) i = .ok (f i) := by
  rw [get, getElem?_tabulate hi]

theorem tabulate_congr (h : ∀ i < n, f i = g i) : tabulate n f = tabulate n g :=
  List.map_congr_left fun i hi => h i (List.mem_range.mp hi)

theorem set_tabulate (hi : i < n) (a : α) :
    set e (tabulate n f) i a = .ok (tabulate n (Function.update f i a)) := by
  rw [set, length_tabulate, if_pos hi]
  refine congrArg _ (List.ext_getElem (by simp) fun j hj hj' => ?_)
  rw [List.getElem_set]
  by_cases hij : i = j
  · subst hij
    simp [tabulate]
  · rw [if_neg hij]
    simp [tabulate, Function.update_of_ne (Ne.symm hij)]

theorem replicate_eq_tabulate (a : α) : List.replicate n a = tabulate n fun _ => a := by
  rw [tabulate, List.map_const', List.length_range]

/-- Every vector has a function behind it. -/
theorem eq_tabulate (xs : List α) (d : α) : xs = tabulate xs.length fun i => xs.getD i d := by
  refine List.ext_getElem (by simp) fun i hi hi' => ?_
  simp [tabulate, hi]

theorem map_tabulate {β : Type} (h : α → β) :
    (tabulate n f).map h = tabulate n fun i => h (f i) := List.map_map

theorem tabulate_add (m : Nat) :
    tabulate (m + n) f = tabulate m f ++ tabulate n fun i => f (m + i) := by
  rw [tabulate, tabulate, tabulate, List.range_add, List.map_append, List.map_map]
  rfl

theorem zipIdx_tabulate : (tabulate n f).zipIdx = (List.range n).map fun i => (f i, i) := by
  refine List.ext_getElem (by simp) fun i hi hi' => ?_
  simp [tabulate]

/-- A vector collected by position. -/
theorem mapM_range_eq {g : Nat → α} {h : Nat → Except ε α} (hg : ∀ i < n, h i = .ok (g i)) :
    (List.range n).mapM h = .ok (tabulate n g) := by
  induction n with
  | zero => rfl
  | succ n ih =>
    rw [List.range_succ, List.mapM_append, ih fun i hi => hg i (by omega), Loops.ok_bind,
      List.mapM_cons, hg n (by omega), Loops.ok_bind, tabulate, tabulate, List.range_succ,
      List.map_append]
    rfl

/-! ## Loops over a representation -/

variable {σ' τ' : Type}

theorem bind_sim {rep : σ → τ} {rep' : σ' → τ'} {x : Except ε σ} {f : σ → Except ε σ'}
    {g : τ → Except ε τ'} (h : ∀ s, g (rep s) = (f s).map rep') :
    x.map rep >>= g = (x >>= f).map rep' := by
  cases x with
  | error e => rfl
  | ok s => exact h s

/-- A loop whose steps work on representations. -/
theorem foldlM_sim (rep : σ → τ) {f : σ → α → Except ε σ} {g : τ → α → Except ε τ} {l : List α}
    (h : ∀ s, ∀ a ∈ l, g (rep s) a = (f s a).map rep) (s : σ) :
    l.foldlM g (rep s) = (l.foldlM f s).map rep := by
  induction l generalizing s with
  | nil => rfl
  | cons a l ih =>
    rw [List.foldlM_cons, List.foldlM_cons, h s a List.mem_cons_self]
    cases f s a with
    | error e => rfl
    | ok s' => exact ih (fun s b hb => h s b (List.mem_cons_of_mem a hb)) s'

theorem foldlM_sim_pure (rep : σ → τ) {f : σ → α → σ} {g : τ → α → Except ε τ} {l : List α}
    (h : ∀ s, ∀ a ∈ l, g (rep s) a = .ok (rep (f s a))) (s : σ) :
    l.foldlM g (rep s) = .ok (rep (l.foldl f s)) := by
  induction l generalizing s with
  | nil => rfl
  | cons a l ih =>
    rw [List.foldlM_cons, h s a List.mem_cons_self, Loops.ok_bind, List.foldl_cons]
    exact ih (fun s b hb => h s b (List.mem_cons_of_mem a hb)) (f s a)

end Vectors
