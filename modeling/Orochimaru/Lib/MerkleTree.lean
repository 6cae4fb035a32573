import Mathlib
import Orochimaru.Lib.Literals

/-!
# Merkle trees over a two-input hash

A path leads from a leaf to a root by hashing the digest with one sibling for each level.
The root of a perfect tree has a path from every leaf, and two paths along the same turns
that meet in one root agree or show a collision.
-/

namespace Merkle

variable {α : Type*} (hash : α → α → α)

/-! ## Paths -/

/-- The pair a level hashes; the sibling is the left input where the turn is set. -/
def inputs (digest : α) (step : Bool × α) : α × α :=
  if step.1 then (step.2, digest) else (digest, step.2)

/-- The digest one level up. -/
def up (digest : α) (step : Bool × α) : α :=
  hash (inputs digest step).1 (inputs digest step).2

def climb (leaf : α) (path : List (Bool × α)) : α := path.foldl (up hash) leaf

/-- The pairs hashed on the way, from the leaf up. -/
def levels : α → List (Bool × α) → List (α × α)
  | _, [] => []
  | digest, step :: path => inputs digest step :: levels (up hash digest step) path

@[simp] theorem climb_nil (leaf : α) : climb hash leaf [] = leaf := rfl

@[simp] theorem climb_cons (leaf : α) (step : Bool × α) (path : List (Bool × α)) :
    climb hash leaf (step :: path) = climb hash (up hash leaf step) path := rfl

theorem climb_append (leaf : α) (path more : List (Bool × α)) :
    climb hash leaf (path ++ more) = climb hash (climb hash leaf path) more :=
  List.foldl_append

theorem levels_append (leaf : α) (path more : List (Bool × α)) :
    levels hash leaf (path ++ more) =
      levels hash leaf path ++ levels hash (climb hash leaf path) more := by
  induction path generalizing leaf with
  | nil => rfl
  | cons step path ih => simp [levels, ih]

@[simp] theorem levels_length (leaf : α) (path : List (Bool × α)) :
    (levels hash leaf path).length = path.length := by
  induction path generalizing leaf with
  | nil => rfl
  | cons step path ih => simp [levels, ih]

/-! ## Binding -/

/-- Two runs hash, at the same place, two different pairs to the same digest. -/
def Collision (calls calls' : List (α × α)) : Prop :=
  ∃ p ∈ calls.zip calls', p.1 ≠ p.2 ∧ hash p.1.1 p.1.2 = hash p.2.1 p.2.2

variable {hash}

theorem Collision.cons {calls calls' : List (α × α)} (h : Collision hash calls calls')
    (p p' : α × α) : Collision hash (p :: calls) (p' :: calls') := by
  obtain ⟨q, hq, hne, heq⟩ := h
  exact ⟨q, List.mem_cons_of_mem _ hq, hne, heq⟩

theorem inputs_inj {digest digest' : α} {step step' : Bool × α} (hturn : step.1 = step'.1)
    (h : inputs digest step = inputs digest' step') : digest = digest' ∧ step = step' := by
  obtain ⟨turn, sibling⟩ := step
  obtain ⟨turn', sibling'⟩ := step'
  obtain rfl : turn = turn' := hturn
  cases turn with
  | false =>
    obtain ⟨rfl, rfl⟩ := Prod.mk.inj h
    exact ⟨rfl, rfl⟩
  | true =>
    obtain ⟨rfl, rfl⟩ := Prod.mk.inj h
    exact ⟨rfl, rfl⟩

/-- A root binds the leaf and the siblings of a path, up to collisions. -/
theorem climb_binding {leaf leaf' : α} {path path' : List (Bool × α)}
    (hturns : path.map Prod.fst = path'.map Prod.fst)
    (hroot : climb hash leaf path = climb hash leaf' path') :
    (leaf = leaf' ∧ path = path') ∨
      Collision hash (levels hash leaf path) (levels hash leaf' path') := by
  induction path generalizing leaf leaf' path' with
  | nil =>
    obtain rfl : path' = [] := List.map_eq_nil_iff.mp hturns.symm
    exact .inl ⟨hroot, rfl⟩
  | cons step path ih =>
    cases path' with
    | nil => cases hturns
    | cons step' path' =>
      obtain ⟨hturn, hturns⟩ := List.cons.inj hturns
      rcases ih hturns hroot with ⟨hup, rfl⟩ | hcollision
      · by_cases hin : inputs leaf step = inputs leaf' step'
        · obtain ⟨rfl, rfl⟩ := inputs_inj hturn hin
          exact .inl ⟨rfl, rfl⟩
        · exact .inr ⟨(inputs leaf step, inputs leaf' step'), List.mem_cons_self, hin, hup⟩
      · exact .inr (hcollision.cons _ _)

/-! ## Perfect trees -/

variable (hash)

/-- The root of the tree of height `k` over `2 ^ k` cells. -/
def perfectRoot : Nat → (Nat → α) → α
  | 0, cell => cell 0
  | k + 1, cell => hash (perfectRoot k cell) (perfectRoot k fun i => cell (2 ^ k + i))

/-- The root of the two halves. -/
theorem perfectRoot_succ {k : Nat} {cell l r : Nat → α} (hl : ∀ i < 2 ^ k, cell i = l i)
    (hr : ∀ i < 2 ^ k, cell (2 ^ k + i) = r i) :
    perfectRoot hash (k + 1) cell = hash (perfectRoot hash k l) (perfectRoot hash k r) := by
  have hcongr : ∀ k (c d : Nat → α), (∀ i < 2 ^ k, c i = d i) →
      perfectRoot hash k c = perfectRoot hash k d := by
    intro k
    induction k with
    | zero => exact fun c d h => h 0 (by omega)
    | succ k ih =>
      intro c d h
      rw [perfectRoot, perfectRoot, ih c d fun i hi => h i (by omega),
        ih _ _ fun i hi => h (2 ^ k + i) (by omega)]
  rw [perfectRoot, hcongr k cell l hl, hcongr k _ r hr]

/-- Every cell has a path with one sibling for each level. -/
theorem exists_path (k : Nat) (cell : Nat → α) {i : Nat} (hi : i < 2 ^ k) :
    ∃ path, path.length = k ∧ climb hash (cell i) path = perfectRoot hash k cell := by
  induction k generalizing cell i with
  | zero =>
    obtain rfl : i = 0 := by omega
    exact ⟨[], rfl, rfl⟩
  | succ k ih =>
    by_cases hlow : i < 2 ^ k
    · obtain ⟨path, hlen, hclimb⟩ := ih cell hlow
      refine ⟨path ++ [(false, perfectRoot hash k fun i => cell (2 ^ k + i))], by simp [hlen], ?_⟩
      rw [climb_append, hclimb]
      rfl
    · obtain ⟨j, rfl⟩ := Nat.exists_eq_add_of_le (Nat.le_of_not_lt hlow)
      obtain ⟨path, hlen, hclimb⟩ := ih (fun i => cell (2 ^ k + i)) (i := j) (by omega)
      refine ⟨path ++ [(true, perfectRoot hash k cell)], by simp [hlen], ?_⟩
      rw [climb_append, hclimb]
      rfl

/-- The hash with its inputs in one of the two orders. -/
def orient (mirrored : Bool) : α → α → α := if mirrored then fun a b => hash b a else hash

/-- A path in a mirrored tree turns the other way at every level. -/
theorem climb_mirrored (leaf : α) (path : List (Bool × α)) :
    climb (orient hash true) leaf path =
      climb hash leaf (path.map fun step => (!step.1, step.2)) := by
  induction path generalizing leaf with
  | nil => rfl
  | cons step path ih =>
    obtain ⟨turn, sibling⟩ := step
    cases turn with
    | false => exact ih _
    | true => exact ih _

theorem exists_path_oriented (mirrored : Bool) (k : Nat) (cell : Nat → α) {i : Nat}
    (hi : i < 2 ^ k) : ∃ path, path.length = k ∧
      climb hash (cell i) path = perfectRoot (orient hash mirrored) k cell := by
  obtain ⟨path, hlen, hclimb⟩ := exists_path (orient hash mirrored) k cell hi
  cases mirrored with
  | false => exact ⟨path, hlen, hclimb⟩
  | true =>
    rw [climb_mirrored] at hclimb
    exact ⟨_, by rw [List.length_map, hlen], hclimb⟩

end Merkle
