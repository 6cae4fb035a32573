import Orochimaru.Lib.Loops
import Orochimaru.Zkmemory.Base

/-!
# Commitment to the memory of a folding step

`merkle_tree_commit` of the Nova and SuperNova circuits, over any two-input hash. The
cells are popped from the end of the vector and every hash is pushed back there, so the
next pair starts with it.
-/

namespace Zkmemory.Folding

open Loops

variable {F : Type}

/-- `Vec::pop`, with the `expect` of the callers. -/
def pop (root : List F) : Except Panic (F × List F) :=
  match root.getLast? with
  | none => .error .expectNone
  | some last => .ok (last, root.dropLast)

/-- The inner loop, while `root_size > 1`. -/
def hashPairs (hash : F → F → F) : Nat → List F → Except Panic (List F)
  | rootSize + 2, root => do
    let (left, root) ← pop root
    let (right, root) ← pop root
    hashPairs hash rootSize (root ++ [hash left right])
  | _, root => .ok root

/-- The outer loop, while more than one element is left. -/
def hashLevels (hash : F → F → F) : Nat → List F → Except Panic (List F)
  | 0, _ => .error .fuelExhausted
  | fuel + 1, root =>
    if root.length > 1 then do
      let root ← hashPairs hash root.length root
      hashLevels hash fuel root
    else .ok root

def merkleTreeCommit (hash : F → F → F) (memory : List F) : Except Panic F := do
  let root ← hashLevels hash (memory.length + 1) memory
  match root[0]? with
  | some out => .ok out
  | none => .error .indexOutOfBounds

/-! ## The value of the commitment -/

/-- The chain of hashes from the last cell down to the first. -/
def chain (hash : F → F → F) : F → List F → F
  | acc, [] => acc
  | acc, x :: l => chain hash (hash acc x) l

/-- The commitment of a memory with at least one cell. -/
def commitment [Zero F] (hash : F → F → F) (memory : List F) : F :=
  match memory.reverse with
  | [] => 0
  | x :: l => chain hash x l

@[simp] theorem pop_snoc (l : List F) (x : F) : pop (l ++ [x]) = .ok (x, l) := by
  simp [pop]

theorem chain_append (hash : F → F → F) (acc : F) (l m : List F) :
    chain hash acc (l ++ m) = chain hash (chain hash acc l) m := by
  induction l generalizing acc with
  | nil => rfl
  | cons x l ih => exact ih _

/-- One pass replaces the end of the vector by its chain. -/
theorem hashPairs_ok (hash : F → F → F) (n : Nat) (l : List F) (x : F) (h : n ≤ l.length + 1) :
    ∃ k, k ≤ l.length ∧ l.length + 1 - k = n - n / 2 + (l.length + 1 - n) ∧
      hashPairs hash n (l.reverse ++ [x]) =
        .ok ((l.drop k).reverse ++ [chain hash x (l.take k)]) := by
  induction n using Nat.twoStepInduction generalizing l x with
  | zero => exact ⟨0, by omega, by omega, by simp [hashPairs, chain]⟩
  | one => exact ⟨0, by omega, by omega, by simp [hashPairs, chain]⟩
  | more n ih _ =>
    cases l with
    | nil => simp at h
    | cons y l =>
      simp only [List.length_cons] at h
      obtain ⟨k, hk, hlen, hrun⟩ := ih l (hash x y) (by omega)
      refine ⟨k + 1, by simpa using hk, by simp only [List.length_cons]; omega, ?_⟩
      rw [hashPairs, pop_snoc]
      simp only [ok_bind, List.reverse_cons, pop_snoc]
      simpa [chain] using hrun

theorem hashLevels_ok (hash : F → F → F) (fuel : Nat) (l : List F) (x : F)
    (h : l.length < fuel) : hashLevels hash fuel (l.reverse ++ [x]) = .ok [chain hash x l] := by
  induction fuel generalizing l x with
  | zero => omega
  | succ fuel ih =>
    rw [hashLevels]
    by_cases hl : l = []
    · subst hl
      simp [chain]
    · have hpos := List.length_pos_iff.mpr hl
      obtain ⟨k, hk, hlen, hrun⟩ := hashPairs_ok hash (l.length + 1) l x le_rfl
      rw [if_pos (by simpa using hpos), List.length_append, List.length_reverse, List.length_singleton,
        hrun, ok_bind, ih _ _ (by rw [List.length_drop]; omega), ← chain_append,
        List.take_append_drop]

theorem merkleTreeCommit_nil (hash : F → F → F) :
    merkleTreeCommit hash [] = .error .indexOutOfBounds := rfl

/-- The commitment of a memory with at least one cell never fails. -/
theorem merkleTreeCommit_ok [Zero F] (hash : F → F → F) {memory : List F} (h : memory ≠ []) :
    merkleTreeCommit hash memory = .ok (commitment hash memory) := by
  obtain ⟨x, l, hrev⟩ : ∃ x l, memory.reverse = x :: l := by
    cases hm : memory.reverse with
    | nil => exact absurd (List.reverse_eq_nil_iff.mp hm) h
    | cons x l => exact ⟨x, l, rfl⟩
  have hmem : memory = l.reverse ++ [x] := by
    rw [← List.reverse_reverse memory, hrev, List.reverse_cons]
  rw [merkleTreeCommit, hmem, hashLevels_ok hash _ _ _ (by simp), ← hmem]
  simp [commitment, hrev]

theorem merkleTreeCommit_zeros [CommRing F] :
    merkleTreeCommit (fun x y : F => x + 2 * y) [0, 0] = .ok 0 := by
  rw [merkleTreeCommit_ok _ (List.cons_ne_nil _ _)]
  simp [commitment, chain]

/-- The last element of a vector is the commitment to the cells before it. -/
def Committed (hash : F → F → F) (m : Nat) (z : List F) : Prop :=
  ∃ root, z[m]? = some root ∧ merkleTreeCommit hash (z.take m) = .ok root

end Zkmemory.Folding
