import Orochimaru.Lib.MerkleTree
import Orochimaru.Zkmemory.Folding.MerkleCommit

/-!
# What the commitment to a memory commits to

`merkle_tree_commit` of Nova, and of both circuits of SuperNova, climbs from the last cell
with the cells before it as siblings. It is binding, but it is a balanced tree only for one
or two cells.
-/

namespace Zkmemory.Folding

open Loops Merkle

variable {F : Type}

/-! ## The calls of the hash -/

/-- `hashPairs` with the pairs it hashes, in order. -/
def hashPairsCalls (hash : F → F → F) :
    Nat → List F × List (F × F) → Except Panic (List F × List (F × F))
  | rootSize + 2, (root, calls) => do
    let (left, root) ← pop root
    let (right, root) ← pop root
    hashPairsCalls hash rootSize (root ++ [hash left right], calls ++ [(left, right)])
  | _, (root, calls) => .ok (root, calls)

/-- `hashLevels` with the pairs it hashes. -/
def hashLevelsCalls (hash : F → F → F) :
    Nat → List F × List (F × F) → Except Panic (List F × List (F × F))
  | 0, _ => .error .fuelExhausted
  | fuel + 1, (root, calls) =>
    if root.length > 1 then do
      let r ← hashPairsCalls hash root.length (root, calls)
      hashLevelsCalls hash fuel r
    else .ok (root, calls)

/-- The vector the loops leave, and all pairs they hash. -/
def merkleTreeCalls (hash : F → F → F) (memory : List F) :
    Except Panic (List F × List (F × F)) :=
  hashLevelsCalls hash (memory.length + 1) (memory, [])

theorem hashPairs_eq_calls (hash : F → F → F) (n : Nat) (root : List F) (calls : List (F × F)) :
    hashPairs hash n root = (hashPairsCalls hash n (root, calls)).map Prod.fst := by
  induction n using Nat.twoStepInduction generalizing root calls with
  | zero => rfl
  | one => rfl
  | more n ih _ =>
    rw [hashPairs, hashPairsCalls]
    cases pop root with
    | error e => rfl
    | ok r =>
      obtain ⟨left, root⟩ := r
      simp only [ok_bind]
      cases pop root with
      | error e => rfl
      | ok r =>
        obtain ⟨right, root⟩ := r
        exact ih _ _

theorem hashLevels_eq_calls (hash : F → F → F) (fuel : Nat) (root : List F)
    (calls : List (F × F)) :
    hashLevels hash fuel root = (hashLevelsCalls hash fuel (root, calls)).map Prod.fst := by
  induction fuel generalizing root calls with
  | zero => rfl
  | succ fuel ih =>
    rw [hashLevels, hashLevelsCalls]
    by_cases hl : root.length > 1
    · rw [if_pos hl, if_pos hl, hashPairs_eq_calls hash _ root calls]
      cases hashPairsCalls hash root.length (root, calls) with
      | error e => rfl
      | ok r => exact ih r.1 r.2
    · rw [if_neg hl, if_neg hl]
      rfl

/-- Forgetting the calls gives the commitment. -/
theorem merkleTreeCommit_eq_calls (hash : F → F → F) (memory : List F) :
    merkleTreeCommit hash memory = (do
      let (root, _) ← merkleTreeCalls hash memory
      match root[0]? with
      | some out => .ok out
      | none => .error .indexOutOfBounds) := by
  rw [merkleTreeCommit, hashLevels_eq_calls hash _ memory [], merkleTreeCalls]
  cases hashLevelsCalls hash (memory.length + 1) (memory, []) with
  | error e => rfl
  | ok r => rfl

/-! ## The path -/

/-- The last cell with the way up from it: every other cell is a right sibling. -/
def siblings (l : List F) : List (Bool × F) := l.map fun x => (false, x)

theorem turns_siblings (l : List F) :
    (siblings l).map Prod.fst = List.replicate l.length false := by
  simp [siblings, Function.comp_def]

theorem hashPairsCalls_ok (hash : F → F → F) (n : Nat) (l : List F) (x : F)
    (calls : List (F × F)) (h : n ≤ l.length + 1) :
    ∃ k, k ≤ l.length ∧ (2 ≤ n → 0 < k) ∧
      hashPairsCalls hash n (l.reverse ++ [x], calls) =
        .ok ((l.drop k).reverse ++ [climb hash x (siblings (l.take k))],
          calls ++ levels hash x (siblings (l.take k))) := by
  induction n using Nat.twoStepInduction generalizing l x calls with
  | zero => exact ⟨0, by omega, by omega, by simp [hashPairsCalls, siblings, levels]⟩
  | one => exact ⟨0, by omega, by omega, by simp [hashPairsCalls, siblings, levels]⟩
  | more n ih _ =>
    cases l with
    | nil => simp at h
    | cons y l =>
      simp only [List.length_cons] at h
      obtain ⟨k, hk, -, hrun⟩ := ih l (hash x y) (calls ++ [(x, y)]) (by omega)
      refine ⟨k + 1, by simpa using hk, fun _ => Nat.succ_pos k, ?_⟩
      rw [hashPairsCalls, pop_snoc]
      simp only [ok_bind, List.reverse_cons, pop_snoc, hrun]
      simp [siblings, levels, up, inputs]

theorem hashLevelsCalls_ok (hash : F → F → F) (fuel : Nat) (l : List F) (x : F)
    (calls : List (F × F)) (h : l.length < fuel) :
    hashLevelsCalls hash fuel (l.reverse ++ [x], calls) =
      .ok ([climb hash x (siblings l)], calls ++ levels hash x (siblings l)) := by
  induction fuel generalizing l x calls with
  | zero => omega
  | succ fuel ih =>
    rw [hashLevelsCalls]
    by_cases hl : l = []
    · subst hl
      simp [siblings, levels]
    · have hpos := List.length_pos_iff.mpr hl
      obtain ⟨k, hk, hk0, hrun⟩ := hashPairsCalls_ok hash (l.length + 1) l x calls le_rfl
      have hk0 := hk0 (by omega)
      have hpath : siblings l = siblings (l.take k) ++ siblings (l.drop k) := by
        rw [siblings, siblings, siblings, ← List.map_append, List.take_append_drop]
      rw [if_pos (by simpa using hpos), List.length_append, List.length_reverse,
        List.length_singleton, hrun, ok_bind, ih _ _ _ (by rw [List.length_drop]; omega), hpath,
        climb_append, levels_append, List.append_assoc]

/-- The last cell and the cells before it, from the last one on. -/
theorem exists_last {memory : List F} (h : memory ≠ []) :
    ∃ (x : F) (l : List F), memory = l.reverse ++ [x] := by
  refine ⟨memory.getLast h, memory.dropLast.reverse, ?_⟩
  rw [List.reverse_reverse, List.dropLast_append_getLast]

theorem merkleTreeCalls_ok (hash : F → F → F) (l : List F) (x : F) :
    merkleTreeCalls hash (l.reverse ++ [x]) =
      .ok ([climb hash x (siblings l)], levels hash x (siblings l)) := by
  rw [merkleTreeCalls, hashLevelsCalls_ok hash _ _ _ _ (by simp), List.nil_append]

theorem merkleTreeCommit_eq_climb (hash : F → F → F) (l : List F) (x : F) :
    merkleTreeCommit hash (l.reverse ++ [x]) = .ok (climb hash x (siblings l)) := by
  rw [merkleTreeCommit_eq_calls, merkleTreeCalls_ok]
  rfl

/-! ## Total and binding -/

/-- The loops end with one element after one hash for every cell but the first. Memories of one
length with one commitment are equal, or the two evaluations hash two different pairs, at the
same place, to the same value. -/
theorem merkleTreeCommit_total_binding (hash : F → F → F) {memory : List F} (h : memory ≠ []) :
    (∃ out calls, merkleTreeCalls hash memory = .ok ([out], calls) ∧
      calls.length = memory.length - 1 ∧ merkleTreeCommit hash memory = .ok out) ∧
    ∀ memory', memory'.length = memory.length →
      merkleTreeCommit hash memory' = merkleTreeCommit hash memory →
      memory' = memory ∨ ∃ out calls calls', merkleTreeCalls hash memory = .ok ([out], calls) ∧
        merkleTreeCalls hash memory' = .ok ([out], calls') ∧ Collision hash calls' calls := by
  obtain ⟨x, l, rfl⟩ := exists_last h
  refine ⟨⟨_, _, merkleTreeCalls_ok hash l x, by simp [siblings],
    merkleTreeCommit_eq_climb hash l x⟩, fun memory' hlen hcommit => ?_⟩
  have hne : memory' ≠ [] := by
    rintro rfl
    simp at hlen
  obtain ⟨x', l', rfl⟩ := exists_last hne
  rw [merkleTreeCommit_eq_climb, merkleTreeCommit_eq_climb] at hcommit
  have hroot := Except.ok.inj hcommit
  have hturns : (siblings l').map Prod.fst = (siblings l).map Prod.fst := by
    have hl : l'.length = l.length := by simpa using hlen
    rw [turns_siblings, turns_siblings, hl]
  rcases climb_binding hturns hroot with ⟨rfl, hpath⟩ | hcollision
  · left
    rw [(List.map_injective_iff.mpr (Prod.mk_right_injective false)) hpath]
  · refine .inr ⟨_, _, _, merkleTreeCalls_ok hash l x, ?_, hcollision⟩
    rw [merkleTreeCalls_ok, hroot]

theorem merkleTreeCommit_total_binding_three :
    let hash : Nat → Nat → Nat := fun a b => a * b
    (∃ out calls, merkleTreeCalls hash [2, 3, 4] = .ok ([out], calls) ∧
      calls.length = [2, 3, 4].length - 1 ∧ merkleTreeCommit hash [2, 3, 4] = .ok out) ∧
    ∀ memory', memory'.length = [2, 3, 4].length →
      merkleTreeCommit hash memory' = merkleTreeCommit hash [2, 3, 4] →
      memory' = [2, 3, 4] ∨ ∃ out calls calls',
        merkleTreeCalls hash [2, 3, 4] = .ok ([out], calls) ∧
        merkleTreeCalls hash memory' = .ok ([out], calls') ∧ Collision hash calls' calls :=
  merkleTreeCommit_total_binding _ (List.cons_ne_nil _ _)

/-! ## The shape of the tree -/

/-- The commitment to `2 ^ k` cells is the root of a balanced tree over them, with one order of
the inputs at every node, and each cell has a path of `k` siblings to it. -/
def CommitsBalanced (F : Type) (k : Nat) : Prop :=
  ∀ (hash : F → F → F) (cell : Nat → F), ∃ mirrored root,
    merkleTreeCommit hash ((List.range (2 ^ k)).map cell) = .ok root ∧
      root = perfectRoot (orient hash mirrored) k cell ∧
      ∀ i < 2 ^ k, ∃ path, path.length = k ∧ climb hash (cell i) path = root

section Spots

variable {h : F → F → F} {z o : F} (k : Nat)

/-- Cells with the content `o` at one place. -/
def spot (z o : F) (p i : Nat) : F := if i = p then o else z

theorem perfectRoot_blank (hz : h z z = z) : perfectRoot h k (fun _ => z) = z := by
  induction k with
  | zero => rfl
  | succ k ih => rw [perfectRoot, ih, hz]

theorem perfectRoot_first_succ (hz : h z z = z) :
    perfectRoot h (k + 1) (spot z o 0) = h (perfectRoot h k (spot z o 0)) z := by
  have hpos : 0 < 2 ^ k := Nat.two_pow_pos k
  rw [perfectRoot_succ h (l := spot z o 0) (r := fun _ => z) (fun _ _ => rfl)
    (fun i _ => if_neg (by omega)), perfectRoot_blank k hz]

theorem perfectRoot_last_succ (hz : h z z = z) :
    perfectRoot h (k + 1) (spot z o (2 ^ (k + 1) - 1)) =
      h z (perfectRoot h k (spot z o (2 ^ k - 1))) := by
  have hpos : 0 < 2 ^ k := Nat.two_pow_pos k
  have hl : ∀ i < 2 ^ k, spot z o (2 ^ (k + 1) - 1) i = z := fun i _ => if_neg (by omega)
  have hr : ∀ i < 2 ^ k, spot z o (2 ^ (k + 1) - 1) (2 ^ k + i) = spot z o (2 ^ k - 1) i := by
    intro i _
    unfold spot
    congr 1
    rw [eq_iff_iff]
    omega
  rw [perfectRoot_succ h hl hr, perfectRoot_blank k hz]

theorem perfectRoot_first (hz : h z z = z) (ho : h o z = o) :
    perfectRoot h k (spot z o 0) = o := by
  induction k with
  | zero => rfl
  | succ k ih => rw [perfectRoot_first_succ k hz, ih, ho]

theorem perfectRoot_last (hz : h z z = z) (ho : h z o = o) :
    perfectRoot h k (spot z o (2 ^ k - 1)) = o := by
  induction k with
  | zero => rfl
  | succ k ih => rw [perfectRoot_last_succ k hz, ih, ho]

end Spots

/-- With the first and the last cell set, a hash that sees the difference of its inputs: the
commitment loses the last cell to the first, a balanced tree of either order keeps one. -/
theorem not_commitsBalanced [Nontrivial F] (k : Nat) : ¬ CommitsBalanced F (k + 2) := by
  classical
  obtain ⟨z, o, hne⟩ := exists_pair_ne F
  intro hall
  let hash : F → F → F := fun u v => if u = o ∧ v = z then o else z
  let cell : Nat → F := fun i => if i = 0 ∨ i = 2 ^ (k + 2) - 1 then o else z
  have hoz : hash o z = o := if_pos ⟨rfl, rfl⟩
  have hzx : ∀ x, hash z x = z := fun x => if_neg fun h => hne h.1
  have hxo : ∀ x, hash x o = z := fun x => if_neg fun h => hne h.2.symm
  obtain ⟨mirrored, root, hcommit, hroot, -⟩ := hall hash cell
  have hpos : 0 < 2 ^ (k + 1) := Nat.two_pow_pos (k + 1)
  have hpow : 2 ^ (k + 2) = 2 * 2 ^ (k + 1) := pow_succ' 2 (k + 1)
  have hz : root = z := by
    obtain ⟨m, hm⟩ : ∃ m, 2 ^ (k + 2) = m + 2 :=
      ⟨2 ^ (k + 2) - 2, by omega⟩
    have hcells : (List.range (2 ^ (k + 2))).map cell =
        (((List.range m).map fun i => cell (i + 1)).reverse ++ [cell 0]).reverse ++
          [cell (m + 1)] := by
      rw [hm, List.range_succ, List.range_succ_eq_map]
      simp [Function.comp_def]
    have hclimb : climb hash (cell (m + 1))
        (siblings (((List.range m).map fun i => cell (i + 1)).reverse ++ [cell 0])) = z := by
      rw [siblings, List.map_append, climb_append]
      exact hxo _
    rw [hcells, merkleTreeCommit_eq_climb, hclimb] at hcommit
    exact (Except.ok.inj hcommit).symm
  have ho : root = o := by
    have hl : ∀ i < 2 ^ (k + 1), cell i = spot z o 0 i := by
      intro i hi
      simp only [cell, spot, show i ≠ 2 ^ (k + 2) - 1 by omega, or_false]
    have hr : ∀ i < 2 ^ (k + 1), cell (2 ^ (k + 1) + i) = spot z o (2 ^ (k + 1) - 1) i := by
      intro i hi
      simp only [cell, spot]
      congr 1
      rw [eq_iff_iff]
      omega
    rw [hroot, perfectRoot_succ _ hl hr]
    cases mirrored with
    | false =>
      have hfirst : perfectRoot hash (k + 1) (spot z o 0) = o := perfectRoot_first _ (hzx z) hoz
      have hlast : perfectRoot hash (k + 1) (spot z o (2 ^ (k + 1) - 1)) = z := by
        rw [perfectRoot_last_succ k (hzx z), hzx]
      change hash (perfectRoot hash _ _) (perfectRoot hash _ _) = o
      rw [hfirst, hlast, hoz]
    | true =>
      let flip : F → F → F := fun a b => hash b a
      have hfirst : perfectRoot flip (k + 1) (spot z o 0) = z := by
        rw [perfectRoot_first_succ (h := flip) k (hzx z)]
        exact hzx _
      have hlast : perfectRoot flip (k + 1) (spot z o (2 ^ (k + 1) - 1)) = o :=
        perfectRoot_last _ (hzx z) hoz
      change hash (perfectRoot flip _ _) (perfectRoot flip _ _) = o
      rw [hfirst, hlast, hoz]
  exact hne (hz.symm.trans ho)

/-- One cell is its own root, and two are hashed once, the last one first. -/
theorem commitsBalanced_iff [Nontrivial F] (k : Nat) : CommitsBalanced F k ↔ 2 ^ k ≤ 2 := by
  constructor
  · intro hall
    match k with
    | 0 => norm_num
    | 1 => norm_num
    | k + 2 => exact absurd hall (not_commitsBalanced k)
  · intro hk hash cell
    obtain rfl | rfl : k = 0 ∨ k = 1 := by
      have := (Nat.pow_le_pow_iff_right (by decide : 1 < 2)).mp (hk.trans_eq (pow_one 2).symm)
      omega
    · exact ⟨true, cell 0, rfl, rfl, fun i hi => exists_path_oriented hash true 0 cell hi⟩
    · exact ⟨true, hash (cell 1) (cell 0), rfl, rfl,
        fun i hi => exists_path_oriented hash true 1 cell hi⟩

/-- Four elements of the field of three. -/
theorem commitsBalanced_iff_fourCells : CommitsBalanced (ZMod 3) 2 ↔ 2 ^ 2 ≤ 2 :=
  commitsBalanced_iff 2

/-- Four cells, one of them set, under the difference: the first cell is taken off last, and a
balanced tree of either order adds it. -/
theorem fourCells_unbalanced :
    let hash : ZMod 3 → ZMod 3 → ZMod 3 := fun a b => a - b
    let cell : Nat → ZMod 3 := fun i => if i = 0 then 1 else 0
    merkleTreeCommit hash ((List.range (2 ^ 2)).map cell) = .ok 2 ∧
      perfectRoot (orient hash false) 2 cell = 1 ∧ perfectRoot (orient hash true) 2 cell = 1 :=
  ⟨rfl, by decide, by decide⟩

end Zkmemory.Folding
