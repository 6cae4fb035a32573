import Mathlib
import Orochimaru.Lib.Literals

/-!
# Switching layers

A layer of stride bit `k` pairs wire `i` with wire `i + 2 ^ k` for every `i` whose
bit `k` is clear, and swaps the pairs its switch bits select. Whatever the switches
are, a network of such layers permutes its wires; below a block size the layers of
small stride act on each aligned block of wires on its own.
-/

namespace Switching

/-- The wire whose content a layer brings to wire `i`. -/
def source (k : Nat) (s : Nat → Bool) (i : Nat) : Nat :=
  if i.testBit k then if s (i - 2 ^ k) then i - 2 ^ k else i
  else if s i then i + 2 ^ k else i

/-- The wire whose content a sequence of layers, the first one first, brings to `i`. -/
def sources : List (Nat × (Nat → Bool)) → Nat → Nat
  | [], i => i
  | l :: net, i => source l.1 l.2 (sources net i)

section Layer

variable {k : Nat} {s : Nat → Bool} {i : Nat}

theorem testBit_add_stride (h : i.testBit k = false) : (i + 2 ^ k).testBit k = true := by
  rw [Nat.add_comm, Nat.testBit_two_pow_add_eq, h]
  rfl

/-- A lower wire is the partner of an upper one. -/
theorem exists_upper (h : i.testBit k = true) : ∃ j, j.testBit k = false ∧ i = j + 2 ^ k := by
  have hle : 2 ^ k ≤ i := Nat.ge_two_pow_of_testBit h
  refine ⟨i - 2 ^ k, ?_, by omega⟩
  rw [show i = 2 ^ k + (i - 2 ^ k) by omega, Nat.testBit_two_pow_add_eq] at h
  simpa using h

theorem source_upper (h : i.testBit k = false) :
    source k s i = if s i then i + 2 ^ k else i := by
  simp [source, h]

theorem source_lower (h : i.testBit k = false) :
    source k s (i + 2 ^ k) = if s i then i else i + 2 ^ k := by
  simp [source, testBit_add_stride h]

theorem source_source (k : Nat) (s : Nat → Bool) (i : Nat) : source k s (source k s i) = i := by
  have key : ∀ j, j.testBit k = false →
      source k s (source k s j) = j ∧ source k s (source k s (j + 2 ^ k)) = j + 2 ^ k := by
    intro j hj
    rw [source_upper hj, source_lower hj]
    split
    case isTrue hs =>
      rw [source_lower hj, source_upper hj, if_pos hs, if_pos hs]
      exact ⟨rfl, rfl⟩
    case isFalse hs =>
      rw [source_lower hj, source_upper hj, if_neg hs, if_neg hs]
      exact ⟨rfl, rfl⟩
  cases h : i.testBit k with
  | false => exact (key i h).1
  | true =>
    obtain ⟨j, hj, rfl⟩ := exists_upper h
    exact (key j hj).2

/-- The partner of an upper wire is a wire of the network too. -/
theorem add_stride_lt {v : Nat} (hk : k < v) (h : i.testBit k = false) (hi : i < 2 ^ v) :
    i + 2 ^ k < 2 ^ v := by
  obtain ⟨d, rfl⟩ : ∃ d, v = k + (d + 1) := ⟨v - k - 1, by omega⟩
  have heven : i / 2 ^ k % 2 = 0 := by simpa [Nat.testBit_eq_decide_div_mod_eq] using h
  have hpow : 2 ^ (k + (d + 1)) = 2 ^ k * (2 * 2 ^ d) := by rw [Nat.pow_add, Nat.pow_succ']
  rw [hpow] at hi ⊢
  have hq : i / 2 ^ k < 2 * 2 ^ d := (Nat.div_lt_iff_lt_mul (by positivity)).mpr (by
    rwa [Nat.mul_comm])
  have hq' : (i + 2 ^ k) / 2 ^ k < 2 * 2 ^ d := by
    rw [Nat.add_div_right _ (by positivity)]
    omega
  rw [Nat.mul_comm]
  exact (Nat.div_lt_iff_lt_mul (by positivity)).mp hq'

theorem source_lt {v : Nat} (hk : k < v) (hi : i < 2 ^ v) : source k s i < 2 ^ v := by
  cases h : i.testBit k with
  | false =>
    rw [source_upper h]
    split
    · exact add_stride_lt hk h hi
    · exact hi
  | true =>
    obtain ⟨j, hj, rfl⟩ := exists_upper h
    rw [source_lower hj]
    split
    · exact Nat.lt_of_le_of_lt (Nat.le_add_right _ _) hi
    · exact hi

theorem source_congr {s' : Nat → Bool} {v : Nat} (hs : ∀ w < 2 ^ v, s w = s' w)
    (hi : i < 2 ^ v) : source k s i = source k s' i := by
  rw [source, source, hs i hi, hs (i - 2 ^ k) (Nat.lt_of_le_of_lt (Nat.sub_le _ _) hi)]

/-- A layer of stride below the block size acts inside each aligned block. -/
theorem source_block {t : Nat} (hk : k < t) (q : Nat) (hi : i < 2 ^ t) :
    source k s (2 ^ t * q + i) = 2 ^ t * q + source k (fun w => s (2 ^ t * q + w)) i := by
  have hbit : ∀ j < 2 ^ t, (2 ^ t * q + j).testBit k = j.testBit k := by
    intro j hj
    rw [Nat.testBit_two_pow_mul_add _ hj, if_pos hk]
  cases h : i.testBit k with
  | false =>
    rw [source_upper (by rw [hbit i hi, h]), source_upper h]
    split <;> omega
  | true =>
    obtain ⟨j, hj, rfl⟩ := exists_upper h
    have hjt : j < 2 ^ t := Nat.lt_of_le_of_lt (Nat.le_add_right _ _) hi
    rw [← Nat.add_assoc, source_lower (by rw [hbit j hjt, hj]), source_lower hj]
    split <;> omega

end Layer

/-! ## Networks -/

variable {net net' : List (Nat × (Nat → Bool))} {v : Nat}

theorem sources_append (net net' : List (Nat × (Nat → Bool))) (i : Nat) :
    sources (net ++ net') i = sources net (sources net' i) := by
  induction net with
  | nil => rfl
  | cons l net ih => rw [List.cons_append, sources, sources, ih]

theorem sources_lt (h : ∀ l ∈ net, l.1 < v) {i : Nat} (hi : i < 2 ^ v) :
    sources net i < 2 ^ v := by
  induction net with
  | nil => exact hi
  | cons l net ih =>
    exact source_lt (h l (by simp)) (ih fun l' hl' => h l' (by simp [hl']))

theorem sources_injective (net : List (Nat × (Nat → Bool))) : Function.Injective (sources net) := by
  induction net with
  | nil => exact fun _ _ h => h
  | cons l net ih =>
    intro i j h
    have hs := congrArg (source l.1 l.2) h
    rw [sources, sources, source_source, source_source] at hs
    exact ih hs

theorem sources_block {t : Nat} (h : ∀ l ∈ net, l.1 < t) (q : Nat) {i : Nat} (hi : i < 2 ^ t) :
    sources net (2 ^ t * q + i) =
      2 ^ t * q + sources (net.map fun l => (l.1, fun w => l.2 (2 ^ t * q + w))) i := by
  induction net with
  | nil => rfl
  | cons l net ih =>
    have htail : ∀ l' ∈ net, l'.1 < t := fun l' hl' => h l' (by simp [hl'])
    rw [sources, ih htail, source_block (h l (by simp))]
    · rfl
    · refine sources_lt (fun l' hl' => ?_) hi
      obtain ⟨l'', hl'', rfl⟩ := List.mem_map.mp hl'
      exact htail l'' hl''

/-- Only the switch bits of the wires of the network matter. -/
theorem sources_congr {ι : Type*} {ls : List ι} {k : ι → Nat} {s s' : ι → Nat → Bool}
    (hk : ∀ l ∈ ls, k l < v) (hs : ∀ l ∈ ls, ∀ w < 2 ^ v, s l w = s' l w) {i : Nat}
    (hi : i < 2 ^ v) :
    sources (ls.map fun l => (k l, s l)) i = sources (ls.map fun l => (k l, s' l)) i := by
  induction ls with
  | nil => rfl
  | cons l ls ih =>
    rw [List.map_cons, List.map_cons, sources, sources,
      ih (fun l' hl' => hk l' (by simp [hl'])) fun l' hl' => hs l' (by simp [hl'])]
    refine source_congr (hs l (by simp)) (sources_lt (fun l' hl' => ?_) hi)
    obtain ⟨l'', hl'', rfl⟩ := List.mem_map.mp hl'
    exact hk l'' (by simp [hl''])

/-- The contents after the layers, from the contents before each of them. -/
theorem states_eq_sources {α : Type*} (layer : Nat → Nat × (Nat → Bool))
    (state : Nat → Nat → α) {n : Nat} (hlt : ∀ l < n, (layer l).1 < v)
    (hstep : ∀ l < n, ∀ i < 2 ^ v, state (l + 1) i = state l (source (layer l).1 (layer l).2 i))
    {i : Nat} (hi : i < 2 ^ v) :
    state n i = state 0 (sources ((List.range n).map layer) i) := by
  induction n generalizing i with
  | zero => rfl
  | succ n ih =>
    rw [List.range_succ, List.map_append, sources_append, hstep n (by omega) i hi]
    exact ih (fun l hl => hlt l (by omega)) (fun l hl => hstep l (by omega))
      (source_lt (hlt n (by omega)) hi)

/-! ## Permutations of an initial segment -/

/-- An injective map of `[0, n)` into itself only reorders a table over `[0, n)`. -/
theorem map_range_perm {α : Type*} {n : Nat} {σ : Nat → Nat} (hlt : ∀ i < n, σ i < n)
    (hinj : ∀ i < n, ∀ j < n, σ i = σ j → i = j) (f : Nat → α) :
    ((List.range n).map fun i => f (σ i)).Perm ((List.range n).map f) := by
  have hσ : ((List.range n).map σ).Perm (List.range n) := by
    have hnodup : ((List.range n).map σ).Nodup := by
      refine (List.nodup_map_iff_inj_on List.nodup_range).mpr fun i hi j hj h => ?_
      exact hinj i (List.mem_range.mp hi) j (List.mem_range.mp hj) h
    refine (hnodup.subperm fun x hx => ?_).perm_of_length_le (by simp)
    obtain ⟨i, hi, rfl⟩ := List.mem_map.mp hx
    exact List.mem_range.mpr (hlt i (List.mem_range.mp hi))
  have hmap := hσ.map f
  rwa [List.map_map] at hmap

theorem exists_preimage {n : Nat} {σ : Nat → Nat} (hlt : ∀ i < n, σ i < n)
    (hinj : ∀ i < n, ∀ j < n, σ i = σ j → i = j) {i : Nat} (hi : i < n) : ∃ j < n, σ j = i := by
  have hmem : i ∈ (List.range n).map fun j => id (σ j) :=
    (map_range_perm hlt hinj id).mem_iff.mpr (by simpa using hi)
  simpa using hmem

end Switching
