import Orochimaru.Lib.Switching
import Orochimaru.Zkmemory.Zincplus.Benes

/-!
# The colouring of block inputs

The entry mates and the exit mates are two perfect matchings of the inputs. The
alternating walks colour every input, mates oppositely: a walk always stands at a
fresh input whose entry mate is fresh too, and the only open exit edges are the one
it arrived by and the one of its start.
-/

namespace Zkmemory.Zincplus

open Loops Switching

/-- A perfect matching of `[0, m)`. -/
structure Mates (m : Nat) (f : Nat → Nat) : Prop where
  lt : ∀ i < m, f i < m
  invol : ∀ i < m, f (f i) = i
  ne : ∀ i < m, f i ≠ i

/-- The mate of every coloured input has the other colour. -/
def Opposite (m : Nat) (f : Nat → Nat) (color : Nat → Option Bool) : Prop :=
  ∀ j < m, ∀ b, color j = some b → color (f j) = some !b

/-- Number of inputs still to be coloured. -/
def uncolored (m : Nat) (color : Nat → Option Bool) : Nat :=
  ((Finset.range m).filter fun j => color j = none).card

theorem uncolored_update {m : Nat} {color : Nat → Option Bool} {i : Nat} (hi : i < m)
    (hfresh : color i = none) (b : Bool) :
    uncolored m (Function.update color i (some b)) + 1 = uncolored m color := by
  have hmem : i ∈ (Finset.range m).filter fun j => color j = none := by simp [hi, hfresh]
  rw [uncolored, uncolored, ← Finset.card_erase_add_one hmem]
  congr 2
  ext j
  by_cases hj : j = i
  · simp [hj]
  · simp [hj]

/-- Where a walk stands before it takes an entry edge. -/
structure WalkInv (m : Nat) (e x : Nat → Nat) (start : Nat) (color : Nat → Option Bool)
    (i : Nat) : Prop where
  lt : i < m
  fresh : color i = none
  entry : Opposite m e color
  exit : ∀ j < m, ∀ b, color j = some b →
    color (x j) = some (!b) ∨ j = start ∨ (x j = i ∧ b = true)
  back : i = start ∨ (color start = some false ∧ color (x i) = some true)

section Walk

variable {m : Nat} {e x : Nat → Nat} {start : Nat} {color : Nat → Option Bool} {i : Nat}

/-- The entry mate of a fresh input is fresh. -/
theorem entry_fresh (he : Mates m e) (h : WalkInv m e x start color i) : color (e i) = none := by
  cases hc : color (e i) with
  | none => rfl
  | some b =>
    have := h.entry (e i) (he.lt i h.lt) b hc
    rw [he.invol i h.lt, h.fresh] at this
    cases this

theorem update_entry_fresh (he : Mates m e) (h : WalkInv m e x start color i) :
    Function.update color i (some false) (e i) = none := by
  rw [Function.update_of_ne (he.ne i h.lt), entry_fresh he h]

/-- A walk does not close by an entry edge. -/
theorem entry_ne_start (he : Mates m e) (hstart : start < m) (h : WalkInv m e x start color i) :
    e i ≠ start := by
  intro hs
  rcases h.back with rfl | ⟨hb, _⟩
  · exact he.ne i h.lt hs
  · have := h.entry start hstart false hb
    rw [← hs, he.invol i h.lt, h.fresh] at this
    cases this

/-- The colouring after an entry edge and before the exit edge that follows it. -/
def colorPair (e : Nat → Nat) (color : Nat → Option Bool) (i : Nat) : Nat → Option Bool :=
  Function.update (Function.update color i (some false)) (e i) (some true)

theorem colorPair_left (he : Mates m e) (hi : i < m) : colorPair e color i i = some false := by
  rw [colorPair, Function.update_of_ne (he.ne i hi).symm, Function.update_self]

theorem colorPair_right : colorPair e color i (e i) = some true := Function.update_self ..

theorem colorPair_other {j : Nat} (hj : j ≠ i) (hje : j ≠ e i) :
    colorPair e color i j = color j := by
  rw [colorPair, Function.update_of_ne hje, Function.update_of_ne hj]

theorem colorPair_of_colored (he : Mates m e) (h : WalkInv m e x start color i) {j : Nat}
    {b : Bool} (hj : color j = some b) : colorPair e color i j = some b := by
  rw [colorPair_other, hj]
  · rintro rfl; rw [h.fresh] at hj; cases hj
  · rintro rfl; rw [entry_fresh he h] at hj; cases hj

/-- A coloured input was coloured before, or is one of the pair. -/
theorem colorPair_cases (he : Mates m e) (h : WalkInv m e x start color i) {j : Nat} {b : Bool}
    (hj : colorPair e color i j = some b) :
    color j = some b ∨ (j = i ∧ b = false) ∨ (j = e i ∧ b = true) := by
  by_cases hji : j = i
  · subst hji
    rw [colorPair_left he h.lt] at hj
    exact .inr (.inl ⟨rfl, by cases hj; rfl⟩)
  · by_cases hje : j = e i
    · subst hje
      rw [colorPair_right] at hj
      exact .inr (.inr ⟨rfl, by cases hj; rfl⟩)
    · rw [colorPair_other hji hje] at hj
      exact .inl hj

theorem colorPair_entry (he : Mates m e) (h : WalkInv m e x start color i) :
    Opposite m e (colorPair e color i) := by
  intro j hj b hb
  rcases colorPair_cases he h hb with hc | ⟨rfl, rfl⟩ | ⟨rfl, rfl⟩
  · exact colorPair_of_colored he h (h.entry j hj b hc)
  · exact colorPair_right
  · rw [he.invol i h.lt, colorPair_left he h.lt]
    rfl

/-- The exit edge the walk arrived by is properly coloured. -/
theorem colorPair_back (he : Mates m e) (h : WalkInv m e x start color i) (hne : i ≠ start) :
    colorPair e color i (x i) = some true :=
  colorPair_of_colored he h ((h.back.resolve_left hne).2)

theorem colorPair_start (he : Mates m e) (h : WalkInv m e x start color i) :
    colorPair e color i start = some false := by
  rcases h.back with hs | ⟨hb, _⟩
  · rw [← hs]
    exact colorPair_left he h.lt
  · exact colorPair_of_colored he h hb

/-- When the exit edge closes the cycle, every exit edge is properly coloured. -/
theorem colorPair_closed (he : Mates m e) (hx : Mates m x) (h : WalkInv m e x start color i)
    (hnext : x (e i) = start) : Opposite m x (colorPair e color i) := by
  have hstart : x start = e i := by rw [← hnext, hx.invol _ (he.lt i h.lt)]
  intro j hj b hb
  rcases colorPair_cases he h hb with hc | ⟨rfl, rfl⟩ | ⟨rfl, rfl⟩
  · rcases h.exit j hj b hc with ho | rfl | ⟨hxi, rfl⟩
    · exact colorPair_of_colored he h ho
    · rw [colorPair_start he h] at hb
      cases hb
      rw [hstart]
      exact colorPair_right
    · rw [hxi, colorPair_left he h.lt]
      rfl
  · by_cases hs : j = start
    · rw [hs, hstart, ← hs]
      exact colorPair_right
    · exact colorPair_back he h hs
  · rw [hnext, colorPair_start he h]
    rfl

/-- Otherwise the input it leads to is fresh, and the walk goes on. -/
theorem colorPair_next (he : Mates m e) (hx : Mates m x) (h : WalkInv m e x start color i)
    (hnext : x (e i) ≠ start) : WalkInv m e x start (colorPair e color i) (x (e i)) := by
  have hei := he.lt i h.lt
  have hback : x (x (e i)) = e i := hx.invol _ hei
  refine ⟨hx.lt _ hei, ?_, colorPair_entry he h, ?_, .inr ⟨colorPair_start he h, ?_⟩⟩
  · cases hb : colorPair e color i (x (e i)) with
    | none => rfl
    | some b =>
      rcases colorPair_cases he h hb with hc | ⟨hxi, _⟩ | ⟨hxe, _⟩
      · -- a coloured exit mate of `e i` would leave a third open exit edge
        rcases h.exit _ (hx.lt _ hei) b hc with ho | hs | ⟨hi, _⟩
        · rw [hback, entry_fresh he h] at ho
          cases ho
        · exact absurd hs hnext
        · rw [hback] at hi
          exact absurd hi (he.ne i h.lt)
      · have hne : i ≠ start := fun hs => hnext (hxi.trans hs)
        have hprev := (h.back.resolve_left hne).2
        rw [← hxi, hback, entry_fresh he h] at hprev
        cases hprev
      · exact absurd hxe (hx.ne _ hei)
  · intro j hj b hb
    rcases colorPair_cases he h hb with hc | ⟨rfl, rfl⟩ | ⟨rfl, rfl⟩
    · rcases h.exit j hj b hc with ho | hs | ⟨hxi, rfl⟩
      · exact .inl (colorPair_of_colored he h ho)
      · exact .inr (.inl hs)
      · exact .inl (by rw [hxi, colorPair_left he h.lt]; rfl)
    · by_cases hs : j = start
      · exact .inr (.inl hs)
      · exact .inl (colorPair_back he h hs)
    · exact .inr (.inr ⟨rfl, rfl⟩)
  · rw [hback]
    exact colorPair_right

/-- Two steps of the walk, from its entry edge. -/
theorem walk_pair (he : Mates m e) (hstart : start < m) (h : WalkInv m e x start color i)
    (fuel : Nat) :
    walk e x start (fuel + 2) color i false true =
      if x (e i) = start then .ok (colorPair e color i)
      else (do
        ensure (colorPair e color i (x (e i)) = none)
        walk e x start fuel (colorPair e color i) (x (e i)) false true) := by
  rw [walk]
  simp only [if_true, if_neg (entry_ne_start he hstart h), ensure_ok (update_entry_fresh he h),
    ok_bind]
  rw [walk]
  rfl

/-- From a proper position the walk ends, in a proper colouring that extends the given one. -/
theorem walk_ok (he : Mates m e) (hx : Mates m x) (hstart : start < m) (fuel : Nat)
    (h : WalkInv m e x start color i) (hfuel : uncolored m color ≤ fuel) :
    ∃ color', walk e x start fuel color i false true = .ok color' ∧ Opposite m e color' ∧
      Opposite m x color' ∧ (∀ j b, color j = some b → color' j = some b) ∧
      color' start = some false := by
  induction fuel using Nat.strong_induction_on generalizing color i with
  | _ fuel ih =>
    have hpair : uncolored m (colorPair e color i) + 2 = uncolored m color := by
      have h₁ := uncolored_update h.lt h.fresh false
      have h₂ := uncolored_update (he.lt i h.lt) (update_entry_fresh he h) true
      rw [colorPair]
      omega
    obtain ⟨f, rfl⟩ : ∃ f, fuel = f + 2 := ⟨fuel - 2, by omega⟩
    rw [walk_pair he hstart h]
    by_cases hnext : x (e i) = start
    · exact ⟨_, if_pos hnext, colorPair_entry he h, colorPair_closed he hx h hnext,
        fun j b hj => colorPair_of_colored he h hj, colorPair_start he h⟩
    · have hinv := colorPair_next he hx h hnext
      obtain ⟨color', hwalk, hentry, hexit, hext, hs⟩ := ih f (by omega) hinv (by omega)
      refine ⟨color', ?_, hentry, hexit, fun j b hj => hext j b (colorPair_of_colored he h hj), hs⟩
      rw [if_neg hnext, ensure_ok hinv.fresh, ok_bind, hwalk]

end Walk

/-- The colouring with which the outer loop comes to input `n`. -/
def colorUpTo (m : Nat) (entryMate exitMate : Nat → Nat) (n : Nat) :
    Except Panic (Nat → Option Bool) :=
  (List.range n).foldlM
    (fun color start =>
      if color start = none then walk entryMate exitMate start m color start false true
      else .ok color)
    fun _ => none

/-- Between two walks mates are coloured oppositely, and the inputs the loop has
passed are coloured. -/
structure LoopInv (m : Nat) (e x : Nat → Nat) (n : Nat) (color : Nat → Option Bool) : Prop where
  entry : Opposite m e color
  exit : Opposite m x color
  done : ∀ j < n, color j ≠ none

/-- A walk from an uncoloured input ends, in a proper colouring. -/
theorem LoopInv.walk {m n start : Nat} {e x : Nat → Nat} {color : Nat → Option Bool}
    (he : Mates m e) (hx : Mates m x) (h : LoopInv m e x n color) (hstart : start < m)
    (hc : color start = none) :
    ∃ color', Zincplus.walk e x start m color start false true = .ok color' ∧
      LoopInv m e x n color' ∧ color' start ≠ none := by
  have hinv : WalkInv m e x start color start :=
    ⟨hstart, hc, h.entry, fun j hj b hb => .inl (h.exit j hj b hb), .inl rfl⟩
  have hcard : uncolored m color ≤ m := by
    simpa [uncolored] using Finset.card_filter_le (Finset.range m) fun j => color j = none
  obtain ⟨color', hwalk, hentry, hexit, hext, hs⟩ := walk_ok he hx hstart m hinv hcard
  refine ⟨color', hwalk, ⟨hentry, hexit, fun j hj => ?_⟩, by simp [hs]⟩
  obtain ⟨b, hb⟩ := Option.ne_none_iff_exists'.mp (h.done j hj)
  simp [hext j b hb]

/-- No walk of the outer loop fails. -/
theorem colorUpTo_ok {m n : Nat} {e x : Nat → Nat} (he : Mates m e) (hx : Mates m x)
    (hn : n ≤ m) : ∃ color, colorUpTo m e x n = .ok color ∧ LoopInv m e x n color := by
  refine foldlM_range_ok (LoopInv m e x) ⟨fun _ _ _ h => (by cases h),
    fun _ _ _ h => (by cases h), fun j hj => absurd hj (by omega)⟩
    fun start hstart color hinv => ?_
  have hdone : ∀ color', LoopInv m e x start color' → color' start ≠ none →
      LoopInv m e x (start + 1) color' := fun color' h hs => by
    refine ⟨h.entry, h.exit, fun j hj => ?_⟩
    rcases Nat.lt_succ_iff_lt_or_eq.mp hj with hj | rfl
    · exact h.done j hj
    · exact hs
  by_cases hc : color start = none
  · rw [if_pos hc]
    obtain ⟨color', hwalk, h, hs⟩ := hinv.walk he hx (by omega) hc
    exact ⟨color', hwalk, hdone color' h hs⟩
  · rw [if_neg hc]
    exact ⟨color, rfl, hdone color hinv hc⟩

/-- The colouring succeeds: every input is coloured, mates oppositely. -/
theorem colorInputs_ok {m : Nat} {e x : Nat → Nat} (he : Mates m e) (hx : Mates m x) :
    ∃ color, colorInputs m e x = .ok color ∧ Opposite m e color ∧ Opposite m x color ∧
      ∀ j < m, color j ≠ none := by
  obtain ⟨color, hcolor, h⟩ := colorUpTo_ok he hx (Nat.le_refl m)
  exact ⟨color, hcolor, h.entry, h.exit, h.done⟩

end Zkmemory.Zincplus
