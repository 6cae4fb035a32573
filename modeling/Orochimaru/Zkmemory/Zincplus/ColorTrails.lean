import Orochimaru.Zkmemory.Zincplus.Routing

/-!
# The trails of the colouring

The colouring of a block has no counter: a walk runs until it is back at its start.
The input it stands at after `n` edges depends on the two matchings only, so what a
walk does is a statement about that trail: where it closes, and what it meets before.
-/

namespace Zkmemory.Zincplus

open Loops

/-- The input a walk stands at after `n` edges, the first of them an entry edge. -/
def trail (entryMate exitMate : Nat → Nat) (start : Nat) : Nat → Nat
  | 0 => start
  | n + 1 =>
    let i := trail entryMate exitMate start n
    if n % 2 = 0 then entryMate i else exitMate i

/-- The trail from `start` is closed by its `k`-th edge and stands at fresh inputs
until then: none coloured before it began, none coloured by itself. -/
structure ClosedTrail (entryMate exitMate : Nat → Nat) (color : Nat → Option Bool)
    (start k : Nat) : Prop where
  pos : 0 < k
  closes : trail entryMate exitMate start k = start
  fresh : ∀ n < k, color (trail entryMate exitMate start n) = none
  distinct : ∀ n < k, ∀ l < n,
    trail entryMate exitMate start l ≠ trail entryMate exitMate start n

/-- A walk that ends has followed its trail to where it closes. -/
theorem walk_trail {e x : Nat → Nat} {start fuel n : Nat} {color color' : Nat → Option Bool}
    (h : walk e x start fuel color (trail e x start n) (n % 2 == 1) (n % 2 == 0) = .ok color')
    (hfresh : color (trail e x start n) = none) :
    ∃ k, n < k ∧ k ≤ n + fuel ∧ trail e x start k = start ∧
      (∀ j, n ≤ j → j < k → color (trail e x start j) = none) ∧
      ∀ j l, n ≤ l → l < j → j < k → trail e x start l ≠ trail e x start j := by
  induction fuel generalizing n color with
  | zero => cases h
  | succ fuel ih =>
    have hnext : (if (n % 2 == 0) = true then e (trail e x start n) else x (trail e x start n)) =
        trail e x start (n + 1) := by
      simp [trail]
    rw [walk] at h
    simp only [hnext] at h
    by_cases hs : trail e x start (n + 1) = start
    · refine ⟨n + 1, by omega, by omega, hs, fun j h₁ h₂ => ?_, fun j l h₁ h₂ h₃ => by omega⟩
      rw [show j = n by omega]
      exact hfresh
    · rw [if_neg hs] at h
      by_cases hc : Function.update color (trail e x start n) (some (n % 2 == 1))
          (trail e x start (n + 1)) = none
      · rw [ensure_ok hc, ok_bind] at h
        have hodd : (!(n % 2 == 1)) = ((n + 1) % 2 == 1) := by
          rcases Nat.mod_two_eq_zero_or_one n with h2 | h2 <;> simp [h2, Nat.add_mod]
        have heven : (!(n % 2 == 0)) = ((n + 1) % 2 == 0) := by
          rcases Nat.mod_two_eq_zero_or_one n with h2 | h2 <;> simp [h2, Nat.add_mod]
        rw [hodd, heven] at h
        obtain ⟨k, hnk, hk, hclose, hfree, hdist⟩ := ih h hc
        -- what the rest of the walk meets is fresh after the colouring of this input
        have hrest : ∀ j, n + 1 ≤ j → j < k →
            trail e x start n ≠ trail e x start j ∧ color (trail e x start j) = none := by
          intro j h₁ h₂
          have hj := hfree j h₁ h₂
          by_cases hne : trail e x start j = trail e x start n
          · rw [hne, Function.update_self] at hj
            cases hj
          · rw [Function.update_of_ne hne] at hj
            exact ⟨fun he => hne he.symm, hj⟩
        refine ⟨k, by omega, by omega, hclose, fun j h₁ h₂ => ?_, fun j l h₁ h₂ h₃ => ?_⟩
        · rcases Nat.eq_or_lt_of_le h₁ with rfl | h₁
          · exact hfresh
          · exact (hrest j h₁ h₂).2
        · rcases Nat.eq_or_lt_of_le h₁ with rfl | h₁
          · exact (hrest j h₂ h₃).1
          · exact hdist j l h₁ h₂ h₃
      · rw [ensure, if_neg hc] at h
        cases h

theorem walk_closed {e x : Nat → Nat} {start fuel : Nat} {color color' : Nat → Option Bool}
    (h : walk e x start fuel color start false true = .ok color') (hfresh : color start = none) :
    ∃ k ≤ fuel, ClosedTrail e x color start k := by
  obtain ⟨k, hpos, hk, hclose, hfree, hdist⟩ := walk_trail (n := 0) h hfresh
  exact ⟨k, by omega, hpos, hclose, fun n hn => hfree n (Nat.zero_le n) hn,
    fun n hn l hl => hdist n l (Nat.zero_le l) hl hn⟩

/-! ## The two matchings of a block -/

/-- The table of destinations that a block fills. -/
def destinations (m : Nat) (perm : Nat → Nat) : Nat → Nat :=
  (List.range m).foldl (fun inv j => Function.update inv (perm j) j) fun _ => 0

def entryMate (m h i : Nat) : Nat := (i + h) % m

def exitMate (m h : Nat) (perm : Nat → Nat) (i : Nat) : Nat :=
  perm ((destinations m perm i + h) % m)

theorem blockMates {h : Nat} {perm : Nat → Nat} (hp : PermOn (2 * h) perm) :
    Mates (2 * h) (entryMate (2 * h) h) ∧ Mates (2 * h) (exitMate (2 * h) h perm) := by
  rcases Nat.eq_zero_or_pos h with rfl | hpos
  · exact ⟨⟨fun i hi => absurd hi (by omega), fun i hi => absurd hi (by omega),
      fun i hi => absurd hi (by omega)⟩, ⟨fun i hi => absurd hi (by omega),
      fun i hi => absurd hi (by omega), fun i hi => absurd hi (by omega)⟩⟩
  · have he : Mates (2 * h) (entryMate (2 * h) h) := entryMates h hpos
    exact ⟨he, exitMates hp he fun j hj => foldl_update_apply hp.inj (fun _ => 0) hj⟩

/-- **The colouring walks are well defined.** Whatever input the outer loop starts a
walk from, the walk is back there after at most `2 h` edges and has met fresh inputs
only; at the end every input has a colour and both its mates have the other one. -/
theorem coloring_walks_close {h : Nat} {perm : Nat → Nat} (hp : PermOn (2 * h) perm) :
    (∀ start < 2 * h, ∃ color,
      colorUpTo (2 * h) (entryMate (2 * h) h) (exitMate (2 * h) h perm) start = .ok color ∧
      (color start = none →
        (∃ k ≤ 2 * h,
          ClosedTrail (entryMate (2 * h) h) (exitMate (2 * h) h perm) color start k) ∧
        ∃ color', walk (entryMate (2 * h) h) (exitMate (2 * h) h perm) start (2 * h) color start
          false true = .ok color')) ∧
    ∃ color, colorInputs (2 * h) (entryMate (2 * h) h) (exitMate (2 * h) h perm) = .ok color ∧
      ∀ i < 2 * h, ∃ b, color i = some b ∧ color (entryMate (2 * h) h i) = some (!b) ∧
        color (exitMate (2 * h) h perm i) = some (!b) := by
  obtain ⟨he, hx⟩ := blockMates hp
  refine ⟨fun start hstart => ?_, ?_⟩
  · obtain ⟨color, hcolor, hinv⟩ := colorUpTo_ok he hx (Nat.le_of_lt hstart)
    refine ⟨color, hcolor, fun hc => ?_⟩
    obtain ⟨color', hwalk, -, -⟩ := hinv.walk he hx hstart hc
    exact ⟨walk_closed hwalk hc, color', hwalk⟩
  · obtain ⟨color, hcolor, hentry, hexit, hall⟩ := colorInputs_ok he hx
    refine ⟨color, hcolor, fun i hi => ?_⟩
    obtain ⟨b, hb⟩ := Option.ne_none_iff_exists'.mp (hall i hi)
    exact ⟨b, hb, hentry i hi b hb, hexit i hi b hb⟩

/-- Six inputs, delivered in the order `2, 0, 1, 5, 3, 4`. -/
theorem coloring_walks_close_six :
    let perm := fun j => [2, 0, 1, 5, 3, 4].getD j 0
    PermOn (2 * 3) perm ∧
    ∃ color, colorInputs 6 (entryMate 6 3) (exitMate 6 3 perm) = .ok color ∧
      ∀ i < 6, ∃ b, color i = some b ∧ color (entryMate 6 3 i) = some (!b) ∧
        color (exitMate 6 3 perm i) = some (!b) :=
  have hp : PermOn (2 * 3) fun j => [2, 0, 1, 5, 3, 4].getD j 0 :=
    ⟨by decide, by decide⟩
  ⟨hp, (coloring_walks_close hp).2⟩

end Zkmemory.Zincplus
