import Mathlib
import Orochimaru.Lib.Literals

/-!
# Memory access traces

A trace is a list of accesses, each a read or a write of one value at one
address. It is consistent when every read has an earlier write to its address
and returns the value of the latest one. Two facts carry every offline check of
such a trace:

* `consistent_perm`: reordering a trace keeps consistency as long as the
  accesses of each single address stay in time order;
* `linked_iff_consistent`: on a trace grouped by address, consistency is a
  condition on adjacent accesses only.
-/

/-- What a record of a trace says: read or write, where, and which value. -/
class Access (ρ : Type*) (α β : outParam (Type*)) where
  isWrite : ρ → Bool
  addr : ρ → α
  value : ρ → β

namespace Access

variable {ρ α β : Type*} [Access ρ α β]

section LastWrite

variable [DecidableEq α]

/-- Value of the latest write to `a` in `l`, if there is one. -/
def lastWrite? (l : List ρ) (a : α) : Option β :=
  l.foldl (fun acc r => if isWrite r = true ∧ addr r = a then some (value r) else acc) none

/-- Every read returns the value of the latest earlier write to its address. -/
def Consistent (l : List ρ) : Prop :=
  ∀ pre r post, l = pre ++ r :: post → isWrite r = false →
    lastWrite? pre (addr r) = some (value r)

@[simp] theorem lastWrite?_nil (a : α) : lastWrite? ([] : List ρ) a = none := rfl

theorem lastWrite?_snoc (l : List ρ) (r : ρ) (a : α) :
    lastWrite? (l ++ [r]) a =
      if isWrite r = true ∧ addr r = a then some (value r) else lastWrite? l a := by
  simp [lastWrite?, List.foldl_append]

theorem lastWrite?_snoc_write (l : List ρ) {r : ρ} (h : isWrite r = true) :
    lastWrite? (l ++ [r]) (addr r) = some (value r) := by
  simp [lastWrite?_snoc, h]

theorem lastWrite?_snoc_read (l : List ρ) {r : ρ} (h : isWrite r = false) (a : α) :
    lastWrite? (l ++ [r]) a = lastWrite? l a := by
  simp [lastWrite?_snoc, h]

/-- Only the accesses of `a` itself matter for the latest write to `a`. -/
theorem lastWrite?_filter (l : List ρ) (a : α) :
    lastWrite? (l.filter fun r => addr r = a) a = lastWrite? l a := by
  induction l using List.reverseRecOn with
  | nil => rfl
  | append_singleton l r ih =>
    rw [List.filter_append, lastWrite?_snoc]
    by_cases h : addr r = a
    · rw [List.filter_cons_of_pos (by simpa using h), List.filter_nil, lastWrite?_snoc, ih]
    · rw [List.filter_cons_of_neg (by simpa using h), List.filter_nil, List.append_nil, ih]
      simp [h]

theorem lastWrite?_eq_some_iff {l : List ρ} {a : α} {v : β} :
    lastWrite? l a = some v ↔ ∃ pre w post, l = pre ++ w :: post ∧ isWrite w = true ∧
      addr w = a ∧ value w = v ∧ ∀ x ∈ post, isWrite x = true → addr x ≠ a := by
  induction l using List.reverseRecOn with
  | nil => simp
  | append_singleton l r ih =>
    rw [lastWrite?_snoc]
    constructor
    · intro h
      split at h
      case isTrue hr =>
        exact ⟨l, r, [], rfl, hr.1, hr.2, Option.some.inj h, by simp⟩
      case isFalse hr =>
        obtain ⟨pre, w, post, hl, hw, ha, hv, hp⟩ := ih.mp h
        refine ⟨pre, w, post ++ [r], by simp [hl], hw, ha, hv, fun x hx hxw hxa => ?_⟩
        rcases List.mem_append.mp hx with hx | hx
        · exact hp x hx hxw hxa
        · rw [List.mem_singleton.mp hx] at hxw hxa
          exact hr ⟨hxw, hxa⟩
    · rintro ⟨pre, w, post, hl, hw, ha, hv, hp⟩
      rcases List.eq_nil_or_concat' post with rfl | ⟨post', x, rfl⟩
      · have he := List.append_inj_right' hl rfl
        rw [List.cons.inj he |>.1, if_pos ⟨hw, ha⟩, hv]
      · have hl' : l ++ [r] = (pre ++ w :: post') ++ [x] := by simpa using hl
        have he := List.append_inj_right' hl' rfl
        rw [← List.cons.inj he |>.1] at hp
        rw [if_neg fun hr => hp r (by simp) hr.1 hr.2]
        refine ih.mpr ⟨pre, w, post', List.append_inj_left' hl' rfl, hw, ha, hv, ?_⟩
        exact fun y hy => hp y (by simp [hy])

theorem exists_write_of_lastWrite? {l : List ρ} {a : α} {v : β} (h : lastWrite? l a = some v) :
    ∃ w ∈ l, isWrite w = true ∧ addr w = a ∧ value w = v := by
  obtain ⟨pre, w, post, rfl, hw, ha, hv, _⟩ := lastWrite?_eq_some_iff.mp h
  exact ⟨w, by simp, hw, ha, hv⟩

theorem lastWrite?_isSome {l : List ρ} {w : ρ} (hm : w ∈ l) (hw : isWrite w = true) :
    ∃ v, lastWrite? l (addr w) = some v := by
  induction l using List.reverseRecOn with
  | nil => simp at hm
  | append_singleton l r ih =>
    rw [lastWrite?_snoc]
    split
    case isTrue => exact ⟨_, rfl⟩
    case isFalse hr =>
      rcases List.mem_append.mp hm with h | h
      · exact ih h
      · rw [List.mem_singleton.mp h] at hw hr
        exact absurd ⟨hw, rfl⟩ hr

/-! ## Consistency, one access at a time -/

theorem consistent_nil : Consistent ([] : List ρ) := by
  intro pre r post h
  simp at h

theorem consistent_snoc {l : List ρ} {r : ρ} :
    Consistent (l ++ [r]) ↔
      Consistent l ∧ (isWrite r = false → lastWrite? l (addr r) = some (value r)) := by
  constructor
  · intro h
    refine ⟨fun pre x post hl => h pre x (post ++ [r]) (by simp [hl]), h l r [] rfl⟩
  · rintro ⟨hl, hr⟩ pre x post he hx
    rcases List.eq_nil_or_concat' post with rfl | ⟨post', y, rfl⟩
    · obtain ⟨rfl, hxr⟩ := List.append_inj' he rfl
      cases hxr
      exact hr hx
    · have he' : l ++ [r] = (pre ++ x :: post') ++ [y] := by simpa using he
      exact hl pre x post' (List.append_inj_left' he' rfl) hx

theorem Consistent.of_append {l m : List ρ} (h : Consistent (l ++ m)) : Consistent l := by
  intro pre r post hl
  exact h pre r (post ++ m) (by simp [hl])

/-- Consistency is a property of each address on its own. -/
theorem consistent_iff_filter {l : List ρ} :
    Consistent l ↔ ∀ a, Consistent (l.filter fun r => addr r = a) := by
  induction l using List.reverseRecOn with
  | nil => exact iff_of_true consistent_nil fun _ => consistent_nil
  | append_singleton l r ih =>
    rw [consistent_snoc, ih]
    constructor
    · rintro ⟨hl, hr⟩ a
      rw [List.filter_append]
      by_cases ha : addr r = a
      · rw [List.filter_cons_of_pos (by simpa using ha), List.filter_nil, consistent_snoc]
        refine ⟨hl a, fun hw => ?_⟩
        rw [← ha, lastWrite?_filter]
        exact hr hw
      · rw [List.filter_cons_of_neg (by simpa using ha), List.filter_nil, List.append_nil]
        exact hl a
    · intro h
      refine ⟨fun a => ?_, fun hw => ?_⟩
      · have ha := h a
        rw [List.filter_append] at ha
        exact ha.of_append
      · have ha := h (addr r)
        rw [List.filter_append, List.filter_cons_of_pos (by simp), List.filter_nil,
          consistent_snoc] at ha
        rw [← lastWrite?_filter]
        exact ha.2 hw

end LastWrite

/-! ## Reordering -/

section Reorder

variable [DecidableEq α] (time : ρ → Nat)

/-- The accesses of each single address are listed in time order. -/
def TimeOrdered (l : List ρ) : Prop :=
  l.Pairwise fun p r => addr p = addr r → time p < time r

omit [DecidableEq α] in
theorem timeOrdered_of_time {l : List ρ} (h : l.Pairwise fun p r => time p < time r) :
    TimeOrdered time l := by
  refine List.Pairwise.imp ?_ h
  intro p r hlt _
  exact hlt

theorem filter_eq_of_perm {l m : List ρ} (hp : l.Perm m) (hl : TimeOrdered time l)
    (hm : TimeOrdered time m) (a : α) :
    (l.filter fun r => addr r = a) = m.filter fun r => addr r = a := by
  have sorted : ∀ k : List ρ, TimeOrdered time k →
      (k.filter fun r => addr r = a).Pairwise fun p r => time p < time r := by
    intro k hk
    refine (List.Pairwise.filter _ hk).imp_of_mem fun hp hr h => h ?_
    have hpa := (List.mem_filter.mp hp).2
    have hra := (List.mem_filter.mp hr).2
    rw [decide_eq_true_eq] at hpa hra
    rw [hpa, hra]
  refine List.Perm.eq_of_pairwise ?_ (sorted l hl) (sorted m hm) (hp.filter _)
  intro p r _ _ h₁ h₂
  omega

/-- Two orders of the same accesses, both keeping each address in time order,
are consistent together. -/
theorem consistent_perm {l m : List ρ} (hp : l.Perm m) (hl : TimeOrdered time l)
    (hm : TimeOrdered time m) : Consistent l ↔ Consistent m := by
  rw [consistent_iff_filter, consistent_iff_filter (l := m)]
  simp only [filter_eq_of_perm time hp hl hm]

end Reorder

/-! ## Traces grouped by address -/

/-- The adjacent-row check: the first access is a write, and a read repeats the
address and the value of the access before it. -/
def Linked (l : List ρ) : Prop :=
  (∀ r ∈ l.head?, isWrite r = true) ∧
    l.IsChain fun p r => isWrite r = false → addr p = addr r ∧ value p = value r

theorem linked_snoc {l : List ρ} {p r : ρ} :
    Linked (l ++ [p] ++ [r]) ↔
      Linked (l ++ [p]) ∧ (isWrite r = false → addr p = addr r ∧ value p = value r) := by
  have hhead : (l ++ [p] ++ [r]).head? = (l ++ [p]).head? := by
    cases l <;> rfl
  rw [Linked, Linked, hhead, List.isChain_append]
  simp [and_assoc]

/-- Accesses that repeat the last address and value add nothing to the check. -/
theorem linked_replay {l pad : List ρ} {p : ρ} (hlast : l.getLast? = some p)
    (hpad : ∀ r ∈ pad, addr r = addr p ∧ value r = value p) : Linked (l ++ pad) ↔ Linked l := by
  have hhead : (l ++ pad).head? = l.head? := by
    cases l with
    | nil => cases hlast
    | cons a l => rfl
  have hchain : pad.IsChain fun p r => isWrite r = false → addr p = addr r ∧ value p = value r := by
    refine (List.pairwise_of_forall_mem_list fun a ha b hb _ => ?_).isChain
    rw [(hpad a ha).1, (hpad b hb).1, (hpad a ha).2, (hpad b hb).2]
    exact ⟨rfl, rfl⟩
  rw [Linked, Linked, hhead, List.isChain_append]
  refine and_congr_right fun _ => ⟨fun h => h.1, fun h => ⟨h, hchain, fun a ha b hb _ => ?_⟩⟩
  rw [hlast] at ha
  cases ha
  exact ⟨(hpad b (List.mem_of_mem_head? hb)).1.symm, (hpad b (List.mem_of_mem_head? hb)).2.symm⟩

variable [DecidableEq α]

/-- Along a linked trace, the last access carries the current value of its address. -/
theorem linked_current {l : List ρ} {p : ρ} (h : Linked (l ++ [p])) :
    Consistent (l ++ [p]) ∧ lastWrite? (l ++ [p]) (addr p) = some (value p) := by
  induction l using List.reverseRecOn generalizing p with
  | nil =>
    have hp : isWrite p = true := h.1 p (by simp)
    exact ⟨consistent_snoc.mpr ⟨consistent_nil, by simp [hp]⟩, lastWrite?_snoc_write [] hp⟩
  | append_singleton l q ih =>
    obtain ⟨hl, hstep⟩ := linked_snoc.mp h
    obtain ⟨hc, hv⟩ := ih hl
    cases hw : isWrite p with
    | true => exact ⟨consistent_snoc.mpr ⟨hc, by simp [hw]⟩, lastWrite?_snoc_write _ hw⟩
    | false =>
      obtain ⟨ha, hval⟩ := hstep hw
      rw [ha, hval] at hv
      exact ⟨consistent_snoc.mpr ⟨hc, fun _ => hv⟩, by rw [lastWrite?_snoc_read _ hw, hv]⟩

theorem consistent_of_linked {l : List ρ} (h : Linked l) : Consistent l := by
  rcases List.eq_nil_or_concat' l with rfl | ⟨l', p, rfl⟩
  · exact consistent_nil
  · exact (linked_current h).1

theorem current_of_consistent {l : List ρ} {p : ρ} (h : Consistent (l ++ [p])) :
    lastWrite? (l ++ [p]) (addr p) = some (value p) := by
  cases hw : isWrite p with
  | true => exact lastWrite?_snoc_write l hw
  | false => rw [lastWrite?_snoc_read l hw, (consistent_snoc.mp h).2 hw]

/-- Once a trace is grouped by address, its consistency is the adjacent-row check. -/
theorem linked_iff_consistent [PartialOrder α] {l : List ρ}
    (hs : l.Pairwise fun p r => addr p ≤ addr r) : Linked l ↔ Consistent l := by
  refine ⟨consistent_of_linked, fun h => ?_⟩
  induction l using List.reverseRecOn with
  | nil => exact ⟨by simp, List.isChain_nil⟩
  | append_singleton l r ih =>
    obtain ⟨hl, hr⟩ := consistent_snoc.mp h
    have hlinked := ih (List.pairwise_append.mp hs).1 hl
    rcases List.eq_nil_or_concat' l with rfl | ⟨l', p, rfl⟩
    · refine ⟨fun x hx => ?_, List.isChain_singleton _⟩
      cases hw : isWrite r with
      | true => simp_all
      | false => simpa using hr hw
    · refine linked_snoc.mpr ⟨hlinked, fun hw => ?_⟩
      have hlast := hr hw
      obtain ⟨w, hwm, _, hwa, _⟩ := exists_write_of_lastWrite? hlast
      -- the write lies at or before `p`, so the grouping pins the address of `p`
      have hwp : addr w ≤ addr p := by
        rcases List.mem_append.mp hwm with hm | hm
        · exact (List.pairwise_append.mp (List.pairwise_append.mp hs).1).2.2 w hm p (by simp)
        · rw [List.mem_singleton.mp hm]
      have hpr : addr p ≤ addr r := (List.pairwise_append.mp hs).2.2 p (by simp) r (by simp)
      have ha : addr p = addr r := le_antisymm hpr (hwa ▸ hwp)
      refine ⟨ha, Option.some.inj ?_⟩
      rw [← current_of_consistent hl, ha, hlast]

end Access
