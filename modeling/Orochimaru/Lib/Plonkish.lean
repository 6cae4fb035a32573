import Mathlib
import Orochimaru.Lib.Literals

/-!
# Plonkish constraint systems

A circuit is a table: columns over the rows of a cyclic domain, gates that vanish at
every row, and lookups and shuffles between columns over the usable rows. Systems are
joined by appending them, and hold together exactly when each of them does.
-/

namespace Plonkish

abbrev Column (F : Type*) := Nat → F

/-- The rows of a circuit; those from `usable` on are kept for blinding. -/
structure Domain where
  rows : Nat
  usable : Nat
  usable_lt : usable < rows

/-- A row relative to the one a gate is at. -/
abbrev Rotation := Int

def Rotation.cur : Rotation := 0

def Rotation.prev : Rotation := -1

/-- The row a rotation leads to from row `r`. -/
def Domain.at (D : Domain) (r : Nat) (rotation : Rotation) : Nat :=
  ((r + rotation) % D.rows).toNat

/-- The constraints of a gate, given the row each rotation leads to. -/
abbrev Gate (F : Type*) := (Rotation → Nat) → List F

structure System (F : Type*) where
  gates : List (Gate F) := []
  /-- Input column and table column. -/
  lookups : List (Column F × Column F) := []
  /-- Two columns with the same cells, in any order. -/
  shuffles : List (Column F × Column F) := []

variable {F : Type*}

namespace Domain

variable (D : Domain)

theorem at_cur {r : Nat} (hr : r < D.rows) : D.at r .cur = r := by
  have h : ((r : Int) + 0) % D.rows = r := by
    rw [Int.add_zero]
    exact Int.emod_eq_of_lt (by omega) (by omega)
  simp only [Domain.at, Rotation.cur, h, Int.toNat_natCast]

theorem at_prev {r : Nat} (hr : r + 1 < D.rows) : D.at (r + 1) .prev = r := by
  have h : (((r + 1 : Nat) : Int) + -1) % D.rows = r := by
    rw [show ((r + 1 : Nat) : Int) + -1 = r by omega]
    exact Int.emod_eq_of_lt (by omega) (by omega)
  simp only [Domain.at, Rotation.prev, h, Int.toNat_natCast]

end Domain

/-- Every cell of the input column is a cell of the table. -/
def LookupHolds (D : Domain) (input table : Column F) : Prop :=
  ∀ r < D.usable, ∃ t < D.usable, table t = input r

def ShuffleHolds (D : Domain) (input shuffle : Column F) : Prop :=
  ((List.range D.usable).map input).Perm ((List.range D.usable).map shuffle)

namespace System

instance : Append (System F) :=
  ⟨fun S T => ⟨S.gates ++ T.gates, S.lookups ++ T.lookups, S.shuffles ++ T.shuffles⟩⟩

structure Holds [Zero F] (S : System F) (D : Domain) : Prop where
  gates : ∀ r < D.rows, ∀ g ∈ S.gates, ∀ v ∈ g (D.at r), v = 0
  lookups : ∀ l ∈ S.lookups, LookupHolds D l.1 l.2
  shuffles : ∀ s ∈ S.shuffles, ShuffleHolds D s.1 s.2

/-- The gates vanish at row `r`. -/
def GatesHold [Zero F] (S : System F) (D : Domain) (r : Nat) : Prop :=
  ∀ g ∈ S.gates, ∀ v ∈ g (D.at r), v = 0

instance [Zero F] [DecidableEq F] (S : System F) (D : Domain) (r : Nat) :
    Decidable (S.GatesHold D r) :=
  inferInstanceAs (Decidable (∀ g ∈ S.gates, ∀ v ∈ g (D.at r), v = 0))

/-- The inputs of row `r` are in their tables. -/
def LookupsHold (S : System F) (D : Domain) (r : Nat) : Prop :=
  ∀ l ∈ S.lookups, ∃ t < D.usable, l.2 t = l.1 r

instance [DecidableEq F] (D : Domain) (input table : Column F) :
    Decidable (LookupHolds D input table) :=
  inferInstanceAs (Decidable (∀ r < D.usable, ∃ t < D.usable, table t = input r))

instance [DecidableEq F] (D : Domain) (input shuffle : Column F) :
    Decidable (ShuffleHolds D input shuffle) :=
  inferInstanceAs (Decidable (List.Perm _ _))

instance [Zero F] [DecidableEq F] (S : System F) (D : Domain) : Decidable (S.Holds D) :=
  decidable_of_iff ((∀ r < D.rows, S.GatesHold D r) ∧
      (∀ l ∈ S.lookups, LookupHolds D l.1 l.2) ∧ ∀ s ∈ S.shuffles, ShuffleHolds D s.1 s.2)
    ⟨fun h => ⟨h.1, h.2.1, h.2.2⟩, fun h => ⟨h.gates, h.lookups, h.shuffles⟩⟩

variable [Zero F] {D : Domain}

theorem holds_append {S T : System F} : (S ++ T).Holds D ↔ S.Holds D ∧ T.Holds D := by
  constructor
  · intro h
    exact ⟨⟨fun r hr g hg => h.gates r hr g (List.mem_append_left _ hg),
        fun l hl => h.lookups l (List.mem_append_left _ hl),
        fun s hs => h.shuffles s (List.mem_append_left _ hs)⟩,
      ⟨fun r hr g hg => h.gates r hr g (List.mem_append_right _ hg),
        fun l hl => h.lookups l (List.mem_append_right _ hl),
        fun s hs => h.shuffles s (List.mem_append_right _ hs)⟩⟩
  · rintro ⟨hS, hT⟩
    constructor
    · intro r hr g hg
      rcases List.mem_append.mp hg with hg | hg
      · exact hS.gates r hr g hg
      · exact hT.gates r hr g hg
    · intro l hl
      rcases List.mem_append.mp hl with hl | hl
      · exact hS.lookups l hl
      · exact hT.lookups l hl
    · intro s hs
      rcases List.mem_append.mp hs with hs | hs
      · exact hS.shuffles s hs
      · exact hT.shuffles s hs

theorem holds_gates {gates : List (Gate F)} : (System.mk gates [] []).Holds D ↔
    ∀ r < D.rows, ∀ g ∈ gates, ∀ v ∈ g (D.at r), v = 0 :=
  ⟨fun h => h.gates, fun h => ⟨h, by simp, by simp⟩⟩

theorem holds_lookup {input table : Column F} :
    (System.mk [] [(input, table)] []).Holds D ↔ LookupHolds D input table :=
  ⟨fun h => h.lookups _ List.mem_cons_self, fun h => ⟨by simp, by simpa using h, by simp⟩⟩

theorem holds_shuffle {input shuffle : Column F} :
    (System.mk [] [] [(input, shuffle)]).Holds D ↔ ShuffleHolds D input shuffle :=
  ⟨fun h => h.shuffles _ List.mem_cons_self, fun h => ⟨by simp, by simp, by simpa using h⟩⟩

theorem holds_empty : (System.mk [] [] [] : System F).Holds D :=
  ⟨by simp, by simp, by simp⟩

/-- A join of many systems. -/
def join (systems : List (System F)) : System F := systems.foldr (· ++ ·) ⟨[], [], []⟩

theorem holds_join {systems : List (System F)} :
    (join systems).Holds D ↔ ∀ S ∈ systems, S.Holds D := by
  induction systems with
  | nil => exact iff_of_true holds_empty (by simp)
  | cons S systems ih =>
    rw [join, List.foldr_cons, holds_append, List.forall_mem_cons]
    exact and_congr_right fun _ => ih

end System

/-! ## Fixed columns -/

section Fixed

variable [Semiring F]

/-- The values `0, ..., N - 1` assigned to the rows from `start` on. -/
def load (N start : Nat) (col : Column F) : Column F := fun r =>
  if start ≤ r ∧ r < start + N then ((r - start : Nat) : F) else col r

/-- One at the rows of `[lo, hi)`. -/
def enabled (lo hi : Nat) : Column F := fun r => if lo ≤ r ∧ r < hi then 1 else 0

theorem enabled_of_mem {lo hi r : Nat} (h : lo ≤ r ∧ r < hi) : (enabled lo hi r : F) = 1 := if_pos h

theorem enabled_of_not_mem {lo hi r : Nat} (h : ¬ (lo ≤ r ∧ r < hi)) : (enabled lo hi r : F) = 0 :=
  if_neg h

/-- A condition that only enabled rows impose. -/
theorem forall_enabled (lo hi : Nat) {rows : Nat} (hhi : hi ≤ rows) {P : Nat → Prop}
    (h : ∀ r < rows, (enabled lo hi r : F) = 0 → P r) :
    (∀ r < rows, P r) ↔ ∀ r, lo ≤ r ∧ r < hi → P r := by
  constructor
  · intro hall r hr
    exact hall r (hr.2.trans_le hhi)
  · intro hsel r hr
    by_cases hmem : lo ≤ r ∧ r < hi
    · exact hsel r hmem
    · exact h r hr (enabled_of_not_mem hmem)

/-- The cells of a region, row by row from `start` on; a cell left unassigned is zero. -/
def place {ρ : Type*} (start : Nat) (rows : List ρ) (cell : ρ → F) : Column F := fun r =>
  if start ≤ r then (rows[r - start]?).elim 0 cell else 0

theorem place_of_some {ρ : Type*} {start i : Nat} {rows : List ρ} {row : ρ} (cell : ρ → F)
    (h : rows[i]? = some row) : place start rows cell (start + i) = cell row := by
  rw [place, if_pos (Nat.le_add_right _ _), Nat.add_sub_cancel_left, h]
  rfl

/-- A row of the domain is a row of the region, or unassigned. -/
theorem place_cases {ρ : Type*} (start : Nat) (rows : List ρ) (r : Nat) :
    (∃ row ∈ rows, ∀ cell : ρ → F, place start rows cell r = cell row) ∨
      ∀ cell : ρ → F, place start rows cell r = 0 := by
  by_cases h : start ≤ r ∧ r - start < rows.length
  · have hget := List.getElem?_eq_getElem h.2
    refine .inl ⟨rows[r - start], List.getElem_mem h.2, fun cell => ?_⟩
    rw [place, if_pos h.1, hget]
    rfl
  · refine .inr fun cell => ?_
    unfold place
    split
    case isTrue hr => rw [List.getElem?_eq_none (by omega)]; rfl
    case isFalse => rfl

/-- One of `0, ..., N - 1`. -/
def Below (N : Nat) (x : F) : Prop := ∃ v < N, x = (v : F)

theorem below_zero {N : Nat} (h : 0 < N) : Below N (0 : F) := ⟨0, h, by simp⟩

/-- A column that holds a table of the values below `N`, and zero elsewhere. -/
structure Ranges (N : Nat) (table : Column F) (D : Domain) : Prop where
  below : ∀ t, Below N (table t)
  has : ∀ v < N, ∃ t < D.usable, table t = (v : F)

theorem ranges_load {N : Nat} {D : Domain} (hN : 0 < N) (hfit : N ≤ D.usable) :
    Ranges N (load N 0 fun _ => (0 : F)) D := by
  constructor
  · intro t
    by_cases ht : t < N
    · exact ⟨t, ht, by simp [load, ht]⟩
    · exact ⟨0, hN, by simp [load, ht]⟩
  · intro v hv
    exact ⟨v, by omega, by simp [load, hv]⟩

/-- A second copy further down changes nothing. -/
theorem Ranges.load {N start : Nat} {D : Domain} {table : Column F} (h : Ranges N table D)
    (hfit : start + N ≤ D.usable) : Ranges N (Plonkish.load N start table) D := by
  constructor
  · intro t
    by_cases ht : start ≤ t ∧ t < start + N
    · exact ⟨t - start, by omega, by simp [Plonkish.load, ht]⟩
    · obtain ⟨v, hv, he⟩ := h.below t
      exact ⟨v, hv, by simp [Plonkish.load, ht, he]⟩
  · intro v hv
    exact ⟨start + v, by omega, by simp [Plonkish.load, hv]⟩

theorem Ranges.mem_iff {N : Nat} {D : Domain} {table : Column F} (h : Ranges N table D) {x : F} :
    (∃ t < D.usable, table t = x) ↔ Below N x := by
  constructor
  · rintro ⟨t, -, ht⟩
    obtain ⟨v, hv, he⟩ := h.below t
    exact ⟨v, hv, ht.symm.trans he⟩
  · rintro ⟨v, hv, he⟩
    obtain ⟨t, ht, hv'⟩ := h.has v hv
    exact ⟨t, ht, hv'.trans he.symm⟩

/-- A lookup in the table is a range check. -/
theorem Ranges.lookup_iff {N : Nat} {D : Domain} {input table : Column F} (h : Ranges N table D) :
    LookupHolds D input table ↔ ∀ r < D.usable, Below N (input r) :=
  forall₂_congr fun _ _ => h.mem_iff

end Fixed

end Plonkish
