import Orochimaru.Zkmemory.Constraints.Ordering
import Orochimaru.Zkmemory.Constraints.SortedMemory

/-!
# The equations of the sorted-memory circuit

What the gates and lookups of `SortedMemoryConfig` say about the rows of a region:
the first record is a write, each later row satisfies `RowEqs`, and every cell of the
witness table is in range.
-/

namespace Zkmemory.Constraints

open Plonkish Rotation FieldDigits Positional

/-- All three tables hold their range and nothing else. -/
structure LookUpTables.Loaded {F : Type*} [Field F] (t : LookUpTables F) (D : Domain) : Prop where
  size256 : Ranges 256 t.size256Table D
  size40 : Ranges 40 t.size40Table D
  size2 : Ranges 2 t.size2Table D

section

variable {F : Type*} [Field F] {D : Domain}

theorem LookUpTables.loaded_blank (h : 256 ≤ D.usable) :
    ((blank : LookUpTables F).load 0).Loaded D :=
  ⟨ranges_load (by decide) h, ranges_load (by decide) (by omega),
    ranges_load (by decide) (by omega)⟩

/-- Loading the tables a second time, further down. -/
theorem LookUpTables.Loaded.load {t : LookUpTables F} (h : t.Loaded D) {start : Nat}
    (hfit : start + 256 ≤ D.usable) : (t.load start).Loaded D :=
  ⟨h.size256.load hfit, h.size40.load (by omega), h.size2.load (by omega)⟩

theorem rangeCheck_holds_iff {N : Nat} {table exp : Column F} (h : Ranges N table D) :
    (rangeCheck table exp).Holds D ↔ ∀ r < D.usable, Below N (exp r) := by
  rw [rangeCheck, System.holds_lookup, h.lookup_iff]

/-- Gates that a selector of the rows after the first one of a region guards. -/
theorem holds_gates_enabled {gates : List (Gate F)} {start n : Nat} (hfit : start + n ≤ D.usable)
    (hzero : ∀ row : Rotation → Nat, enabled (start + 1) (start + n) (row .cur) = (0 : F) →
      ∀ g ∈ gates, ∀ v ∈ g row, v = 0) :
    (System.mk gates [] []).Holds D ↔
      ∀ i, i + 1 < n → ∀ g ∈ gates, ∀ v ∈ g (D.at (start + i + 1)), v = 0 := by
  have hrows := D.usable_lt
  rw [System.holds_gates, forall_enabled (F := F) (start + 1) (start + n) (by omega)
    fun r hr h => hzero (D.at r) (by rwa [D.at_cur hr])]
  constructor
  · intro h i hi
    exact h (start + i + 1) (by omega)
  · intro h r hr
    obtain ⟨i, hi, rfl⟩ : ∃ i, i + 1 < n ∧ r = start + i + 1 :=
      ⟨r - start - 1, by omega, by omega⟩
    exact h i hi

/-- A gate that only the first row of a region enables. -/
theorem holds_gate_first {gate : Gate F} {start n : Nat} (hfit : start + n ≤ D.usable)
    (hzero : ∀ row : Rotation → Nat, enabled start (start + min 1 n) (row .cur) = (0 : F) →
      ∀ v ∈ gate row, v = 0) :
    (System.mk [gate] [] []).Holds D ↔ (0 < n → ∀ v ∈ gate (D.at start), v = 0) := by
  have hrows := D.usable_lt
  rw [System.holds_gates, forall_enabled (F := F) start (start + min 1 n) (by omega)
    fun r hr h => by simpa using hzero (D.at r) (by rwa [D.at_cur hr])]
  constructor
  · intro h hn
    exact h start (by omega) _ List.mem_cons_self
  · intro h r hr
    have hr' : r = start := by omega
    rw [hr']
    simpa using h (by omega)

end

namespace SortedMemoryConfig

variable {p : Nat} [Fact p.Prime] (c : SortedMemoryConfig (ZMod p)) {alpha : ZMod p} {D : Domain}
  {start n : Nat}

/-- The equations of row `r + 1`. -/
structure RowEqs (alpha : ZMod p) (r : Nat) : Prop where
  tempInv : c.addrCurPrev.temp (r + 1) * c.addrCurPrev.tempInv (r + 1) = 1
  zeroOrOne : c.addrCurPrev.temp (r + 1) * c.addrCurPrev.val (r + 1) *
    (1 - c.addrCurPrev.temp (r + 1) * c.addrCurPrev.val (r + 1)) = 0
  ordered : ∃ k < 40, c.greaterThan.Ordered alpha (c.traceRecord.limbs true (r + 1))
    (c.traceRecord.limbs true r) (r + 1) k
  value : (c.traceRecord.instruction (r + 1) - 1) *
    (limbsToExpression (c.traceRecord.queries (r + 1)).value -
      limbsToExpression (c.traceRecord.queries r).value) *
    (1 - c.addrCurPrev.val (r + 1) * c.addrCurPrev.temp (r + 1)) = 0
  addrDiff : limbsToExpression (c.traceRecord.queries (r + 1)).address -
    limbsToExpression (c.traceRecord.queries r).address = c.addrCurPrev.val (r + 1)
  address : (c.traceRecord.instruction (r + 1) - 1) *
    (limbsToExpression (c.traceRecord.queries (r + 1)).address -
      limbsToExpression (c.traceRecord.queries r).address) = 0

/-- The range checks, on every usable row. -/
structure InRange (D : Domain) : Prop where
  instruction : ∀ r < D.usable, Below 2 (c.traceRecord.instruction r)
  address : ∀ i, ∀ r < D.usable, Below 256 (c.traceRecord.address i r)
  value : ∀ i, ∀ r < D.usable, Below 256 (c.traceRecord.value i r)
  timeLog : ∀ i, ∀ r < D.usable, Below 256 (c.traceRecord.timeLog i r)
  order : c.greaterThan.InRange true D

theorem lookups_holds_iff (h : c.lookupTables.Loaded D) : (System.join c.lookups).Holds D ↔
    (∀ r < D.usable, Below 2 (c.traceRecord.instruction r)) ∧
    (∀ i, (∀ r < D.usable, Below 256 (c.traceRecord.address i r)) ∧
      ∀ r < D.usable, Below 256 (c.traceRecord.value i r)) ∧
    ∀ i, ∀ r < D.usable, Below 256 (c.traceRecord.timeLog i r) := by
  rw [System.holds_join, lookups, List.cons_append, List.forall_mem_cons, List.forall_mem_append,
    List.forall_mem_map, List.forall_mem_map]
  simp only [List.mem_finRange, true_imp_iff, System.holds_append, rangeCheck_holds_iff h.size2,
    rangeCheck_holds_iff h.size256]

/-- With an index below 40, six bits name a limb. -/
theorem index_lt (hp : 2 ^ 6 ≤ p) (g : GreaterThanConfig (ZMod p) 6) (h : g.InRange true D) :
    ∀ r < D.usable, ∀ k < 2 ^ 6, (∀ i, g.index r i = (asBits 6 k i : ZMod p)) →
      k < limbCount true := by
  intro r hr k hk hbits
  obtain ⟨v, hv, he⟩ := h.index rfl r hr
  rw [g.lookupValue_asBits hk hbits, natCast_inj_of_lt (by omega) (by omega)] at he
  rw [he]
  exact hv

/-- The circuit's constraints, row by row. -/
theorem holds_iff (hp : 2 ^ 6 ≤ p) (hsel : c.Selected start n) (htab : c.lookupTables.Loaded D)
    (hfit : start + n ≤ D.usable) : (c.configure (alphaPower alpha 40)).Holds D ↔
      (0 < n → c.traceRecord.instruction start = 1) ∧
      (∀ i, i + 1 < n → c.RowEqs alpha (start + i)) ∧ c.InRange D := by
  have hrows := D.usable_lt
  have hzero : (c.addrCurPrev.configure c.selector).Holds D ↔ ∀ i, i + 1 < n →
      c.addrCurPrev.temp (start + i + 1) * c.addrCurPrev.tempInv (start + i + 1) = 1 ∧
      c.addrCurPrev.temp (start + i + 1) * c.addrCurPrev.val (start + i + 1) *
        (1 - c.addrCurPrev.temp (start + i + 1) * c.addrCurPrev.val (start + i + 1)) = 0 := by
    rw [IsZeroConfig.configure, hsel.selector, holds_gates_enabled hfit]
    · refine forall₂_congr fun i hi => ?_
      have hone : (enabled (start + 1) (start + n) (start + i + 1) : ZMod p) = 1 :=
        enabled_of_mem (by omega)
      simp only [List.forall_mem_cons, List.not_mem_nil, false_imp_iff, implies_true, and_true,
        D.at_cur (show start + i + 1 < D.rows by omega), hone, one_mul, sub_eq_zero]
    · intro row h
      simp [h]
  have hgates : (System.mk c.gates [] []).Holds D ↔
      (0 < n → c.traceRecord.instruction start = 1) ∧ ∀ i, i + 1 < n →
      ((c.traceRecord.instruction (start + i + 1) - 1) *
        (limbsToExpression (c.traceRecord.queries (start + i + 1)).value -
          limbsToExpression (c.traceRecord.queries (start + i)).value) *
        (1 - c.addrCurPrev.val (start + i + 1) * c.addrCurPrev.temp (start + i + 1)) = 0 ∧
      limbsToExpression (c.traceRecord.queries (start + i + 1)).address -
        limbsToExpression (c.traceRecord.queries (start + i)).address =
          c.addrCurPrev.val (start + i + 1)) ∧
      (c.traceRecord.instruction (start + i + 1) - 1) *
        (limbsToExpression (c.traceRecord.queries (start + i + 1)).address -
          limbsToExpression (c.traceRecord.queries (start + i)).address) = 0 := by
    rw [gates, show ∀ g : Gate (ZMod p), ∀ gs, System.mk (g :: gs) [] [] =
      System.mk [g] [] [] ++ System.mk gs [] [] from fun _ _ => rfl, System.holds_append,
      hsel.selector, hsel.selectorZero, holds_gate_first hfit, holds_gates_enabled hfit]
    · refine and_congr (imp_congr_right fun hn => ?_) (forall₂_congr fun i hi => ?_)
      · have hone : (enabled start (start + min 1 n) start : ZMod p) = 1 :=
          enabled_of_mem (by omega)
        simp only [List.mem_singleton, forall_eq, D.at_cur (show start < D.rows by omega), hone,
          one_mul, sub_eq_zero]
        rfl
      · have hone : (enabled (start + 1) (start + n) (start + i + 1) : ZMod p) = 1 :=
          enabled_of_mem (by omega)
        simp only [List.forall_mem_cons, List.not_mem_nil, false_imp_iff, implies_true, and_true,
          D.at_cur (show start + i + 1 < D.rows by omega),
          D.at_prev (show start + i + 1 < D.rows by omega), hone, one_mul]
        rw [sub_eq_zero (b := c.addrCurPrev.val _)]
        rfl
    · intro row h
      simp [h]
    · intro row h
      simp [h]
  rw [configure, System.holds_append, System.holds_append, System.holds_append, hzero,
    hsel.selector, c.greaterThan.holds_iff htab.size256 htab.size40 hfit (by decide)
      (index_lt hp c.greaterThan), hgates, c.lookups_holds_iff htab]
  constructor
  · rintro ⟨⟨⟨hz, ho, hr⟩, hw, hg⟩, hi, hav, ht⟩
    refine ⟨hw, fun i hi => ?_, hi, fun i => (hav i).1, fun i => (hav i).2, ht, hr⟩
    exact ⟨(hz i hi).1, (hz i hi).2, ho i hi, (hg i hi).1.1, (hg i hi).1.2, (hg i hi).2⟩
  · rintro ⟨hw, he, hr⟩
    exact ⟨⟨⟨fun i hi => ⟨(he i hi).tempInv, (he i hi).zeroOrOne⟩,
        fun i hi => (he i hi).ordered, hr.order⟩, hw,
        fun i hi => ⟨⟨(he i hi).value, (he i hi).addrDiff⟩, (he i hi).address⟩⟩,
      hr.instruction, fun i => ⟨hr.address i, hr.value i⟩, hr.timeLog⟩

end SortedMemoryConfig

end Zkmemory.Constraints
