import Orochimaru.Zkmemory.Constraints.OriginalMemory
import Orochimaru.Zkmemory.Constraints.SortedAssignment

/-!
# The original-memory circuit, row by row

What the gates and lookups of `OriginalMemoryConfig` say about the rows of a region, and
the assignment of a trace in execution order, which satisfies them exactly when the
trace starts at time zero.
-/

namespace Zkmemory.Constraints

open Plonkish FieldDigits Positional ConvertedTraceRecord Loops

variable {p : Nat} [Fact p.Prime]

/-- The selectors of a region of `n` rows. -/
structure OriginalMemoryConfig.Selected {F : Type*} [Field F] (c : OriginalMemoryConfig F)
    (start n : Nat) : Prop where
  selector : c.selector = enabled (start + 1) (start + n)
  selectorZero : c.selectorZero = enabled start (start + min 1 n)

theorem OriginalMemoryConfig.holds_iff (c : OriginalMemoryConfig (ZMod p)) {alpha : ZMod p}
    {D : Domain} {start n : Nat} (hsel : c.Selected start n) (htab : c.lookupTables.Loaded D)
    (hfit : start + n ≤ D.usable) : (c.configure (alphaPower alpha 40)).Holds D ↔
      (0 < n → timeToExpression (c.traceRecord.queries start).timeLog = 0) ∧
      (∀ i, i + 1 < n → ∃ k < 8, c.greaterThan.Ordered alpha
        (c.traceRecord.limbs false (start + i + 1)) (c.traceRecord.limbs false (start + i))
        (start + i + 1) k) ∧ c.greaterThan.InRange false D := by
  have hrows := D.usable_lt
  have hgates : (System.mk c.gates [] []).Holds D ↔
      (0 < n → timeToExpression (c.traceRecord.queries start).timeLog = 0) := by
    rw [gates, hsel.selectorZero, holds_gate_first hfit]
    · refine imp_congr_right fun hn => ?_
      have hone : (enabled start (start + min 1 n) start : ZMod p) = 1 := enabled_of_mem (by omega)
      simp only [List.mem_singleton, forall_eq, D.at_cur (show start < D.rows by omega), hone,
        one_mul]
    · intro row h
      simp [h]
  have hindex : c.greaterThan.InRange false D → ∀ r < D.usable, ∀ k < 2 ^ 3,
      (∀ i, c.greaterThan.index r i = (asBits 3 k i : ZMod p)) → k < limbCount false :=
    fun _ _ _ _ hk _ => hk
  rw [configure, System.holds_append, hgates, hsel.selector,
    c.greaterThan.holds_iff htab.size256 htab.size40 hfit (by decide) hindex]
  exact ⟨fun ⟨⟨ho, hr⟩, ht⟩ => ⟨ht, ho, hr⟩, fun ⟨ht, ho, hr⟩ => ⟨⟨ho, hr⟩, ht⟩⟩

/-! ## Assignment -/

/-- The cells of a row whose record is `cur`, after the record `prev`. -/
structure OriginalMemoryRow.Fits (row : OriginalMemoryRow (ZMod p)) (prev cur : TraceRecord 32 32) :
    Prop where
  record : row.record = ofRecord cur
  inverse : row.difference * row.differenceInverse = 1
  order : ∃ k < 8, (∀ i, row.firstDifferenceLimb i = (asBits 3 k i : ZMod p)) ∧
    FirstLarger (beDigit 256 8 cur.timeLog.val) (beDigit 256 8 prev.timeLog.val) k ∧
    row.difference = (beDigit 256 8 cur.timeLog.val k : ZMod p) - beDigit 256 8 prev.timeLog.val k

theorem exists_firstLarger_time {prev cur : U64} (h : prev < cur) :
    ∃ k < 8, FirstLarger (beDigit 256 8 cur.val) (beDigit 256 8 prev.val) k := by
  have hdigit : ∀ (x : Nat) (i : Nat), i < 8 → beDigit 256 8 x i < 256 :=
    fun x i _ => beDigit_lt (by decide) _ _ _
  have hval : ∀ x : U64, beVal 256 8 (beDigit 256 8 x.val) = x.val := fun x => by
    rw [beVal_beDigit, Nat.mod_eq_of_lt x.isLt]
  rw [Uint.lt_iff, ← hval prev, ← hval cur, beVal_lt_iff (hdigit _) (hdigit _)] at h
  obtain ⟨k, hk, hbefore, hlt⟩ := h
  exact ⟨k, hk, fun j hj => (hbefore j hj).symm, hlt, hdigit _ k hk⟩

theorem originalMemoryAssign_ok (hp : 256 ≤ p) {records : List (ConvertedTraceRecord (ZMod p))}
    {offset : Nat} {prev cur : TraceRecord 32 32}
    (hcur : records[offset + 1]? = some (ofRecord cur))
    (hprev : records[offset]? = some (ofRecord prev)) (htime : prev.timeLog < cur.timeLog) :
    ∃ row, originalMemoryAssign records (offset + 1) = .ok row ∧ row.Fits prev cur := by
  obtain ⟨k, hk, hfirst⟩ := exists_firstLarger_time htime
  have hne := sub_ne_zero.mpr (hfirst.cast_ne hp)
  have hfind : findDifference 8 (List.ofFn (ofRecord cur : ConvertedTraceRecord (ZMod p)).timeLog)
      (List.ofFn (ofRecord prev).timeLog) = (k, (beDigit 256 8 cur.timeLog.val k : ZMod p),
        (beDigit 256 8 prev.timeLog.val k : ZMod p)) := by
    have hlimbs := timeLimbs_ofRecord (p := p)
    simp only [beLimbs, Bool.not_false, if_true] at hlimbs
    rw [hlimbs, hlimbs]
    exact findDifference_eq hk (fun j hj => congrArg _ (hfirst.before j hj)) (hfirst.cast_ne hp)
  rw [originalMemoryAssign, hcur, hprev]
  simp only [hfind, invert_of_ne hne, ok_bind]
  exact ⟨_, rfl, rfl, mul_inv_cancel₀ hne, k, hk, fun i => rfl, hfirst, rfl⟩

/-- The rows of the region of a trace. -/
def OriginalRows (records : List (TraceRecord 32 32)) (rows : List (OriginalMemoryRow (ZMod p))) :
    Prop :=
  RegionRows (fun q => ⟨q, 0, 0, fun _ => 0⟩) OriginalMemoryRow.Fits records rows

theorem originalRows_ok (hp : 256 ≤ p) {records : List (TraceRecord 32 32)}
    (hinc : records.IsChain fun a b => a.timeLog < b.timeLog) :
    ∃ rows : List (OriginalMemoryRow (ZMod p)), (List.range records.length).mapM
        (originalMemoryAssign (records.map ofRecord)) = .ok rows ∧ OriginalRows records rows := by
  apply regionRows_ok originalMemoryAssign _ _ hinc
  · intro l cur h
    rw [originalMemoryAssign, h]
  · intro l i prev cur hprev hcur htime
    exact originalMemoryAssign_ok hp hcur hprev htime

namespace OriginalRows

variable {records : List (TraceRecord 32 32)} {rows : List (OriginalMemoryRow (ZMod p))}
  {tables : LookUpTables (ZMod p)} {D : Domain} {start : Nat} {alpha : ZMod p}

theorem queries (h : OriginalRows records rows) (start : Nat) (tables : LookUpTables (ZMod p))
    {i : Nat} {cur : TraceRecord 32 32} (hcur : records[i]? = some cur) :
    (originalMemoryColumns start tables rows).traceRecord.queries (start + i) = ofRecord cur :=
  RegionRows.queries h (fun _ => rfl) (fun _ _ _ hfits => hfits.record) start hcur

theorem difference_below (h : OriginalRows records rows) {row : OriginalMemoryRow (ZMod p)}
    (hrow : row ∈ rows) : Below 256 row.difference := by
  rcases h.mem_cases hrow with ⟨cur, rfl⟩ | ⟨prev, cur, hfits⟩
  · exact below_zero (by decide)
  · obtain ⟨k, -, -, hfirst, hdiff⟩ := hfits.order
    exact hdiff ▸ hfirst.sub_below

theorem ordered (h : OriginalRows records rows) {i : Nat} {prev cur : TraceRecord 32 32}
    (hprev : records[i]? = some prev) (hcur : records[i + 1]? = some cur) :
    ∃ k < 8, (originalMemoryColumns start tables rows).greaterThan.Ordered alpha
      ((originalMemoryColumns start tables rows).traceRecord.limbs false (start + i + 1))
      ((originalMemoryColumns start tables rows).traceRecord.limbs false (start + i))
      (start + i + 1) k := by
  obtain ⟨row, hrow, hfits⟩ := h.later i prev cur hprev hcur
  have hcell : ∀ cell : OriginalMemoryRow (ZMod p) → ZMod p,
      place start rows cell (start + i + 1) = cell row := fun cell => place_of_some cell hrow
  obtain ⟨k, hk, hbits, hfirst, hdiff⟩ := hfits.order
  have hlimb : ∀ j < 8, limbDifference
      ((originalMemoryColumns start tables rows).traceRecord.limbs false (start + i + 1))
      ((originalMemoryColumns start tables rows).traceRecord.limbs false (start + i)) j =
      (beDigit 256 8 cur.timeLog.val j : ZMod p) - beDigit 256 8 prev.timeLog.val j := by
    intro j hj
    rw [TraceRecordWitnessTable.limbs, TraceRecordWitnessTable.limbs, h.queries start tables hprev,
      Nat.add_assoc, h.queries start tables hcur, timeLimbs_ofRecord, timeLimbs_ofRecord,
      limbDifference, List.getD_eq_getElem _ _ (by simpa using hj),
      List.getD_eq_getElem _ _ (by simpa using hj)]
    simp
  refine ⟨k, hk, fun i => (hcell _).trans (hbits i), ?_, ?_, ?_⟩
  · exact (congrArg₂ (· * ·) (hcell _) (hcell _)).trans hfits.inverse
  · refine combination_of_zero _ fun j hj => ?_
    rw [hlimb j (hj.trans hk), hfirst.before j hj, sub_self]
  · rw [hlimb k hk]
    exact (hcell _).trans hdiff

/-- **The assignment of a trace in time order satisfies the circuit if it starts at time
zero.** -/
theorem holds (h : OriginalRows records rows) (htab : tables.Loaded D)
    (hfit : start + records.length ≤ D.usable)
    (hfirst : ∀ r ∈ records.head?, r.timeLog.val = 0) :
    ((originalMemoryColumns start tables rows).configure (alphaPower alpha 40)).Holds D := by
  rw [OriginalMemoryConfig.holds_iff _ (n := rows.length) ⟨rfl, rfl⟩ htab (h.length ▸ hfit),
    h.length]
  refine ⟨fun hn => ?_, fun i hi => ?_, by simp, fun r _ => ?_⟩
  · have hget := List.getElem?_eq_getElem hn
    have hq : (originalMemoryColumns start tables rows).traceRecord.queries start = ofRecord _ :=
      h.queries start tables hget
    rw [hq]
    change timeToExpression (ofBytes (Uint.toBeBytes _)) = 0
    rw [timeToExpression_word, hfirst _ (by rw [List.head?_eq_getElem?]; exact hget), Nat.cast_zero]
  · exact h.ordered (List.getElem?_eq_getElem (Nat.lt_of_succ_lt hi)) (List.getElem?_eq_getElem hi)
  · rcases place_cases (F := ZMod p) start rows r with ⟨row, hrow, hr⟩ | hr
    · exact (congrArg (Below 256) (hr _)).mpr (h.difference_below hrow)
    · exact (congrArg (Below 256) (hr _)).mpr (below_zero (by decide))

end OriginalRows

end Zkmemory.Constraints
