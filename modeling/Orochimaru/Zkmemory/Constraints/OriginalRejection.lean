import Orochimaru.Zkmemory.Constraints.OriginalAssignment
import Orochimaru.Zkmemory.Constraints.PastaFp

/-!
# Traces out of time order

The assignment of the original-memory circuit inverts the first difference of the times,
so it fails where two consecutive times are equal. Everywhere else it succeeds, and the
range check of the difference is what a time that goes backwards violates.
-/

namespace Zkmemory.Constraints

open Plonkish FieldDigits Positional ConvertedTraceRecord Loops

variable {p : Nat} [Fact p.Prime]

/-! ## Where the assignment fails -/

theorem findDifference_self {F : Type*} [Field F] [DecidableEq F] (n : Nat) (limbs : List F) :
    findDifference n limbs limbs = (n, 0, 0) := by
  have hnone : ((List.range n).zip (limbs.zip limbs)).find?
      (fun x : Nat × F × F => decide (x.2.1 ≠ x.2.2)) = none := by
    rw [List.find?_eq_none]
    rintro ⟨i, a, b⟩ hmem
    have hself := List.of_mem_zip hmem
    obtain ⟨j, hj, he⟩ := List.mem_iff_getElem.mp hself.2
    rw [List.getElem_zip] at he
    cases he
    simp
  change (List.find? (fun x : Nat × F × F => decide (x.2.1 ≠ x.2.2)) _).getD _ = _
  rw [hnone]
  rfl

theorem invert_zero {F : Type*} [Field F] [DecidableEq F] :
    invert (0 : F) = .error .expectNone := if_pos rfl

/-- Equal limbs leave nothing to invert. -/
theorem originalMemoryAssign_ne {records : List (ConvertedTraceRecord (ZMod p))} {offset : Nat}
    {prev cur : ConvertedTraceRecord (ZMod p)} {row : OriginalMemoryRow (ZMod p)}
    (hprev : records[offset]? = some prev) (hcur : records[offset + 1]? = some cur)
    (h : originalMemoryAssign records (offset + 1) = .ok row) : cur.timeLog ≠ prev.timeLog := by
  intro he
  rw [originalMemoryAssign, hcur, hprev] at h
  simp only [he, findDifference_self, sub_self, invert_zero, error_bind] at h
  cases h

theorem sortedMemoryAssign_ne {records : List (ConvertedTraceRecord (ZMod p))} {random : ZMod p}
    {offset : Nat} {prev cur : ConvertedTraceRecord (ZMod p)} {row : SortedMemoryRow (ZMod p)}
    (hprev : records[offset]? = some prev) (hcur : records[offset + 1]? = some cur)
    (h : sortedMemoryAssign records random (offset + 1) = .ok row) :
    cur.beLimbs true ≠ prev.beLimbs true := by
  intro he
  rw [sortedMemoryAssign, hcur, hprev] at h
  simp only [he, findDifference_self, sub_self, invert_zero, error_bind] at h
  split at h
  · obtain ⟨_, -, h⟩ := bind_ok_iff.mp h
    cases h
  · obtain ⟨_, -, h⟩ := bind_ok_iff.mp h
    cases h

/-! ## Where it succeeds -/

/-- The cells of a row whose time differs from that of the row before it. -/
structure OriginalMemoryRow.Differs (row : OriginalMemoryRow (ZMod p))
    (prev cur : TraceRecord 32 32) : Prop where
  record : row.record = ofRecord cur
  inverse : row.difference * row.differenceInverse = 1
  order : ∃ k < 8, (∀ i, row.firstDifferenceLimb i = (asBits 3 k i : ZMod p)) ∧
    (∀ j < k, beDigit 256 8 cur.timeLog.val j = beDigit 256 8 prev.timeLog.val j) ∧
    row.difference = (beDigit 256 8 cur.timeLog.val k : ZMod p) - beDigit 256 8 prev.timeLog.val k

theorem beVal_time (x : U64) : beVal 256 8 (beDigit 256 8 x.val) = x.val := by
  rw [beVal_beDigit, Nat.mod_eq_of_lt x.isLt]

theorem originalMemoryAssign_differs (hp : 256 ≤ p)
    {records : List (ConvertedTraceRecord (ZMod p))} {offset : Nat} {prev cur : TraceRecord 32 32}
    (hcur : records[offset + 1]? = some (ofRecord cur))
    (hprev : records[offset]? = some (ofRecord prev)) (htime : prev.timeLog ≠ cur.timeLog) :
    ∃ row, originalMemoryAssign records (offset + 1) = .ok row ∧ row.Differs prev cur := by
  obtain ⟨k, hk, hbefore, hdiffers⟩ : ∃ k < 8,
      (∀ j < k, beDigit 256 8 cur.timeLog.val j = beDigit 256 8 prev.timeLog.val j) ∧
        beDigit 256 8 cur.timeLog.val k ≠ beDigit 256 8 prev.timeLog.val k := by
    apply exists_first_diff
    intro hall
    refine htime (Uint.ext ?_)
    rw [← beVal_time prev.timeLog, ← beVal_time cur.timeLog]
    exact beVal_congr fun i hi => (hall i hi).symm
  have hdigit : ∀ x i : Nat, beDigit 256 8 x i < p :=
    fun x i => (beDigit_lt (by decide) _ _ _).trans_le hp
  have hcast : (beDigit 256 8 cur.timeLog.val k : ZMod p) ≠ beDigit 256 8 prev.timeLog.val k :=
    fun he => hdiffers ((natCast_inj_of_lt (hdigit _ _) (hdigit _ _)).mp he)
  have hfind : findDifference 8 (List.ofFn (ofRecord cur : ConvertedTraceRecord (ZMod p)).timeLog)
      (List.ofFn (ofRecord prev).timeLog) = (k, (beDigit 256 8 cur.timeLog.val k : ZMod p),
        (beDigit 256 8 prev.timeLog.val k : ZMod p)) := by
    have hlimbs := timeLimbs_ofRecord (p := p)
    simp only [beLimbs, Bool.not_false, if_true] at hlimbs
    rw [hlimbs, hlimbs]
    exact findDifference_eq hk (fun j hj => congrArg _ (hbefore j hj)) hcast
  have hne := sub_ne_zero.mpr hcast
  rw [originalMemoryAssign, hcur, hprev]
  simp only [hfind, invert_of_ne hne, ok_bind]
  exact ⟨_, rfl, rfl, mul_inv_cancel₀ hne, k, hk, fun i => rfl, hbefore, rfl⟩

/-- The rows of the region of a trace whose consecutive times differ. -/
def DifferingRows (records : List (TraceRecord 32 32))
    (rows : List (OriginalMemoryRow (ZMod p))) : Prop :=
  RegionRows (fun q => ⟨q, 0, 0, fun _ => 0⟩) OriginalMemoryRow.Differs records rows

theorem differingRows_ok (hp : 256 ≤ p) {records : List (TraceRecord 32 32)}
    (hdiffer : records.IsChain fun a b => a.timeLog ≠ b.timeLog) :
    ∃ rows : List (OriginalMemoryRow (ZMod p)), (List.range records.length).mapM
        (originalMemoryAssign (records.map ofRecord)) = .ok rows ∧ DifferingRows records rows := by
  apply regionRows_ok originalMemoryAssign _ _ hdiffer
  · intro l cur h
    rw [originalMemoryAssign, h]
  · intro l i prev cur hprev hcur htime
    exact originalMemoryAssign_differs hp hcur hprev htime

/-- The difference of two digits is a byte where the first is not smaller. -/
theorem below_sub_iff (hp : 2 ^ 9 < p) {a b : Nat} (ha : a < 256) (hb : b < 256) :
    Below 256 ((a : ZMod p) - (b : ZMod p)) ↔ b ≤ a := by
  constructor
  · rintro ⟨v, hv, he⟩
    rw [sub_eq_iff_eq_add, ← Nat.cast_add, natCast_inj_of_lt (by omega) (by omega)] at he
    omega
  · intro hle
    exact ⟨a - b, by omega, by rw [Nat.cast_sub hle]⟩

/-- The range check of a row is the order of its times. -/
theorem OriginalMemoryRow.Differs.below_iff (hp : 2 ^ 9 < p) {row : OriginalMemoryRow (ZMod p)}
    {prev cur : TraceRecord 32 32} (h : row.Differs prev cur) :
    Below 256 row.difference ↔ prev.timeLog < cur.timeLog := by
  have hdigit : ∀ x i : Nat, beDigit 256 8 x i < 256 := fun x i => beDigit_lt (by decide) _ _ _
  obtain ⟨k, hk, -, hbefore, hdiff⟩ := h.order
  have hne : beDigit 256 8 cur.timeLog.val k ≠ beDigit 256 8 prev.timeLog.val k := by
    intro he
    have hinv := h.inverse
    rw [hdiff, he, sub_self, zero_mul] at hinv
    exact zero_ne_one hinv
  have htime : prev.timeLog < cur.timeLog ↔ beVal 256 8 (beDigit 256 8 prev.timeLog.val) <
      beVal 256 8 (beDigit 256 8 cur.timeLog.val) := by
    rw [beVal_time, beVal_time, Uint.lt_iff]
  rw [hdiff, below_sub_iff hp (hdigit _ _) (hdigit _ _), htime]
  constructor
  · intro hle
    exact beVal_lt_of_first_diff (fun i _ => hdigit _ i) hk (fun j hj => (hbefore j hj).symm)
      (lt_of_le_of_ne hle hne.symm)
  · intro hlt
    by_contra hgt
    have hback := beVal_lt_of_first_diff (fun i _ => hdigit cur.timeLog.val i) hk hbefore
      (Nat.lt_of_not_le hgt)
    omega

namespace DifferingRows

variable {records : List (TraceRecord 32 32)} {rows : List (OriginalMemoryRow (ZMod p))}
  {tables : LookUpTables (ZMod p)} {D : Domain} {start : Nat} {alpha : ZMod p}

theorem queries (h : DifferingRows records rows) (start : Nat) (tables : LookUpTables (ZMod p))
    {i : Nat} {cur : TraceRecord 32 32} (hcur : records[i]? = some cur) :
    (originalMemoryColumns start tables rows).traceRecord.queries (start + i) = ofRecord cur :=
  RegionRows.queries h (fun _ => rfl) (fun _ _ _ hfits => hfits.record) start hcur

/-- The gates hold on every row, whatever its order. -/
theorem ordered (h : DifferingRows records rows) {i : Nat} {prev cur : TraceRecord 32 32}
    (hprev : records[i]? = some prev) (hcur : records[i + 1]? = some cur) :
    ∃ k < 8, (originalMemoryColumns start tables rows).greaterThan.Ordered alpha
      ((originalMemoryColumns start tables rows).traceRecord.limbs false (start + i + 1))
      ((originalMemoryColumns start tables rows).traceRecord.limbs false (start + i))
      (start + i + 1) k := by
  obtain ⟨row, hrow, hfits⟩ := h.later i prev cur hprev hcur
  have hcell : ∀ cell : OriginalMemoryRow (ZMod p) → ZMod p,
      place start rows cell (start + i + 1) = cell row := fun cell => place_of_some cell hrow
  obtain ⟨k, hk, hbits, hbefore, hdiff⟩ := hfits.order
  have hlimb : ∀ j < 8, limbDifference
      ((originalMemoryColumns start tables rows).traceRecord.limbs false (start + i + 1))
      ((originalMemoryColumns start tables rows).traceRecord.limbs false (start + i)) j =
      (beDigit 256 8 cur.timeLog.val j : ZMod p) - beDigit 256 8 prev.timeLog.val j := by
    intro j hj
    rw [TraceRecordWitnessTable.limbs, TraceRecordWitnessTable.limbs, h.queries start tables hprev,
      Nat.add_assoc, h.queries start tables hcur, timeLimbs_ofRecord, timeLimbs_ofRecord,
      limbDifference, List.getD_eq_getElem _ _ (by simpa using hj),
      List.getD_eq_getElem _ _ (by simpa using hj)]
    simp
  refine ⟨k, hk, fun i => (hcell _).trans (hbits i), ?_, ?_, ?_⟩
  · exact (congrArg₂ (· * ·) (hcell _) (hcell _)).trans hfits.inverse
  · refine combination_of_zero _ fun j hj => ?_
    rw [hlimb j (hj.trans hk), hbefore j hj, sub_self]
  · rw [hlimb k hk]
    exact (hcell _).trans hdiff

theorem difference_below_iff (hp : 2 ^ 9 < p) (h : DifferingRows records rows)
    (tables : LookUpTables (ZMod p)) (hfit : start + records.length ≤ D.usable) : (∀ r < D.usable,
        Below 256 ((originalMemoryColumns start tables rows).greaterThan.difference r)) ↔
      records.IsChain fun a b => a.timeLog < b.timeLog := by
  rw [List.isChain_iff_getElem]
  constructor
  · intro hbelow i hi
    obtain ⟨row, hrow, hfits⟩ := h.later i _ _ (List.getElem?_eq_getElem (Nat.lt_of_succ_lt hi))
      (List.getElem?_eq_getElem hi)
    have hcell : place start rows (·.difference) (start + (i + 1)) = row.difference :=
      place_of_some _ hrow
    rw [← hfits.below_iff hp, ← hcell]
    exact hbelow _ (by omega)
  · intro hchain r _
    change Below 256 (place start rows (·.difference) r)
    rcases place_cases (F := ZMod p) start rows r with ⟨row, hrow, hr⟩ | hr
    · rw [hr]
      obtain ⟨i, hi⟩ := List.mem_iff_getElem?.mp hrow
      have hlt := (List.getElem?_eq_some_iff.mp hi).1
      rw [h.length] at hlt
      cases i with
      | zero =>
        rw [h.first _ (List.getElem?_eq_getElem hlt)] at hi
        cases hi
        exact below_zero (by decide)
      | succ i =>
        obtain ⟨row', hrow', hfits⟩ := h.later i _ _
          (List.getElem?_eq_getElem (Nat.lt_of_succ_lt hlt)) (List.getElem?_eq_getElem hlt)
        rw [hi] at hrow'
        cases hrow'
        exact (hfits.below_iff hp).mpr (hchain i hlt)
    · rw [hr]
      exact below_zero (by decide)

/-- The circuit holds on the assigned rows exactly when the times grow from zero on. -/
theorem holds_iff (hp : 2 ^ 64 < p) (h : DifferingRows records rows) (htab : tables.Loaded D)
    (hfit : start + records.length ≤ D.usable) :
    ((originalMemoryColumns start tables rows).configure (alphaPower alpha 40)).Holds D ↔
      (∀ r ∈ records.head?, r.timeLog.val = 0) ∧
        records.IsChain fun a b => a.timeLog < b.timeLog := by
  rw [OriginalMemoryConfig.holds_iff _ (n := rows.length) ⟨rfl, rfl⟩ htab (h.length ▸ hfit),
    h.length]
  have hfirst : (0 < records.length → timeToExpression
      ((originalMemoryColumns start tables rows).traceRecord.queries start).timeLog = 0) ↔
      ∀ r ∈ records.head?, r.timeLog.val = 0 := by
    rw [List.head?_eq_getElem?]
    have hzero : ∀ r, records[0]? = some r → (timeToExpression
        ((originalMemoryColumns start tables rows).traceRecord.queries start).timeLog = 0 ↔
        r.timeLog.val = 0) := by
      intro r hr
      have hlt := r.timeLog.isLt
      have hq : (originalMemoryColumns start tables rows).traceRecord.queries start = ofRecord r :=
        h.queries start tables hr
      rw [hq, ofRecord, timeToExpression_word, ← Nat.cast_zero,
        natCast_inj_of_lt (hlt.trans (by omega)) (by omega)]
    constructor
    · intro hn r hr
      exact (hzero r hr).mp (hn (List.getElem?_eq_some_iff.mp hr).1)
    · intro hr hn
      exact (hzero _ (List.getElem?_eq_getElem hn)).mpr (hr _ (List.getElem?_eq_getElem hn))
  rw [hfirst, ← h.difference_below_iff (by omega) tables hfit]
  constructor
  · rintro ⟨hzero, -, hrange⟩
    exact ⟨hzero, hrange.difference⟩
  · rintro ⟨hzero, hrange⟩
    refine ⟨hzero, fun i hi => ?_, by simp, hrange⟩
    exact h.ordered (List.getElem?_eq_getElem (Nat.lt_of_succ_lt hi)) (List.getElem?_eq_getElem hi)

end DifferingRows

end Zkmemory.Constraints
