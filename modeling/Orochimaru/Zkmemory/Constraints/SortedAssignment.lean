import Orochimaru.Lib.Loops
import Orochimaru.Zkmemory.Constraints.Records
import Orochimaru.Zkmemory.Constraints.SortedEquations

/-!
# The assignment of the sorted-memory circuit

On records in strictly increasing order the assignment succeeds, and its columns
satisfy the circuit exactly when the first record is a write and every later read
agrees with the record before it modulo `2^248`, in address and in value.
-/

namespace Zkmemory.Constraints

open Plonkish FieldDigits Positional ConvertedTraceRecord Loops

variable {p : Nat} [Fact p.Prime]

/-! ## The first difference -/

theorem findDifference_eq {F : Type*} [Field F] [DecidableEq F] {n k : Nat} {f g : Nat → F}
    (hk : k < n) (hbefore : ∀ j < k, f j = g j) (hne : f k ≠ g k) :
    findDifference n ((List.range n).map f) ((List.range n).map g) = (k, f k, g k) := by
  have hzip : (List.range n).zip (((List.range n).map f).zip ((List.range n).map g)) =
      (List.range n).map fun i => (i, f i, g i) := by
    apply List.ext_getElem
    · simp
    · intro i hi₁ hi₂
      simp
  have hfind : ((List.range n).find? fun i => decide (f i ≠ g i)) = some k := by
    rw [List.find?_range_eq_some]
    exact ⟨by simpa using hne, List.mem_range.mpr hk, fun j hj => by simpa using hbefore j hj⟩
  rw [findDifference, hzip, List.find?_map]
  simp only [Function.comp_def]
  rw [hfind]
  rfl

theorem invert_of_ne {F : Type*} [Field F] [DecidableEq F] {x : F} (h : x ≠ 0) :
    invert x = .ok x⁻¹ := if_neg h

/-- One limb is larger, and all limbs before it are equal. -/
structure FirstLarger (cur prev : Nat → Nat) (k : Nat) : Prop where
  before : ∀ j < k, cur j = prev j
  larger : prev k < cur k
  bound : cur k < 256

theorem FirstLarger.cast_ne {cur prev : Nat → Nat} {k : Nat} (h : FirstLarger cur prev k)
    (hp : 256 ≤ p) : (cur k : ZMod p) ≠ (prev k : ZMod p) := by
  have hlarger := h.larger
  have hbound := h.bound
  rw [ne_eq, natCast_inj_of_lt (by omega) (by omega)]
  omega

theorem FirstLarger.sub_below {cur prev : Nat → Nat} {k : Nat} (h : FirstLarger cur prev k) :
    Below 256 ((cur k : ZMod p) - (prev k : ZMod p)) := by
  have hlarger := h.larger
  have hbound := h.bound
  refine ⟨cur k - prev k, by omega, ?_⟩
  rw [Nat.cast_sub (by omega)]

/-! ## One row -/

/-- The cells of a row whose record is `cur`, after the record `prev`. -/
structure SortedMemoryRow.Fits (row : SortedMemoryRow (ZMod p)) (prev cur : TraceRecord 32 32) :
    Prop where
  record : row.record = ofRecord cur
  addressDiff : row.addressDiff = limbsToExpression (ofRecord cur).address -
    limbsToExpression (ofRecord prev).address
  tempInv : row.temp * row.tempInv = 1
  zeroOrOne : row.addressDiff = 0 ∨ row.temp * row.addressDiff = 1
  inverse : row.difference * row.differenceInverse = 1
  order : ∃ k < 40, (∀ i, row.firstDifferenceLimb i = (asBits 6 k i : ZMod p)) ∧
    FirstLarger (orderByte cur) (orderByte prev) k ∧
    row.difference = (orderByte cur k : ZMod p) - (orderByte prev k : ZMod p)

theorem exists_firstLarger {prev cur : TraceRecord 32 32}
    (h : prev.address.val * 2 ^ 64 + prev.timeLog.val < cur.address.val * 2 ^ 64 + cur.timeLog.val) :
    ∃ k < 40, FirstLarger (orderByte cur) (orderByte prev) k := by
  rw [← beVal_orderByte, ← beVal_orderByte, beVal_lt_iff (fun i _ => orderByte_lt prev i)
    fun i _ => orderByte_lt cur i] at h
  obtain ⟨k, hk, hbefore, hlt⟩ := h
  exact ⟨k, hk, fun j hj => (hbefore j hj).symm, hlt, orderByte_lt cur k⟩

theorem sortedMemoryAssign_ok (hp : 256 ≤ p) {records : List (ConvertedTraceRecord (ZMod p))}
    {random : ZMod p} (hrandom : random ≠ 0) {offset : Nat} {prev cur : TraceRecord 32 32}
    (hcur : records[offset + 1]? = some (ofRecord cur))
    (hprev : records[offset]? = some (ofRecord prev))
    (hkey : prev.address.val * 2 ^ 64 + prev.timeLog.val <
      cur.address.val * 2 ^ 64 + cur.timeLog.val) :
    ∃ row, sortedMemoryAssign records random (offset + 1) = .ok row ∧ row.Fits prev cur := by
  obtain ⟨k, hk, hfirst⟩ := exists_firstLarger hkey
  have hne : (orderByte cur k : ZMod p) - (orderByte prev k : ZMod p) ≠ 0 :=
    sub_ne_zero.mpr (hfirst.cast_ne hp)
  have hfind : findDifference 40 ((ofRecord cur : ConvertedTraceRecord (ZMod p)).beLimbs true)
      ((ofRecord prev).beLimbs true) = (k, (orderByte cur k : ZMod p), (orderByte prev k : ZMod p)) := by
    rw [beLimbs_ofRecord, beLimbs_ofRecord]
    exact findDifference_eq hk (fun j hj => congrArg _ (hfirst.before j hj)) (hfirst.cast_ne hp)
  rw [sortedMemoryAssign, hcur, hprev]
  simp only [hfind]
  by_cases hdiff : addressLimbToField (ofRecord cur : ConvertedTraceRecord (ZMod p)).address -
      addressLimbToField (ofRecord prev).address = 0
  · refine ⟨_, by simp only [if_pos hdiff, invert_of_ne hrandom, invert_of_ne hne, ok_bind]; rfl,
      rfl, rfl, mul_inv_cancel₀ hrandom, .inl hdiff, mul_inv_cancel₀ hne,
      k, hk, fun i => rfl, hfirst, rfl⟩
  · refine ⟨_, by simp only [if_neg hdiff, invert_of_ne hdiff, invert_of_ne hne, ok_bind]; rfl,
      rfl, rfl, inv_mul_cancel₀ hdiff, .inr (inv_mul_cancel₀ hdiff), mul_inv_cancel₀ hne,
      k, hk, fun i => rfl, hfirst, rfl⟩

/-! ## The region -/

/-- The rows of the region of a trace. -/
def SortedRows (records : List (TraceRecord 32 32)) (rows : List (SortedMemoryRow (ZMod p))) :
    Prop :=
  RegionRows (fun q => ⟨q, 0, 0, 0, 0, 0, fun _ => 0⟩) SortedMemoryRow.Fits records rows

/-- The order of a sorted trace. -/
def Increasing (records : List (TraceRecord 32 32)) : Prop :=
  records.IsChain fun a b => a.address.val * 2 ^ 64 + a.timeLog.val <
    b.address.val * 2 ^ 64 + b.timeLog.val

theorem sortedRows_ok (hp : 256 ≤ p) {records : List (TraceRecord 32 32)}
    (hinc : Increasing records) {random : Nat → ZMod p} (hrandom : ∀ i, random i ≠ 0) :
    ∃ rows, (List.range records.length).mapM
        (fun i => sortedMemoryAssign (records.map ofRecord) (random i) i) = .ok rows ∧
      SortedRows records rows := by
  apply regionRows_ok (fun l i => sortedMemoryAssign l (random i) i) _ _ hinc
  · intro l cur h
    rw [sortedMemoryAssign, h]
  · intro l i prev cur hprev hcur hkey
    exact sortedMemoryAssign_ok hp (hrandom (i + 1)) hcur hprev hkey

/-! ## What the columns satisfy -/

/-- Agreement on the last 31 bytes of address and value. -/
def SameTails (a b : TraceRecord 32 32) : Prop :=
  a.address.val % 2 ^ 248 = b.address.val % 2 ^ 248 ∧ a.value.val % 2 ^ 248 = b.value.val % 2 ^ 248

/-- The adjacent-row check, blind to the first byte of address and value. -/
def TailLinked (records : List (TraceRecord 32 32)) : Prop :=
  (∀ r ∈ records.head?, r.instruction = .write) ∧
    records.IsChain fun a b => b.instruction = .read → SameTails a b

/-- A read row that satisfies the equations repeats the tails of the row before it. -/
theorem SortedMemoryConfig.RowEqs.read (hp : 2 ^ 248 < p) {c : SortedMemoryConfig (ZMod p)}
    {alpha : ZMod p} {r : Nat} (h : c.RowEqs alpha r) {a b : TraceRecord 32 32}
    (ha : c.traceRecord.queries r = ofRecord a) (hb : c.traceRecord.queries (r + 1) = ofRecord b)
    (hread : b.instruction = .read) : SameTails a b := by
  have hinstr : c.traceRecord.instruction (r + 1) - 1 = -1 := by
    have : (c.traceRecord.queries (r + 1)).instruction = 0 := by
      rw [hb, instruction_read.mpr hread]
    rw [show c.traceRecord.instruction (r + 1) = 0 from this, zero_sub]
  have haddr := h.address
  have hval := h.value
  have hdiff := h.addrDiff
  rw [hinstr, ha, hb, neg_one_mul, neg_eq_zero] at haddr
  rw [ha, hb, haddr] at hdiff
  rw [hinstr, ha, hb, ← hdiff, zero_mul, sub_zero, mul_one, neg_one_mul, neg_eq_zero] at hval
  exact ⟨((limbsToExpression_inj hp _ _).mp (sub_eq_zero.mp haddr)).symm,
    ((limbsToExpression_inj hp _ _).mp (sub_eq_zero.mp hval)).symm⟩

/-- The two gates on reads hold where a read repeats the tails. -/
theorem read_gates (hp : 2 ^ 248 < p) {a b : TraceRecord 32 32}
    (h : b.instruction = .read → SameTails a b) (x : ZMod p) :
    ((ofRecord b : ConvertedTraceRecord (ZMod p)).instruction - 1) *
      (limbsToExpression (ofRecord b).value - limbsToExpression (ofRecord a).value) * x = 0 ∧
    ((ofRecord b : ConvertedTraceRecord (ZMod p)).instruction - 1) *
      (limbsToExpression (ofRecord b).address - limbsToExpression (ofRecord a).address) = 0 := by
  cases hb : b.instruction with
  | write =>
    rw [instruction_write.mpr hb, sub_self, zero_mul, zero_mul, zero_mul]
    exact ⟨rfl, rfl⟩
  | read =>
    obtain ⟨haddr, hval⟩ := h hb
    have haddr' : limbsToExpression (ofRecord b).address =
        limbsToExpression (ofRecord a : ConvertedTraceRecord (ZMod p)).address :=
      (limbsToExpression_inj hp _ _).mpr haddr.symm
    have hval' : limbsToExpression (ofRecord b).value =
        limbsToExpression (ofRecord a : ConvertedTraceRecord (ZMod p)).value :=
      (limbsToExpression_inj hp _ _).mpr hval.symm
    rw [haddr', hval', sub_self, sub_self, mul_zero, zero_mul]
    exact ⟨rfl, rfl⟩

theorem below_instruction (record : TraceRecord 32 32) :
    Below 2 (ofRecord record : ConvertedTraceRecord (ZMod p)).instruction := by
  cases h : record.instruction with
  | write => exact ⟨1, by decide, by rw [instruction_write.mpr h, Nat.cast_one]⟩
  | read => exact ⟨0, by decide, by rw [instruction_read.mpr h, Nat.cast_zero]⟩

namespace SortedRows

variable {records : List (TraceRecord 32 32)} {rows : List (SortedMemoryRow (ZMod p))}
  {tables : LookUpTables (ZMod p)} {D : Domain} {start : Nat} {alpha : ZMod p}

theorem cell (h : SortedRows records rows) {row : SortedMemoryRow (ZMod p)} (hrow : row ∈ rows) :
    (∃ cur, row.record = ofRecord cur) ∧ Below 256 row.difference ∧
      ∃ k < 40, ∀ i, row.firstDifferenceLimb i = (asBits 6 k i : ZMod p) := by
  rcases h.mem_cases hrow with ⟨cur, rfl⟩ | ⟨prev, cur, hfits⟩
  · refine ⟨⟨_, rfl⟩, below_zero (by decide), 0, by decide, fun i => ?_⟩
    simp [asBits, beDigit]
  · obtain ⟨k, hk, hbits, hfirst, hdiff⟩ := hfits.order
    exact ⟨⟨_, hfits.record⟩, hdiff ▸ hfirst.sub_below, k, hk, hbits⟩

theorem queries (h : SortedRows records rows) (start : Nat) (tables : LookUpTables (ZMod p))
    {i : Nat} {cur : TraceRecord 32 32} (hcur : records[i]? = some cur) :
    (sortedMemoryColumns start tables rows).traceRecord.queries (start + i) = ofRecord cur :=
  RegionRows.queries h (fun _ => rfl) (fun _ _ _ hfits => hfits.record) start hcur

theorem inRange (h : SortedRows records rows) :
    (sortedMemoryColumns start tables rows).InRange D := by
  have hall : ∀ (N : Nat) (cell : SortedMemoryRow (ZMod p) → ZMod p), 0 < N →
      (∀ row ∈ rows, Below N (cell row)) → ∀ r, Below N (place start rows cell r) := by
    intro N cell hN hcell r
    rcases place_cases (F := ZMod p) start rows r with ⟨row, hrow, hr⟩ | hr
    · rw [hr]
      exact hcell row hrow
    · rw [hr]
      exact below_zero hN
  refine ⟨fun r _ => hall 2 _ (by decide) (fun row hrow => ?_) r,
    fun i r _ => hall 256 _ (by decide) (fun row hrow => ?_) r,
    fun i r _ => hall 256 _ (by decide) (fun row hrow => ?_) r,
    fun i r _ => hall 256 _ (by decide) (fun row hrow => ?_) r,
    ⟨fun _ r _ => ?_, fun r _ => hall 256 _ (by decide) (fun row hrow => (h.cell hrow).2.1) r⟩⟩
  · obtain ⟨cur, hcur⟩ := (h.cell hrow).1
    simp only [hcur]
    exact below_instruction cur
  · obtain ⟨cur, hcur⟩ := (h.cell hrow).1
    simp only [hcur]
    exact below_byte _ i
  · obtain ⟨cur, hcur⟩ := (h.cell hrow).1
    simp only [hcur]
    exact below_byte _ i
  · obtain ⟨cur, hcur⟩ := (h.cell hrow).1
    simp only [hcur]
    exact below_byte _ i
  · obtain ⟨k, hk, hbits⟩ : ∃ k < 40, ∀ i,
        (sortedMemoryColumns start tables rows).greaterThan.index r i = (asBits 6 k i : ZMod p) := by
      rcases place_cases (F := ZMod p) start rows r with ⟨row, hrow, hr⟩ | hr
      · obtain ⟨k, hk, hbits⟩ := (h.cell hrow).2.2
        exact ⟨k, hk, fun i => (hr _).trans (hbits i)⟩
      · exact ⟨0, by decide, fun i => (hr _).trans (by simp [asBits, beDigit])⟩
    exact ⟨k, hk, GreaterThanConfig.lookupValue_asBits _ (by omega) hbits⟩

/-- Every equation but those on reads holds by assignment. -/
theorem rowEqs_iff (h : SortedRows records rows) (hp : 2 ^ 248 < p) {i : Nat}
    {prev cur : TraceRecord 32 32} (hprev : records[i]? = some prev)
    (hcur : records[i + 1]? = some cur) :
    (sortedMemoryColumns start tables rows).RowEqs alpha (start + i) ↔
      (cur.instruction = .read → SameTails prev cur) := by
  have hq := h.queries start tables hprev
  have hq' := h.queries start tables hcur
  rw [← Nat.add_assoc] at hq'
  constructor
  · intro he hread
    exact he.read hp hq hq' hread
  · intro hread
    obtain ⟨row, hrow, hfits⟩ := h.later i prev cur hprev hcur
    have hcell : ∀ cell : SortedMemoryRow (ZMod p) → ZMod p,
        place start rows cell (start + i + 1) = cell row := fun cell => place_of_some cell hrow
    have hgates := read_gates hp hread
      (1 - (sortedMemoryColumns start tables rows).addrCurPrev.val (start + i + 1) *
        (sortedMemoryColumns start tables rows).addrCurPrev.temp (start + i + 1))
    obtain ⟨k, hk, hbits, hfirst, hdiff⟩ := hfits.order
    have hlimb : ∀ j < 40, limbDifference
        ((sortedMemoryColumns start tables rows).traceRecord.limbs true (start + i + 1))
        ((sortedMemoryColumns start tables rows).traceRecord.limbs true (start + i)) j =
        (orderByte cur j : ZMod p) - (orderByte prev j : ZMod p) := by
      intro j hj
      rw [TraceRecordWitnessTable.limbs, TraceRecordWitnessTable.limbs, hq, hq']
      exact limbDifference_ofRecord prev cur hj
    refine ⟨?_, ?_, ⟨k, hk, fun i => (hcell _).trans (hbits i), ?_, ?_, ?_⟩, ?_, ?_, ?_⟩
    · exact (congrArg₂ (· * ·) (hcell _) (hcell _)).trans hfits.tempInv
    · have hval : (sortedMemoryColumns start tables rows).addrCurPrev.val (start + i + 1) =
          row.addressDiff := hcell _
      have htemp : (sortedMemoryColumns start tables rows).addrCurPrev.temp (start + i + 1) =
          row.temp := hcell _
      rw [hval, htemp]
      rcases hfits.zeroOrOne with h0 | h1
      · rw [h0, mul_zero, zero_mul]
      · rw [h1, sub_self, mul_zero]
    · exact (congrArg₂ (· * ·) (hcell _) (hcell _)).trans hfits.inverse
    · refine combination_of_zero _ fun j hj => ?_
      rw [hlimb j (hj.trans hk), hfirst.before j hj, sub_self]
    · rw [hlimb k hk]
      exact (hcell _).trans hdiff
    · have hinstr : (sortedMemoryColumns start tables rows).traceRecord.instruction
          (start + i + 1) = (ofRecord cur).instruction := congrArg (·.instruction) hq'
      rw [hinstr, hq, hq']
      exact hgates.1
    · rw [hq, hq']
      exact hfits.addressDiff.symm.trans (hcell _).symm
    · have hinstr : (sortedMemoryColumns start tables rows).traceRecord.instruction
          (start + i + 1) = (ofRecord cur).instruction := congrArg (·.instruction) hq'
      rw [hinstr, hq, hq']
      exact hgates.2

/-- **The assignment of a sorted trace satisfies the circuit exactly when the trace
passes the adjacent-row check on tails.** -/
theorem holds_iff (h : SortedRows records rows) (hp : 2 ^ 248 < p) (htab : tables.Loaded D)
    (hfit : start + records.length ≤ D.usable) :
    ((sortedMemoryColumns start tables rows).configure (alphaPower alpha 40)).Holds D ↔
      TailLinked records := by
  have h6 : 2 ^ 6 ≤ p := by omega
  rw [SortedMemoryConfig.holds_iff _ h6 (n := rows.length) ⟨rfl, rfl⟩ htab (h.length ▸ hfit),
    h.length]
  refine ⟨fun ⟨hw, he, _⟩ => ⟨fun r hr => ?_, ?_⟩, fun ⟨hw, he⟩ => ⟨fun hn => ?_, fun i hi => ?_,
    h.inRange⟩⟩
  · have hget : records[0]? = some r := by rw [← List.head?_eq_getElem?]; exact hr
    have hq := h.queries start tables hget
    rw [← instruction_write (p := p), ← hq]
    exact hw (List.getElem?_eq_some_iff.mp hget).1
  · rw [List.isChain_iff_getElem]
    intro i hi
    exact (h.rowEqs_iff hp (List.getElem?_eq_getElem (Nat.lt_of_succ_lt hi))
      (List.getElem?_eq_getElem hi)).mp (he i hi)
  · have hget := List.getElem?_eq_getElem hn
    have hq := h.queries start tables hget
    have hwrite := hw _ (by rw [List.head?_eq_getElem?]; exact hget)
    exact (congrArg (·.instruction) hq).trans (instruction_write.mpr hwrite)
  · exact (h.rowEqs_iff hp (List.getElem?_eq_getElem (Nat.lt_of_succ_lt hi))
      (List.getElem?_eq_getElem hi)).mpr (List.isChain_iff_getElem.mp he i hi)

end SortedRows

end Zkmemory.Constraints
