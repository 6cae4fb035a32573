import Orochimaru.Lib.Loops
import Orochimaru.Zkmemory.Constraints.Ordering
import Orochimaru.Zkmemory.Constraints.OriginalMemory
import Orochimaru.Zkmemory.Constraints.SortedMemory

/-!
# Records as field elements

A record whose limbs are bytes is a trace record, and over a prime field above `2^248`
the words it stands for can be read back from the expressions of the circuits. The
recomposition of an address or a value skips its first limb: it is the word modulo
`2^248`.
-/

namespace Zkmemory.Constraints

open Plonkish FieldDigits Positional ConvertedTraceRecord Loops

variable {p : Nat} [Fact p.Prime]

/-! ## Bytes -/

theorem below_byte {n : Nat} (bytes : Bytes n) (i : Fin n) :
    Below 256 (ofBytes bytes i : ZMod p) := ⟨bytes i, (bytes i).isLt, rfl⟩

theorem exists_bytes {n : Nat} {limb : Fin n → ZMod p} (h : ∀ i, Below 256 (limb i)) :
    ∃ bytes : Bytes n, limb = ofBytes bytes := by
  choose v hv he using h
  exact ⟨fun i => ⟨v i, hv i⟩, funext he⟩

theorem ofBytes_injective (hp : 256 ≤ p) {n : Nat} :
    Function.Injective (ofBytes : Bytes n → Fin n → ZMod p) := by
  intro a b h
  funext i
  have hi := congrFun h i
  exact Fin.ext ((natCast_inj_of_lt ((a i).isLt.trans_le hp) ((b i).isLt.trans_le hp)).mp hi)

theorem ofFn_ofBytes {n : Nat} (x : Uint n) : List.ofFn (ofBytes x.toBeBytes : Fin n → ZMod p) =
    (List.range n).map fun i => (beDigit 256 n x.val i : ZMod p) := by
  apply List.ext_getElem
  · simp
  · intro i hi₁ hi₂
    simp [ofBytes, Uint.toBeBytes]

/-- The last 31 bytes of a word. -/
theorem beVal_tail (x : B256) :
    beVal 256 31 (fun i => beDigit 256 32 x.val (1 + i)) = x.val % 2 ^ 248 := by
  have hx := beVal_add 256 1 31 (beDigit 256 32 x.val)
  have hlt : beVal 256 31 (fun i => beDigit 256 32 x.val (1 + i)) < 256 ^ 31 :=
    beVal_lt fun i _ => beDigit_lt (by decide) _ _ _
  rw [show 1 + 31 = 32 from rfl, beVal_beDigit, Nat.mod_eq_of_lt x.isLt] at hx
  have hmod := congrArg (· % 256 ^ 31) hx
  simp only [Nat.mul_add_mod_self_right, Nat.mod_eq_of_lt hlt] at hmod
  rw [← hmod]
  norm_num

theorem limbsToExpression_word (x : B256) :
    limbsToExpression (ofBytes x.toBeBytes : Fin 32 → ZMod p) = (x.val % 2 ^ 248 : Nat) := by
  have hlist : ((List.range 32).map fun i => (beDigit 256 32 x.val i : ZMod p)).drop 1 =
      (List.range 31).map fun i => (beDigit 256 32 x.val (1 + i) : ZMod p) := by
    apply List.ext_getElem
    · simp
    · intro i hi₁ hi₂
      simp [Nat.add_comm]
  rw [limbsToExpression, ofFn_ofBytes, hlist, ← beVal_tail, ← horner_natCast, horner]
  rfl

/-- Two recompositions agree when the words agree modulo `2^248`. -/
theorem limbsToExpression_inj (hp : 2 ^ 248 < p) (x y : B256) :
    limbsToExpression (ofBytes x.toBeBytes : Fin 32 → ZMod p) =
      limbsToExpression (ofBytes y.toBeBytes) ↔ x.val % 2 ^ 248 = y.val % 2 ^ 248 := by
  have hlt : ∀ z : B256, z.val % 2 ^ 248 < p :=
    fun z => (Nat.mod_lt _ (by positivity)).trans hp
  rw [limbsToExpression_word, limbsToExpression_word, natCast_inj_of_lt (hlt x) (hlt y)]

theorem timeToExpression_word (x : U64) :
    timeToExpression (ofBytes x.toBeBytes : Fin 8 → ZMod p) = (x.val : ZMod p) := by
  have hlist : ∀ l : List (ZMod p), ∀ t, horner 256 (t :: l) =
      l.foldl (fun time t => time * 256 + t) t := by
    intro l t
    simp [horner]
  have hcons : List.ofFn (ofBytes x.toBeBytes : Fin 8 → ZMod p) =
      ofBytes x.toBeBytes 0 :: (List.ofFn (ofBytes x.toBeBytes : Fin 8 → ZMod p)).drop 1 := by
    rw [List.ofFn_succ]
    rfl
  have hx := horner_natCast (R := ZMod p) 256 8 (beDigit 256 8 x.val)
  rw [beVal_beDigit, Nat.mod_eq_of_lt x.isLt, ← ofFn_ofBytes, hcons] at hx
  rw [timeToExpression, ← hlist, ← hx]
  rfl

/-! ## Records -/

/-- The bytes of address and time, in the order of the check. -/
def orderByte (record : TraceRecord 32 32) (i : Nat) : Nat :=
  if i < 32 then beDigit 256 32 record.address.val i else beDigit 256 8 record.timeLog.val (i - 32)

theorem orderByte_lt (record : TraceRecord 32 32) (i : Nat) : orderByte record i < 256 := by
  unfold orderByte
  split <;> exact beDigit_lt (by decide) _ _ _

theorem beLimbs_ofRecord (record : TraceRecord 32 32) :
    (ofRecord record : ConvertedTraceRecord (ZMod p)).beLimbs true =
      (List.range 40).map fun i => (orderByte record i : ZMod p) := by
  have haddr : (ofRecord record : ConvertedTraceRecord (ZMod p)).address =
      ofBytes record.address.toBeBytes := rfl
  have htime : (ofRecord record : ConvertedTraceRecord (ZMod p)).timeLog =
      ofBytes record.timeLog.toBeBytes := rfl
  rw [beLimbs, haddr, htime, ofFn_ofBytes, ofFn_ofBytes]
  apply List.ext_getElem
  · simp
  · intro i hi₁ hi₂
    simp only [Bool.not_true, Bool.false_eq_true, if_false, List.getElem_append, List.getElem_map,
      List.getElem_range, List.length_map, List.length_range, orderByte]
    split <;> rfl

theorem limbDifference_ofRecord (a b : TraceRecord 32 32) {j : Nat} (hj : j < 40) :
    limbDifference ((ofRecord b : ConvertedTraceRecord (ZMod p)).beLimbs true)
      ((ofRecord a).beLimbs true) j = (orderByte b j : ZMod p) - (orderByte a j : ZMod p) := by
  rw [beLimbs_ofRecord, beLimbs_ofRecord, limbDifference,
    List.getD_eq_getElem _ _ (by simpa using hj), List.getD_eq_getElem _ _ (by simpa using hj)]
  simp

theorem timeLimbs_ofRecord (record : TraceRecord 32 32) :
    (ofRecord record : ConvertedTraceRecord (ZMod p)).beLimbs false =
      (List.range 8).map fun i => (beDigit 256 8 record.timeLog.val i : ZMod p) :=
  ofFn_ofBytes record.timeLog

/-- The key a sorted trace is ordered by. -/
def orderKey (q : ConvertedTraceRecord (ZMod p)) : Nat :=
  beVal 256 40 fun i => ((q.beLimbs true).getD i 0).val

theorem beVal_orderByte (record : TraceRecord 32 32) :
    beVal 256 40 (orderByte record) = record.address.val * 2 ^ 64 + record.timeLog.val := by
  have haddr : beVal 256 32 (orderByte record) = beVal 256 32 (beDigit 256 32 record.address.val) :=
    beVal_congr fun i hi => if_pos hi
  have htime : beVal 256 8 (fun i => orderByte record (32 + i)) =
      beVal 256 8 (beDigit 256 8 record.timeLog.val) := by
    refine beVal_congr fun i hi => ?_
    rw [orderByte, if_neg (by omega), Nat.add_sub_cancel_left]
  rw [show 40 = 32 + 8 from rfl, beVal_add, haddr, htime, beVal_beDigit, beVal_beDigit,
    Nat.mod_eq_of_lt record.address.isLt, Nat.mod_eq_of_lt record.timeLog.isLt]
  norm_num

theorem orderKey_ofRecord (hp : 256 ≤ p) (record : TraceRecord 32 32) :
    orderKey (ofRecord record : ConvertedTraceRecord (ZMod p)) =
      record.address.val * 2 ^ 64 + record.timeLog.val := by
  rw [orderKey, ← beVal_orderByte]
  refine beVal_congr fun i hi => ?_
  rw [beLimbs_ofRecord, List.getD_eq_getElem _ _ (by simpa using hi), List.getElem_map,
    List.getElem_range, ZMod.val_cast_of_lt ((orderByte_lt record i).trans_le hp)]

/-- Cells in range hold a record. -/
theorem exists_record {q : ConvertedTraceRecord (ZMod p)} (hi : Below 2 q.instruction)
    (ha : ∀ i, Below 256 (q.address i)) (ht : ∀ i, Below 256 (q.timeLog i))
    (hv : ∀ i, Below 256 (q.value i)) : ∃ record : TraceRecord 32 32, q = ofRecord record := by
  obtain ⟨a, ha⟩ := exists_bytes ha
  obtain ⟨t, ht⟩ := exists_bytes ht
  obtain ⟨v, hv⟩ := exists_bytes hv
  obtain ⟨w, hw, hi⟩ := hi
  let record : TraceRecord 32 32 :=
    ⟨.fromBeBytes t, .zero, if w = 1 then .write else .read, .fromBeBytes a, .fromBeBytes v⟩
  have hinstr : q.instruction = (ofRecord record : ConvertedTraceRecord (ZMod p)).instruction := by
    rcases (show w = 0 ∨ w = 1 by omega) with rfl | rfl <;> simpa [record, ofRecord] using hi
  refine ⟨record, ?_⟩
  cases q
  simp only [ofRecord, ConvertedTraceRecord.mk.injEq]
  refine ⟨?_, ?_, hinstr, ?_⟩
  · exact ha.trans (congrArg ofBytes (Uint.toBeBytes_fromBeBytes a).symm)
  · exact ht.trans (congrArg ofBytes (Uint.toBeBytes_fromBeBytes t).symm)
  · exact hv.trans (congrArg ofBytes (Uint.toBeBytes_fromBeBytes v).symm)

theorem instruction_write {record : TraceRecord 32 32} :
    (ofRecord record : ConvertedTraceRecord (ZMod p)).instruction = 1 ↔
      record.instruction = .write := by
  unfold ofRecord
  cases record.instruction <;> simp

theorem instruction_read {record : TraceRecord 32 32} :
    (ofRecord record : ConvertedTraceRecord (ZMod p)).instruction = 0 ↔
      record.instruction = .read := by
  unfold ofRecord
  cases record.instruction <;> simp

/-- Two words are equal when their byte arrays are equal as field elements. -/
theorem word_limbs_inj (hp : 256 ≤ p) {n : Nat} (x y : Uint n) :
    (ofBytes x.toBeBytes : Fin n → ZMod p) = ofBytes y.toBeBytes ↔ x = y :=
  ((ofBytes_injective hp).comp Uint.toBeBytes_injective).eq_iff

/-! ## Regions -/

section Region

variable {ρ : Type}

/-- The rows assigned for a trace: `first` makes the first row out of its record alone, and
`Fits` says what a later row holds, after the record before it. -/
structure RegionRows (first : ConvertedTraceRecord (ZMod p) → ρ)
    (Fits : ρ → TraceRecord 32 32 → TraceRecord 32 32 → Prop) (records : List (TraceRecord 32 32))
    (rows : List ρ) : Prop where
  length : rows.length = records.length
  first : ∀ cur, records[0]? = some cur → rows[0]? = some (first (ofRecord cur))
  later : ∀ i prev cur, records[i]? = some prev → records[i + 1]? = some cur →
    ∃ row, rows[i + 1]? = some row ∧ Fits row prev cur

variable {first : ConvertedTraceRecord (ZMod p) → ρ}
  {Fits : ρ → TraceRecord 32 32 → TraceRecord 32 32 → Prop} {records : List (TraceRecord 32 32)}
  {rows : List ρ}

/-- An assignment that succeeds at every row makes the rows of the region. -/
theorem regionRows_ok (assign : List (ConvertedTraceRecord (ZMod p)) → Nat → Except Panic ρ)
    {R : TraceRecord 32 32 → TraceRecord 32 32 → Prop}
    (hfirst : ∀ l cur, l[0]? = some cur → assign l 0 = .ok (first cur))
    (hlater : ∀ l i prev cur, l[i]? = some (ofRecord prev) → l[i + 1]? = some (ofRecord cur) →
      R prev cur → ∃ row, assign l (i + 1) = .ok row ∧ Fits row prev cur)
    (hinc : records.IsChain R) :
    ∃ rows, (List.range records.length).mapM (assign (records.map ofRecord)) = .ok rows ∧
      RegionRows first Fits records rows := by
  have hget : ∀ {i : Nat} {cur}, records[i]? = some cur →
      (records.map (ofRecord : _ → ConvertedTraceRecord (ZMod p)))[i]? = some (ofRecord cur) := by
    intro i cur h
    rw [List.getElem?_map, h]
    rfl
  obtain ⟨rows, hrows, hlen, hall⟩ := mapM_range_ok (n := records.length)
    (f := assign (records.map ofRecord))
    (P := fun i row => (∀ cur, i = 0 → records[0]? = some cur → row = first (ofRecord cur)) ∧
      ∀ j prev cur, i = j + 1 → records[j]? = some prev → records[j + 1]? = some cur →
        Fits row prev cur) fun i hi => by
    cases i with
    | zero =>
      have hcur := List.getElem?_eq_getElem hi
      refine ⟨_, hfirst _ _ (hget hcur), fun cur _ h => ?_, by simp⟩
      rw [hcur] at h
      rw [Option.some.inj h]
    | succ i =>
      have hcur := List.getElem?_eq_getElem hi
      have hprev := List.getElem?_eq_getElem (Nat.lt_of_succ_lt hi)
      obtain ⟨row, hrow, hfits⟩ := hlater _ i _ _ (hget hprev) (hget hcur)
        (List.isChain_iff_getElem.mp hinc i hi)
      refine ⟨row, hrow, by simp, fun j prev cur hj hp hc => ?_⟩
      cases hj
      rw [hprev] at hp
      rw [hcur] at hc
      rw [← Option.some.inj hp, ← Option.some.inj hc]
      exact hfits
  refine ⟨rows, hrows, hlen, fun cur h => ?_, fun i prev cur hp hc => ?_⟩
  · obtain ⟨row, hrow, hfirst, -⟩ := hall 0 (List.getElem?_eq_some_iff.mp h).1
    rw [hrow, hfirst cur rfl h]
  · obtain ⟨row, hrow, -, hlater⟩ := hall (i + 1) (List.getElem?_eq_some_iff.mp hc).1
    exact ⟨row, hrow, hlater i prev cur rfl hp hc⟩

namespace RegionRows

theorem mem_cases (h : RegionRows first Fits records rows) {row : ρ} (hrow : row ∈ rows) :
    (∃ cur, row = first (ofRecord cur)) ∨ ∃ prev cur, Fits row prev cur := by
  obtain ⟨i, hi, rfl⟩ := List.getElem_of_mem hrow
  have hget := List.getElem?_eq_getElem hi
  have hcur := List.getElem?_eq_getElem (h.length ▸ hi)
  cases i with
  | zero =>
    have hfirst := h.first _ hcur
    rw [hget] at hfirst
    exact .inl ⟨_, Option.some.inj hfirst⟩
  | succ i =>
    obtain ⟨row, hrow, hfits⟩ := h.later i _ _
      (List.getElem?_eq_getElem (Nat.lt_of_succ_lt (h.length ▸ hi))) hcur
    rw [hget] at hrow
    rw [Option.some.inj hrow]
    exact .inr ⟨_, _, hfits⟩

/-- Each row holds its record. -/
theorem exists_row (h : RegionRows first Fits records rows)
    {record : ρ → ConvertedTraceRecord (ZMod p)} (hfirst : ∀ q, record (first q) = q)
    (hfits : ∀ row prev cur, Fits row prev cur → record row = ofRecord cur) {i : Nat}
    {cur : TraceRecord 32 32} (hcur : records[i]? = some cur) :
    ∃ row, rows[i]? = some row ∧ record row = ofRecord cur := by
  cases i with
  | zero => exact ⟨_, h.first cur hcur, hfirst _⟩
  | succ i =>
    have hi := (List.getElem?_eq_some_iff.mp hcur).1
    obtain ⟨row, hrow, hrow'⟩ := h.later i _ _
      (List.getElem?_eq_getElem (Nat.lt_of_succ_lt hi)) hcur
    exact ⟨row, hrow, hfits _ _ _ hrow'⟩

/-- The witness table of the region, read back. -/
theorem queries (h : RegionRows first Fits records rows)
    {record : ρ → ConvertedTraceRecord (ZMod p)} (hfirst : ∀ q, record (first q) = q)
    (hfits : ∀ row prev cur, Fits row prev cur → record row = ofRecord cur) (start : Nat) {i : Nat}
    {cur : TraceRecord 32 32} (hcur : records[i]? = some cur) :
    (TraceRecordWitnessTable.place start rows record).queries (start + i) = ofRecord cur := by
  obtain ⟨row, hrow, hrec⟩ := h.exists_row hfirst hfits hcur
  rw [← hrec]
  simp only [TraceRecordWitnessTable.queries, TraceRecordWitnessTable.place, place_of_some _ hrow]

end RegionRows

end Region

end Zkmemory.Constraints
