import Orochimaru.Zkmemory.Constraints.Gadgets

/-!
# What the ordering check says

At a selected row the constraints of `GreaterThanConfig` name one limb: the row differs
from the row before there by `difference`, which has an inverse, and the random
combination of the differences of all earlier limbs vanishes.
-/

namespace Zkmemory.Constraints

open Plonkish Rotation FieldDigits Positional

variable {F : Type*} [Field F] {N : Nat}

/-! ## Bits -/

theorem asBits_lt (N value : Nat) (i : Fin N) : asBits N value i < 2 := beDigit_lt (by decide) _ _ _

theorem asBits_inj {k m : Nat} (hk : k < 2 ^ N) (hm : m < 2 ^ N)
    (h : ∀ i, asBits N k i = asBits N m i) : k = m := by
  have hval : beVal 2 N (beDigit 2 N k) = beVal 2 N (beDigit 2 N m) :=
    beVal_congr fun i hi => h ⟨i, hi⟩
  rwa [beVal_beDigit, beVal_beDigit, Nat.mod_eq_of_lt hk, Nat.mod_eq_of_lt hm] at hval

theorem exists_asBits {b : Fin N → F} (h : ∀ i, b i = 0 ∨ b i = 1) :
    ∃ k < 2 ^ N, ∀ i, b i = (asBits N k i : F) := by
  classical
  let d : Nat → Nat := fun j => if hj : j < N then if b ⟨j, hj⟩ = 1 then 1 else 0 else 0
  have hd : ∀ j < N, d j < 2 := by
    intro j hj
    simp only [d, hj, dif_pos]
    split <;> decide
  refine ⟨beVal 2 N d, beVal_lt hd, fun i => ?_⟩
  rw [asBits, beDigit_beVal hd i i.isLt]
  simp only [d, i.isLt, dif_pos]
  rcases h i with h0 | h1
  · simp [h0]
  · simp [h1]

theorem equalValue_eq_prod (lhs : Fin N → F) (rhs : Nat) : equalValue lhs rhs =
    ((List.finRange N).map fun i =>
      1 - (lhs i - asBits N rhs i) * (lhs i - asBits N rhs i)).prod := by
  rw [equalValue, List.prod_eq_foldl, List.foldl_map]

/-- On bits, `equalValue` compares. -/
theorem equalValue_asBits {k m : Nat} (hk : k < 2 ^ N) (hm : m < 2 ^ N) {lhs : Fin N → F}
    (hbits : ∀ i, lhs i = (asBits N k i : F)) :
    equalValue lhs m = if k = m then 1 else 0 := by
  rw [equalValue_eq_prod]
  split
  case isTrue h =>
    subst h
    apply List.prod_eq_one
    intro x hx
    obtain ⟨i, -, rfl⟩ := List.mem_map.mp hx
    rw [hbits, sub_self, mul_zero, sub_zero]
  case isFalse h =>
    obtain ⟨i, hi⟩ : ∃ i, asBits N k i ≠ asBits N m i := by
      by_contra hall
      exact h (asBits_inj hk hm fun i => not_not.mp fun hne => hall ⟨i, hne⟩)
    rw [List.prod_eq_zero_iff, List.mem_map]
    refine ⟨i, List.mem_finRange i, ?_⟩
    have hk2 := asBits_lt N k i
    have hm2 := asBits_lt N m i
    rw [hbits]
    rcases (show asBits N k i = 0 ∧ asBits N m i = 1 ∨ asBits N k i = 1 ∧ asBits N m i = 0 by
      omega) with ⟨h0, h1⟩ | ⟨h0, h1⟩ <;>
      simp [h0, h1]

theorem mul_one_sub_eq_zero {b : F} : b * (1 - b) = 0 ↔ b = 0 ∨ b = 1 := by
  rw [mul_eq_zero, sub_eq_zero, eq_comm (a := (1 : F))]

/-! ## Limb differences -/

def limbDifference (cur prev : List F) (j : Nat) : F := cur.getD j 0 - prev.getD j 0

theorem rlcLimbDifferences_getElem? (sum : F) (cur prev alphas : List F) (i : Nat)
    (hc : i < cur.length) (hp : i < prev.length) (ha : i < alphas.length) :
    (rlcLimbDifferences sum cur prev alphas)[i]? =
      some (sum + ∑ j ∈ Finset.range i, alphas.getD j 0 * limbDifference cur prev j) := by
  induction cur generalizing sum prev alphas i with
  | nil => simp at hc
  | cons c cur ih =>
    cases prev with
    | nil => simp at hp
    | cons p prev =>
      cases alphas with
      | nil => simp at ha
      | cons a alphas =>
        cases i with
        | zero => simp [rlcLimbDifferences]
        | succ i =>
          simp only [List.length_cons, Nat.add_lt_add_iff_right] at hc hp ha
          rw [rlcLimbDifferences, List.getElem?_cons_succ, ih _ _ _ _ hc hp ha,
            Finset.sum_range_succ']
          simp only [limbDifference, List.getD_cons_succ, List.getD_cons_zero, add_assoc]
          rw [add_comm (a * (c - p))]

theorem rlcLimbDifferences_length (sum : F) (cur prev alphas : List F) :
    (rlcLimbDifferences sum cur prev alphas).length =
      min cur.length (min prev.length alphas.length) := by
  induction cur generalizing sum prev alphas with
  | nil => simp [rlcLimbDifferences]
  | cons c cur ih =>
    cases prev with
    | nil => simp [rlcLimbDifferences]
    | cons p prev =>
      cases alphas with
      | nil => simp [rlcLimbDifferences]
      | cons a alphas =>
        rw [rlcLimbDifferences, List.length_cons, ih]
        simp only [List.length_cons]
        omega

theorem alphaPower_length (alpha : F) (n : Nat) : (alphaPower alpha n).length = n + 1 :=
  List.length_iterate _ _ _

theorem alphaPower_getD (alpha : F) {n j : Nat} (hj : j ≤ n) :
    (alphaPower alpha n).getD j 0 = alpha ^ j := by
  have hlt : j < (alphaPower alpha n).length := by rw [alphaPower_length]; omega
  rw [List.getD_eq_getElem _ _ hlt]
  simp only [alphaPower, List.getElem_iterate]
  rw [mul_right_iterate_apply_one]

/-- The expressions of the second gate, limb by limb. -/
theorem zip_rlc (alpha : F) {cur prev : List F} (hlen : cur.length = prev.length)
    (h40 : cur.length ≤ 40) :
    limbVector.zip (rlcLimbDifferences 0 cur prev (alphaPower alpha 40)) =
      (List.range cur.length).map fun i => (i, combination alpha i (limbDifference cur prev)) := by
  apply List.ext_getElem
  · simp [limbVector, rlcLimbDifferences_length, alphaPower_length, ← hlen]
    omega
  · intro i hi₁ hi₂
    have hi : i < cur.length := by simpa using hi₂
    have hsome := rlcLimbDifferences_getElem? 0 cur prev (alphaPower alpha 40) i hi (hlen ▸ hi)
      (by rw [alphaPower_length]; omega)
    obtain ⟨_, hget⟩ := List.getElem?_eq_some_iff.mp hsome
    rw [List.getElem_zip, List.getElem_map, List.getElem_range, hget, zero_add, combination]
    refine congrArg₂ _ (by simp [limbVector]) (Finset.sum_congr rfl fun j hj => ?_)
    rw [alphaPower_getD alpha (by have := Finset.mem_range.mp hj; omega)]

/-- The expressions of the third gate, limb by limb. -/
theorem zip_limbs {cur prev : List F} (hlen : cur.length = prev.length) (h40 : cur.length ≤ 40) :
    limbVector.zip (cur.zip prev) =
      (List.range cur.length).map fun i => (i, cur.getD i 0, prev.getD i 0) := by
  apply List.ext_getElem
  · simp [limbVector, ← hlen]
    omega
  · intro i hi₁ hi₂
    have hi : i < cur.length := by simpa using hi₂
    have hp : i < prev.length := hlen ▸ hi
    rw [List.getElem_zip, List.getElem_zip, List.getElem_map, List.getElem_range,
      List.getD_eq_getElem _ _ hi, List.getD_eq_getElem _ _ hp]
    simp [limbVector]

/-! ## The gates at one row -/

def limbCount (addressIncluded : Bool) : Nat := if addressIncluded then 40 else 8

omit [Field F] in
theorem ConvertedTraceRecord.beLimbs_length (q : ConvertedTraceRecord F) (addressIncluded : Bool) :
    (q.beLimbs addressIncluded).length = limbCount addressIncluded := by
  cases addressIncluded <;> simp [beLimbs, limbCount]

/-- The limbs the check compares, at row `r`. -/
def TraceRecordWitnessTable.limbs (t : TraceRecordWitnessTable F) (addressIncluded : Bool)
    (r : Nat) : List F :=
  (t.queries r).beLimbs addressIncluded

omit [Field F] in
@[simp] theorem TraceRecordWitnessTable.limbs_length (t : TraceRecordWitnessTable F)
    (addressIncluded : Bool) (r : Nat) :
    (t.limbs addressIncluded r).length = limbCount addressIncluded :=
  ConvertedTraceRecord.beLimbs_length _ _

theorem limbCount_le (addressIncluded : Bool) : limbCount addressIncluded ≤ 40 := by
  cases addressIncluded <;> decide

namespace GreaterThanConfig

variable (c : GreaterThanConfig F N) {traceRecord : TraceRecordWitnessTable F} {alpha : F}
  {selector : Column F} {addressIncluded : Bool} {row : Rotation → Nat}

/-- Row `r` comes after the row before it at limb `k`. -/
structure Ordered (alpha : F) (cur prev : List F) (r k : Nat) : Prop where
  bits : ∀ i, c.index r i = (asBits N k i : F)
  inverse : c.difference r * c.differenceInverse r = 1
  before : combination alpha k (limbDifference cur prev) = 0
  here : c.difference r = limbDifference cur prev k

theorem gates_unselected (h : selector (row .cur) = 0) {g : Gate F}
    (hg : g ∈ c.gates traceRecord (alphaPower alpha 40) selector addressIncluded) {v : F}
    (hv : v ∈ g row) : v = 0 := by
  simp only [gates, List.mem_cons, List.not_mem_nil, or_false] at hg
  rcases hg with rfl | rfl | rfl
  · rw [List.mem_singleton.mp hv, h, zero_mul]
  · obtain ⟨x, -, rfl⟩ := List.mem_map.mp hv
    simp only [h, zero_mul]
  · obtain ⟨x, -, rfl⟩ := List.mem_map.mp hv
    simp only [h, zero_mul]

/-- At a selected row whose bits spell `k`, the gates are the conditions on limb `k`. -/
theorem gates_iff {k : Nat} (hN : limbCount addressIncluded ≤ 2 ^ N)
    (hk : k < limbCount addressIncluded) (hsel : selector (row .cur) = 1)
    (hbits : ∀ i, c.index (row .cur) i = (asBits N k i : F)) :
    (∀ g ∈ c.gates traceRecord (alphaPower alpha 40) selector addressIncluded,
      ∀ v ∈ g row, v = 0) ↔
      c.Ordered alpha (traceRecord.limbs addressIncluded (row .cur))
        (traceRecord.limbs addressIncluded (row .prev)) (row .cur) k := by
  have hequal : ∀ i, i < limbCount addressIncluded → equalValue (c.index (row .cur)) i =
      if k = i then (1 : F) else 0 :=
    fun i hi => equalValue_asBits (hk.trans_le hN) (hi.trans_le hN) hbits
  have hlen := traceRecord.limbs_length addressIncluded
  have hlen' : (traceRecord.limbs addressIncluded (row .cur)).length =
      (traceRecord.limbs addressIncluded (row .prev)).length := by rw [hlen, hlen]
  have h40 : (traceRecord.limbs addressIncluded (row .cur)).length ≤ 40 := by
    rw [hlen]
    exact limbCount_le _
  simp only [gates, List.forall_mem_cons, List.not_mem_nil, false_imp_iff, implies_true, and_true]
  change (_ ∧ (∀ v ∈ (limbVector.zip (rlcLimbDifferences 0 (traceRecord.limbs _ _)
    (traceRecord.limbs _ _) _)).map _, v = 0) ∧ ∀ v ∈ (limbVector.zip
    ((traceRecord.limbs _ _).zip (traceRecord.limbs _ _))).map _, v = 0) ↔ _
  rw [zip_rlc alpha hlen' h40, zip_limbs hlen' h40]
  simp only [List.map_map, List.forall_mem_map, Function.comp_apply, List.mem_range, hsel, one_mul,
    hlen]
  constructor
  · rintro ⟨hinv, hbefore, hhere⟩
    have hb := hbefore k hk
    have hh := hhere k hk
    rw [hequal k hk, if_pos rfl] at hb hh
    rw [mul_one] at hb
    rw [one_mul] at hh
    exact ⟨hbits, sub_eq_zero.mp hinv, hb, by rw [limbDifference]; linear_combination hh⟩
  · rintro ⟨-, hinv, hb, hh⟩
    refine ⟨sub_eq_zero.mpr hinv, fun i hi => ?_, fun i hi => ?_⟩
    · rw [hequal i hi]
      split
      case isTrue h => rw [← h, hb, zero_mul]
      case isFalse => rw [mul_zero]
    · rw [hequal i hi]
      split
      case isTrue h => rw [← h, hh, limbDifference]; ring
      case isFalse => rw [zero_mul]

/-- The looked-up index is the number its bits spell. -/
theorem lookupValue_asBits {k r : Nat} (hk : k < 2 ^ N)
    (hbits : ∀ i, c.index r i = (asBits N k i : F)) : c.lookupValue r = (k : F) := by
  have hlist : List.ofFn (c.index r) = (List.range N).map fun i => (beDigit 2 N k i : F) := by
    apply List.ext_getElem
    · simp
    · intro i hi₁ hi₂
      simp [hbits, asBits]
  have hfold : c.lookupValue r = horner ((2 : Nat) : F) (List.ofFn (c.index r)) := by
    rw [lookupValue, horner]
    simp only [add_comm, Nat.cast_ofNat]
  rw [hfold, hlist, horner_natCast, beVal_beDigit, Nat.mod_eq_of_lt hk]

theorem bits_unselected {b : BinaryConfig F N} (h : selector (row .cur) = 0) {g : Gate F}
    (hg : g ∈ (b.configure selector).gates) {v : F} (hv : v ∈ g row) : v = 0 := by
  obtain ⟨i, -, rfl⟩ := List.mem_map.mp hg
  rw [List.mem_singleton.mp hv, h, zero_mul, zero_mul]

theorem bits_iff {b : BinaryConfig F N} (h : selector (row .cur) = 1) :
    (∀ g ∈ (b.configure selector).gates, ∀ v ∈ g row, v = 0) ↔
      ∀ i, b.bits i (row .cur) = 0 ∨ b.bits i (row .cur) = 1 := by
  simp only [BinaryConfig.configure, List.forall_mem_map, List.mem_finRange, true_imp_iff,
    List.mem_singleton, forall_eq, h, one_mul, mul_one_sub_eq_zero]

/-- The gates of the check, at one row. -/
def RowHolds (traceRecord : TraceRecordWitnessTable F) (alpha : F) (selector : Column F)
    (addressIncluded : Bool) (row : Rotation → Nat) : Prop :=
  (∀ g ∈ (c.firstDifferenceLimb.configure selector).gates, ∀ v ∈ g row, v = 0) ∧
    ∀ g ∈ c.gates traceRecord (alphaPower alpha 40) selector addressIncluded, ∀ v ∈ g row, v = 0

theorem rowHolds_unselected (h : selector (row .cur) = 0) :
    c.RowHolds traceRecord alpha selector addressIncluded row :=
  ⟨fun _ hg _ hv => bits_unselected h hg hv, fun _ hg _ hv => c.gates_unselected h hg hv⟩

/-- Where the index is that of a limb, the gates name the first limb that differs. -/
theorem rowHolds_iff (hN : limbCount addressIncluded ≤ 2 ^ N) (hsel : selector (row .cur) = 1)
    (hindex : ∀ k < 2 ^ N, (∀ i, c.index (row .cur) i = (asBits N k i : F)) →
      k < limbCount addressIncluded) :
    c.RowHolds traceRecord alpha selector addressIncluded row ↔
      ∃ k < limbCount addressIncluded,
        c.Ordered alpha (traceRecord.limbs addressIncluded (row .cur))
          (traceRecord.limbs addressIncluded (row .prev)) (row .cur) k := by
  rw [RowHolds, bits_iff hsel]
  constructor
  · rintro ⟨hbool, hgates⟩
    obtain ⟨k, hk, hbits⟩ := exists_asBits hbool
    have hlt := hindex k hk hbits
    exact ⟨k, hlt, (c.gates_iff hN hlt hsel hbits).mp hgates⟩
  · rintro ⟨k, hk, hord⟩
    refine ⟨fun i => ?_, (c.gates_iff hN hk hsel hord.bits).mpr hord⟩
    have hbit := asBits_lt N k i
    change c.index (row .cur) i = 0 ∨ c.index (row .cur) i = 1
    rw [hord.bits i]
    rcases (show asBits N k i = 0 ∨ asBits N k i = 1 by omega) with h | h <;> simp [h]

end GreaterThanConfig

/-! ## The ordering check as a whole -/

namespace GreaterThanConfig

variable (c : GreaterThanConfig F N) {t : TraceRecordWitnessTable F} {alpha : F} {D : Domain}
  {tables : LookUpTables F} {addressIncluded : Bool} {start n : Nat}

/-- The range checks of the ordering check. -/
structure InRange (c : GreaterThanConfig F N) (addressIncluded : Bool) (D : Domain) : Prop where
  index : addressIncluded = true → ∀ r < D.usable, Below 40 (c.lookupValue r)
  difference : ∀ r < D.usable, Below 256 (c.difference r)

/-- On the region of `n` rows from `start` on, each row comes after the row before it. -/
theorem holds_iff (h256 : Ranges 256 tables.size256Table D) (h40 : Ranges 40 tables.size40Table D)
    (hfit : start + n ≤ D.usable) (hN : limbCount addressIncluded ≤ 2 ^ N)
    (hindex : c.InRange addressIncluded D → ∀ r < D.usable, ∀ k < 2 ^ N,
      (∀ i, c.index r i = (asBits N k i : F)) → k < limbCount addressIncluded) :
    (c.configure t (alphaPower alpha 40) tables (enabled (start + 1) (start + n))
        addressIncluded).Holds D ↔
      (∀ i, i + 1 < n → ∃ k < limbCount addressIncluded,
        c.Ordered alpha (t.limbs addressIncluded (start + i + 1))
          (t.limbs addressIncluded (start + i)) (start + i + 1) k) ∧
      c.InRange addressIncluded D := by
  have hrows := D.usable_lt
  have hrange : (if addressIncluded = true then rangeCheck tables.size40Table c.lookupValue
      else {}).Holds D ↔
      (addressIncluded = true → ∀ r < D.usable, Below 40 (c.lookupValue r)) := by
    cases addressIncluded with
    | false => simpa using System.holds_empty
    | true =>
      rw [if_pos rfl, rangeCheck, System.holds_lookup, h40.lookup_iff]
      simp
  -- only selected rows constrain anything
  have hgates : (∀ r < D.rows, c.RowHolds t alpha (enabled (start + 1) (start + n))
        addressIncluded (D.at r)) ↔ ∀ r, start + 1 ≤ r ∧ r < start + n →
      c.RowHolds t alpha (enabled (start + 1) (start + n)) addressIncluded (D.at r) := by
    refine forall_enabled (F := F) _ _ (by omega) fun r hr h => c.rowHolds_unselected ?_
    rwa [D.at_cur hr]
  have hrow : c.InRange addressIncluded D → ∀ i, i + 1 < n →
      (c.RowHolds t alpha (enabled (start + 1) (start + n)) addressIncluded
        (D.at (start + i + 1)) ↔ ∃ k < limbCount addressIncluded,
        c.Ordered alpha (t.limbs addressIncluded (start + i + 1))
          (t.limbs addressIncluded (start + i)) (start + i + 1) k) := by
    intro hr i hi
    have hcur : D.at (start + i + 1) .cur = start + i + 1 := D.at_cur (by omega)
    have hprev : D.at (start + i + 1) .prev = start + i := D.at_prev (by omega)
    have hsel : enabled (start + 1) (start + n) (D.at (start + i + 1) .cur) = (1 : F) := by
      rw [hcur]
      exact enabled_of_mem (by omega)
    rw [c.rowHolds_iff hN hsel (by rw [hcur]; exact hindex hr _ (by omega)), hcur, hprev]
  rw [configure, System.holds_append, System.holds_append, System.holds_append, hrange,
    rangeCheck, System.holds_lookup, h256.lookup_iff, System.holds_gates]
  constructor
  · rintro ⟨⟨⟨hbits, hg⟩, hi⟩, hd⟩
    have hr : c.InRange addressIncluded D := ⟨hi, hd⟩
    refine ⟨fun i hi => (hrow hr i hi).mp ?_, hr⟩
    exact hgates.mp (fun r hr => ⟨hbits.gates r hr, hg r hr⟩) _ (by omega)
  · rintro ⟨hord, hr⟩
    have hall := hgates.mpr fun r hmem => by
      obtain ⟨i, hi, rfl⟩ : ∃ i, i + 1 < n ∧ r = start + i + 1 :=
        ⟨r - start - 1, by omega, by omega⟩
      exact (hrow hr i hi).mpr (hord i hi)
    exact ⟨⟨⟨⟨fun r hr => (hall r hr).1, by simp [BinaryConfig.configure],
      by simp [BinaryConfig.configure]⟩, fun r hr => (hall r hr).2⟩, hr.index⟩, hr.difference⟩

end GreaterThanConfig

end Zkmemory.Constraints
