import Orochimaru.Zkmemory.Zincplus.Builder
import Orochimaru.Zkmemory.Zincplus.Routing

/-!
# What the builder computes

On a trace in execution order the builder succeeds, and this module says what its
columns hold: the limbs of the sorted and the original rows, one transition witness
for each pair of adjacent rows, and switch settings that link the two orders.
-/

namespace Zkmemory.Zincplus

open Loops Positional Switching

/-! ## Limbs -/

namespace RowLimbs

/-- `n` limbs from payload cell `p` on, most significant first. -/
def word (r : RowLimbs) (p n : Nat) : Nat := beVal (2 ^ 32) n fun j => (r.payload (p + j)).val

theorem limb_lt (r : RowLimbs) (p : Nat) : (r.payload p).val < 2 ^ 32 := (r.payload p).isLt

theorem fixedBeBytes_word (x : B256) : x.fixedBeBytes = x.toBeBytes := rfl

/-- The limbs of a 256-bit word. -/
theorem limbs_word (x : B256) {f : Nat → Nat}
    (hf : ∀ j (hj : j < 8), f j = (beBytesToLimbs x.fixedBeBytes ⟨j, hj⟩).val) :
    beVal (2 ^ 32) 8 f = x.val := by
  have hgroup : ∀ j < 8, f j = beVal 256 4 fun k => Uint.digits x.toBeBytes (4 * j + k) := by
    intro j hj
    rw [hf j hj]
    refine beVal_congr fun k hk => ?_
    simp only [Uint.digits, fixedBeBytes_word, dif_pos hk, dif_pos (show 4 * j + k < 32 by omega)]
  have hx := congrArg Uint.val (Uint.fromBeBytes_toBeBytes x)
  rw [beVal_congr hgroup, show (2 : Nat) ^ 32 = 256 ^ 4 by decide, beVal_group]
  exact hx

theorem split_word (x : U64) {f : Nat → Nat} (hf : ∀ j (hj : j < 2), f j = (splitU64 x ⟨j, hj⟩).val) :
    beVal (2 ^ 32) 2 f = x.val := by
  have hx := x.isLt
  rw [beVal_succ, beVal_succ, beVal_zero, hf 0 (by decide), hf 1 (by decide)]
  simp only [splitU64, Uint.ofNat, Nat.shiftRight_eq_div_pow]
  norm_num
  omega

theorem payload_addr (r : RowLimbs) {j : Nat} (hj : j < 8) :
    r.payload (plAddr + j) = r.addr ⟨j, hj⟩ := by
  simp [payload, plAddr, hj]

theorem payload_time (r : RowLimbs) {j : Nat} (hj : j < 2) :
    r.payload (plTime + j) = r.time ⟨j, hj⟩ := by
  rw [show plTime = 8 from rfl, payload, dif_neg (by omega), dif_pos (by omega)]
  simp

theorem payload_value (r : RowLimbs) {j : Nat} (hj : j < 8) :
    r.payload (plValue + j) = r.value ⟨j, hj⟩ := by
  rw [show plValue = 12 from rfl, payload, dif_neg (by omega), dif_neg (by omega),
    dif_neg (by omega), dif_pos (by omega)]
  simp

theorem payload_instr (r : RowLimbs) : r.payload plInstr = r.instr := rfl

variable (record : Record)

theorem address_word : (fromRecord record).word plAddr numAddrLimbs = record.address.val :=
  limbs_word _ fun j hj => by rw [payload_addr _ hj]; rfl

theorem time_word : (fromRecord record).word plTime numTimeLimbs = record.timeLog.val :=
  split_word _ fun j hj => by rw [payload_time _ hj]; rfl

theorem value_word : (fromRecord record).word plValue numValueLimbs = record.value.val :=
  limbs_word _ fun j hj => by rw [payload_value _ hj]; rfl

theorem instr_val : ((fromRecord record).payload plInstr).val =
    if record.instruction = .write then 1 else 0 := by
  rw [payload_instr, fromRecord]
  cases record.instruction <;> rfl

/-- The order of the sorted trace, as a number. -/
def key (record : Record) : Nat := record.address.val * 2 ^ 64 + record.timeLog.val

theorem lex_word : (fromRecord record).word plAddr numLexLimbs = key record := by
  rw [key, ← address_word, ← time_word, word, numLexLimbs, beVal_add,
    show (2 ^ 32) ^ numTimeLimbs = 2 ^ 64 by decide]
  rfl

/-- Two records agree on a word exactly when they agree on its limbs. -/
theorem word_eq_iff {r r' : RowLimbs} {p n : Nat} :
    r.word p n = r'.word p n ↔ ∀ j < n, r.payload (p + j) = r'.payload (p + j) := by
  constructor
  · intro h j hj
    exact Uint.ext (beVal_inj (fun _ _ => limb_lt r _) (fun _ _ => limb_lt r' _) h j hj)
  · intro h
    exact beVal_congr fun j hj => congrArg Uint.val (h j hj)

end RowLimbs

/-! ## Transition witnesses -/

/-- A witness of the transition between two sorted rows. -/
structure SortedWitness.Fits (s : SortedWitness) (cur next : RowLimbs) : Prop where
  selected : s.selected < numLexLimbs
  slack : s.slack < 2 ^ 32
  before : ∀ j < s.selected, cur.payload (plAddr + j) = next.payload (plAddr + j)
  increase : (next.payload (plAddr + s.selected)).val =
    (cur.payload (plAddr + s.selected)).val + 1 + s.slack
  w : s.w = if numAddrLimbs ≤ s.selected then ((next.payload plInstr).val : ℤ) - 1 else 0

theorem sortedWitness_ok {cur next : RowLimbs}
    (h : cur.word plAddr numLexLimbs < next.word plAddr numLexLimbs) :
    ∃ s, sortedWitness cur next = .ok s ∧ s.Fits cur next := by
  obtain ⟨k, hk, hbefore, hlt⟩ := (beVal_lt_iff (fun j _ => RowLimbs.limb_lt cur _)
    fun j _ => RowLimbs.limb_lt next _).mp h
  have hfind : ((List.range numLexLimbs).find? fun j => cur.lexLimb j != next.lexLimb j) =
      some k := by
    rw [List.find?_range_eq_some]
    refine ⟨?_, List.mem_range.mpr hk, fun j hj => ?_⟩
    · exact bne_iff_ne.mpr fun he => absurd (congrArg Uint.val he) (Nat.ne_of_lt hlt)
    · simpa [RowLimbs.lexLimb] using Uint.ext (hbefore j hj)
  have hnext := RowLimbs.limb_lt next (plAddr + k)
  have hrun : sortedWitness cur next =
      .ok ⟨k, ((next.payload (plAddr + k)).val - (cur.payload (plAddr + k)).val - 1 : ℤ).toNat,
        if numAddrLimbs ≤ k then ((next.payload plInstr).val : ℤ) - 1 else 0⟩ := by
    rw [sortedWitness, hfind]
    exact if_neg (by simp only [RowLimbs.lexLimb]; omega)
  exact ⟨_, hrun, hk, by simp only; omega, fun j hj => Uint.ext (hbefore j hj),
    by simp only; omega, rfl⟩

/-- A witness of the transition between two original rows. -/
structure OriginalWitness.Fits (s : OriginalWitness) (cur next : RowLimbs) : Prop where
  slack : s.slack < 2 ^ 32
  before : s.hi = false → cur.payload plTime = next.payload plTime
  increase : (if s.hi then ((next.payload plTime).val : ℤ) - (cur.payload plTime).val
    else ((next.payload (plTime + 1)).val : ℤ) - (cur.payload (plTime + 1)).val) = s.slack + 1

theorem originalWitness_ok {cur next : RowLimbs}
    (h : cur.word plTime numTimeLimbs < next.word plTime numTimeLimbs) :
    ∃ s, originalWitness cur next = .ok s ∧ s.Fits cur next := by
  have hw : ∀ r : RowLimbs, r.word plTime numTimeLimbs =
      (r.time 0).val * 2 ^ 32 + (r.time 1).val := by
    intro r
    rw [RowLimbs.word, numTimeLimbs, beVal_succ, beVal_succ, beVal_zero,
      RowLimbs.payload_time r (show 0 < 2 by decide), RowLimbs.payload_time r (show 1 < 2 by decide)]
    norm_num
  have hhi : ∀ r : RowLimbs, r.payload plTime = r.time 0 := fun _ => rfl
  have hlo : ∀ r : RowLimbs, r.payload (plTime + 1) = r.time 1 := fun _ => rfl
  have hc0 := (cur.time 0).isLt
  have hc1 := (cur.time 1).isLt
  have hn0 := (next.time 0).isLt
  have hn1 := (next.time 1).isLt
  rw [hw, hw] at h
  by_cases heq : cur.time 0 = next.time 0
  · have hrun : originalWitness cur next =
        .ok ⟨false, ((next.time 1).val - (cur.time 1).val - 1 : ℤ).toNat⟩ := by
      simp only [originalWitness, heq, bne_self_eq_false, Bool.false_eq_true, if_false]
      exact if_neg (by rw [heq] at h; omega)
    rw [heq] at h
    refine ⟨_, hrun, by simp only; omega, fun _ => heq, ?_⟩
    simp only [Bool.false_eq_true, if_false, hlo]
    omega
  · have hne : (cur.time 0).val ≠ (next.time 0).val := fun he => heq (Uint.ext he)
    have hrun : originalWitness cur next =
        .ok ⟨true, ((next.time 0).val - (cur.time 0).val - 1 : ℤ).toNat⟩ := by
      simp only [originalWitness, bne_iff_ne.mpr heq, if_true]
      exact if_neg (by omega)
    refine ⟨_, hrun, by simp only; omega, fun h => (by cases h), ?_⟩
    simp only [if_true, hhi]
    omega

/-! ## Order -/

theorem sortCmp_isLE (a b : Record) : (sortCmp a b).isLE = decide (RowLimbs.key a ≤ RowLimbs.key b) := by
  have hta := a.timeLog.isLt
  have htb := b.timeLog.isLt
  rw [Bool.eq_iff_iff, decide_eq_true_eq, sortCmp, RowLimbs.key, RowLimbs.key]
  rcases lt_trichotomy a.address b.address with h | h | h
  · rw [compare_lt_iff_lt.mpr h]
    have := Uint.lt_iff.mp h
    simp only [Ordering.isLE_lt, true_iff]
    omega
  · rw [compare_eq_iff_eq.mpr h, h]
    simp only [Ordering.isLE_iff_ne_gt, compare_gt_iff_gt, not_lt, Uint.le_iff]
    omega
  · rw [compare_gt_iff_gt.mpr h]
    have := Uint.lt_iff.mp h
    simp only [Ordering.isLE_gt, Bool.false_eq_true, false_iff]
    omega

theorem sortTrace_perm (trace : List Record) : (sortTrace trace).Perm trace :=
  List.mergeSort_perm trace _

theorem sortTrace_pairwise (trace : List Record) :
    (sortTrace trace).Pairwise fun a b => RowLimbs.key a ≤ RowLimbs.key b := by
  have h := @List.pairwise_mergeSort Record (fun a b => (sortCmp a b).isLE)
    (fun a b c hab hbc => by
      simp only [sortCmp_isLE, decide_eq_true_eq] at *
      omega)
    (fun a b => by
      simp only [sortCmp_isLE, Bool.or_eq_true, decide_eq_true_eq]
      omega) trace
  exact h.imp fun {a b} hab => by simpa only [sortCmp_isLE, decide_eq_true_eq] using hab

/-- Two records of the same key have the same time. -/
theorem RowLimbs.timeLog_eq_of_key {a b : Record} (h : key a = key b) : a.timeLog = b.timeLog := by
  have hta := a.timeLog.isLt
  have htb := b.timeLog.isLt
  apply Uint.ext
  rw [key, key] at h
  omega

theorem checkTimes_ok_iff {l : List Record} :
    checkTimes l = .ok () ↔ l.IsChain fun a b => a.timeLog < b.timeLog := by
  induction l with
  | nil => simp [checkTimes]
  | cons a l ih =>
    cases l with
    | nil => simp [checkTimes]
    | cons b l =>
      rw [checkTimes, List.isChain_cons_cons]
      rcases lt_trichotomy b.timeLog a.timeLog with h | h | h
      · rw [compare_lt_iff_lt.mpr h]
        simp [not_lt.mpr h.le]
      · rw [compare_eq_iff_eq.mpr h]
        simp [h]
      · rw [compare_gt_iff_gt.mpr h]
        simpa [h] using ih

end Zkmemory.Zincplus
