import Orochimaru.Zkmemory.Constraints.ConsistencyLink
import Orochimaru.Zkmemory.Constraints.KeyComparison

/-!
# The original-memory circuit against any prover

Whatever a prover assigns, the first limb at which a row differs from the row before it
grows by less than 256, as long as `alpha` avoids finitely many values. This orders the
times exactly where the limbs are bytes, and no lookup of this circuit says that they are.
-/

namespace Zkmemory.Constraints

open Plonkish FieldDigits Positional ConvertedTraceRecord

section

variable {F : Type*} [Field F]

/-- The values of `alpha` for which some combination of differing time limbs vanishes. -/
def timeExceptional (q : Nat → ConvertedTraceRecord F) (n : Nat) : Set F :=
  {alpha | ∃ i < n - 1, ∃ k < 8,
    (∃ j < k, limbDifference ((q (i + 1)).beLimbs false) ((q i).beLimbs false) j ≠ 0) ∧
      combination alpha k (limbDifference ((q (i + 1)).beLimbs false) ((q i).beLimbs false)) = 0}

theorem finite_timeExceptional (q : Nat → ConvertedTraceRecord F) (n : Nat) :
    (timeExceptional q n).Finite :=
  finite_vanishing (fun i => (q i).beLimbs false) (n - 1) 8

end

variable {p : Nat} [Fact p.Prime]

/-- The number the time limbs stand for. -/
def timeKey (q : ConvertedTraceRecord (ZMod p)) : Nat := limbKey 8 (q.beLimbs false)

/-- What the circuit is for: the rows are in time order, from time zero on. -/
structure TimeOrdered (q : Nat → ConvertedTraceRecord (ZMod p)) (n : Nat) : Prop where
  bytes : ∀ i < n, ∀ j, Below 256 ((q i).timeLog j)
  first : 0 < n → timeKey (q 0) = 0
  increasing : ∀ i, i + 1 < n → timeKey (q i) < timeKey (q (i + 1))

theorem timeToExpression_eq (timeLog : Fin 8 → ZMod p) :
    timeToExpression timeLog = (limbKey 8 (List.ofFn timeLog) : ZMod p) := by
  have hlimbs : List.ofFn timeLog =
      (List.range 8).map fun i => (((List.ofFn timeLog).getD i 0).val : ZMod p) := by
    simp only [ZMod.natCast_zmod_val]
    exact (map_getD_range (List.length_ofFn)).symm
  have hx := horner_natCast (R := ZMod p) 256 8 fun i => ((List.ofFn timeLog).getD i 0).val
  rw [← hlimbs] at hx
  rw [limbKey, ← hx, timeToExpression, horner, List.ofFn_succ, List.drop_one, List.tail_cons,
    List.foldl_cons, zero_mul, zero_add]
  rfl

theorem byteLimbs_time (hp : 256 ≤ p) (q : ConvertedTraceRecord (ZMod p)) :
    ByteLimbs 8 (q.beLimbs false) ↔ ∀ j, Below 256 (q.timeLog j) :=
  (byteLimbs_iff hp (n := 8) (q.beLimbs_length false)).trans List.forall_mem_ofFn_iff

namespace OriginalMemoryConfig

variable {c : OriginalMemoryConfig (ZMod p)} {D : Domain} {n : Nat} {alpha : ZMod p}

/-- The fixed columns of the circuit composed for `n` records. -/
structure Composed (c : OriginalMemoryConfig (ZMod p)) (n : Nat) : Prop
    extends c.Selected (originalStart n) n where
  lookupTables : c.lookupTables = consistencyTables n

/-- The records of the region. -/
def rowQueries (c : OriginalMemoryConfig (ZMod p)) (n i : Nat) : ConvertedTraceRecord (ZMod p) :=
  c.traceRecord.queries (originalStart n + i)

/-- **The times are ordered exactly where their limbs are bytes.** -/
theorem timeOrdered_iff (hp : 2 ^ 64 < p) (hfixed : c.Composed n) (hfit : Fits D n)
    (hsat : (c.configure (alphaPower alpha 40)).Holds D) :
    (timeExceptional (c.rowQueries n) n).Finite ∧
      (alpha ∉ timeExceptional (c.rowQueries n) n →
        (TimeOrdered (c.rowQueries n) n ↔
          ∀ i < n, ∀ j, Below 256 ((c.rowQueries n i).timeLog j))) := by
  refine ⟨finite_timeExceptional _ _, fun halpha => ⟨fun h => h.bytes, fun hbytes => ?_⟩⟩
  have htab : c.lookupTables.Loaded D := by
    rw [hfixed.lookupTables]
    exact consistencyTables_loaded hfit
  rw [Fits] at hfit
  obtain ⟨hfirst, hordered, hrange⟩ := (c.holds_iff hfixed.toSelected htab (by omega)).mp hsat
  have hlimbs : ∀ i < n, ByteLimbs 8 (c.traceRecord.limbs false (originalStart n + i)) :=
    fun i hi => (byteLimbs_time (by omega) _).mpr (hbytes i hi)
  refine ⟨hbytes, fun hn => ?_, fun i hi => ?_⟩
  · have hlt : timeKey (c.rowQueries n 0) < 256 ^ 8 := beVal_lt (hlimbs 0 hn)
    have hzero := hfirst hn
    rw [timeToExpression_eq, ← Nat.cast_zero] at hzero
    exact (natCast_inj_of_lt (hlt.trans (by omega)) (by omega)).mp hzero
  · obtain ⟨k, hk, hord⟩ := hordered i hi
    refine hord.limbKey_lt (by omega) hk (hlimbs (i + 1) hi) (hlimbs i (by omega))
      (hrange.difference _ (by omega)) ?_
    by_contra hall
    push Not at hall
    exact halpha ⟨i, by omega, k, hk, hall, hord.before⟩

/-! ## Times that wrap around -/

/-- A record at the time `2 ^ 56 - 2 ^ 56`. -/
def wrappedRecord : ConvertedTraceRecord Fp := ⟨0, ![1, 0, 0, 0, 0, 0, 0, -2 ^ 56], 0, 0⟩

def wrappedRows : List (OriginalMemoryRow Fp) :=
  [⟨⟨0, 0, 0, 0⟩, 0, 0, 0⟩, ⟨wrappedRecord, 1, 1, 0⟩]

def wrappedConfig : OriginalMemoryConfig Fp :=
  originalMemoryColumns (originalStart 2) (consistencyTables 2) wrappedRows

theorem wrappedConfig_composed : wrappedConfig.Composed 2 := ⟨⟨rfl, rfl⟩, rfl⟩

theorem wrappedConfig_queries {i : Nat} {row : OriginalMemoryRow Fp}
    (h : wrappedRows[i]? = some row) : wrappedConfig.rowQueries 2 i = row.record := by
  change (TraceRecordWitnessTable.place (originalStart 2) wrappedRows _).queries
    (originalStart 2 + i) = _
  simp only [TraceRecordWitnessTable.queries, TraceRecordWitnessTable.place, place_of_some _ h]

/-- Only the first and the last limb differ. -/
theorem wrapped_difference {j : Nat} (hj : j < 7) :
    limbDifference ((wrappedConfig.rowQueries 2 1).beLimbs false)
      ((wrappedConfig.rowQueries 2 0).beLimbs false) j = if j = 0 then 1 else 0 := by
  rw [wrappedConfig_queries rfl, wrappedConfig_queries rfl, limbDifference]
  have hcases : j = 0 ∨ j = 1 ∨ j = 2 ∨ j = 3 ∨ j = 4 ∨ j = 5 ∨ j = 6 := by omega
  rcases hcases with rfl | rfl | rfl | rfl | rfl | rfl | rfl <;>
    simp [beLimbs, wrappedRecord]

theorem wrappedConfig_holds {D : Domain} (hfit : Fits D 2) (alpha : Fp) :
    (wrappedConfig.configure (alphaPower alpha 40)).Holds D := by
  have htab : wrappedConfig.lookupTables.Loaded D := consistencyTables_loaded hfit
  rw [Fits] at hfit
  rw [wrappedConfig.holds_iff wrappedConfig_composed.toSelected htab (by omega)]
  refine ⟨fun _ => ?_, fun i hi => ?_, by simp, fun r _ => ?_⟩
  · have hfirst : wrappedConfig.traceRecord.queries (originalStart 2) = ⟨0, 0, 0, 0⟩ :=
      wrappedConfig_queries (i := 0) rfl
    rw [hfirst, timeToExpression_eq]
    simp [limbKey, beVal, List.ofFn_succ]
  · obtain rfl : i = 0 := by omega
    have hcell : ∀ cell : OriginalMemoryRow Fp → Fp,
        place (originalStart 2) wrappedRows cell (originalStart 2 + 1) = cell _ :=
      fun cell => place_of_some cell rfl
    refine ⟨0, by decide, fun j => ?_, ?_, combination_of_zero _ (by omega), ?_⟩
    · exact (hcell fun row => row.firstDifferenceLimb j).trans (by simp [asBits, beDigit])
    · exact (congrArg₂ (· * ·) (hcell (·.difference)) (hcell (·.differenceInverse))).trans
        (one_mul 1)
    · exact (hcell (·.difference)).trans (wrapped_difference (j := 0) (by decide)).symm
  · rcases place_cases (F := Fp) (originalStart 2) wrappedRows r with ⟨row, hrow, hr⟩ | hr
    · rw [show wrappedConfig.greaterThan.difference r = row.difference from hr _]
      rcases List.mem_pair.mp hrow with rfl | rfl
      · exact below_zero (by decide)
      · exact ⟨1, by decide, Nat.cast_one.symm⟩
    · rw [show wrappedConfig.greaterThan.difference r = 0 from hr _]
      exact below_zero (by decide)

/-- No value of `alpha` is exceptional. -/
theorem wrappedConfig_exceptional (alpha : Fp) :
    alpha ∉ timeExceptional (wrappedConfig.rowQueries 2) 2 := by
  rintro ⟨i, hi, k, hk, ⟨j, hj, -⟩, hzero⟩
  obtain rfl : i = 0 := by omega
  rw [combination, Finset.sum_eq_single 0] at hzero
  · rw [wrapped_difference (by decide), if_pos rfl, pow_zero, one_mul] at hzero
    exact one_ne_zero hzero
  · intro m hm hm0
    have hmk := Finset.mem_range.mp hm
    rw [wrapped_difference (by omega), if_neg hm0, mul_zero]
  · intro h0
    exact absurd (Finset.mem_range.mpr (by omega)) h0

theorem timeOrdered_iff_wrapped :
    (timeExceptional (wrappedConfig.rowQueries 2) 2).Finite ∧
      ((0 : Fp) ∉ timeExceptional (wrappedConfig.rowQueries 2) 2 →
        (TimeOrdered (wrappedConfig.rowQueries 2) 2 ↔
          ∀ i < 2, ∀ j, Below 256 ((wrappedConfig.rowQueries 2 i).timeLog j))) :=
  timeOrdered_iff (by decide) wrappedConfig_composed (D := ⟨1024, 1018, by decide⟩)
    (by decide) (wrappedConfig_holds (by decide) 0)

/-- The second row passes at a time that its limbs do not encode. -/
theorem wrappedConfig_accepted : wrappedConfig.Composed 2 ∧ ∃ D, Fits D 2 ∧ ∀ alpha : Fp,
    (wrappedConfig.configure (alphaPower alpha 40)).Holds D ∧
      alpha ∉ timeExceptional (wrappedConfig.rowQueries 2) 2 ∧
      ¬ TimeOrdered (wrappedConfig.rowQueries 2) 2 := by
  refine ⟨wrappedConfig_composed, ⟨1024, 1018, by decide⟩, by decide, fun alpha =>
    ⟨wrappedConfig_holds (by decide) alpha, wrappedConfig_exceptional alpha, fun h => ?_⟩⟩
  have hbyte := h.bytes 1 (by decide) 7
  rw [wrappedConfig_queries rfl] at hbyte
  have hval := (exists_lt_iff_val (p := pastaModulus) (n := 256) (by decide)).mp hbyte
  exact absurd hval (by decide)

end OriginalMemoryConfig

end Zkmemory.Constraints
