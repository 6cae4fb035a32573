import Orochimaru.Zkmemory.Backends
import Orochimaru.Zkmemory.Constraints.OriginalRejection

/-!
# The error contract of the Halo2 backend

`prove` synthesizes the circuit before it checks a constraint, and the assignment inverts
the first difference of adjacent rows, in time order and in sorted order. Equal rows have
none, and the run panics. On all other traces it answers, and the answer does not depend
on what is drawn at random.
-/

namespace Zkmemory

open Plonkish Constraints Zincplus Loops

/-! ## The backend -/

/-- What a run draws at random. An element drawn at a row of the sorted region is not zero. -/
structure Draws where
  seeds : Fin 5 → U64
  alpha : Fp
  random : Nat → Fp
  random_ne_zero : ∀ i, random i ≠ 0

/-- The errors of the backend, which the source renders as texts. -/
inductive Halo2Error
  | constraintCheck
  deriving DecidableEq

structure Halo2Backend where
  k : Nat

/-- `MockProver` keeps the last six of the `2 ^ k` rows for blinding. -/
def Halo2Backend.domain (backend : Halo2Backend) : Domain where
  rows := 2 ^ backend.k
  usable := 2 ^ backend.k - 6
  usable_lt := Nat.sub_lt (by positivity) (by decide)

structure Halo2Attestation where
  trace : List (TraceRecord 32 32)
  k : Nat

namespace Halo2Backend

variable (backend : Halo2Backend)

/-- The outer panics are those of the synthesis. -/
def check (trace : List (TraceRecord 32 32)) (draws : Draws) :
    Except Panic (Except Halo2Error Unit) := do
  let c ← (halo2Circuit trace).synthesize fpFromWord draws.seeds draws.random
  .ok (if (c.configure draws.alpha).Holds backend.domain then .ok () else .error .constraintCheck)

def prove (trace : List (TraceRecord 32 32)) (draws : Draws) :
    Except Panic (Except Halo2Error Halo2Attestation) := do
  let result ← backend.check trace draws
  .ok (result.map fun _ => ⟨trace, backend.k⟩)

def verify (_ : Halo2Backend) (proof : Halo2Attestation) (draws : Draws) :
    Except Panic (Except Halo2Error Unit) :=
  check ⟨proof.k⟩ proof.trace draws

end Halo2Backend

/-! ## The synthesis -/

/-- Consecutive records have different times. -/
def TimesDiffer (trace : List (TraceRecord 32 32)) : Prop :=
  trace.IsChain fun a b => a.timeLog ≠ b.timeLog

/-- No two records have the same address and the same time. -/
def KeysDiffer (trace : List (TraceRecord 32 32)) : Prop :=
  (trace.map fun r => (r.address, r.timeLog)).Nodup

/-- The first time is zero, and times grow. -/
def WellTimed (trace : List (TraceRecord 32 32)) : Prop :=
  (∀ r ∈ trace.head?, r.timeLog.val = 0) ∧ trace.IsChain fun a b => a.timeLog < b.timeLog

variable {trace : List (TraceRecord 32 32)} {backend : Halo2Backend}

theorem key_eq_iff (a b : TraceRecord 32 32) :
    RowLimbs.key a = RowLimbs.key b ↔ (a.address, a.timeLog) = (b.address, b.timeLog) := by
  constructor
  · intro h
    have htime := RowLimbs.timeLog_eq_of_key h
    rw [RowLimbs.key, RowLimbs.key, htime] at h
    rw [htime, Uint.ext (x := a.address) (y := b.address) (by omega)]
  · intro h
    obtain ⟨haddr, htime⟩ := Prod.mk.inj h
    rw [RowLimbs.key, RowLimbs.key, haddr, htime]

theorem keysDiffer_iff_increasing : KeysDiffer trace ↔ Increasing (sortTrace trace) := by
  have hperm : KeysDiffer trace ↔ KeysDiffer (sortTrace trace) :=
    ((sortTrace_perm trace).map _).nodup_iff.symm
  have hpair : Increasing (sortTrace trace) ↔
      (sortTrace trace).Pairwise fun a b => RowLimbs.key a < RowLimbs.key b := by
    have htrans : IsTrans (TraceRecord 32 32) fun a b => RowLimbs.key a < RowLimbs.key b :=
      ⟨fun _ _ _ hab hbc => hab.trans hbc⟩
    exact List.isChain_iff_pairwise
  rw [hperm, hpair, KeysDiffer, List.Nodup, List.pairwise_map]
  constructor
  · intro hne
    exact ((sortTrace_pairwise trace).and hne).imp fun {a b} h =>
      lt_of_le_of_ne h.1 fun he => h.2 ((key_eq_iff a b).mp he)
  · intro hlt
    exact hlt.imp fun {a b} h he => Nat.ne_of_lt h ((key_eq_iff a b).mpr he)

theorem beLimbs_of_key {a b : TraceRecord 32 32} (h : RowLimbs.key a = RowLimbs.key b) :
    (ConvertedTraceRecord.ofRecord a : ConvertedTraceRecord Fp).beLimbs true =
      (ConvertedTraceRecord.ofRecord b).beLimbs true := by
  obtain ⟨haddr, htime⟩ := Prod.mk.inj ((key_eq_iff a b).mp h)
  simp only [beLimbs_ofRecord, orderByte, haddr, htime]

/-- A run that does not panic has met no equal rows. -/
theorem differ_of_synthesize {seeds : Fin 5 → U64} {random : Nat → Fp} {c : ConsistencyConfig Fp}
    (h : (halo2Circuit trace).synthesize fpFromWord seeds random = .ok c) :
    TimesDiffer trace ∧ KeysDiffer trace := by
  obtain ⟨_, -, h⟩ := bind_ok_iff.mp h
  obtain ⟨sorted, hsorted, h⟩ := bind_ok_iff.mp h
  obtain ⟨original, horiginal, -⟩ := bind_ok_iff.mp h
  have hget : ∀ {l : List (TraceRecord 32 32)} {i : Nat} (hi : i < l.length),
      (l.map (ConvertedTraceRecord.ofRecord : _ → ConvertedTraceRecord Fp))[i]? =
        some (.ofRecord l[i]) := by
    intro l i hi
    rw [List.getElem?_map, List.getElem?_eq_getElem hi]
    rfl
  constructor
  · refine List.isChain_iff_getElem.mpr fun i hi he => ?_
    obtain ⟨row, -, hrow⟩ := (getElem?_of_mapM_range horiginal).2 (i + 1) hi
    refine originalMemoryAssign_ne (hget (Nat.lt_of_succ_lt hi)) (hget hi) hrow ?_
    change ConvertedTraceRecord.ofBytes _ = ConvertedTraceRecord.ofBytes _
    rw [he]
  · rw [keysDiffer_iff_increasing, Increasing, List.isChain_iff_getElem]
    intro i hi
    obtain ⟨row, -, hrow⟩ := (getElem?_of_mapM_range hsorted).2 (i + 1) hi
    have hne := sortedMemoryAssign_ne (hget (Nat.lt_of_succ_lt hi)) (hget hi) hrow
    have hle := List.pairwise_iff_getElem.mp (sortTrace_pairwise trace) i (i + 1)
      (Nat.lt_of_succ_lt hi) hi (Nat.lt_succ_self i)
    exact lt_of_le_of_ne hle fun he => hne (beLimbs_of_key he.symm)

/-- Every other run ends, and its constraints do not see what was drawn. -/
theorem synthesize_of_differ {D : Domain} (htimes : TimesDiffer trace) (hkeys : KeysDiffer trace)
    (hfit : Fits D trace.length) (draws : Draws) : ∃ c,
      (halo2Circuit trace).synthesize fpFromWord draws.seeds draws.random = .ok c ∧
      ((c.configure draws.alpha).Holds D ↔ WellTimed trace ∧ TailLinked (sortTrace trace)) := by
  have hlen : (sortTrace trace).length = trace.length := (sortTrace_perm trace).length_eq
  have htab := consistencyTables_loaded (F := Fp) hfit
  have hfit' := hfit
  unfold Fits originalStart at hfit'
  obtain ⟨original, hrun, horiginal⟩ := differingRows_ok (p := pastaModulus) (by decide) htimes
  obtain ⟨sorted, hrun', hsorted⟩ := sortedRows_ok (p := pastaModulus) (by decide)
    (keysDiffer_iff_increasing.mp hkeys) draws.random_ne_zero
  rw [hlen] at hrun'
  refine ⟨⟨originalMemoryColumns (originalStart trace.length) (consistencyTables trace.length)
    original, sortedMemoryColumns 0 (consistencyTables trace.length) sorted,
      PermutationCircuit.columns ⟨trace.map (compress fpFromWord draws.seeds),
        (sortTrace trace).map (compress fpFromWord draws.seeds)⟩⟩, ?_, ?_⟩
  · simp only [halo2Circuit, MemoryConsistencyCircuit.synthesize, PermutationCircuit.new,
      sortTraceByAddressTime_eq, hlen, if_true, ok_bind, hrun, hrun']
  · have hp : 2 ^ 64 < pastaModulus := by decide
    rw [ConsistencyConfig.holds_iff,
      DifferingRows.holds_iff hp horiginal htab (by unfold originalStart; omega),
      SortedRows.holds_iff hsorted lt_pastaModulus htab (by rw [hlen]; omega)]
    have hshuffle := shuffle_holds (D := D) ((sortTrace_perm trace).symm.map
      (compress fpFromWord draws.seeds)) (by rw [List.length_map]; omega)
    exact ⟨fun h => ⟨h.1, h.2.1⟩, fun h => ⟨h.1, h.2, hshuffle⟩⟩

/-! ## The contract -/

/-- `prove` answers, refuses malformed traces, and its attestations verify. -/
structure Halo2Backend.ProveContract (backend : Halo2Backend) (trace : List (TraceRecord 32 32)) :
    Prop where
  answers : ∀ draws, ∃ result, backend.prove trace draws = .ok result
  rejects : ¬ WellTimed trace → ∀ draws, ∃ e, backend.prove trace draws = .ok (.error e)
  verifies : ∀ draws proof, backend.prove trace draws = .ok (.ok proof) →
    ∀ draws', backend.verify proof draws' = .ok (.ok ())

namespace Halo2Backend

theorem check_of_differ (htimes : TimesDiffer trace) (hkeys : KeysDiffer trace)
    (hfit : Fits backend.domain trace.length) (draws : Draws) :
    (WellTimed trace ∧ TailLinked (sortTrace trace) ∧ backend.check trace draws = .ok (.ok ())) ∨
    (¬ (WellTimed trace ∧ TailLinked (sortTrace trace)) ∧
      backend.check trace draws = .ok (.error .constraintCheck)) := by
  obtain ⟨c, hc, hholds⟩ := synthesize_of_differ htimes hkeys hfit draws
  rw [check, hc, ok_bind]
  by_cases h : WellTimed trace ∧ TailLinked (sortTrace trace)
  · rw [if_pos (hholds.mpr h)]
    exact .inl ⟨h.1, h.2, rfl⟩
  · rw [if_neg (h ∘ hholds.mp)]
    exact .inr ⟨h, rfl⟩

theorem differ_of_prove {draws : Draws} {result : Except Halo2Error Halo2Attestation}
    (h : backend.prove trace draws = .ok result) : TimesDiffer trace ∧ KeysDiffer trace := by
  obtain ⟨checked, hcheck, -⟩ := bind_ok_iff.mp h
  obtain ⟨c, hc, -⟩ := bind_ok_iff.mp hcheck
  exact differ_of_synthesize hc

/-- **The backend keeps its contract exactly on the traces without equal rows.** -/
theorem proveContract_iff (hfit : Fits backend.domain trace.length) :
    backend.ProveContract trace ↔ TimesDiffer trace ∧ KeysDiffer trace := by
  constructor
  · intro h
    obtain ⟨result, hrun⟩ := h.answers ⟨fun _ => .zero, 0, fun _ => 1, fun _ => one_ne_zero⟩
    exact differ_of_prove hrun
  · rintro ⟨htimes, hkeys⟩
    have hcheck : ∀ draws, _ := check_of_differ htimes hkeys hfit
    refine ⟨fun draws => ?_, fun hbad draws => ?_, fun draws proof hproof draws' => ?_⟩
    · rcases hcheck draws with ⟨-, -, h⟩ | ⟨-, h⟩
      · exact ⟨_, by rw [prove, h, ok_bind]⟩
      · exact ⟨_, by rw [prove, h, ok_bind]⟩
    · rcases hcheck draws with ⟨hgood, -, -⟩ | ⟨-, h⟩
      · exact absurd hgood hbad
      · exact ⟨.constraintCheck, by rw [prove, h, ok_bind]; rfl⟩
    · rcases hcheck draws with ⟨hgood, hlinked, h⟩ | ⟨-, h⟩
      · rw [prove, h, ok_bind] at hproof
        cases hproof
        rcases hcheck draws' with ⟨-, -, h'⟩ | ⟨hnot, -⟩
        · exact h'
        · exact absurd ⟨hgood, hlinked⟩ hnot
      · rw [prove, h, ok_bind] at hproof
        cases hproof

theorem proveContract_iff_topByteTrace :
    (⟨10⟩ : Halo2Backend).ProveContract topByteTrace ↔
      TimesDiffer topByteTrace ∧ KeysDiffer topByteTrace :=
  proveContract_iff (by decide +kernel)

/-- Two writes at time zero. -/
def sameTimeTrace : List (TraceRecord 32 32) :=
  [⟨.ofNat 0, .ofNat 0, .write, .ofNat 0, .ofNat 5⟩,
    ⟨.ofNat 0, .ofNat 0, .write, .ofNat 1, .ofNat 5⟩]

/-- The trace is malformed, and `prove` panics whatever it draws. -/
theorem sameTimeTrace_panics : ¬ WellTimed sameTimeTrace ∧
    ¬ ∃ draws result, (⟨10⟩ : Halo2Backend).prove sameTimeTrace draws = .ok result := by
  constructor
  · rintro ⟨-, h⟩
    exact absurd (List.isChain_cons_cons.mp h).1 (lt_irrefl _)
  · rintro ⟨draws, result, h⟩
    exact (List.isChain_cons_cons.mp (differ_of_prove h).1).1 rfl

end Halo2Backend

end Zkmemory
