import Orochimaru.Zkmemory.Constraints.ConsistencyLink
import Orochimaru.Zkmemory.Zincplus.Completeness

/-!
# The two backends

`backend.rs`: the Halo2 backend checks the honest assignment of the composed circuit, the
Zinc+ backend the witness of the builder. Both accept by an adjacent-row check of the
sorted trace, and the check of the Halo2 circuit does not see the first byte of addresses
and values.
-/

namespace Zkmemory

open Access Plonkish Constraints Zincplus

/-! ## Acceptance -/

/-- `sort_trace_by_address_time`. -/
def sortTraceByAddressTime (trace : List (TraceRecord 32 32)) : List (TraceRecord 32 32) :=
  trace.mergeSort fun a b => (match compare a.address b.address with
    | .eq => compare a.timeLog b.timeLog
    | ordering => ordering).isLE

/-- The circuit of `Halo2Backend::check`. -/
def halo2Circuit (trace : List (TraceRecord 32 32)) : MemoryConsistencyCircuit :=
  ⟨trace, sortTraceByAddressTime trace⟩

/-- All constraints hold on the honest assignment, whatever is drawn at random. An element
drawn at a row of the sorted region has an inverse. -/
def Halo2Accepts (D : Domain) (trace : List (TraceRecord 32 32)) : Prop :=
  ∀ (seeds : Fin 5 → U64) (alpha : Fp) (random : Nat → Fp), (∀ i, random i ≠ 0) →
    ∃ c, (halo2Circuit trace).synthesize fpFromWord seeds random = .ok c ∧
      (c.configure alpha).Holds D

def ZincAccepts (trace : List (TraceRecord 32 32)) : Prop :=
  ∃ c layout, buildUairTrace trace = .ok (c, layout) ∧ c.Satisfied layout

theorem sortTraceByAddressTime_eq (trace : List (TraceRecord 32 32)) :
    sortTraceByAddressTime trace = sortTrace trace := rfl

/-! ## The shuffle argument -/

theorem enabled_place {F : Type*} [Field F] {l : List F} {n : Nat} (h : l.length ≤ n) :
    (List.range n).map (fun r => (enabled 0 l.length r : F) * place 0 l id r) =
      l ++ List.replicate (n - l.length) 0 := by
  apply List.ext_getElem
  · simp
    omega
  · intro i hi₁ hi₂
    rw [List.getElem_map, List.getElem_range, List.getElem_append]
    split
    case isTrue hi => simp [enabled, place, hi]
    case isFalse hi => simp [enabled, hi]

theorem shuffle_holds {D : Domain} {input shuffle : List Fp} (hperm : input.Perm shuffle)
    (hfit : input.length ≤ D.usable) :
    (PermutationCircuit.columns ⟨input, shuffle⟩).configure.Holds D := by
  rw [ShuffleConfig.holds_iff]
  unfold ShuffleHolds
  simp only [PermutationCircuit.columns]
  rw [enabled_place hfit, enabled_place (hperm.length_eq ▸ hfit), hperm.length_eq]
  exact hperm.append_right _

/-! ## What each backend checks -/

variable {trace : List (TraceRecord 32 32)} {D : Domain}

theorem sorted_increasing (h : Admissible trace) : Increasing (sortTrace trace) :=
  (sorted_strict h.increasing).isChain

/-- The Halo2 backend accepts when the sorted trace passes the check on tails. -/
theorem halo2Accepts_iff (h : Admissible trace) (hfit : Fits D trace.length) :
    Halo2Accepts D trace ↔ TailLinked (sortTrace trace) := by
  have hlen : (sortTrace trace).length = trace.length := (sortTrace_perm trace).length_eq
  have htab := consistencyTables_loaded (F := Fp) hfit
  have hfit' := hfit
  unfold Fits originalStart at hfit'
  obtain ⟨original, hrun, horiginal⟩ := originalRows_ok (p := pastaModulus) (by decide)
    h.increasing.isChain
  have hsynth : ∀ (seeds : Fin 5 → U64) (random : Nat → Fp), (∀ i, random i ≠ 0) →
      ∃ sorted, SortedRows (sortTrace trace) sorted ∧
        (halo2Circuit trace).synthesize fpFromWord seeds random = .ok
          ⟨originalMemoryColumns (originalStart trace.length) (consistencyTables trace.length)
              original, sortedMemoryColumns 0 (consistencyTables trace.length) sorted,
            PermutationCircuit.columns ⟨trace.map (compress fpFromWord seeds),
              (sortTrace trace).map (compress fpFromWord seeds)⟩⟩ := by
    intro seeds random hrandom
    obtain ⟨sorted, hrun', hsorted⟩ := sortedRows_ok (p := pastaModulus) (by decide)
      (sorted_increasing h) hrandom
    refine ⟨sorted, hsorted, ?_⟩
    simp only [halo2Circuit, MemoryConsistencyCircuit.synthesize, PermutationCircuit.new,
      sortTraceByAddressTime_eq, hlen, if_true, Loops.ok_bind, hrun]
    rw [hlen] at hrun'
    simp only [hrun', Loops.ok_bind]
  have hholds : ∀ sorted, SortedRows (sortTrace trace) sorted → ∀ seeds (alpha : Fp),
      (ConsistencyConfig.configure
        ⟨originalMemoryColumns (originalStart trace.length) (consistencyTables trace.length)
            original, sortedMemoryColumns 0 (consistencyTables trace.length) sorted,
          PermutationCircuit.columns ⟨trace.map (compress fpFromWord seeds),
            (sortTrace trace).map (compress fpFromWord seeds)⟩⟩ alpha).Holds D ↔
      TailLinked (sortTrace trace) := by
    intro sorted hsorted seeds alpha
    rw [ConsistencyConfig.holds_iff]
    have hsort : ((sortedMemoryColumns 0 (consistencyTables trace.length) sorted).configure
        (alphaPower alpha 40)).Holds D ↔ TailLinked (sortTrace trace) :=
      SortedRows.holds_iff hsorted lt_pastaModulus htab (by rw [hlen]; omega)
    rw [← hsort]
    refine ⟨fun hc => hc.2.1, fun hc => ⟨?_, hc, ?_⟩⟩
    · exact OriginalRows.holds horiginal htab (by unfold originalStart; omega) h.first
    · exact shuffle_holds ((sortTrace_perm trace).symm.map _) (by rw [List.length_map]; omega)
  constructor
  · intro haccept
    obtain ⟨c, hc, hsat⟩ := haccept (fun _ => .zero) 0 (fun _ => 1) fun _ => one_ne_zero
    obtain ⟨sorted, hsorted, hrun'⟩ := hsynth (fun _ => .zero) (fun _ => 1) fun _ => one_ne_zero
    rw [hrun'] at hc
    cases hc
    exact (hholds sorted hsorted _ _).mp hsat
  · intro hlinked seeds alpha random hrandom
    obtain ⟨sorted, hsorted, hrun'⟩ := hsynth seeds random hrandom
    exact ⟨_, hrun', (hholds sorted hsorted seeds alpha).mpr hlinked⟩

/-- The Zinc+ backend accepts when it passes the check on whole words. -/
theorem zincAccepts_iff (h : Admissible trace) : ZincAccepts trace ↔ Linked (sortTrace trace) := by
  obtain ⟨run, hrun⟩ := buildUairTrace_ok h
  have hlinked : run.columns.Satisfied run.layout ↔ Linked (sortTrace trace) := by
    rw [run.satisfied_iff_linked h, BuilderRun.sortedRecords,
      linked_replay run.rows.last fun r hr => (run.rows.replay r hr).2]
  rw [← hlinked]
  constructor
  · rintro ⟨c, layout, hc, hsat⟩
    rw [hrun] at hc
    cases hc
    exact hsat
  · exact fun hsat => ⟨_, _, hrun, hsat⟩

/-! ## Where they agree -/

/-- No read differs from the record before it in the first byte of address or value. -/
def KeepTops (records : List (TraceRecord 32 32)) : Prop :=
  records.IsChain fun a b => b.instruction = .read →
    a.address.val / 2 ^ 248 = b.address.val / 2 ^ 248 ∧
      a.value.val / 2 ^ 248 = b.value.val / 2 ^ 248

theorem word_eq_iff (x y : B256) :
    x = y ↔ x.val % 2 ^ 248 = y.val % 2 ^ 248 ∧ x.val / 2 ^ 248 = y.val / 2 ^ 248 := by
  constructor
  · rintro rfl
    exact ⟨rfl, rfl⟩
  · rintro ⟨hmod, hdiv⟩
    apply Uint.ext
    rw [← Nat.div_add_mod x.val (2 ^ 248), ← Nat.div_add_mod y.val (2 ^ 248), hmod, hdiv]

theorem linked_iff_tails (records : List (TraceRecord 32 32)) :
    Linked records ↔ TailLinked records ∧ KeepTops records := by
  have hread : ∀ r : TraceRecord 32 32, isWrite r = false ↔ r.instruction = .read := by
    intro r
    change (r.instruction == .write) = false ↔ _
    cases r.instruction <;> decide
  have hwrite : ∀ r : TraceRecord 32 32, isWrite r = true ↔ r.instruction = .write := by
    intro r
    exact beq_iff_eq
  simp only [Linked, TailLinked, KeepTops, List.isChain_iff_getElem, hread, hwrite]
  constructor
  · rintro ⟨hhead, hchain⟩
    refine ⟨⟨hhead, fun i hi hr => ?_⟩, fun i hi hr => ?_⟩
    · exact ⟨((word_eq_iff _ _).mp (hchain i hi hr).1).1, ((word_eq_iff _ _).mp (hchain i hi hr).2).1⟩
    · exact ⟨((word_eq_iff _ _).mp (hchain i hi hr).1).2, ((word_eq_iff _ _).mp (hchain i hi hr).2).2⟩
  · rintro ⟨⟨hhead, htail⟩, htop⟩
    refine ⟨hhead, fun i hi hr => ?_⟩
    exact ⟨(word_eq_iff _ _).mpr ⟨(htail i hi hr).1, (htop i hi hr).1⟩,
      (word_eq_iff _ _).mpr ⟨(htail i hi hr).2, (htop i hi hr).2⟩⟩

/-- **The backends agree unless the traces differ in first bytes only.** -/
theorem backends_agree_iff (h : Admissible trace) (hfit : Fits D trace.length) :
    (Halo2Accepts D trace ↔ ZincAccepts trace) ↔
      KeepTops (sortTrace trace) ∨ ¬ TailLinked (sortTrace trace) := by
  rw [halo2Accepts_iff h hfit, zincAccepts_iff h, linked_iff_tails]
  tauto

/-- A write at address 0, and a read of the same value at address `2^248`. -/
def topByteTrace : List (TraceRecord 32 32) :=
  [⟨.ofNat 0, .ofNat 0, .write, .ofNat 0, .ofNat 5⟩,
    ⟨.ofNat 1, .ofNat 0, .read, .ofNat (2 ^ 248), .ofNat 5⟩]

theorem topByteTrace_admissible : Admissible topByteTrace := by
  refine ⟨by decide, by decide, by decide, by decide, fun r hr => ?_⟩
  cases hr
  decide

theorem topByteTrace_sorted : sortTrace topByteTrace = topByteTrace := by
  apply List.mergeSort_of_pairwise
  simp only [topByteTrace, List.pairwise_cons, List.mem_singleton, forall_eq, List.not_mem_nil,
    false_imp_iff, implies_true, List.Pairwise.nil, and_true, sortCmp_isLE, decide_eq_true_eq]
  decide

theorem backends_agree_iff_topByteTrace :
    (Halo2Accepts linkDomain topByteTrace ↔ ZincAccepts topByteTrace) ↔
      KeepTops (sortTrace topByteTrace) ∨ ¬ TailLinked (sortTrace topByteTrace) :=
  backends_agree_iff topByteTrace_admissible (by decide +kernel)

theorem topByteTrace_disagree :
    Halo2Accepts linkDomain topByteTrace ∧ ¬ ZincAccepts topByteTrace := by
  rw [halo2Accepts_iff topByteTrace_admissible (by decide +kernel),
    zincAccepts_iff topByteTrace_admissible, linked_iff_tails, topByteTrace_sorted]
  have htails : TailLinked topByteTrace := by
    refine ⟨fun r hr => ?_, List.isChain_cons_cons.mpr ⟨fun _ => ?_, List.isChain_singleton _⟩⟩
    · cases hr
      rfl
    · constructor <;> decide
  refine ⟨htails, fun h => ?_⟩
  have htop := (List.isChain_cons_cons.mp h.2).1 rfl
  exact absurd htop.1 (by decide)

end Zkmemory
