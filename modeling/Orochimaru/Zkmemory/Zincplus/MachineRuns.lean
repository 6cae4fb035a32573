import Orochimaru.Zkmemory.MachineTrace
import Orochimaru.Zkmemory.Zincplus.Completeness

/-!
# Machine runs and the UAIR

The trace of a run always meets the input contract of the builder. Its witness is
accepted when no cell is read before it is written: the machine answers such a read
with zero, while the circuit asks for a write first.
-/

namespace Zkmemory.Zincplus

open Access Loops

/-- Every read record has an earlier write record at its address. -/
def ReadsWritten (trace : List Record) : Prop :=
  ∀ pre r post, trace = pre ++ r :: post → r.instruction = .read →
    ∃ w ∈ pre, w.instruction = .write ∧ w.address = r.address

section

variable {m : Machine 32 32}

theorem trace_getElem_timeLog (h : m.TraceInvariant) {i : Nat}
    (hi : i < m.executionTrace.length) : m.executionTrace[i].timeLog.val = i := by
  have hmap : (m.executionTrace.map fun r => r.timeLog.val)[i]? =
      (List.range m.executionTrace.length)[i]? := by rw [h.times]
  simpa [hi] using hmap

theorem trace_admissible (h : m.TraceInvariant) (hne : m.executionTrace ≠ [])
    (hlen : m.executionTrace.length ≤ 2 ^ 16 - 1) : Admissible m.executionTrace := by
  have hpos : 0 < m.executionTrace.length := List.length_pos_iff.mpr hne
  have hmax : paddedVars m.executionTrace.length ≤ maxNumVars :=
    max_le ((Nat.clog_le_iff_le_pow (by decide)).mpr (by simp only [maxNumVars]; omega)) (by decide)
  refine ⟨hne, fun r hr => ?_, ?_, by simp only [maxNumVars]; omega, fun r hr => ?_⟩
  · rw [List.head?_eq_getElem?, List.getElem?_eq_getElem hpos] at hr
    cases hr
    exact trace_getElem_timeLog h hpos
  · refine List.pairwise_iff_getElem.mpr fun i j hi hj hij => ?_
    rw [Uint.lt_iff, trace_getElem_timeLog h hi, trace_getElem_timeLog h hj]
    exact hij
  · rw [List.getLast?_eq_getElem?, List.getElem?_eq_getElem (by omega)] at hr
    cases hr
    rw [trace_getElem_timeLog h (by omega)]
    have hpow := Nat.pow_le_pow_right (show 0 < 2 by decide) hmax
    simp only [maxNumVars] at hpow
    omega

/-- On a machine trace only the first accesses matter: the values always agree. -/
theorem trace_consistent_iff (h : m.TraceInvariant) :
    Consistent m.executionTrace ↔ ReadsWritten m.executionTrace := by
  have hread : ∀ r : Record, isWrite r = false ↔ r.instruction = .read := by
    intro r
    change (r.instruction == .write) = false ↔ _
    cases r.instruction <;> decide
  have hwrite : ∀ r : Record, isWrite r = true ↔ r.instruction = .write := fun r => beq_iff_eq
  constructor
  · intro hc pre r post he hr
    obtain ⟨w, hw, hww, ha, _⟩ := exists_write_of_lastWrite? (hc pre r post he ((hread r).mpr hr))
    exact ⟨w, hw, (hwrite w).mp hww, ha⟩
  · intro hw pre r post he hr
    obtain ⟨w, hmem, hww, ha⟩ := hw pre r post he ((hread r).mp hr)
    obtain ⟨v, hv⟩ := lastWrite?_isSome hmem ((hwrite w).mpr hww)
    have hval := h.reads pre r post he ((hread r).mp hr)
    change lastWrite? pre w.address = some v at hv
    change lastWrite? pre r.address = some r.value
    rw [ha] at hv
    rw [hval, hv]
    rfl

theorem run_invariant {m m' : Machine 32 32} (hinit : m.Initial) (hw : m.WordSized)
    {ops : List (Op 32 32)} {rs : List (Response 32 32)} (hrun : m.run ops = .ok (rs, m')) :
    m'.TraceInvariant := by
  have h := Machine.run_ends ⟨hw, hinit.traceInvariant⟩ ops
  rw [hrun] at h
  exact h.invariant

end

/-- **The runs that are provable.** The builder accepts the trace of every run, and its
witness satisfies the constraints exactly when every cell is written before it is read. -/
theorem run_provable_iff {m m' : Machine 32 32} (hinit : m.Initial) (hw : m.WordSized)
    {ops : List (Op 32 32)} {rs : List (Response 32 32)} (hrun : m.run ops = .ok (rs, m'))
    (hne : m'.executionTrace ≠ []) (hlen : m'.executionTrace.length ≤ 2 ^ 16 - 1) :
    ∃ c layout, buildUairTrace m'.executionTrace = .ok (c, layout) ∧
      (c.Satisfied layout ↔ ReadsWritten m'.executionTrace) := by
  have hinv := run_invariant hinit hw hrun
  have hadm := trace_admissible hinv hne hlen
  obtain ⟨run, hbuild⟩ := buildUairTrace_ok hadm
  exact ⟨_, _, hbuild, (run.satisfied_iff_consistent hadm).trans (trace_consistent_iff hinv)⟩

/-- A machine with 32-byte words. -/
def wordMachine : Machine 32 32 := Machine.empty (.ofNat 32) .zero .zero

theorem wordMachine_wordSized : wordMachine.WordSized := ⟨by decide, by decide, by decide⟩

theorem wordMachine_initial : wordMachine.Initial := Machine.empty_initial _ _ _

/-- An unaligned write that fills two cells, then a read of the second. -/
theorem run_provable_iff_straddling : ∃ rs m' c layout,
    wordMachine.run [.write (.ofNat 1) (.ofNat 5), .read (.ofNat 32)] = .ok (rs, m') ∧
      buildUairTrace m'.executionTrace = .ok (c, layout) ∧
      (c.Satisfied layout ↔ ReadsWritten m'.executionTrace) := by
  obtain ⟨rs, m', hrun, hlen⟩ : ∃ rs m',
      wordMachine.run [.write (.ofNat 1) (.ofNat 5), .read (.ofNat 32)] = .ok (rs, m') ∧
        m'.executionTrace.length = 3 := ⟨_, _, rfl, rfl⟩
  have hne : m'.executionTrace ≠ [] := fun he => by simp [he] at hlen
  obtain ⟨c, layout, hbuild, hiff⟩ := run_provable_iff wordMachine_initial wordMachine_wordSized
    hrun hne (by omega)
  exact ⟨rs, m', c, layout, hrun, hbuild, hiff⟩

/-- A read of a cell never written is not provable: the machine answers zero, the builder
returns a witness, and the witness breaks a constraint. -/
theorem run_read_unwritten_rejected : ∃ rs m' c layout,
    wordMachine.run [.read .zero] = .ok (rs, m') ∧ m'.executionTrace.length = 1 ∧
      buildUairTrace m'.executionTrace = .ok (c, layout) ∧ ¬ c.Satisfied layout := by
  obtain ⟨rs, m', hrun, htrace⟩ : ∃ rs m', wordMachine.run [.read .zero] = .ok (rs, m') ∧
      m'.executionTrace = [⟨.zero, .zero, .read, .zero, .zero⟩] := ⟨_, _, rfl, rfl⟩
  have hadm : Admissible m'.executionTrace :=
    trace_admissible (run_invariant wordMachine_initial wordMachine_wordSized hrun)
      (by simp [htrace]) (by simp [htrace])
  obtain ⟨run, hbuild⟩ := buildUairTrace_ok hadm
  refine ⟨rs, m', _, _, hrun, by simp [htrace], hbuild, fun hsat => ?_⟩
  have hc := (run.satisfied_iff_consistent hadm).mp hsat
  rw [htrace] at hc
  have := hc [] _ [] rfl rfl
  cases this

end Zkmemory.Zincplus
