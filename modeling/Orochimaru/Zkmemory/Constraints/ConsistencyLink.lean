import Orochimaru.Zkmemory.Constraints.ConsistencyCheck
import Orochimaru.Zkmemory.Constraints.OriginalAssignment
import Orochimaru.Zkmemory.Constraints.PastaFp

/-!
# The two traces of the composed circuit

The parts of the circuit share no advice column and no copy constraint, so an assignment
of the whole is any three assignments of the parts. Nothing links the records of the
sorted rows with those of the original rows, unless there are no rows.
-/

namespace Zkmemory.Constraints

open Plonkish FieldDigits Positional ConvertedTraceRecord Loops

variable {p : Nat} [Fact p.Prime]

/-- The fixed columns of the circuit: selectors, tables and the compressed input. -/
structure ConsistencyConfig.Synthesized {F : Type*} [Field F] (c : ConsistencyConfig F)
    (circuit : MemoryConsistencyCircuit) (fromB256 : B256 → F) (seeds : Fin 5 → U64) : Prop where
  original : c.originalMemoryConfig.Selected (originalStart circuit.shuffle.length)
    circuit.input.length
  sorted : c.sortedMemoryConfig.Selected 0 circuit.shuffle.length
  originalTables : c.originalMemoryConfig.lookupTables = consistencyTables circuit.shuffle.length
  sortedTables : c.sortedMemoryConfig.lookupTables = consistencyTables circuit.shuffle.length
  input : c.permutationConfig.input =
    place 0 (circuit.input.map (compress fromB256 seeds)) id
  sInput : c.permutationConfig.sInput = enabled 0 circuit.input.length
  sShuffle : c.permutationConfig.sShuffle = enabled 0 circuit.shuffle.length

/-- A domain with room for every region. -/
def Fits (D : Domain) (n : Nat) : Prop := originalStart n + max n 256 ≤ D.usable

instance (D : Domain) (n : Nat) : Decidable (Fits D n) := inferInstanceAs (Decidable (_ ≤ _))

theorem consistencyTables_loaded {F : Type*} [Field F] {D : Domain} {n : Nat} (h : Fits D n) :
    (consistencyTables n : LookUpTables F).Loaded D := by
  unfold Fits originalStart at h
  exact (LookUpTables.loaded_blank (by omega)).load (by unfold originalStart; omega)

theorem ConsistencyConfig.holds_iff {F : Type*} [Field F] (c : ConsistencyConfig F) {alpha : F}
    {D : Domain} : (c.configure alpha).Holds D ↔
      (c.originalMemoryConfig.configure (alphaPower alpha 40)).Holds D ∧
      (c.sortedMemoryConfig.configure (alphaPower alpha 40)).Holds D ∧
      c.permutationConfig.configure.Holds D := by
  rw [configure, System.holds_append, System.holds_append, and_assoc]

theorem ShuffleConfig.holds_iff {F : Type*} [Field F] (c : ShuffleConfig F) {D : Domain} :
    c.configure.Holds D ↔ ShuffleHolds D (fun r => c.sInput r * c.input r)
      fun r => c.sShuffle r * c.shuffle r :=
  System.holds_shuffle

/-- The records of the sorted rows are those of the original rows. -/
def SameRecords {F : Type*} [Field F] (c : ConsistencyConfig F) (n : Nat) : Prop :=
  ((List.range n).map c.sortedMemoryConfig.traceRecord.queries).Perm
    ((List.range n).map fun i =>
      c.originalMemoryConfig.traceRecord.queries (originalStart n + i))

/-! ## Unlinked traces -/

/-- `n` writes of one value to address 0, at the times `0, ..., n - 1`. -/
def writes (value : B256) (n : Nat) : List (TraceRecord 32 32) :=
  (List.range n).map fun i => ⟨.ofNat i, .zero, .write, .zero, value⟩

@[simp] theorem writes_length (value : B256) (n : Nat) : (writes value n).length = n := by
  simp [writes]

theorem writes_getElem? (value : B256) {n i : Nat} (hi : i < n) :
    (writes value n)[i]? = some ⟨.ofNat i, .zero, .write, .zero, value⟩ := by
  simp [writes, hi]

theorem writes_isChain (value : B256) {n : Nat} (hn : n < 2 ^ 64)
    {R : TraceRecord 32 32 → TraceRecord 32 32 → Prop}
    (hR : ∀ s t : U64, s < t → R ⟨s, .zero, .write, .zero, value⟩ ⟨t, .zero, .write, .zero, value⟩) :
    (writes value n).IsChain R := by
  rw [List.isChain_iff_getElem]
  intro i hi
  rw [writes_length] at hi
  simp only [writes, List.getElem_map, List.getElem_range]
  refine hR _ _ (Uint.lt_iff.mpr ?_)
  rw [Uint.ofNat_val (by norm_num at hn ⊢; omega), Uint.ofNat_val (by norm_num at hn ⊢; omega)]
  omega

/-- An assignment whose sorted rows and original rows hold different values. -/
theorem exists_unlinked (hp : 2 ^ 248 < p) (circuit : MemoryConsistencyCircuit)
    (hlen : circuit.input.length = circuit.shuffle.length)
    (hn : circuit.shuffle.length < 2 ^ 64) (hpos : 0 < circuit.shuffle.length)
    (fromB256 : B256 → ZMod p) (seeds : Fin 5 → U64) (alpha : ZMod p) {D : Domain}
    (hfit : Fits D circuit.shuffle.length) :
    ∃ c : ConsistencyConfig (ZMod p), c.Synthesized circuit fromB256 seeds ∧
      (c.configure alpha).Holds D ∧ ¬ SameRecords c circuit.shuffle.length := by
  generalize hN : circuit.shuffle.length = n at *
  have hfit' := hfit
  unfold Fits originalStart at hfit'
  have htab := consistencyTables_loaded (F := ZMod p) hfit
  obtain ⟨sorted, -, hsorted⟩ := sortedRows_ok (p := p) (by omega)
    (writes_isChain (.ofNat 1) hn fun s t hst => by
      have := Uint.lt_iff.mp hst
      simp only [Uint.zero_val]
      omega) fun _ => one_ne_zero
  obtain ⟨original, -, horiginal⟩ := originalRows_ok (p := p) (by omega)
    (writes_isChain .zero hn fun s t hst => hst)
  have hslen : sorted.length = n := hsorted.length.trans (writes_length _ _)
  have holen : original.length = n := horiginal.length.trans (writes_length _ _)
  let c : ConsistencyConfig (ZMod p) :=
    ⟨originalMemoryColumns (originalStart n) (consistencyTables n) original,
      sortedMemoryColumns 0 (consistencyTables n) sorted,
      ⟨place 0 (circuit.input.map (compress fromB256 seeds)) id,
        place 0 (circuit.input.map (compress fromB256 seeds)) id, enabled 0 n, enabled 0 n⟩⟩
  have hhead : ∀ (v : B256), ∀ r ∈ (writes v n).head?, r = ⟨.ofNat 0, .zero, .write, .zero, v⟩ := by
    intro v r hr
    rw [List.head?_eq_getElem?, writes_getElem? v hpos] at hr
    exact (Option.some.inj hr).symm
  refine ⟨c, ?_, c.holds_iff.mpr ⟨?_, ?_, ?_⟩, fun hperm => ?_⟩
  · refine ⟨⟨?_, ?_⟩, ⟨?_, ?_⟩, ?_, ?_, rfl, ?_, ?_⟩
    · simp only [c, originalMemoryColumns, holen, hlen, hN]
    · simp only [c, originalMemoryColumns, holen, hlen, hN]
    · simp only [c, sortedMemoryColumns, hslen, hN]
    · simp only [c, sortedMemoryColumns, hslen, hN]
    · simp only [c, originalMemoryColumns, hN]
    · simp only [c, sortedMemoryColumns, hN]
    · simp only [c, hlen]
    · simp only [c, hN]
  · refine OriginalRows.holds horiginal htab (by rw [writes_length]; unfold originalStart; omega) ?_
    intro r hr
    rw [hhead _ r hr]
    rfl
  · refine (SortedRows.holds_iff hsorted hp htab (by rw [writes_length]; omega)).mpr ⟨?_, ?_⟩
    · intro r hr
      rw [hhead _ r hr]
    · exact writes_isChain _ hn fun s t _ hread => by cases hread
  · exact c.permutationConfig.holds_iff.mpr (List.Perm.refl _)
  -- the first sorted row holds the value 1, which no original row holds
  · have hfirst : c.sortedMemoryConfig.traceRecord.queries 0 =
        ofRecord ⟨.ofNat 0, .zero, .write, .zero, .ofNat 1⟩ :=
      SortedRows.queries hsorted 0 (consistencyTables n) (writes_getElem? _ hpos)
    have hmem := hperm.mem_iff.mp (List.mem_map_of_mem (List.mem_range.mpr hpos))
    obtain ⟨i, hi, he⟩ := List.mem_map.mp hmem
    have hrow : c.originalMemoryConfig.traceRecord.queries (originalStart n + i) =
        ofRecord ⟨.ofNat i, .zero, .write, .zero, .zero⟩ :=
      OriginalRows.queries horiginal _ (consistencyTables n)
        (writes_getElem? _ (List.mem_range.mp hi))
    simp only [hfirst, hrow] at he
    have hvalue := congrArg ConvertedTraceRecord.value he
    have hword := (word_limbs_inj (by omega) (Uint.zero : B256) (.ofNat 1)).mp hvalue
    exact absurd hword (by decide)

/-- **The circuit links its traces only when it has no rows.** -/
theorem sameRecords_iff (hp : 2 ^ 248 < p) (circuit : MemoryConsistencyCircuit)
    (hlen : circuit.input.length = circuit.shuffle.length)
    (hn : circuit.shuffle.length < 2 ^ 64) (fromB256 : B256 → ZMod p) (seeds : Fin 5 → U64)
    (alpha : ZMod p) {D : Domain} (hfit : Fits D circuit.shuffle.length) :
    (∀ c : ConsistencyConfig (ZMod p), c.Synthesized circuit fromB256 seeds →
      (c.configure alpha).Holds D → SameRecords c circuit.shuffle.length) ↔
      circuit.shuffle = [] := by
  constructor
  · intro h
    by_contra hne
    obtain ⟨c, hfixed, hsat, hbad⟩ := exists_unlinked hp circuit hlen hn
      (List.length_pos_iff.mpr hne) fromB256 seeds alpha hfit
    exact hbad (h c hfixed hsat)
  · intro h c _ _
    rw [h]
    exact List.Perm.refl _

/-- One write of the value 7. -/
def singleWrite : MemoryConsistencyCircuit :=
  ⟨[⟨.ofNat 0, .ofNat 0, .write, .ofNat 0, .ofNat 7⟩],
    [⟨.ofNat 0, .ofNat 0, .write, .ofNat 0, .ofNat 7⟩]⟩

def linkDomain : Domain := ⟨1024, 1000, usable_lt_rows⟩

theorem sameRecords_iff_singleWrite :
    (∀ c : ConsistencyConfig Fp, c.Synthesized singleWrite fpFromWord (fun _ => .ofNat 3) →
      (c.configure 2).Holds linkDomain → SameRecords c singleWrite.shuffle.length) ↔
      singleWrite.shuffle = [] :=
  sameRecords_iff lt_pastaModulus singleWrite rfl (by decide) fpFromWord (fun _ => .ofNat 3) 2
    (by decide +kernel)

theorem singleWrite_unlinked : ¬ ∀ c : ConsistencyConfig Fp,
    c.Synthesized singleWrite fpFromWord (fun _ => .ofNat 3) →
      (c.configure 2).Holds linkDomain → SameRecords c 1 := by
  intro h
  obtain ⟨c, hfixed, hsat, hbad⟩ := exists_unlinked lt_pastaModulus singleWrite rfl (by decide)
    (by decide) fpFromWord (fun _ => .ofNat 3) 2 (D := linkDomain) (by decide +kernel)
  exact hbad (h c hfixed hsat)

end Zkmemory.Constraints
