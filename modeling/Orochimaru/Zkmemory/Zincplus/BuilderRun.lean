import Orochimaru.Zkmemory.Zincplus.Witness

/-!
# Successful runs of the builder

The builder returns columns exactly on the traces that meet its input contract, and
`BuilderRun` records everything the columns of such a run rest on: both padded traces
with their order, a fitting witness for every transition, and routed switch settings.
-/

namespace Zkmemory.Zincplus

open Loops Switching

/-! ## Size and padding -/

/-- Number of variables for a trace of `len` records and at least one padding row. -/
def paddedVars (len : Nat) : Nat := max (Nat.clog 2 (len + 1)) minNumVars

theorem chooseLayout_ok_iff {len : Nat} {layout : NetLayout} :
    chooseLayout len = .ok layout ↔ len + 1 ≤ 2 ^ maxNumVars ∧
      layout.numVars = paddedVars len := by
  have hclog : Nat.clog 2 (len + 1) ≤ maxNumVars ↔ len + 1 ≤ 2 ^ maxNumVars :=
    Nat.clog_le_iff_le_pow (by decide)
  unfold chooseLayout checkedNextPowerOfTwo
  by_cases hlen : len + 1 ≤ 2 ^ maxNumVars
  · have hle := hclog.mpr hlen
    have h64 : 2 ^ Nat.clog 2 (len + 1) < 2 ^ 64 :=
      Nat.pow_lt_pow_right (by decide) (Nat.lt_of_le_of_lt hle (by decide))
    have hmax : max (Nat.clog 2 (len + 1)) minNumVars ≤ maxNumVars :=
      max_le hle (by decide)
    simp only [if_pos h64, Nat.log2_two_pow, if_neg (Nat.not_lt.mpr hle),
      dif_pos (And.intro (le_max_right (Nat.clog 2 (len + 1)) minNumVars) hmax), hlen, true_and,
      Except.ok.injEq]
    exact ⟨fun h => h ▸ rfl, fun h => by cases layout; simp only at h; subst h; rfl⟩
  · have hgt : maxNumVars < Nat.clog 2 (len + 1) := Nat.lt_of_not_le (mt hclog.mp hlen)
    simp only [hlen, false_and, iff_false]
    split
    case h_1 => simp
    case h_2 p hp =>
      split at hp
      case isTrue =>
        cases hp
        simp [Nat.log2_two_pow, hgt]
      case isFalse => cases hp

theorem lt_two_pow_paddedVars (len : Nat) : len < 2 ^ paddedVars len :=
  Nat.lt_of_lt_of_le (Nat.le_pow_clog (by decide) (len + 1))
    (Nat.pow_le_pow_right (by decide) (le_max_left _ _))

/-- What the padding rows are: replays of `base` at ever later times. -/
structure Padding (base : Record) (n : Nat) (time : U64) (rows : List Record) : Prop where
  length : rows.length = n
  replay : ∀ r ∈ rows, r.instruction = .read ∧ r.address = base.address ∧ r.value = base.value
  later : ∀ r ∈ rows, time < r.timeLog
  increasing : rows.Pairwise fun a b => a.timeLog < b.timeLog

theorem padRows_ok (base : Record) (n : Nat) (time : U64) (h : time.val + n < 2 ^ 64) :
    ∃ rows, padRows base n time = .ok rows ∧ Padding base n time rows := by
  induction n generalizing time with
  | zero => exact ⟨[], rfl, rfl, by simp, by simp, .nil⟩
  | succ n ih =>
    obtain ⟨next, hnext⟩ : ∃ next, time.add (.ofNat 1) = .ok next :=
      ⟨⟨time.val + 1, by omega⟩, Uint.add_ok.mpr rfl⟩
    have hval := Uint.add_ok.mp hnext
    have hone : (Uint.ofNat 1 : U64).val = 1 := rfl
    obtain ⟨rows, hrows, hpad⟩ := ih next (by omega)
    refine ⟨_, by rw [padRows, hnext]; simp only [hrows, ok_bind]; rfl, ?_⟩
    have hlt : time < next := by rw [Uint.lt_iff]; omega
    refine ⟨by simp [hpad.length], ?_, ?_, List.pairwise_cons.mpr ⟨hpad.later, hpad.increasing⟩⟩
    · intro r hr
      rcases List.mem_cons.mp hr with rfl | hr
      · exact ⟨rfl, rfl, rfl⟩
      · exact hpad.replay r hr
    · intro r hr
      rcases List.mem_cons.mp hr with rfl | hr
      · exact hlt
      · exact lt_trans hlt (hpad.later r hr)

theorem lt_of_padRows {base : Record} {n : Nat} {time : U64} {rows : List Record}
    (h : padRows base n time = .ok rows) : time.val + n < 2 ^ 64 := by
  induction n generalizing time rows with
  | zero => exact time.isLt
  | succ n ih =>
    rw [padRows] at h
    cases hnext : time.add (.ofNat 1) with
    | error e => simp [hnext] at h
    | ok next =>
      simp only [hnext] at h
      obtain ⟨rest, hrest, -⟩ := bind_ok_iff.mp h
      have hval := Uint.add_ok.mp hnext
      have hone : (Uint.ofNat 1 : U64).val = 1 := rfl
      have := ih hrest
      omega

/-! ## The two orders -/

/-- What a run knows about its rows. -/
structure PaddedTraces (trace padding : List Record) (base : Record) (numVars : Nat) : Prop where
  last : (sortTrace trace).getLast? = some base
  length : trace.length + padding.length = 2 ^ numVars
  short : trace.length < 2 ^ numVars
  replay : ∀ r ∈ padding, r.instruction = .read ∧ r.address = base.address ∧ r.value = base.value
  sorted : (sortTrace trace ++ padding).Pairwise fun a b => RowLimbs.key a < RowLimbs.key b
  original : (trace ++ padding).Pairwise fun a b => a.timeLog < b.timeLog

/-- Distinct times make the sorted order strict. -/
theorem sorted_strict {trace : List Record}
    (htime : trace.Pairwise fun a b => a.timeLog < b.timeLog) :
    (sortTrace trace).Pairwise fun a b => RowLimbs.key a < RowLimbs.key b := by
  have hne : (sortTrace trace).Pairwise fun a b => a.timeLog ≠ b.timeLog := by
    refine ((sortTrace_perm trace).pairwise_iff fun {a b} h => h.symm).mpr ?_
    exact htime.imp fun h => h.ne
  refine ((sortTrace_pairwise trace).and hne).imp fun {a b} h => ?_
  exact Nat.lt_of_le_of_ne h.1 fun he => h.2 (RowLimbs.timeLog_eq_of_key he)

theorem le_getLast {l : List Record} {f : Record → Nat} {last : Record}
    (hp : l.Pairwise fun a b => f a ≤ f b) (hlast : l.getLast? = some last) :
    ∀ r ∈ l, f r ≤ f last := by
  obtain ⟨init, rfl⟩ : ∃ init, l = init ++ [last] := by
    rw [List.getLast?_eq_some_iff] at hlast
    exact hlast
  intro r hr
  rcases List.mem_append.mp hr with hr | hr
  · exact (List.pairwise_append.mp hp).2.2 r hr last (by simp)
  · rw [List.mem_singleton.mp hr]

theorem paddedTraces {trace padding : List Record} {base last : Record} {numVars : Nat}
    (htime : trace.Pairwise fun a b => a.timeLog < b.timeLog)
    (hlast : trace.getLast? = some last) (hbase : (sortTrace trace).getLast? = some base)
    (hshort : trace.length < 2 ^ numVars)
    (hpad : Padding base (2 ^ numVars - trace.length) last.timeLog padding) :
    PaddedTraces trace padding base numVars := by
  have hmax : ∀ r ∈ trace, r.timeLog ≤ last.timeLog :=
    le_getLast (f := fun r => r.timeLog.val) (htime.imp fun h => le_of_lt h) hlast
  have hstrict := sorted_strict htime
  refine ⟨hbase, by rw [hpad.length]; omega, hshort, hpad.replay, ?_, ?_⟩
  · refine List.pairwise_append.mpr ⟨hstrict, ?_, fun a ha b hb => ?_⟩
    · refine (hpad.increasing.imp_of_mem fun {a b} ha hb h => ?_)
      rw [RowLimbs.key, RowLimbs.key, (hpad.replay a ha).2.1, (hpad.replay b hb).2.1]
      have := Uint.lt_iff.mp h
      omega
    · have hkey := le_getLast (hstrict.imp fun h => le_of_lt h) hbase a ha
      have hat := Uint.le_iff.mp (hmax a ((sortTrace_perm trace).mem_iff.mp ha))
      have hbt := Uint.lt_iff.mp (hpad.later b hb)
      have hta := a.timeLog.isLt
      have htb := base.timeLog.isLt
      rw [RowLimbs.key, RowLimbs.key] at *
      rw [(hpad.replay b hb).2.1]
      omega
  · refine List.pairwise_append.mpr ⟨htime, hpad.increasing, fun a ha b hb => ?_⟩
    exact lt_of_le_of_lt (hmax a ha) (hpad.later b hb)

/-! ## The permutation and its routing -/

theorem getD_eq_getElem {records : List Record} {i : Nat} (h : i < records.length) :
    records.getD i default = records[i] := by
  simp [List.getD_eq_getElem?_getD, h]

theorem posByTime_eq {records : List Record} (hnodup : (records.map (·.timeLog)).Nodup) {i : Nat}
    (hi : i < records.length) : posByTime records (records.getD i default).timeLog = some i := by
  refine foldl_update_apply (fun a ha b hb h => ?_) (fun _ => none) hi
  rw [getD_eq_getElem ha, getD_eq_getElem hb] at h
  have heq : records[a] = records[b] :=
    List.inj_on_of_nodup_map hnodup (List.getElem_mem ha) (List.getElem_mem hb) h
  exact (hnodup.of_map _).getElem_inj_iff.mp heq

/-- The permutation by time takes the original rows from the sorted ones. -/
theorem permByTime_ok {sorted original : List Record} (hperm : sorted.Perm original)
    (hnodup : (sorted.map (·.timeLog)).Nodup) :
    ∃ perm, permByTime sorted original = .ok perm ∧ perm.length = original.length ∧
      (∀ p ∈ perm, p < original.length) ∧ perm.Nodup ∧
      ∀ j < original.length, sorted.getD (perm.getD j 0) default = original.getD j default := by
  have hlen := hperm.length_eq
  have hmap : ∃ perm, permByTime sorted original = .ok perm ∧
      List.Forall₂ (fun r pos => pos < original.length ∧ sorted.getD pos default = r)
        original perm := by
    unfold permByTime
    refine mapM_ok fun r hr => ?_
    obtain ⟨i, hi, rfl⟩ := List.getElem_of_mem (hperm.mem_iff.mpr hr)
    have hpos := posByTime_eq hnodup hi
    rw [getD_eq_getElem hi] at hpos
    exact ⟨i, by rw [hpos], hlen ▸ hi, getD_eq_getElem hi⟩
  obtain ⟨perm, hrun, hall⟩ := hmap
  obtain ⟨hlen', hget⟩ := List.forall₂_iff_get.mp hall
  have hperm' : ∀ j (hj : j < original.length),
      perm.getD j 0 < original.length ∧ sorted.getD (perm.getD j 0) default = original[j] := by
    intro j hj
    have := hget j hj (hlen' ▸ hj)
    simpa [List.getD_eq_getElem?_getD, hlen' ▸ hj] using this
  refine ⟨perm, hrun, hlen'.symm, fun p hp => ?_, ?_, fun j hj => ?_⟩
  · obtain ⟨j, hj, rfl⟩ := List.getElem_of_mem hp
    simpa [List.getD_eq_getElem?_getD, hj] using (hperm' j (hlen' ▸ hj)).1
  · have hnodup' : original.Nodup :=
      (hperm.nodup_iff).mp (hnodup.of_map _)
    refine List.nodup_iff_injective_getElem.mpr fun a b hab => ?_
    have ha := (hperm' a (by have := a.isLt; omega)).2
    have hb := (hperm' b (by have := b.isLt; omega)).2
    have hD : perm.getD a 0 = perm.getD b 0 := by
      simpa [List.getD_eq_getElem?_getD] using hab
    rw [hD, hb] at ha
    exact Fin.ext ((hnodup'.getElem_inj_iff).mp ha).symm
  · rw [(hperm' j hj).2, getD_eq_getElem hj]

theorem networkState_eq {v : Nat} (layers : Layers) (rows : Nat → RowLimbs) {i : Nat}
    (hi : i < 2 ^ v) : networkState v layers rows (numLayers v) i =
      rows (sources (net v layers 0 (numLayers v)) i) := by
  have hlt : ∀ l < numLayers v, strideBit v l < v := by
    intro l hl
    simp only [numLayers] at hl
    unfold strideBit
    split <;> omega
  have h := states_eq_sources (fun l => (strideBit v l, layers l))
    (networkState v layers rows) hlt
    (fun l _ i hi => applyLayer_apply (networkState v layers rows l) v l (layers l) hi) hi
  rw [h, net, List.range_eq_range']
  rfl

/-- The switch settings bring the sorted rows into the original order. -/
theorem route_rows {sorted original : List Record} {v : Nat} (hv : 1 ≤ v)
    (hperm : sorted.Perm original) (hlen : original.length = 2 ^ v)
    (hnodup : (sorted.map (·.timeLog)).Nodup) :
    ∃ perm layers, permByTime sorted original = .ok perm ∧ route perm = .ok layers ∧
      ∀ i < 2 ^ v, networkState v layers (rowsOf sorted) (numLayers v) i = rowsOf original i := by
  obtain ⟨perm, hrun, hplen, hlt, hnodup', hrows⟩ := permByTime_ok hperm hnodup
  obtain ⟨layers, hroute, hsource⟩ := route_ok hv (hplen.trans hlen) (hlen ▸ hlt) hnodup'
  refine ⟨perm, layers, hrun, hroute, fun i hi => ?_⟩
  rw [networkState_eq layers _ hi, hsource i hi, rowsOf, hrows i (hlen ▸ hi), rowsOf]

/-! ## Runs -/

/-- The input contract of the builder. -/
structure Admissible (trace : List Record) : Prop where
  nonempty : trace ≠ []
  first : ∀ r ∈ trace.head?, r.timeLog.val = 0
  increasing : trace.Pairwise fun a b => a.timeLog < b.timeLog
  length : trace.length + 1 ≤ 2 ^ maxNumVars
  time : ∀ r ∈ trace.getLast?,
    r.timeLog.val + (2 ^ paddedVars trace.length - trace.length) < 2 ^ 64

/-- A successful run of the builder. -/
structure BuilderRun (trace : List Record) where
  layout : NetLayout
  padding : List Record
  base : Record
  sortedSteps : List SortedWitness
  originalSteps : List OriginalWitness
  layers : Layers
  rows : PaddedTraces trace padding base layout.numVars
  sortedFits : ∀ i < 2 ^ layout.numVars - 1, ∃ s, sortedSteps[i]? = some s ∧
    s.Fits (rowsOf (sortTrace trace ++ padding) i) (rowsOf (sortTrace trace ++ padding) (i + 1))
  originalFits : ∀ i < 2 ^ layout.numVars - 1, ∃ s, originalSteps[i]? = some s ∧
    s.Fits (rowsOf (trace ++ padding) i) (rowsOf (trace ++ padding) (i + 1))
  routed : ∀ i < 2 ^ layout.numVars,
    networkState layout.numVars layers (rowsOf (sortTrace trace ++ padding)) layout.numLayers i =
      rowsOf (trace ++ padding) i

namespace BuilderRun

variable {trace : List Record}

def sortedRecords (run : BuilderRun trace) : List Record := sortTrace trace ++ run.padding

def originalRecords (run : BuilderRun trace) : List Record := trace ++ run.padding

def state (run : BuilderRun trace) : Nat → Nat → RowLimbs :=
  networkState run.layout.numVars run.layers (rowsOf run.sortedRecords)

def columns (run : BuilderRun trace) : Columns :=
  assemble run.layout run.state run.layers run.sortedSteps run.originalSteps

end BuilderRun

theorem pairwise_getD {records : List Record} {R : Record → Record → Prop}
    (h : records.Pairwise R) {i j : Nat} (hij : i < j) (hj : j < records.length) :
    R (records.getD i default) (records.getD j default) := by
  rw [getD_eq_getElem (hij.trans hj), getD_eq_getElem hj]
  exact List.pairwise_iff_getElem.mp h i j _ hj hij

@[simp] theorem fail_ok {α : Type} (a : α) : fail (.ok a) = .ok a := rfl

@[simp] theorem crash_ok {α : Type} (a : α) : crash (.ok a) = .ok a := rfl

theorem fail_eq_ok {α : Type} {x : Except ZincMemoryError α} {a : α} :
    fail x = .ok a ↔ x = .ok a := by
  cases x <;> simp [fail, Except.mapError]

/-- On an admissible trace the builder succeeds. -/
theorem buildUairTrace_ok {trace : List Record} (h : Admissible trace) :
    ∃ run : BuilderRun trace, buildUairTrace trace = .ok (run.columns, run.layout) := by
  obtain ⟨first, hfirst⟩ : ∃ first, trace.head? = some first :=
    ⟨_, List.head?_eq_some_head h.nonempty⟩
  obtain ⟨last, hlast⟩ : ∃ last, trace.getLast? = some last :=
    ⟨_, List.getLast?_eq_some_getLast h.nonempty⟩
  have hsorted : sortTrace trace ≠ [] := fun he => by
    have := (sortTrace_perm trace).length_eq
    rw [he] at this
    exact h.nonempty (List.length_eq_zero_iff.mp this.symm)
  obtain ⟨base, hbase⟩ : ∃ base, (sortTrace trace).getLast? = some base :=
    ⟨_, List.getLast?_eq_some_getLast hsorted⟩
  have hvars : minNumVars ≤ paddedVars trace.length ∧ paddedVars trace.length ≤ maxNumVars :=
    ⟨le_max_right _ _, max_le ((Nat.clog_le_iff_le_pow (by decide)).mpr h.length) (by decide)⟩
  obtain ⟨layout, hvar⟩ : ∃ layout : NetLayout, layout.numVars = paddedVars trace.length :=
    ⟨⟨_, hvars⟩, rfl⟩
  have hlayout : chooseLayout trace.length = .ok layout := chooseLayout_ok_iff.mpr ⟨h.length, hvar⟩
  have hshort : trace.length < 2 ^ layout.numVars := hvar ▸ lt_two_pow_paddedVars _
  obtain ⟨padding, hpadding, hpad⟩ := padRows_ok base
    (2 ^ layout.numVars - trace.length) last.timeLog
    (by rw [hvar]; exact h.time last hlast)
  have hrows := paddedTraces h.increasing hlast hbase hshort hpad
  have hlenO : (trace ++ padding).length = 2 ^ layout.numVars := by
    rw [List.length_append, hrows.length]
  have hperm : (sortTrace trace ++ padding).Perm (trace ++ padding) :=
    (sortTrace_perm trace).append_right padding
  obtain ⟨sortedSteps, hsteps, -, hfits⟩ := mapM_range_ok
    (P := fun i (s : SortedWitness) => s.Fits (rowsOf (sortTrace trace ++ padding) i)
      (rowsOf (sortTrace trace ++ padding) (i + 1)))
    (n := 2 ^ layout.numVars - 1) fun i hi => sortedWitness_ok (by
      rw [rowsOf, rowsOf, RowLimbs.lex_word, RowLimbs.lex_word]
      exact pairwise_getD hrows.sorted (Nat.lt_succ_self i)
        (by rw [hperm.length_eq, hlenO]; omega))
  obtain ⟨originalSteps, hsteps', -, hfits'⟩ := mapM_range_ok
    (P := fun i (s : OriginalWitness) => s.Fits (rowsOf (trace ++ padding) i)
      (rowsOf (trace ++ padding) (i + 1)))
    (n := 2 ^ layout.numVars - 1) fun i hi => originalWitness_ok (by
      rw [rowsOf, rowsOf, RowLimbs.time_word, RowLimbs.time_word]
      exact pairwise_getD hrows.original (Nat.lt_succ_self i) (by rw [hlenO]; omega))
  have hnodup : ((sortTrace trace ++ padding).map (·.timeLog)).Nodup := by
    refine ((hperm.map _).nodup_iff).mpr (List.pairwise_map.mpr ?_)
    exact hrows.original.imp fun h => h.ne
  have hv : 1 ≤ layout.numVars := Nat.le_trans (by decide) layout.inRange.1
  obtain ⟨perm, layers, hpermTime, hroute, hrouted⟩ := route_rows hv hperm hlenO hnodup
  let run : BuilderRun trace :=
    ⟨layout, padding, base, sortedSteps, originalSteps, layers, hrows, hfits, hfits', hrouted⟩
  refine ⟨run, ?_⟩
  have hcheck : checkTimes trace = .ok () := checkTimes_ok_iff.mpr h.increasing.isChain
  rw [buildUairTrace, hfirst]
  simp only [h.first first hfirst, ne_eq, not_true_eq_false, if_false]
  rw [buildUairTraceAnyStart, hlast]
  simp only [hcheck, hlayout, hbase, hpadding, hsteps, hsteps', hpermTime, hroute, fail_ok,
    crash_ok, ok_bind]
  exact if_pos hrouted

/-- It succeeds on no other trace. -/
theorem admissible_of_ok {trace : List Record} {out : Columns × NetLayout}
    (h : buildUairTrace trace = .ok out) : Admissible trace := by
  have hany : buildUairTraceAnyStart trace = .ok out ∧
      ∀ r ∈ trace.head?, r.timeLog.val = 0 := by
    unfold buildUairTrace at h
    split at h
    case h_1 first hfirst =>
      split at h
      case isTrue => cases h
      case isFalse hzero =>
        refine ⟨h, fun r hr => ?_⟩
        rw [hfirst] at hr
        cases hr
        exact not_not.mp hzero
    case h_2 hnone => exact ⟨h, by simp [hnone]⟩
  obtain ⟨h, hfirst⟩ := hany
  unfold buildUairTraceAnyStart at h
  split at h
  case h_1 => cases h
  case h_2 last hlast =>
    obtain ⟨⟨⟩, hcheck, h⟩ := bind_ok_iff.mp h
    obtain ⟨layout, hlayout, h⟩ := bind_ok_iff.mp h
    obtain ⟨base, -, h⟩ := bind_ok_iff.mp h
    obtain ⟨padding, hpadding, -⟩ := bind_ok_iff.mp h
    have hchain := checkTimes_ok_iff.mp (fail_eq_ok.mp hcheck)
    have : IsTrans Record fun a b => a.timeLog < b.timeLog := ⟨fun _ _ _ => lt_trans⟩
    obtain ⟨hlen, hvar⟩ := chooseLayout_ok_iff.mp hlayout
    refine ⟨fun he => ?_, hfirst, List.isChain_iff_pairwise.mp hchain, hlen, fun r hr => ?_⟩
    · rw [he] at hlast
      cases hlast
    · rw [hlast] at hr
      cases hr
      rw [← hvar]
      exact lt_of_padRows (fail_eq_ok.mp hpadding)

end Zkmemory.Zincplus
