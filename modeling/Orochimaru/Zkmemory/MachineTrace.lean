import Orochimaru.Zkmemory.MachineCells

/-!
# The trace of a machine run

Whatever calls a machine executes, its trace stays a faithful log of its memory:
the records are stamped `0, 1, 2, ...`, they touch whole cells, every read shows
the latest write to its cell, and the memory holds the last write of each cell.
-/

namespace Zkmemory

open Access Loops

variable {S T : Nat}

theorem insertTrace_append {t : TraceRecord S T} {l : List (TraceRecord S T)}
    (h : ∀ r ∈ l, r.timeLog < t.timeLog) : insertTrace t l = .ok (l ++ [t]) := by
  induction l with
  | nil => rfl
  | cons r l ih =>
    have hr := h r (List.mem_cons_self ..)
    have hcmp : t.cmp r = .ok .gt := by
      rw [TraceRecord.cmp, if_neg (ne_of_gt hr), compare_gt_iff_gt.mpr hr]
    rw [insertTrace, hcmp, ok_bind, ih fun x hx => h x (List.mem_cons_of_mem _ hx)]
    rfl

namespace Machine

/-- What every run keeps true of the trace and of the memory. -/
structure TraceInvariant (m : Machine S T) : Prop where
  /-- Time stamps are `0, 1, ..., n - 1`, in this order. -/
  times : m.executionTrace.map (fun r => r.timeLog.val) = List.range m.executionTrace.length
  clock : m.timeLog.val = m.executionTrace.length
  aligned : ∀ r ∈ m.executionTrace, m.wordSize.val ∣ r.address.val
  /-- A read shows the latest earlier write to its address, or zero. -/
  reads : ∀ pre r post, m.executionTrace = pre ++ r :: post → r.instruction = .read →
    r.value = (lastWrite? pre r.address).getD Uint.zero
  memory : ∀ a, m.memory a = lastWrite? m.executionTrace a

theorem Initial.traceInvariant {m : Machine S T} (h : m.Initial) : m.TraceInvariant where
  times := by simp [h.executionTrace]
  clock := by simp [h.executionTrace, h.timeLog]
  aligned := by simp [h.executionTrace]
  reads := by simp [h.executionTrace]
  memory := by simp [h.executionTrace, h.memory]

theorem TraceInvariant.before {m : Machine S T} (h : m.TraceInvariant) :
    ∀ r ∈ m.executionTrace, r.timeLog < m.timeLog := by
  intro r hr
  have hm : r.timeLog.val ∈ m.executionTrace.map fun r => r.timeLog.val :=
    List.mem_map.mpr ⟨r, hr, rfl⟩
  rw [h.times, List.mem_range, ← h.clock] at hm
  exact hm

/-- The clock would pass the range of `u64` by reaching `n`. -/
def ClockOverflow (n : Nat) (e : Panic) : Prop := e = .arithmeticOverflow ∧ 2 ^ 64 ≤ n

/-- Before any overflow, an access appends its record and advances the clock. -/
theorem emit_ends {m : Machine S T} (hb : ∀ r ∈ m.executionTrace, r.timeLog < m.timeLog)
    (i : MemoryInstruction) (a : Uint S) (v : Uint T) :
    Ends (ClockOverflow (m.timeLog.val + 1)) (fun m' => ∃ t : U64, t.val = m.timeLog.val + 1 ∧
      m' = { m with
        executionTrace := m.executionTrace ++ [⟨m.timeLog, m.stackDepth, i, a, v⟩]
        timeLog := t }) (m.emit i a v) := by
  rw [emit, track, insertTrace_append hb, ok_bind, ok_bind]
  cases h : m.timeLog.add (.ofNat 1) with
  | error e => exact Uint.add_error h
  | ok t => exact ⟨t, (Uint.add_ok.mp h).symm, rfl⟩

/-- The memory of `m'` is that of `m` after one access of the cell `a`. -/
private theorem traceInvariant_snoc {m m' : Machine S T} {t : TraceRecord S T}
    (h : m.TraceInvariant) (hword : m'.wordSize = m.wordSize)
    (htime : t.timeLog = m.timeLog) (hclock : m'.timeLog.val = m.timeLog.val + 1)
    (htrace : m'.executionTrace = m.executionTrace ++ [t])
    (ha : m.wordSize.val ∣ t.address.val)
    (hread : t.instruction = .read → t.value = m.dummyRead t.address)
    (hmem : ∀ a, m'.memory a =
      if t.instruction = .write ∧ t.address = a then some t.value else m.memory a) :
    m'.TraceInvariant where
  times := by
    rw [htrace, List.map_append, h.times, List.length_append, List.length_singleton,
      List.range_succ, List.map_singleton, htime, h.clock]
  clock := by rw [hclock, htrace, h.clock, List.length_append, List.length_singleton]
  aligned := by
    intro r hr
    rw [htrace] at hr
    rw [hword]
    rcases List.mem_append.mp hr with hr | hr
    · exact h.aligned r hr
    · rw [List.mem_singleton.mp hr]; exact ha
  reads := by
    intro pre r post he hr
    rw [htrace] at he
    rcases List.eq_nil_or_concat' post with rfl | ⟨post', x, rfl⟩
    · obtain ⟨rfl, hrt⟩ := List.append_inj' he rfl
      cases hrt
      rw [hread hr, dummyRead, h.memory]
    · have he' : m.executionTrace ++ [t] = (pre ++ r :: post') ++ [x] := by simpa using he
      exact h.reads pre r post' (List.append_inj_left' he' rfl) hr
  memory := by
    intro a
    have hw : isWrite t = true ↔ t.instruction = .write := by simp [isWrite]
    rw [hmem, htrace, lastWrite?_snoc, h.memory]
    simp only [hw]
    rfl

theorem cellRead_ends {m : Machine S T} (h : m.TraceInvariant) {a : Uint S} {v : Uint T}
    (ha : m.wordSize.val ∣ a.val) (hv : v = m.dummyRead a) :
    Ends (ClockOverflow (m.timeLog.val + 1)) (fun m' => m'.TraceInvariant ∧
      m'.wordSize = m.wordSize ∧ m'.memory = m.memory ∧ m'.timeLog.val = m.timeLog.val + 1)
      (m.emit .read a v) := by
  refine (emit_ends h.before .read a v).mono ?_
  rintro m' ⟨t, ht, rfl⟩
  exact ⟨traceInvariant_snoc h rfl rfl ht rfl ha (fun _ => hv) (by simp), rfl, rfl, ht⟩

theorem cellWrite_ends {m : Machine S T} (h : m.TraceInvariant) {a : Uint S} (v : Uint T)
    (ha : m.wordSize.val ∣ a.val) :
    Ends (ClockOverflow (m.timeLog.val + 1)) (fun m' => m'.TraceInvariant ∧
      m'.wordSize = m.wordSize ∧ m'.memory = Function.update m.memory a (some v) ∧
      m'.timeLog.val = m.timeLog.val + 1) (m.cellWrite a v) := by
  refine (emit_ends (m := m.replaceOrInsert a v) h.before .write a v).mono ?_
  rintro m' ⟨t, ht, rfl⟩
  refine ⟨traceInvariant_snoc h rfl rfl ht rfl ha (by simp) fun b => ?_, rfl, rfl, ht⟩
  by_cases hb : b = a
  · subst hb; simp [replaceOrInsert]
  · simp [replaceOrInsert, Function.update_of_ne hb, Ne.symm hb]

/-! ## One call -/

/-- A machine in the middle of a run. -/
structure Running (m : Machine S T) : Prop where
  wordSized : m.WordSized
  invariant : m.TraceInvariant

theorem Running.of_kept {m m' : Machine S T} (h : m.Running) (hinv : m'.TraceInvariant)
    (hword : m'.wordSize = m.wordSize) : m'.Running :=
  ⟨⟨h.wordSized.pos, h.wordSized.usize, hword ▸ h.wordSized.wordSize⟩, hinv⟩

/-- The stack registers of the context are no part of the invariant. -/
theorem Running.setStack {m : Machine S T} (h : m.Running) (d : U64) (p : Uint S) :
    Running { m with stackDepth := d, stackPtr := p } :=
  h.of_kept ⟨h.invariant.times, h.invariant.clock, h.invariant.aligned, h.invariant.reads,
    h.invariant.memory⟩ rfl

theorem Straddles.dvd_cells {m : Machine S T} (h : m.Running) {a lo hi : Uint S} {r : Fin T}
    (hs : Straddles T a r lo hi) : m.wordSize.val ∣ lo.val ∧ m.wordSize.val ∣ hi.val := by
  rw [h.wordSized.wordSize, hs.high]
  exact ⟨hs.aligned, Nat.dvd_add hs.aligned (dvd_refl T)⟩

theorem read_ends {m : Machine S T} (h : m.Running) (a : Uint S) :
    Ends (· = .arithmeticOverflow) (fun r => r.2.Running) (m.read a) := by
  by_cases ha : a.val % T = 0
  · have hdvd : m.wordSize.val ∣ a.val := by
      rw [h.wordSized.wordSize]; exact Nat.dvd_of_mod_eq_zero ha
    rw [read_aligned h.wordSized ha]
    refine ((cellRead_ends h.invariant hdvd rfl).weaken fun _ he => he.1).bind fun m' hm' => ?_
    exact h.of_kept hm'.1 hm'.2.1
  · rcases straddles_or_overflow h.wordSized ha with ⟨r, lo, hi, hs⟩ | hover
    · obtain ⟨hlo, hhi⟩ := Straddles.dvd_cells h hs
      rw [read_unaligned h.wordSized hs]
      refine ((cellRead_ends h.invariant hlo rfl).weaken fun _ he => he.1).bind
        fun m₁ ⟨hinv₁, hword₁, hmem₁, _⟩ => ?_
      have hval : m.dummyRead hi = m₁.dummyRead hi := by rw [dummyRead, dummyRead, hmem₁]
      refine ((cellRead_ends hinv₁ (hword₁ ▸ hhi) hval).weaken fun _ he => he.1).bind
        fun m₂ ⟨hinv₂, hword₂, _⟩ => ?_
      exact h.of_kept hinv₂ (hword₂.trans hword₁)
    · rw [(read_write_overflow h.wordSized ha hover).1]
      rfl

theorem write_ends {m : Machine S T} (h : m.Running) (a : Uint S) (v : Uint T) :
    Ends (· = .arithmeticOverflow) (fun r => r.2.Running) (m.write a v) := by
  by_cases ha : a.val % T = 0
  · have hdvd : m.wordSize.val ∣ a.val := by
      rw [h.wordSized.wordSize]; exact Nat.dvd_of_mod_eq_zero ha
    rw [write_aligned h.wordSized ha]
    refine ((cellWrite_ends h.invariant v hdvd).weaken fun _ he => he.1).bind fun m' hm' => ?_
    exact h.of_kept hm'.1 hm'.2.1
  · rcases straddles_or_overflow h.wordSized ha with ⟨r, lo, hi, hs⟩ | hover
    · obtain ⟨hlo, hhi⟩ := Straddles.dvd_cells h hs
      rw [write_unaligned h.wordSized hs]
      refine ((cellWrite_ends h.invariant _ hlo).weaken fun _ he => he.1).bind
        fun m₁ ⟨hinv₁, hword₁, _⟩ => ?_
      refine ((cellWrite_ends hinv₁ _ (hword₁ ▸ hhi)).weaken fun _ he => he.1).bind
        fun m₂ ⟨hinv₂, hword₂, _⟩ => ?_
      exact h.of_kept hinv₂ (hword₂.trans hword₁)
    · rw [(read_write_overflow h.wordSized ha hover).2]
      rfl

private theorem add_ends (x y : Uint S) :
    Ends (· = .arithmeticOverflow) (fun _ => True) (x.add y) := by
  cases h : x.add y with
  | error e => exact (Uint.add_error h).1
  | ok z => trivial

private theorem sub_ends (x y : Uint S) :
    Ends (· = .arithmeticOverflow) (fun _ => True) (x.sub y) := by
  cases h : x.sub y with
  | error e => exact (Uint.sub_error h).1
  | ok z => trivial

theorem push_ends {m : Machine S T} (h : m.Running) (v : Uint T) :
    Ends (· = .arithmeticOverflow) (fun r => r.2.Running) (m.push v) := by
  unfold push
  split
  · exact h
  · refine (add_ends _ _).bind fun d _ => (add_ends _ _).bind fun p _ => ?_
    exact (write_ends (h.setStack d p) m.stackPtr v).bind fun r hr => hr

theorem pop_ends {m : Machine S T} (h : m.Running) :
    Ends (· = .arithmeticOverflow) (fun r => r.2.Running) m.pop := by
  unfold pop
  split
  · exact h
  · refine (sub_ends _ _).bind fun d _ => (sub_ends _ _).bind fun p _ => ?_
    exact (read_ends (h.setStack d p) p).bind fun r hr => hr

/-- Every call keeps the machine running, unless an addition leaves its type. -/
theorem exec_ends {m : Machine S T} (h : m.Running) (op : Op S T) :
    Ends (· = .arithmeticOverflow) (fun r => r.2.Running) (m.exec op) := by
  cases op with
  | read a => exact (read_ends h a).bind fun r hr => hr
  | write a v => exact (write_ends h a v).bind fun r hr => hr
  | push v => exact (push_ends h v).bind fun r hr => hr
  | pop => exact (pop_ends h).bind fun r hr => hr
  | get reg => exact (read_ends h reg.address).bind fun r hr => hr
  | set reg v => exact (write_ends h reg.address v).bind fun r hr => hr

theorem run_ends {m : Machine S T} (h : m.Running) (ops : List (Op S T)) :
    Ends (· = .arithmeticOverflow) (fun r => r.2.Running) (m.run ops) := by
  refine Ends.foldlM (fun s : List (Response S T) × Machine S T => s.2.Running)
    (fun s op hs => ?_) ops h
  exact (exec_ends hs op).bind fun _ hr => hr

/-- **Every run keeps the trace invariant.** From empty memory, a run of calls ends
in a machine whose trace is a faithful log, or stops because an addition overflowed;
in particular the comparison of trace records never panics. -/
theorem run_traceInvariant {m : Machine S T} (hinit : m.Initial) (hw : m.WordSized)
    (ops : List (Op S T)) :
    Ends (· = .arithmeticOverflow) (fun r => r.2.TraceInvariant) (m.run ops) :=
  (run_ends ⟨hw, hinit.traceInvariant⟩ ops).mono fun _ hr => hr.invariant

end Machine

/-- A fresh machine of the given word size. -/
def Machine.empty (wordSize : Uint S) (maxStackDepth : U64) (stackPtr : Uint S) : Machine S T where
  wordSize := wordSize
  maxStackDepth := maxStackDepth
  memory := fun _ => none
  timeLog := .zero
  stackDepth := .zero
  stackPtr := stackPtr
  executionTrace := []

theorem Machine.empty_initial (w : Uint S) (d : U64) (p : Uint S) :
    (Machine.empty w d p : Machine S T).Initial := ⟨fun _ => rfl, rfl, rfl⟩

/-- An unaligned write between two reads, on a machine with two-byte words. -/
theorem Machine.run_traceInvariant_straddling :
    Ends (· = Panic.arithmeticOverflow) (fun r => r.2.TraceInvariant)
      ((Machine.empty (.ofNat 2) (.ofNat 4) .zero : Machine 2 2).run
        [.read (.ofNat 4), .write (.ofNat 3) (.ofNat 258), .push (.ofNat 7), .read (.ofNat 4)]) :=
  Machine.run_traceInvariant (Machine.empty_initial _ _ _) ⟨by decide, by decide, by decide⟩ _

end Zkmemory
