import Orochimaru.Zkmemory.MachineTrace

/-!
# The cells an access touches

A read or a write touches the cells around its address and nothing else: the stack registers
stay, and so does the content of every other cell.
-/

namespace Zkmemory

open Loops

variable {S T : Nat}

/-- Words below a word boundary end at or below it. -/
theorem add_le_of_dvd {w x y : Nat} (hx : w ∣ x) (hy : w ∣ y) (hlt : x < y) : x + w ≤ y :=
  Nat.ModEq.add_le_of_lt
    ((Nat.modEq_zero_iff_dvd.mpr hx).trans (Nat.modEq_zero_iff_dvd.mpr hy).symm) hlt

/-- The addresses of the cells of an interaction. -/
def CellInteraction.addresses : CellInteraction S T → List (Uint S)
  | .singleCell _ address _ => [address]
  | .doubleCell _ _ _ addrLo _ addrHi _ => [addrLo, addrHi]

namespace Machine

/-- The one or two cells that `read` and `write` compute first. -/
def cellAddresses (m : Machine S T) (address : Uint S) : Except Panic (List (Uint S)) := do
  let remain ← address.rem m.wordSize
  if remain.isZero then
    .ok [address]
  else
    let (addrLo, addrHi) ← m.computeAddress address remain
    .ok [addrLo, addrHi]

theorem cellAddresses_aligned {m : Machine S T} (hw : m.WordSized) {a : Uint S}
    (ha : a.val % T = 0) : m.cellAddresses a = .ok [a] := by
  have hrem : a.rem m.wordSize = .ok Uint.zero :=
    Uint.rem_ok.mpr ⟨by have := hw.pos; rw [hw.wordSize]; omega, by rw [hw.wordSize, ha]; rfl⟩
  rw [cellAddresses, hrem, ok_bind]
  rfl

theorem cellAddresses_unaligned {m : Machine S T} (hw : m.WordSized) {a lo hi : Uint S} {r : Fin T}
    (h : Straddles T a r lo hi) : m.cellAddresses a = .ok [lo, hi] := by
  obtain ⟨remain, hrem, hzero, haddr, -⟩ := address_steps hw h
  rw [cellAddresses, hrem, ok_bind, hzero, if_neg Bool.false_ne_true, haddr, ok_bind]

theorem cellAddresses_overflow {m : Machine S T} (hw : m.WordSized) {a : Uint S}
    (ha : a.val % T ≠ 0) (h : ∀ remain, a.rem m.wordSize = .ok remain →
      m.computeAddress a remain = .error .arithmeticOverflow) :
    m.cellAddresses a = .error .arithmeticOverflow := by
  have hrem : a.rem m.wordSize = .ok ⟨a.val % T, lt_of_le_of_lt (Nat.mod_le _ _) a.isLt⟩ :=
    Uint.rem_ok.mpr ⟨by have := hw.pos; rw [hw.wordSize]; omega, by rw [hw.wordSize]⟩
  have hzero : Uint.isZero (⟨a.val % T, lt_of_le_of_lt (Nat.mod_le _ _) a.isLt⟩ : Uint S) = false := by
    simpa [Uint.isZero] using ha
  rw [cellAddresses, hrem, ok_bind, hzero, if_neg Bool.false_ne_true, h _ hrem, error_bind]

theorem cellAddresses_ok_iff {m : Machine S T} (hw : m.WordSized) {a : Uint S} :
    (∃ cells, m.cellAddresses a = .ok cells) ↔ T ∣ a.val ∨ a.val - a.val % T + T < 256 ^ S := by
  by_cases ha : a.val % T = 0
  · exact ⟨fun _ => Or.inl (Nat.dvd_of_mod_eq_zero ha), fun _ => ⟨_, cellAddresses_aligned hw ha⟩⟩
  · constructor
    · rintro ⟨cells, hcells⟩
      rcases straddles_or_overflow hw ha with ⟨r, lo, hi, hs⟩ | hover
      · refine Or.inr ?_
        rw [hs.mod, ← hs.low, Nat.add_sub_cancel, ← hs.high]
        exact hi.isLt
      · rw [cellAddresses_overflow hw ha hover] at hcells
        cases hcells
    · rintro (hdvd | hfit)
      · exact absurd (Nat.mod_eq_zero_of_dvd hdvd) ha
      · obtain ⟨r, lo, hi, hs⟩ := exists_straddles hw.pos ha hfit
        exact ⟨_, cellAddresses_unaligned hw hs⟩

/-- The cells of an access are the words that its bytes meet. -/
theorem cellAddresses_near {m : Machine S T} (hw : m.WordSized) {a : Uint S}
    {cells : List (Uint S)} (h : m.cellAddresses a = .ok cells) :
    (∀ c ∈ cells, T ∣ c.val ∧ c.val < a.val + T ∧ a.val < c.val + T) ∧
      ∃ c ∈ cells, a.val ≤ c.val := by
  have hpos := hw.pos
  by_cases ha : a.val % T = 0
  · rw [cellAddresses_aligned hw ha] at h
    cases h
    rw [List.forall_mem_singleton]
    exact ⟨⟨Nat.dvd_of_mod_eq_zero ha, by omega, by omega⟩, a, List.mem_singleton_self a, le_rfl⟩
  · rcases straddles_or_overflow hw ha with ⟨r, lo, hi, hs⟩ | hover
    · rw [cellAddresses_unaligned hw hs] at h
      cases h
      have hlow := hs.low
      have hhigh := hs.high
      have hoffset := hs.offset
      have hr := r.isLt
      rw [List.forall_mem_cons, List.forall_mem_singleton]
      refine ⟨⟨⟨hs.aligned, by omega, by omega⟩, ?_, by omega, by omega⟩, hi,
        List.mem_cons_of_mem _ List.mem_cons_self, by omega⟩
      rw [hhigh]
      exact Nat.dvd_add hs.aligned (dvd_refl T)
    · rw [cellAddresses_overflow hw ha hover] at h
      cases h

/-- The stack registers and the constants of the context. -/
structure SameContext (m m' : Machine S T) : Prop where
  wordSize : m'.wordSize = m.wordSize
  maxStackDepth : m'.maxStackDepth = m.maxStackDepth
  stackDepth : m'.stackDepth = m.stackDepth
  stackPtr : m'.stackPtr = m.stackPtr

theorem SameContext.trans {m m₁ m₂ : Machine S T} (h : m.SameContext m₁) (h' : m₁.SameContext m₂) :
    m.SameContext m₂ :=
  ⟨h'.wordSize.trans h.wordSize, h'.maxStackDepth.trans h.maxStackDepth,
    h'.stackDepth.trans h.stackDepth, h'.stackPtr.trans h.stackPtr⟩

theorem emit_ok {m m' : Machine S T} {i : MemoryInstruction} {a : Uint S} {v : Uint T}
    (h : m.emit i a v = .ok m') :
    m.SameContext m' ∧ m'.memory = m.memory ∧ m'.timeLog.val = m.timeLog.val + 1 := by
  simp only [emit, track, bind_ok_iff] at h
  obtain ⟨m₁, ⟨trace, -, htrack⟩, time, htime, h⟩ := h
  cases htrack
  cases h
  exact ⟨⟨rfl, rfl, rfl, rfl⟩, rfl, (Uint.add_ok.mp htime).symm⟩

theorem cellWrite_ok {m m' : Machine S T} {a : Uint S} {v : Uint T} (h : m.cellWrite a v = .ok m') :
    m.SameContext m' ∧ m'.memory = Function.update m.memory a (some v) ∧
      m'.timeLog.val = m.timeLog.val + 1 := by
  obtain ⟨hsame, hmemory, htime⟩ := emit_ok h
  exact ⟨⟨hsame.wordSize, hsame.maxStackDepth, hsame.stackDepth, hsame.stackPtr⟩, hmemory, htime⟩

/-- What an access of `cells` does to a machine. -/
structure Touches (m m' : Machine S T) (cells : List (Uint S)) : Prop where
  context : m.SameContext m'
  memory : ∀ x, x ∉ cells → m'.memory x = m.memory x
  time : m'.timeLog.val ≤ m.timeLog.val + 2

theorem read_touches {m m' : Machine S T} (hw : m.WordSized) {a : Uint S} {c : CellInteraction S T}
    (h : m.read a = .ok (c, m')) : m.cellAddresses a = .ok c.addresses ∧ m.Touches m' [] := by
  by_cases ha : a.val % T = 0
  · rw [read_aligned hw ha, bind_ok_iff] at h
    obtain ⟨m₁, h₁, h⟩ := h
    cases h
    obtain ⟨hcontext, hmemory, htime⟩ := emit_ok h₁
    exact ⟨cellAddresses_aligned hw ha, hcontext, fun x _ => congrFun hmemory x, by omega⟩
  · rcases straddles_or_overflow hw ha with ⟨r, lo, hi, hs⟩ | hover
    · rw [read_unaligned hw hs, bind_ok_iff] at h
      obtain ⟨m₁, h₁, h⟩ := h
      obtain ⟨m₂, h₂, h⟩ := bind_ok_iff.mp h
      cases h
      obtain ⟨hcontext₁, hmemory₁, htime₁⟩ := emit_ok h₁
      obtain ⟨hcontext₂, hmemory₂, htime₂⟩ := emit_ok h₂
      exact ⟨cellAddresses_unaligned hw hs, hcontext₁.trans hcontext₂,
        fun x _ => congrFun (hmemory₂.trans hmemory₁) x, by omega⟩
    · rw [(read_write_overflow hw ha hover).1] at h
      cases h

theorem write_touches {m m' : Machine S T} (hw : m.WordSized) {a : Uint S} {v : Uint T}
    {c : CellInteraction S T} (h : m.write a v = .ok (c, m')) :
    m.cellAddresses a = .ok c.addresses ∧ m.Touches m' c.addresses := by
  by_cases ha : a.val % T = 0
  · rw [write_aligned hw ha, bind_ok_iff] at h
    obtain ⟨m₁, h₁, h⟩ := h
    cases h
    obtain ⟨hcontext, hmemory, htime⟩ := cellWrite_ok h₁
    refine ⟨cellAddresses_aligned hw ha, hcontext, ?_, by omega⟩
    intro x hx
    rw [hmemory, Function.update_of_ne (fun he => hx (List.mem_singleton.mpr he))]
  · rcases straddles_or_overflow hw ha with ⟨r, lo, hi, hs⟩ | hover
    · rw [write_unaligned hw hs, bind_ok_iff] at h
      obtain ⟨m₁, h₁, h⟩ := h
      obtain ⟨m₂, h₂, h⟩ := bind_ok_iff.mp h
      cases h
      obtain ⟨hcontext₁, hmemory₁, htime₁⟩ := cellWrite_ok h₁
      obtain ⟨hcontext₂, hmemory₂, htime₂⟩ := cellWrite_ok h₂
      refine ⟨cellAddresses_unaligned hw hs, hcontext₁.trans hcontext₂, ?_, by omega⟩
      intro x hx
      have hlo : x ≠ lo := fun he => hx (he ▸ List.mem_cons_self)
      have hhi : x ≠ hi := fun he => hx (he ▸ List.mem_cons_of_mem _ List.mem_cons_self)
      rw [hmemory₂, Function.update_of_ne hhi, hmemory₁, Function.update_of_ne hlo]
    · rw [(read_write_overflow hw ha hover).2] at h
      cases h

/-! ## Accesses in a run -/

/-- Both cells of an access at the address exist. -/
def InRange (T : Nat) (a : Uint S) : Prop := T ∣ a.val ∨ a.val - a.val % T + T < 256 ^ S

/-- The ways an access can panic. -/
def AccessPanic (m : Machine S T) (a : Uint S) (e : Panic) : Prop :=
  e = .arithmeticOverflow ∧ (2 ^ 64 ≤ m.timeLog.val + 2 ∨ ¬ InRange T a)

theorem AccessPanic.of_clock {m : Machine S T} {a : Uint S} {n : Nat}
    (hn : n ≤ m.timeLog.val + 2) {e : Panic} (he : ClockOverflow n e) : AccessPanic m a e :=
  ⟨he.1, Or.inl (he.2.trans hn)⟩

theorem AccessPanic.of_overflow {m : Machine S T} (hw : m.WordSized) {a : Uint S}
    (ha : a.val % T ≠ 0) (h : ∀ remain, a.rem m.wordSize = .ok remain →
      m.computeAddress a remain = .error .arithmeticOverflow) :
    AccessPanic m a .arithmeticOverflow := by
  refine ⟨rfl, Or.inr fun hrange => ?_⟩
  obtain ⟨cells, hcells⟩ := (cellAddresses_ok_iff hw).mpr hrange
  rw [cellAddresses_overflow hw ha h] at hcells
  cases hcells

theorem read_panic {m : Machine S T} (h : m.Running) (a : Uint S) :
    Ends (AccessPanic m a) (fun _ => True) (m.read a) := by
  have hw := h.wordSized
  by_cases ha : a.val % T = 0
  · have hdvd : m.wordSize.val ∣ a.val := hw.wordSize.symm ▸ Nat.dvd_of_mod_eq_zero ha
    rw [read_aligned hw ha]
    exact ((cellRead_ends h.invariant hdvd rfl).weaken
      fun _ => AccessPanic.of_clock (by omega)).bind fun _ _ => trivial
  · rcases straddles_or_overflow hw ha with ⟨r, lo, hi, hs⟩ | hover
    · obtain ⟨hlo, hhi⟩ := Straddles.dvd_cells h hs
      rw [read_unaligned hw hs]
      refine ((cellRead_ends h.invariant hlo rfl).weaken
        fun _ => AccessPanic.of_clock (by omega)).bind fun m₁ ⟨hinv₁, hword₁, hmem₁, htime₁⟩ => ?_
      have hval : m.dummyRead hi = m₁.dummyRead hi := by rw [dummyRead, dummyRead, hmem₁]
      exact ((cellRead_ends hinv₁ (hword₁ ▸ hhi) hval).weaken
        fun _ => AccessPanic.of_clock (by omega)).bind fun _ _ => trivial
    · rw [(read_write_overflow hw ha hover).1]
      exact AccessPanic.of_overflow hw ha hover

theorem write_panic {m : Machine S T} (h : m.Running) (a : Uint S) (v : Uint T) :
    Ends (AccessPanic m a) (fun _ => True) (m.write a v) := by
  have hw := h.wordSized
  by_cases ha : a.val % T = 0
  · have hdvd : m.wordSize.val ∣ a.val := hw.wordSize.symm ▸ Nat.dvd_of_mod_eq_zero ha
    rw [write_aligned hw ha]
    exact ((cellWrite_ends h.invariant v hdvd).weaken
      fun _ => AccessPanic.of_clock (by omega)).bind fun _ _ => trivial
  · rcases straddles_or_overflow hw ha with ⟨r, lo, hi, hs⟩ | hover
    · obtain ⟨hlo, hhi⟩ := Straddles.dvd_cells h hs
      rw [write_unaligned hw hs]
      refine ((cellWrite_ends h.invariant _ hlo).weaken
        fun _ => AccessPanic.of_clock (by omega)).bind fun m₁ ⟨hinv₁, hword₁, _, htime₁⟩ => ?_
      exact ((cellWrite_ends hinv₁ _ (hword₁ ▸ hhi)).weaken
        fun _ => AccessPanic.of_clock (by omega)).bind fun _ _ => trivial
    · rw [(read_write_overflow hw ha hover).2]
      exact AccessPanic.of_overflow hw ha hover

/-- A read of a running machine. -/
theorem read_access {m : Machine S T} (h : m.Running) (a : Uint S) :
    Ends (AccessPanic m a) (fun r => r.2.Running ∧ m.Touches r.2 []) (m.read a) := by
  have hpanic := read_panic h a
  have hends := read_ends h a
  cases hread : m.read a with
  | error e =>
    rw [hread] at hpanic
    exact hpanic
  | ok r =>
    rw [hread] at hends
    exact ⟨hends, (read_touches h.wordSized hread).2⟩

/-- A write of a running machine. -/
theorem write_access {m : Machine S T} (h : m.Running) (a : Uint S) (v : Uint T) :
    Ends (AccessPanic m a) (fun r => r.2.Running ∧ ∃ cells, m.cellAddresses a = .ok cells ∧
      m.Touches r.2 cells) (m.write a v) := by
  have hpanic := write_panic h a v
  have hends := write_ends h a v
  cases hwrite : m.write a v with
  | error e =>
    rw [hwrite] at hpanic
    exact hpanic
  | ok r =>
    rw [hwrite] at hends
    exact ⟨hends, _, write_touches h.wordSized hwrite⟩

end Machine

end Zkmemory
