import Orochimaru.Zkmemory.ConfigCells
import Orochimaru.Zkmemory.MachineFrame

/-!
# Accesses that the memory section lets through

`contain` tests the address of an access. The access may also touch the cell behind it, which
can lie outside the address space in the head layout and in the stack in the tail layout.
-/

namespace Zkmemory

open Loops

variable {S T : Nat}

namespace Machine

/-- An access of `cells` stays away from the stack slots and the registers. -/
structure Isolated (m : Machine S T) (config : Config S) (args : ConfigArgs) (a : Uint S)
    (cells : List (Uint S)) : Prop where
  computed : m.cellAddresses a = .ok cells
  apart : ∀ c ∈ cells, ∀ s : Slot, s.Valid args → ∃ x, config.cell s = .ok x ∧
    Disjoint (wordBytes m.wordSize c.val) (wordBytes m.wordSize x.val)
  read : ∀ r m', m.read a = .ok (r, m') → r.addresses = cells ∧ m.Touches m' []
  write : ∀ v r m', m.write a v = .ok (r, m') → r.addresses = cells ∧ m.Touches m' cells

/-- The addresses at which the test by `contain` is enough. -/
def Guarded (m : Machine S T) (config : Config S) (args : ConfigArgs) (a : Uint S) : Prop :=
  if args.headLayout then
    m.wordSize.val ∣ a.val ∨ a.val - a.val % m.wordSize.val + m.wordSize.val < 256 ^ S
  else
    0 < args.noBuffer.val ∨ a.val + m.wordSize.val ≤ config.stack.low.val ∨
      args.stackDepth.val = 0 ∧ args.noRegister.val = 0

end Machine

namespace Config.Layout

variable {config : Config S} {w : Uint S} {args : ConfigArgs} {base : Nat}

theorem memoryHigh_aligned (h : config.Layout w args base) (htail : args.headLayout = false) :
    w.val ∣ config.memory.high.val := by
  have hend := (h.tail htail).2
  exact (Nat.dvd_add_iff_left (Nat.dvd_mul_left _ _)).mpr (hend ▸ h.aligned)

/-- The slot at the bottom of the fixed sections. -/
theorem exists_first_slot (h : config.Layout w args base) (hw : 0 < w.val)
    (hbuffer : args.noBuffer.val = 0) (hslots : 0 < args.stackDepth.val ∨ 0 < args.noRegister.val) :
    ∃ s : Slot, s.Valid args ∧ ∃ x, config.cell s = .ok x ∧ x.val = base := by
  have hfirst : ∃ s : Slot, s.Valid args ∧ s.position args = 0 := by
    by_cases hstack : 0 < args.stackDepth.val
    · exact ⟨.stack 0, hstack, rfl⟩
    · refine ⟨.register 0, (by omega : 0 < args.noRegister.val), ?_⟩
      simp only [Slot.position]
      omega
  obtain ⟨s, hs, hposition⟩ := hfirst
  obtain ⟨x, hx, hxValue, -⟩ := h.cell_ok hw hs
  exact ⟨s, hs, x, hx, by rw [hxValue, hposition, Nat.zero_mul, Nat.add_zero]⟩

/-- Cells outside the fixed sections are apart from all slots. -/
theorem apart_of_outside (h : config.Layout w args base) (hw : 0 < w.val) {c : Nat}
    (hc : c + w.val ≤ base ∨ config.register.high.val ≤ c) (s : Slot) (hs : s.Valid args) :
    ∃ x, config.cell s = .ok x ∧ Disjoint (wordBytes w c) (wordBytes w x.val) := by
  obtain ⟨x, hx, hxValue, -, hxHigh⟩ := h.cell_ok hw hs
  have hle : (config.sectionOf s).high.val ≤ config.register.high.val := by
    cases s with
    | stack i =>
      have hlow := h.registerLow
      have hhigh := h.registerHigh
      simp only [sectionOf]
      omega
    | register j => exact le_rfl
  refine ⟨x, hx, wordBytes_disjoint ?_⟩
  rcases hc with hc | hc
  · left
    rw [hxValue]
    omega
  · right
    omega

end Config.Layout

namespace Machine

open Config

/-- The guard is enough exactly at the guarded addresses. -/
theorem isolated_iff {m : Machine S T} (hw : m.WordSized) {args : ConfigArgs}
    (hfit : SectionsFit m.wordSize args) {config : Config S}
    (hnew : Config.new m.wordSize args = .ok config) {a : Uint S}
    (ha : config.memory.contain a = true) :
    (∃ cells, m.Isolated config args a cells) ↔ m.Guarded config args a := by
  have hT := hw.pos
  have hword := hw.wordSize
  have hpos : 0 < m.wordSize.val := by rw [hword]; exact hT
  obtain ⟨config', base, hnew', hlayout⟩ := new_ok hpos hfit
  obtain rfl : config = config' := Except.ok.inj (hnew.symm.trans hnew')
  rw [Section.contain_iff] at ha
  have haligned : T ∣ base := hword ▸ hlayout.aligned
  have isolated {cells : List (Uint S)} (hcells : m.cellAddresses a = .ok cells)
      (hout : ∀ c ∈ cells, ∀ s : Slot, s.Valid args →
        c.val + m.wordSize.val ≤ base ∨ config.register.high.val ≤ c.val) :
      m.Isolated config args a cells := by
    refine ⟨hcells, fun c hc s hs => hlayout.apart_of_outside hpos (hout c hc s hs) s hs, ?_, ?_⟩
    · intro r m' hread
      obtain ⟨hr, htouches⟩ := read_touches hw hread
      exact ⟨Except.ok.inj (hr.symm.trans hcells), htouches⟩
    · intro v r m' hwrite
      obtain ⟨hr, htouches⟩ := write_touches hw hwrite
      obtain rfl : r.addresses = cells := Except.ok.inj (hr.symm.trans hcells)
      exact ⟨rfl, htouches⟩
  unfold Guarded
  cases hhead : args.headLayout with
  | true =>
    simp only [↓reduceIte, hword]
    rw [← cellAddresses_ok_iff hw]
    constructor
    · rintro ⟨cells, hcells⟩
      exact ⟨cells, hcells.computed⟩
    · rintro ⟨cells, hcells⟩
      refine ⟨cells, isolated hcells fun c hc _ _ => Or.inr ?_⟩
      obtain ⟨hdvd, -, hnear⟩ := (cellAddresses_near hw hcells).1 c hc
      have hlow : T ∣ config.memory.low.val := hword ▸ hlayout.memoryLow_aligned
      have hlowValue := (hlayout.head hhead).2.1
      by_contra hlt
      have := add_le_of_dvd hdvd hlow (by omega)
      omega
  | false =>
    simp only [Bool.false_eq_true, ↓reduceIte, hword]
    have hend := (hlayout.tail hhead).2
    have hstackLow := hlayout.stackLow
    have hhighAligned : T ∣ config.memory.high.val := hword ▸ hlayout.memoryHigh_aligned hhead
    have hok : ∃ cells, m.cellAddresses a = .ok cells := by
      rw [cellAddresses_ok_iff hw]
      by_cases hdvd : T ∣ a.val
      · exact Or.inl hdvd
      · right
        have hlt : a.val < config.memory.high.val := lt_of_le_of_ne ha.2 fun he =>
          hdvd (he ▸ hhighAligned)
        have hle := Nat.mod_le a.val T
        have hhigh := config.memory.high.isLt
        have := add_le_of_dvd (Nat.dvd_sub_mod a.val) hhighAligned (by omega)
        omega
    constructor
    · rintro ⟨cells, hcells⟩
      by_contra hnot
      simp only [not_or, not_and, Nat.not_le] at hnot
      obtain ⟨hbuffer, hover, hslots⟩ := hnot
      have hzero : args.noBuffer.val = 0 := by omega
      rw [hzero, Nat.zero_mul] at hend
      obtain ⟨s, hs, x, hx, hxValue⟩ :=
        hlayout.exists_first_slot hpos hzero (by omega)
      obtain ⟨hnear, c, hc, hac⟩ := cellAddresses_near hw hcells.computed
      obtain ⟨hdvd, hca, -⟩ := hnear c hc
      -- the last cell of the access is the first slot
      have hcbase : c.val = base := by
        rcases Nat.lt_trichotomy c.val base with hlt | heq | hlt
        · have := add_le_of_dvd hdvd haligned hlt
          omega
        · exact heq
        · have := add_le_of_dvd haligned hdvd hlt
          omega
      obtain ⟨x', hx', hdisjoint⟩ := hcells.apart c hc s hs
      obtain rfl : x = x' := Except.ok.inj (hx.symm.trans hx')
      rw [hcbase, hxValue] at hdisjoint
      exact wordBytes_not_disjoint hpos base hdisjoint
    · intro hguard
      obtain ⟨cells, hcells⟩ := hok
      refine ⟨cells, isolated hcells fun c hc s hs => Or.inl ?_⟩
      obtain ⟨hdvd, hca, -⟩ := (cellAddresses_near hw hcells).1 c hc
      have hroom : a.val + T ≤ base := by
        rcases hguard with hbuffer | hlow | ⟨hstack, hregister⟩
        · have := Nat.le_mul_of_pos_left m.wordSize.val hbuffer
          omega
        · omega
        · cases s with
          | stack i => exact absurd (show i < args.stackDepth.val from hs) (by omega)
          | register j => exact absurd (show j < args.noRegister.val from hs) (by omega)
      rw [hword]
      exact add_le_of_dvd hdvd haligned (by omega)

/-- A machine with the default stack and 32-byte words. -/
def standard : Machine 32 32 := Machine.empty (.ofNat 32) (.ofNat 1024) .zero

/-- The last but one address of the default layout. -/
theorem isolated_iff_default : ∃ config : Config 32,
    Config.new standard.wordSize .defaultConfig = .ok config ∧
      ((∃ cells, standard.Isolated config .defaultConfig ⟨256 ^ 32 - 2, by decide⟩ cells) ↔
        standard.Guarded config .defaultConfig ⟨256 ^ 32 - 2, by decide⟩) :=
  ⟨_, rfl, isolated_iff ⟨by decide, by decide, by decide⟩ (by unfold SectionsFit; decide) rfl
    (by decide)⟩

/-- In the default layout an access of the last but one address leaves the address type. In the
tail layout without buffers the end of the memory is the first slot of the stack. -/
theorem guard_not_enough :
    let top : B256 := ⟨256 ^ 32 - 2, by decide⟩
    let tail : ConfigArgs := { ConfigArgs.defaultConfig with headLayout := false, noBuffer := .zero }
    (∃ config : Config 32, Config.new standard.wordSize .defaultConfig = .ok config ∧
      config.memory.contain top = true ∧ standard.read top = .error .arithmeticOverflow) ∧
    (∃ config : Config 32, Config.new standard.wordSize tail = .ok config ∧
      config.memory.contain config.stack.low = true ∧
      config.cell (.stack 0) = .ok config.stack.low ∧
      standard.cellAddresses config.stack.low = .ok [config.stack.low]) :=
  ⟨⟨_, rfl, by decide, rfl⟩, ⟨_, rfl, by decide, rfl, rfl⟩⟩

end Machine

end Zkmemory
