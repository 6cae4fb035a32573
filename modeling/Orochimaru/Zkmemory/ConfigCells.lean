import Orochimaru.Zkmemory.Config

/-!
# Stack slots and registers of a layout

Every slot of the stack and every register is a whole word of its section. The sections
themselves are disjoint exactly where there is a buffer between them.
-/

namespace Zkmemory

open Loops

variable {S : Nat}

inductive Slot
  | stack (i : Nat)
  | register (j : Nat)
  deriving DecidableEq

namespace Slot

def Valid (args : ConfigArgs) : Slot → Prop
  | stack i => i < args.stackDepth.val
  | register j => j < args.noRegister.val

/-- The number of words below a slot in the fixed sections. -/
def position (args : ConfigArgs) : Slot → Nat
  | stack i => i
  | register j => args.stackDepth.val + args.noBuffer.val + j

variable {args : ConfigArgs}

theorem position_ne {s t : Slot} (hs : s.Valid args) (ht : t.Valid args) (hne : s ≠ t) :
    s.position args ≠ t.position args := by
  cases s with
  | stack i =>
    cases t with
    | stack j => simpa [position] using hne
    | register j =>
      have hi : i < args.stackDepth.val := hs
      simp only [position]
      omega
  | register i =>
    cases t with
    | stack j =>
      have hj : j < args.stackDepth.val := ht
      simp only [position]
      omega
    | register j => simpa [position] using hne

end Slot

/-- The bytes of the word at an address. -/
def wordBytes (w : Uint S) (x : Nat) : Set Nat := Set.Ico x (x + w.val)

theorem wordBytes_disjoint {w : Uint S} {x y : Nat} (h : x + w.val ≤ y ∨ y + w.val ≤ x) :
    Disjoint (wordBytes w x) (wordBytes w y) := by
  rw [wordBytes, wordBytes, Set.Ico_disjoint_Ico]
  omega

theorem wordBytes_not_disjoint {w : Uint S} (hw : 0 < w.val) (x : Nat) :
    ¬ Disjoint (wordBytes w x) (wordBytes w x) := by
  rw [wordBytes, Set.Ico_disjoint_Ico]
  omega

/-- Words at different multiples of the word size. -/
theorem wordBytes_disjoint_of_ne {w : Uint S} {base p q : Nat} (h : p ≠ q) :
    Disjoint (wordBytes w (base + p * w.val)) (wordBytes w (base + q * w.val)) := by
  apply wordBytes_disjoint
  rcases Nat.lt_or_gt_of_ne h with hlt | hlt
  · have hle := Nat.mul_le_mul_right w.val hlt
    rw [Nat.succ_mul] at hle
    omega
  · have hle := Nat.mul_le_mul_right w.val hlt
    rw [Nat.succ_mul] at hle
    omega

namespace Config

variable (config : Config S)

/-- The address of slot `i` of the stack is that of the word the `i`-th push writes. -/
def cell : Slot → Except Panic (Uint S)
  | .stack i => do config.stack.low.add (← (Uint.ofNat i).mul config.wordSize)
  | .register j => do .ok (← config.createRegister j).address

def sectionOf : Slot → Section S
  | .stack _ => config.stack
  | .register _ => config.register

def sections : List (Section S) := [config.stack, config.register, config.memory]

/-- What a layout has to provide. -/
structure Correct (args : ConfigArgs) : Prop where
  aligned : ∀ s ∈ config.sections, config.wordSize.val ∣ s.low.val
  disjoint : config.sections.Pairwise fun s t => ∀ a, ¬ (s.contain a = true ∧ t.contain a = true)
  separated : config.sections.Pairwise fun s t =>
    s.high.val + config.bufferSize.val ≤ t.low.val ∨ t.high.val + config.bufferSize.val ≤ s.low.val
  cells : ∀ s : Slot, s.Valid args → ∃ x, config.cell s = .ok x ∧
    config.wordSize.val ∣ x.val ∧
    ∀ b ∈ wordBytes config.wordSize x.val, ∃ a : Uint S, a.val = b ∧
      (config.sectionOf s).contain a = true
  apart : ∀ s t : Slot, s.Valid args → t.Valid args → s ≠ t →
    ∀ x y, config.cell s = .ok x → config.cell t = .ok y →
      Disjoint (wordBytes config.wordSize x.val) (wordBytes config.wordSize y.val)

namespace Layout

variable {config} {w : Uint S} {args : ConfigArgs} {base : Nat}

theorem cell_ok (h : config.Layout w args base) (hw : 0 < w.val) {s : Slot} (hs : s.Valid args) :
    ∃ x, config.cell s = .ok x ∧ x.val = base + s.position args * w.val ∧
      (config.sectionOf s).low.val ≤ x.val ∧ x.val + w.val ≤ (config.sectionOf s).high.val := by
  have hstack := h.stackLow
  have hstackHigh := h.stackHigh
  have hregister := h.registerLow
  have hregisterHigh := h.registerHigh
  have hfits := h.fits
  cases s with
  | stack i =>
    have hwords := Nat.mul_le_mul_right w.val (show i + 1 ≤ args.stackDepth.val from hs)
    rw [Nat.succ_mul] at hwords
    obtain ⟨z, hz, hzValue⟩ := exists_words hw (n := i) (by omega)
    obtain ⟨x, hx, hxValue⟩ := exists_add (x := config.stack.low) (y := z) (by omega)
    refine ⟨x, ?_, ?_, ?_, ?_⟩
    · rw [cell, h.wordSize, hz, ok_bind, hx]
    · rw [hxValue, hzValue, hstack]
      rfl
    · rw [hxValue]
      exact Nat.le_add_right _ _
    · simp only [sectionOf]
      omega
  | register j =>
    have hwords := Nat.mul_le_mul_right w.val (show j + 1 ≤ args.noRegister.val from hs)
    rw [Nat.succ_mul] at hwords
    obtain ⟨z, hz, hzValue⟩ := exists_words hw (n := j) (by omega)
    obtain ⟨x, hx, hxValue⟩ := exists_add (x := config.register.low) (y := z) (by omega)
    refine ⟨x, ?_, ?_, ?_, ?_⟩
    · rw [cell, createRegister, h.wordSize, hz, ok_bind, hx]
      rfl
    · rw [hxValue, hzValue, hregister, hstackHigh, Slot.position, Nat.add_mul, Nat.add_mul]
      omega
    · rw [hxValue]
      exact Nat.le_add_right _ _
    · simp only [sectionOf]
      omega

theorem cell_aligned (h : config.Layout w args base) {x : Uint S} {p : Nat}
    (hx : x.val = base + p * w.val) : w.val ∣ x.val := by
  rw [hx]
  exact Nat.dvd_add h.aligned (Nat.dvd_mul_left _ _)

theorem registerLow_eq (h : config.Layout w args base) :
    config.register.low.val = base + (args.stackDepth.val + args.noBuffer.val) * w.val := by
  rw [h.registerLow, h.stackHigh, Nat.add_mul]
  omega

/-- The three sections in the order of their addresses. -/
theorem ordered (h : config.Layout w args base) :
    config.stack.high.val + config.bufferSize.val = config.register.low.val ∧
      (config.register.high.val + config.bufferSize.val = config.memory.low.val ∨
        config.memory.high.val + config.bufferSize.val = config.stack.low.val) := by
  refine ⟨by rw [h.bufferSize, h.registerLow], ?_⟩
  cases hhead : args.headLayout with
  | true => exact Or.inl (by rw [h.bufferSize, (h.head hhead).2.1])
  | false => exact Or.inr (by rw [h.bufferSize, (h.tail hhead).2, h.stackLow])

theorem memoryLow_aligned (h : config.Layout w args base) : w.val ∣ config.memory.low.val := by
  cases hhead : args.headLayout with
  | true =>
    rw [(h.head hhead).2.1, h.registerHigh, h.registerLow_eq, Nat.add_assoc, Nat.add_assoc,
      ← Nat.add_mul, ← Nat.add_mul]
    exact Nat.dvd_add h.aligned (Nat.dvd_mul_left _ _)
  | false =>
    rw [(h.tail hhead).1, Uint.zero_val]
    exact Nat.dvd_zero _

theorem sections_separated (h : config.Layout w args base) :
    config.sections.Pairwise fun s t =>
      s.high.val + config.bufferSize.val ≤ t.low.val ∨
        t.high.val + config.bufferSize.val ≤ s.low.val := by
  obtain ⟨hfixed, hmemory⟩ := h.ordered
  have hstack := h.stackLow
  have hstackHigh := h.stackHigh
  have hregisterHigh := h.registerHigh
  simp only [sections, List.pairwise_cons, List.forall_mem_cons, List.not_mem_nil,
    List.Pairwise.nil, IsEmpty.forall_iff, implies_true, and_true]
  omega

/-- Two sections with a buffer between them have no address in common. -/
theorem disjoint_of_separated {s t : Section S} {n : Nat} (hn : 0 < n)
    (h : s.high.val + n ≤ t.low.val ∨ t.high.val + n ≤ s.low.val) :
    ∀ a, ¬ (s.contain a = true ∧ t.contain a = true) := by
  rintro a ⟨hs, ht⟩
  rw [Section.contain_iff] at hs ht
  omega

theorem correct (h : config.Layout w args base) (hw : 0 < w.val) (hbuffer : 0 < args.noBuffer.val) :
    config.Correct args where
  aligned := by
    have hlow := h.cell_aligned (x := config.stack.low) (p := 0) (by rw [h.stackLow, Nat.zero_mul]; rfl)
    simp only [sections, h.wordSize, List.forall_mem_cons, List.not_mem_nil, IsEmpty.forall_iff,
      implies_true, and_true]
    exact ⟨hlow, h.cell_aligned h.registerLow_eq, h.memoryLow_aligned⟩
  disjoint := by
    have hsize : 0 < config.bufferSize.val := by
      rw [h.bufferSize]
      exact Nat.mul_pos hbuffer hw
    exact h.sections_separated.imp fun hst => disjoint_of_separated hsize hst
  separated := h.sections_separated
  cells := by
    intro s hs
    obtain ⟨x, hx, hxValue, hlow, hhigh⟩ := h.cell_ok hw hs
    rw [h.wordSize]
    refine ⟨x, hx, h.cell_aligned hxValue, ?_⟩
    rintro b ⟨hxb, hbx⟩
    have hlt := (config.sectionOf s).high.isLt
    refine ⟨⟨b, by omega⟩, rfl, ?_⟩
    rw [Section.contain_iff]
    constructor
    · exact hlow.trans hxb
    · exact hbx.le.trans hhigh
  apart := by
    intro s t hs ht hne x y hx hy
    obtain ⟨x', hx', hxValue, -⟩ := h.cell_ok hw hs
    obtain ⟨y', hy', hyValue, -⟩ := h.cell_ok hw ht
    obtain rfl : x = x' := Except.ok.inj (hx.symm.trans hx')
    obtain rfl : y = y' := Except.ok.inj (hy.symm.trans hy')
    rw [h.wordSize, hxValue, hyValue]
    exact wordBytes_disjoint_of_ne (Slot.position_ne hs ht hne)

/-- Without a buffer, the end of the stack is the first register. -/
theorem not_correct (h : config.Layout w args base) (hbuffer : args.noBuffer.val = 0) :
    ¬ config.Correct args := by
  intro hcorrect
  have hdisjoint := hcorrect.disjoint
  simp only [sections, List.pairwise_cons, List.forall_mem_cons] at hdisjoint
  have hlow := h.registerLow
  rw [hbuffer, Nat.zero_mul] at hlow
  apply hdisjoint.1.1 config.register.low
  rw [Section.contain_iff, Section.contain_iff]
  have hstack := h.stackLow
  have hstackHigh := h.stackHigh
  have hregisterHigh := h.registerHigh
  omega

end Layout

/-- A layout that fits is correct exactly when there is a buffer between its sections. -/
theorem new_correct_iff {w : Uint S} {args : ConfigArgs} (hw : 1 ≤ w.val)
    (hfit : (args.stackDepth.val + args.noRegister.val + 3 * args.noBuffer.val + 2) * w.val ≤
      (Uint.max : Uint S).val) :
    (∃ config, Config.new w args = .ok config ∧ config.Correct args) ↔
      1 ≤ args.noBuffer.val := by
  have hsections : SectionsFit w args := by
    refine lt_of_le_of_lt (le_trans (Nat.mul_le_mul_right w.val ?_) hfit) Uint.max.isLt
    split <;> omega
  obtain ⟨config, base, hnew, hlayout⟩ := new_ok hw hsections
  constructor
  · rintro ⟨config', hnew', hcorrect⟩
    obtain rfl : config = config' := Except.ok.inj (hnew.symm.trans hnew')
    by_contra hbuffer
    exact hlayout.not_correct (by omega) hcorrect
  · intro hbuffer
    exact ⟨config, hnew, hlayout.correct hw hbuffer⟩

/-- The default layout. -/
theorem new_correct_iff_default :
    (∃ config : Config 32, Config.new (.ofNat 32) .defaultConfig = .ok config ∧
      config.Correct .defaultConfig) ↔ 1 ≤ ConfigArgs.defaultConfig.noBuffer.val :=
  new_correct_iff (by decide) (by decide)

/-- The default layout without buffers: the first register is in the stack section too. -/
theorem noBuffer_overlap :
    let args : ConfigArgs := { ConfigArgs.defaultConfig with noBuffer := .zero }
    (args.stackDepth.val + args.noRegister.val + 3 * args.noBuffer.val + 2) *
        (Uint.ofNat 32 : B256).val ≤ (Uint.max : B256).val ∧
      ∃ config : Config 32, Config.new (.ofNat 32) args = .ok config ∧
        config.stack.contain (.ofNat 32768) = true ∧
        config.register.contain (.ofNat 32768) = true :=
  ⟨by decide, _, rfl, by decide, by decide⟩

end Config

end Zkmemory
