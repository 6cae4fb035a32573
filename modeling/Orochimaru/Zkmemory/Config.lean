import Orochimaru.Zkmemory.Machine

/-!
# The layout of a machine's address space

`Config::new` lays out the stack, the registers and the memory, from the bottom of the address
space or from its top. A fixed section of `n` words has `n` words between its ends, and `contain`
takes both ends in, so its upper end is the first address after its last word.
-/

namespace Zkmemory

open Loops

variable {S : Nat}

structure Section (S : Nat) where
  low : Uint S
  high : Uint S

namespace Section

def contain (s : Section S) (address : Uint S) : Bool :=
  decide (s.low ≤ address) && decide (address ≤ s.high)

theorem contain_iff {s : Section S} {a : Uint S} :
    s.contain a ↔ s.low.val ≤ a.val ∧ a.val ≤ s.high.val := by
  simp [contain, Uint.le_iff]

end Section

structure ConfigArgs where
  headLayout : Bool
  stackDepth : U64
  noRegister : U64
  noBuffer : U64

def ConfigArgs.defaultConfig : ConfigArgs where
  headLayout := true
  stackDepth := .ofNat 1024
  noRegister := .ofNat 32
  noBuffer := .ofNat 32

/-- Sections one after the other, with a buffer behind each. -/
structure MemoryAllocation (S : Nat) where
  sections : List (Section S)
  wordSize : Uint S
  bufferSize : Uint S

namespace MemoryAllocation

def new (wordSize : Uint S) (noBuffer : U64) : Except Panic (MemoryAllocation S) := do
  .ok ⟨[], wordSize, ← (Uint.ofNat noBuffer.val).mul wordSize⟩

def lastOffset (alloc : MemoryAllocation S) : Except Panic (Uint S) :=
  match alloc.sections.getLast? with
  | none => .ok .zero
  | some last => last.high.add alloc.bufferSize

def addFixedSection (alloc : MemoryAllocation S) (size : U64) :
    Except Panic (MemoryAllocation S) := do
  let last ← alloc.lastOffset
  let high ← last.add (← (Uint.ofNat size.val).mul alloc.wordSize)
  .ok { alloc with sections := alloc.sections ++ [⟨last, high⟩] }

def addSection (alloc : MemoryAllocation S) (high : Uint S) : Except Panic (MemoryAllocation S) := do
  let last ← alloc.lastOffset
  .ok { alloc with sections := alloc.sections ++ [⟨last, high⟩] }

def setOffset (alloc : MemoryAllocation S) (offset : Uint S) :
    Except Panic (MemoryAllocation S) := do
  let sections ← alloc.sections.mapM fun s => do
    .ok (⟨← s.low.add offset, ← s.high.add offset⟩ : Section S)
  .ok { alloc with sections := sections }

/-- `section[i]` -/
def sectionAt (alloc : MemoryAllocation S) (i : Nat) : Except Panic (Section S) :=
  match alloc.sections[i]? with
  | some s => .ok s
  | none => .error .indexOutOfBounds

end MemoryAllocation

structure Config (S : Nat) where
  wordSize : Uint S
  stackDepth : Uint S
  bufferSize : Uint S
  memory : Section S
  stack : Section S
  register : Section S

namespace Config

def new (wordSize : Uint S) (args : ConfigArgs) : Except Panic (Config S) := do
  let alloc ← MemoryAllocation.new wordSize args.noBuffer
  if args.headLayout then
    let alloc ← alloc.addFixedSection args.stackDepth
    let alloc ← alloc.addFixedSection args.noRegister
    let alloc ← alloc.addSection .max
    .ok {
      wordSize := wordSize
      stackDepth := .ofNat args.stackDepth.val
      bufferSize := alloc.bufferSize
      stack := ← alloc.sectionAt 0
      register := ← alloc.sectionAt 1
      memory := ← alloc.sectionAt 2 }
  else
    let alloc ← alloc.addFixedSection args.stackDepth
    let alloc ← alloc.addFixedSection args.noRegister
    let beginOfFixedSection ← Uint.max.sub (← alloc.lastOffset)
    let beginOfFixedSection ← beginOfFixedSection.sub (← beginOfFixedSection.rem wordSize)
    let alloc ← alloc.setOffset beginOfFixedSection
    .ok {
      wordSize := wordSize
      stackDepth := .ofNat args.stackDepth.val
      bufferSize := alloc.bufferSize
      stack := ← alloc.sectionAt 0
      register := ← alloc.sectionAt 1
      memory := ⟨.zero, ← beginOfFixedSection.sub alloc.bufferSize⟩ }

def createRegister (config : Config S) (i : Nat) : Except Panic (Register S) := do
  .ok ⟨i, ← config.register.low.add (← (Uint.ofNat i).mul config.wordSize)⟩

/-! ## What is laid out -/

/-- The sections at `base`, which the tail layout takes as high as possible. -/
structure Layout (config : Config S) (w : Uint S) (args : ConfigArgs) (base : Nat) : Prop where
  wordSize : config.wordSize = w
  bufferSize : config.bufferSize.val = args.noBuffer.val * w.val
  stackLow : config.stack.low.val = base
  stackHigh : config.stack.high.val = base + args.stackDepth.val * w.val
  registerLow : config.register.low.val = config.stack.high.val + args.noBuffer.val * w.val
  registerHigh : config.register.high.val =
    config.register.low.val + args.noRegister.val * w.val
  aligned : w.val ∣ base
  fits : config.register.high.val + args.noBuffer.val * w.val < 256 ^ S
  head : args.headLayout = true → base = 0 ∧
    config.memory.low.val = config.register.high.val + args.noBuffer.val * w.val ∧
    config.memory.high = .max
  tail : args.headLayout = false → config.memory.low = .zero ∧
    config.memory.high.val + args.noBuffer.val * w.val = base

/-- The sections and their buffers, in bytes, do not exceed the address type. -/
def SectionsFit (w : Uint S) (args : ConfigArgs) : Prop :=
  (args.stackDepth.val + args.noRegister.val + (if args.headLayout then 2 else 3) *
    args.noBuffer.val) * w.val < 256 ^ S

section Spec

variable {w : Uint S} {args : ConfigArgs}

theorem exists_add {x y : Uint S} (h : x.val + y.val < 256 ^ S) :
    ∃ z, x.add y = .ok z ∧ z.val = x.val + y.val :=
  ⟨⟨_, h⟩, Uint.add_ok.mpr rfl, rfl⟩

theorem exists_sub {x y : Uint S} (h : y.val ≤ x.val) :
    ∃ z, x.sub y = .ok z ∧ z.val = x.val - y.val :=
  ⟨⟨_, (Nat.sub_le _ _).trans_lt x.isLt⟩, Uint.sub_ok.mpr ⟨h, rfl⟩, rfl⟩

theorem exists_rem (hw : 0 < w.val) (x : Uint S) : ∃ z, x.rem w = .ok z ∧ z.val = x.val % w.val :=
  ⟨⟨_, (Nat.mod_le _ _).trans_lt x.isLt⟩, Uint.rem_ok.mpr ⟨hw.ne', rfl⟩, rfl⟩

/-- Whole words fit below a bound that is moved down to a whole word. -/
theorem words_le_sub_mod {w k top : Nat} (hw : 0 < w) (h : k * w ≤ top) :
    k * w ≤ top - top % w := by
  have hk : k * w ≤ top / w * w := Nat.mul_le_mul_right w ((Nat.le_div_iff_mul_le hw).mpr h)
  have hdiv := Nat.div_add_mod' top w
  omega

theorem exists_offset (s : Section S) (offset : Uint S) (hlow : s.low.val + offset.val < 256 ^ S)
    (hhigh : s.high.val + offset.val < 256 ^ S) :
    ∃ t : Section S, (do .ok (⟨← s.low.add offset, ← s.high.add offset⟩ : Section S)) =
        Except.ok (ε := Panic) t ∧
      t.low.val = s.low.val + offset.val ∧ t.high.val = s.high.val + offset.val := by
  obtain ⟨low, hlowAdd, hlowValue⟩ := exists_add hlow
  obtain ⟨high, hhighAdd, hhighValue⟩ := exists_add hhigh
  refine ⟨⟨low, high⟩, ?_, hlowValue, hhighValue⟩
  rw [hlowAdd, ok_bind, hhighAdd, ok_bind]

/-- `n` words, where they are representable. -/
theorem exists_words (hw : 0 < w.val) {n : Nat} (hn : n * w.val < 256 ^ S) :
    ∃ z, (Uint.ofNat n).mul w = .ok z ∧ z.val = n * w.val := by
  have hle : n ≤ n * w.val := Nat.le_mul_of_pos_right n hw
  refine ⟨⟨_, hn⟩, ?_, rfl⟩
  rw [Uint.mul_ok, Uint.ofNat_val (hle.trans_lt hn)]

theorem lastOffset_snoc (l : List (Section S)) (s : Section S) (b : Uint S) :
    MemoryAllocation.lastOffset ⟨l ++ [s], w, b⟩ = s.high.add b := by
  simp [MemoryAllocation.lastOffset]

theorem exists_fixedSection (hw : 0 < w.val) (l : List (Section S)) (b : Uint S) (size : U64)
    {last : Uint S}
    (hlast : MemoryAllocation.lastOffset ⟨l, w, b⟩ = .ok last)
    (hfit : last.val + size.val * w.val < 256 ^ S) :
    ∃ high, high.val = last.val + size.val * w.val ∧
      MemoryAllocation.addFixedSection ⟨l, w, b⟩ size = .ok ⟨l ++ [⟨last, high⟩], w, b⟩ := by
  obtain ⟨words, hwords, hval⟩ := exists_words hw (n := size.val) (by omega)
  obtain ⟨high, hadd, hhigh⟩ := exists_add (x := last) (y := words) (by rw [hval]; exact hfit)
  refine ⟨high, by rw [hhigh, hval], ?_⟩
  rw [MemoryAllocation.addFixedSection, hlast, ok_bind, hwords, ok_bind, hadd, ok_bind]

/-- The stack and the register section at the bottom of the address space, as both layouts
allocate them first. -/
structure Fixed (w : Uint S) (args : ConfigArgs) (buffer : Uint S) (stack register : Section S)
    (next : Uint S) : Prop where
  bufferSize : buffer.val = args.noBuffer.val * w.val
  stackLow : stack.low = .zero
  stackHigh : stack.high.val = args.stackDepth.val * w.val
  registerLow : register.low.val = stack.high.val + buffer.val
  registerHigh : register.high.val = register.low.val + args.noRegister.val * w.val
  next : next.val = register.high.val + buffer.val

theorem exists_fixed (hw : 0 < w.val) (hfit : args.stackDepth.val * w.val +
      args.noRegister.val * w.val + 2 * (args.noBuffer.val * w.val) < 256 ^ S) :
    ∃ buffer stack register next,
      Fixed w args buffer stack register next ∧
      MemoryAllocation.new w args.noBuffer = .ok ⟨[], w, buffer⟩ ∧
      (MemoryAllocation.mk [] w buffer).addFixedSection args.stackDepth =
        .ok ⟨[stack], w, buffer⟩ ∧
      (MemoryAllocation.mk [stack] w buffer).addFixedSection args.noRegister =
        .ok ⟨[stack, register], w, buffer⟩ ∧
      (MemoryAllocation.mk [stack, register] w buffer).lastOffset = .ok next := by
  obtain ⟨buffer, hnew, hbuffer⟩ := exists_words hw (n := args.noBuffer.val) (by omega)
  obtain ⟨stackHigh, hstackHigh, hstack⟩ :=
    exists_fixedSection hw [] buffer args.stackDepth rfl (by rw [Uint.zero_val]; omega)
  rw [Uint.zero_val, Nat.zero_add] at hstackHigh
  obtain ⟨registerLow, hlow, hregisterLow⟩ :=
    exists_add (x := stackHigh) (y := buffer) (by omega)
  obtain ⟨registerHigh, hregisterHigh, hregister⟩ :=
    exists_fixedSection hw [⟨.zero, stackHigh⟩] buffer args.noRegister
      ((lastOffset_snoc [] _ _).trans hlow) (by omega)
  obtain ⟨next, hadd, hnext⟩ := exists_add (x := registerHigh) (y := buffer) (by omega)
  refine ⟨buffer, ⟨.zero, stackHigh⟩, ⟨registerLow, registerHigh⟩, next,
    ⟨hbuffer, rfl, hstackHigh, hregisterLow, hregisterHigh, hnext⟩, ?_, hstack, hregister,
    (lastOffset_snoc [_] _ _).trans hadd⟩
  rw [MemoryAllocation.new, hnew, ok_bind]

theorem SectionsFit.expand (h : SectionsFit w args) :
    args.stackDepth.val * w.val + args.noRegister.val * w.val +
      (if args.headLayout then 2 else 3) * (args.noBuffer.val * w.val) < 256 ^ S := by
  unfold SectionsFit at h
  rw [Nat.add_mul, Nat.add_mul, Nat.mul_assoc] at h
  exact h

theorem new_ok (hw : 0 < w.val) (hfit : SectionsFit w args) :
    ∃ config base, Config.new w args = .ok config ∧ config.Layout w args base := by
  have hsum := hfit.expand
  cases hhead : args.headLayout with
  | true =>
    simp only [hhead, ↓reduceIte] at hsum
    obtain ⟨buffer, stack, register, next, hfixed, hnew, hstack, hregister, hnext⟩ :=
      exists_fixed hw hsum
    refine ⟨_, 0, by
      rw [Config.new, hnew, ok_bind, hhead, if_pos rfl, hstack, ok_bind, hregister, ok_bind,
        MemoryAllocation.addSection, hnext]
      rfl, ?_⟩
    have hbuffer := hfixed.bufferSize
    exact {
      wordSize := rfl
      bufferSize := hbuffer
      stackLow := by rw [hfixed.stackLow, Uint.zero_val]
      stackHigh := by rw [hfixed.stackHigh, Nat.zero_add]
      registerLow := by rw [hfixed.registerLow, hbuffer]
      registerHigh := hfixed.registerHigh
      aligned := Nat.dvd_zero _
      fits := by
        rw [← hbuffer, ← hfixed.next]
        exact next.isLt
      head := fun _ => ⟨rfl, by rw [hfixed.next, hbuffer], rfl⟩
      tail := by simp [hhead] }
  | false =>
    simp only [hhead, Bool.false_eq_true, ↓reduceIte] at hsum
    have hfixedFit : args.stackDepth.val * w.val + args.noRegister.val * w.val +
        2 * (args.noBuffer.val * w.val) < 256 ^ S := by omega
    obtain ⟨buffer, stack, register, next, hfixed, hnew, hstack, hregister, hnext⟩ :=
      exists_fixed hw hfixedFit
    have hbuffer := hfixed.bufferSize
    have hstackLow : stack.low.val = 0 := by rw [hfixed.stackLow, Uint.zero_val]
    have hstackHigh := hfixed.stackHigh
    have hregisterLow := hfixed.registerLow
    have hregisterHigh := hfixed.registerHigh
    have hnextValue := hfixed.next
    have hmax : (Uint.max : Uint S).val = 256 ^ S - 1 := rfl
    have hnextLt := next.isLt
    -- the fixed sections end below the top of the address space, moved down to a whole word
    obtain ⟨top, htop, htopValue⟩ := exists_sub (x := .max) (y := next) (by omega)
    obtain ⟨rest, hrest, hrestValue⟩ := exists_rem hw top
    obtain ⟨base, hbase, hbaseValue⟩ := exists_sub (x := top) (y := rest)
      (by rw [hrestValue]; exact Nat.mod_le _ _)
    have hle : base.val ≤ top.val := by omega
    have hroom : args.noBuffer.val * w.val ≤ base.val := by
      rw [hbaseValue, hrestValue]
      exact words_le_sub_mod hw (by omega)
    obtain ⟨stack', hstack', hstackLow', hstackHigh'⟩ :=
      exists_offset stack base (by omega) (by omega)
    obtain ⟨register', hregister', hregisterLow', hregisterHigh'⟩ :=
      exists_offset register base (by omega) (by omega)
    obtain ⟨memoryHigh, hmemory, hmemoryHigh⟩ := exists_sub (x := base) (y := buffer) (by omega)
    have hoffset : (MemoryAllocation.mk [stack, register] w buffer).setOffset base =
        .ok ⟨[stack', register'], w, buffer⟩ := by
      rw [MemoryAllocation.setOffset, List.mapM_cons, hstack', ok_bind, List.mapM_cons, hregister',
        ok_bind]
      rfl
    refine ⟨_, base.val, by
      rw [Config.new, hnew, ok_bind, hhead, if_neg Bool.false_ne_true, hstack, ok_bind, hregister,
        ok_bind, hnext, ok_bind, htop, ok_bind, hrest, ok_bind, hbase, ok_bind, hoffset, ok_bind,
        hmemory]
      rfl, ?_⟩
    have hlow : stack'.low.val = base.val := by omega
    have hhigh : stack'.high.val = base.val + args.stackDepth.val * w.val := by omega
    have hlow' : register'.low.val = stack'.high.val + args.noBuffer.val * w.val := by omega
    have hhigh' : register'.high.val = register'.low.val + args.noRegister.val * w.val := by omega
    have hfits : register'.high.val + args.noBuffer.val * w.val < 256 ^ S := by omega
    have hend : memoryHigh.val + args.noBuffer.val * w.val = base.val := by omega
    exact {
      wordSize := rfl
      bufferSize := hbuffer
      stackLow := hlow
      stackHigh := hhigh
      registerLow := hlow'
      registerHigh := hhigh'
      aligned := by
        rw [hbaseValue, hrestValue]
        exact Nat.dvd_sub_mod _
      fits := hfits
      head := by simp [hhead]
      tail := fun _ => ⟨rfl, hend⟩ }

end Spec

end Config

end Zkmemory
