import Orochimaru.Lib.FlatMemory
import Orochimaru.Zkmemory.MachineTrace

/-!
# The machine as a byte-addressable memory

Cells hold big-endian words, so the memory of a machine is also an array of
bytes. Seen this way `read` and `write` are plain block accesses at any address,
aligned or not: the two cells an unaligned access touches are not visible.
-/

namespace Zkmemory

open FlatMemory Loops

variable {S T : Nat}

/-- The value of the accessed word: the cell, or the concatenation of two cells. -/
def CellInteraction.word : CellInteraction S T → Uint T
  | .singleCell _ _ v => v
  | .doubleCell _ _ v _ _ _ _ => v

namespace Machine

/-- Byte `x` of the memory, taken from the cell it lies in. -/
def flat (m : Machine S T) (x : Nat) : Byte :=
  if h : 0 < T ∧ x - x % T < 256 ^ S then
    (m.dummyRead ⟨x - x % T, h.2⟩).toBeBytes ⟨x % T, Nat.mod_lt x h.1⟩
  else 0

theorem flat_cell (m : Machine S T) {c : Uint S} (hc : T ∣ c.val) (i : Fin T) :
    m.flat (c.val + i) = (m.dummyRead c).toBeBytes i := by
  obtain ⟨k, hk⟩ := hc
  have hmod : (c.val + i.val) % T = i.val := by
    rw [hk, Nat.mul_add_mod, Nat.mod_eq_of_lt i.isLt]
  have hbase : c.val + i.val - (c.val + i.val) % T = c.val := by omega
  have hpos : 0 < T := by have := i.isLt; omega
  rw [flat, dif_pos ⟨hpos, by rw [hbase]; exact c.isLt⟩]
  simp only [hmod, Nat.add_sub_cancel]

theorem flat_congr {m m' : Machine S T} (h : m'.memory = m.memory) : m'.flat = m.flat := by
  funext x
  simp only [flat, dummyRead, h]

/-- Storing a cell replaces its block of bytes. -/
theorem flat_update (m : Machine S T) {c : Uint S} (hc : T ∣ c.val) (v : Uint T) :
    (m.replaceOrInsert c v).flat = writeBlock m.flat c.val v.toBeBytes := by
  funext x
  by_cases hx : c.val ≤ x ∧ x < c.val + T
  · obtain ⟨i, rfl⟩ : ∃ i : Fin T, x = c.val + i.val := ⟨⟨x - c.val, by omega⟩, by simp; omega⟩
    rw [flat_cell _ hc, writeBlock_inside]
    simp [dummyRead, replaceOrInsert]
  · rw [writeBlock_outside _ _ (by omega)]
    unfold flat
    split
    case isFalse => rfl
    case isTrue h =>
      have hne : (⟨x - x % T, h.2⟩ : Uint S) ≠ c := by
        intro he
        have := congrArg Uint.val he
        have := Nat.mod_lt x h.1
        simp only at *
        omega
      simp [dummyRead, replaceOrInsert, Function.update_of_ne hne]

/-- The joined bytes of an unaligned read are the block at its address. -/
theorem joinCells_flat (m : Machine S T) {a lo hi : Uint S} {r : Fin T}
    (h : Straddles T a r lo hi) :
    joinCells r (m.dummyRead lo).toBeBytes (m.dummyRead hi).toBeBytes =
      readBlock m.flat a.val := by
  have hlow := h.low
  have hhigh := h.high
  have hhi : T ∣ hi.val := hhigh ▸ Nat.dvd_add h.aligned (dvd_refl T)
  funext i
  rw [joinCells, readBlock]
  split
  case isTrue hi' =>
    rw [show a.val + i.val = lo.val + (⟨i.val + r.val, hi'⟩ : Fin T).val by simp only; omega,
      flat_cell m h.aligned]
  case isFalse hi' =>
    rw [show a.val + i.val = hi.val + (⟨i.val + r.val - T, by omega⟩ : Fin T).val by
      simp only; omega, flat_cell m hhi]

/-- Splicing a value into two cells writes the block at the unaligned address. -/
theorem splice_flat (m : Machine S T) {a lo hi : Uint S} {r : Fin T}
    (h : Straddles T a r lo hi) (v : Bytes T) :
    writeBlock (writeBlock m.flat lo.val (spliceLo r (m.dummyRead lo).toBeBytes v)) hi.val
      (spliceHi r (m.dummyRead hi).toBeBytes v) = writeBlock m.flat a.val v := by
  have hlow := h.low
  have hhigh := h.high
  have hhi : T ∣ hi.val := hhigh ▸ Nat.dvd_add h.aligned (dvd_refl T)
  funext x
  by_cases hxhi : hi.val ≤ x ∧ x < hi.val + T
  · obtain ⟨i, rfl⟩ : ∃ i : Fin T, x = hi.val + i.val := ⟨⟨x - hi.val, by omega⟩, by simp; omega⟩
    rw [writeBlock_inside, spliceHi]
    split
    case isTrue hi' =>
      rw [show hi.val + i.val = a.val + (⟨i.val + (T - r.val), by omega⟩ : Fin T).val by
        simp only; omega, writeBlock_inside]
    case isFalse hi' =>
      rw [writeBlock_outside _ _ (by omega), flat_cell m hhi]
  · rw [writeBlock_outside _ _ (by omega)]
    by_cases hxlo : lo.val ≤ x ∧ x < lo.val + T
    · obtain ⟨i, rfl⟩ : ∃ i : Fin T, x = lo.val + i.val :=
        ⟨⟨x - lo.val, by omega⟩, by simp; omega⟩
      rw [writeBlock_inside, spliceLo]
      split
      case isTrue hi' =>
        rw [show lo.val + i.val = a.val + (⟨i.val - r.val, by omega⟩ : Fin T).val by
          simp only; omega, writeBlock_inside]
      case isFalse hi' =>
        rw [writeBlock_outside _ _ (by omega), flat_cell m h.aligned]
    · rw [writeBlock_outside _ _ (by omega), writeBlock_outside _ _ (by omega)]

end Machine

/-! ## Runs of block accesses -/

/-- A call that names its address. -/
inductive ByteOp (S T : Nat)
  | read (address : Uint S)
  | write (address : Uint S) (value : Uint T)

namespace ByteOp

def address : ByteOp S T → Uint S
  | read a => a
  | write a _ => a

def toOp : ByteOp S T → Op S T
  | read a => .read a
  | write a v => .write a v

/-- The same call on a flat byte array. -/
def flatExec (mem : Nat → Byte) : ByteOp S T → Uint T × (Nat → Byte)
  | read a => (.fromBeBytes (readBlock mem a.val), mem)
  | write a v => (v, writeBlock mem a.val v.toBeBytes)

/-- Room for the two cells an access may touch. -/
def Fits (op : ByteOp S T) : Prop := op.address.val + 2 * T < 256 ^ S

end ByteOp

/-- A run on a flat byte array: the words returned and the final array. -/
def flatRun (mem : Nat → Byte) (ops : List (ByteOp S T)) : List (Uint T) × (Nat → Byte) :=
  ops.foldl (fun (vs, mem) op => (vs ++ [(op.flatExec mem).1], (op.flatExec mem).2)) ([], mem)

theorem flatRun_snoc (mem : Nat → Byte) (ops : List (ByteOp S T)) (op : ByteOp S T) :
    flatRun mem (ops ++ [op]) =
      ((flatRun mem ops).1 ++ [(op.flatExec (flatRun mem ops).2).1],
        (op.flatExec (flatRun mem ops).2).2) := by
  simp [flatRun, List.foldl_append]

/-- In a flat run, a read right after a write to the same address returns the word. -/
theorem flatRun_read_after_write (mem : Nat → Byte) (ops : List (ByteOp S T)) (a : Uint S)
    (v : Uint T) :
    (flatRun mem (ops ++ [.write a v] ++ [.read a])).1 =
      (flatRun mem ops).1 ++ [v] ++ [v] := by
  rw [flatRun_snoc, flatRun_snoc]
  simp only [ByteOp.flatExec, readBlock_writeBlock, Uint.fromBeBytes_toBeBytes]

/-- The word a `read` or a `write` returns. -/
def Response.word? : Response S T → Option (Uint T)
  | .cell c => some c.word
  | .stack _ => none

namespace Machine

theorem run_snoc (m : Machine S T) (ops : List (Op S T)) (op : Op S T) :
    m.run (ops ++ [op]) = (do
      let (rs, m₁) ← m.run ops
      let (r, m₂) ← m₁.exec op
      .ok (rs ++ [r], m₂)) := by
  unfold run
  rw [List.foldlM_append]
  congr 1
  funext s
  exact bind_pure _

/-- After one access: still running, the expected word and array, at most two ticks later. -/
def AfterByteOp (m : Machine S T) (op : ByteOp S T) (r : CellInteraction S T × Machine S T) :
    Prop :=
  r.2.Running ∧ r.1.word = (op.flatExec m.flat).1 ∧ r.2.flat = (op.flatExec m.flat).2 ∧
    r.2.timeLog.val ≤ m.timeLog.val + 2

theorem read_flat {m : Machine S T} (h : m.Running) {a : Uint S}
    (hfit : (ByteOp.read a : ByteOp S T).Fits) :
    Ends (ClockOverflow (m.timeLog.val + 2)) (AfterByteOp m (.read a)) (m.read a) := by
  have hT := h.wordSized.pos
  by_cases ha : a.val % T = 0
  · have hdvd := Nat.dvd_of_mod_eq_zero ha
    have hcell : m.wordSize.val ∣ a.val := by rw [h.wordSized.wordSize]; exact hdvd
    rw [read_aligned h.wordSized ha]
    refine ((cellRead_ends h.invariant hcell rfl).weaken
      fun _ he => ⟨he.1, by have := he.2; omega⟩).bind fun m' ⟨hinv, hword, hmem, ht⟩ => ?_
    refine ⟨h.of_kept hinv hword, ?_, flat_congr hmem, by simp only; omega⟩
    apply Uint.toBeBytes_injective
    funext i
    simp only [CellInteraction.word, ByteOp.flatExec, Uint.toBeBytes_fromBeBytes, readBlock]
    rw [flat_cell m hdvd]
  · have hfit' : a.val + 2 * T < 256 ^ S := hfit
    obtain ⟨r, lo, hi, hs⟩ := exists_straddles hT ha (by omega)
    obtain ⟨hlo, hhi⟩ := Straddles.dvd_cells h hs
    rw [read_unaligned h.wordSized hs]
    refine ((cellRead_ends h.invariant hlo rfl).weaken
      fun _ he => ⟨he.1, by have := he.2; omega⟩).bind fun m₁ ⟨hinv₁, hword₁, hmem₁, ht₁⟩ => ?_
    have hval : m.dummyRead hi = m₁.dummyRead hi := by rw [dummyRead, dummyRead, hmem₁]
    refine ((cellRead_ends hinv₁ (hword₁ ▸ hhi) hval).weaken
      fun _ he => ⟨he.1, by have := he.2; omega⟩).bind fun m₂ ⟨hinv₂, hword₂, hmem₂, ht₂⟩ => ?_
    refine ⟨h.of_kept hinv₂ (hword₂.trans hword₁), ?_, flat_congr (hmem₂.trans hmem₁),
      by simp only; omega⟩
    simp only [CellInteraction.word, ByteOp.flatExec, joinCells_flat m hs]

theorem write_flat {m : Machine S T} (h : m.Running) {a : Uint S} (v : Uint T)
    (hfit : (ByteOp.write a v).Fits) :
    Ends (ClockOverflow (m.timeLog.val + 2)) (AfterByteOp m (.write a v)) (m.write a v) := by
  have hT := h.wordSized.pos
  by_cases ha : a.val % T = 0
  · have hdvd := Nat.dvd_of_mod_eq_zero ha
    have hcell : m.wordSize.val ∣ a.val := by rw [h.wordSized.wordSize]; exact hdvd
    rw [write_aligned h.wordSized ha]
    refine ((cellWrite_ends h.invariant v hcell).weaken
      fun _ he => ⟨he.1, by have := he.2; omega⟩).bind fun m' ⟨hinv, hword, hmem, ht⟩ => ?_
    refine ⟨h.of_kept hinv hword, rfl, ?_, by simp only; omega⟩
    exact (flat_congr (m := m.replaceOrInsert a v) hmem).trans (flat_update m hdvd v)
  · have hfit' : a.val + 2 * T < 256 ^ S := hfit
    obtain ⟨r, lo, hi, hs⟩ := exists_straddles hT ha (by omega)
    obtain ⟨hlo, hhi⟩ := Straddles.dvd_cells h hs
    rw [write_unaligned h.wordSized hs]
    refine ((cellWrite_ends h.invariant _ hlo).weaken
      fun _ he => ⟨he.1, by have := he.2; omega⟩).bind fun m₁ ⟨hinv₁, hword₁, hmem₁, ht₁⟩ => ?_
    refine ((cellWrite_ends hinv₁ _ (hword₁ ▸ hhi)).weaken
      fun _ he => ⟨he.1, by have := he.2; omega⟩).bind fun m₂ ⟨hinv₂, hword₂, hmem₂, ht₂⟩ => ?_
    refine ⟨h.of_kept hinv₂ (hword₂.trans hword₁), rfl, ?_, by simp only; omega⟩
    have hdvd : T ∣ hi.val := hs.high ▸ Nat.dvd_add hs.aligned (dvd_refl T)
    have hflat₁ := (flat_congr (m := m.replaceOrInsert lo _) hmem₁).trans
      (flat_update m hs.aligned _)
    have hflat₂ := (flat_congr (m := m₁.replaceOrInsert hi _) hmem₂).trans
      (flat_update m₁ hdvd _)
    simp only [Uint.toBeBytes_fromBeBytes] at hflat₁ hflat₂
    simp only [ByteOp.flatExec]
    rw [hflat₂, hflat₁, splice_flat m hs]

theorem byteOp_flat {m : Machine S T} (h : m.Running) {op : ByteOp S T} (hfit : op.Fits) :
    Ends (ClockOverflow (m.timeLog.val + 2)) (fun r => r.2.Running ∧
      r.1.word? = some (op.flatExec m.flat).1 ∧ r.2.flat = (op.flatExec m.flat).2 ∧
      r.2.timeLog.val ≤ m.timeLog.val + 2) (m.exec op.toOp) := by
  cases op with
  | read a =>
    exact (read_flat h hfit).bind fun r ⟨h₁, h₂, h₃, h₄⟩ => ⟨h₁, congrArg some h₂, h₃, h₄⟩
  | write a v =>
    exact (write_flat h v hfit).bind fun r ⟨h₁, h₂, h₃, h₄⟩ => ⟨h₁, congrArg some h₂, h₃, h₄⟩

/-- **The machine refines a flat byte array.** Every run of reads and writes, from
empty memory, returns the words and leaves the bytes that the same block accesses
give on an array of zeros; it can only stop because `u64` time is used up. -/
theorem run_refines_flat {m : Machine S T} (hinit : m.Initial) (hw : m.WordSized)
    (ops : List (ByteOp S T)) (hfit : ∀ op ∈ ops, op.Fits) :
    Ends (ClockOverflow (2 * ops.length)) (fun r =>
      r.1.map Response.word? = (flatRun (fun _ => 0) ops).1.map some ∧
        r.2.flat = (flatRun (fun _ => 0) ops).2) (m.run (ops.map ByteOp.toOp)) := by
  suffices hrun : Ends (ClockOverflow (2 * ops.length)) (fun r => r.2.Running ∧
      r.1.map Response.word? = (flatRun (fun _ => 0) ops).1.map some ∧
      r.2.flat = (flatRun (fun _ => 0) ops).2 ∧ r.2.timeLog.val ≤ 2 * ops.length)
      (m.run (ops.map ByteOp.toOp)) from hrun.mono fun r hr => ⟨hr.2.1, hr.2.2.1⟩
  induction ops using List.reverseRecOn with
  | nil =>
    refine ⟨⟨hw, hinit.traceInvariant⟩, rfl, ?_, by simp [hinit.timeLog]⟩
    funext x
    simp [flat, flatRun, dummyRead, hinit.memory]
  | append_singleton ops op ih =>
    have ih := ih fun o ho => hfit o (by simp [ho])
    rw [List.map_append, List.map_singleton, run_snoc, List.length_append, List.length_singleton]
    refine (ih.weaken fun _ he => ⟨he.1, by have := he.2; omega⟩).bind fun before hbefore => ?_
    obtain ⟨rs, m₁⟩ := before
    obtain ⟨hrun, hwords, hflat, ht⟩ := hbefore
    refine ((byteOp_flat hrun (hfit op (by simp))).weaken
      fun _ he => ⟨he.1, by have := he.2; simp only at *; omega⟩).bind fun after hafter => ?_
    obtain ⟨r, m₂⟩ := after
    obtain ⟨hrun₂, hword, hflat₂, ht₂⟩ := hafter
    simp only at hrun hwords hflat ht hword hflat₂ ht₂
    rw [ends_ok, flatRun_snoc, ← hflat]
    exact ⟨hrun₂, by simp [hwords, hword], hflat₂, by simp only; omega⟩

/-- Two overlapping unaligned writes, read back at an address between them. -/
def overlappingOps : List (ByteOp 2 2) :=
  [.write (.ofNat 3) (.ofNat 258), .write (.ofNat 4) (.ofNat 772), .write (.ofNat 5) (.ofNat 7),
    .read (.ofNat 3), .read (.ofNat 4)]

theorem run_refines_flat_overlapping :
    Ends (ClockOverflow 10) (fun r =>
      r.1.map Response.word? = (flatRun (fun _ => 0) overlappingOps).1.map some ∧
        r.2.flat = (flatRun (fun _ => 0) overlappingOps).2)
      ((Machine.empty (.ofNat 2) .zero .zero : Machine 2 2).run
        (overlappingOps.map ByteOp.toOp)) :=
  run_refines_flat (Machine.empty_initial _ _ _) ⟨by decide, by decide, by decide⟩ overlappingOps
    (by simp [overlappingOps, ByteOp.Fits, ByteOp.address, Uint.ofNat])

end Machine

end Zkmemory
