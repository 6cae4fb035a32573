import Orochimaru.Zkmemory.Machine

/-!
# Accesses cell by cell

Every default method of the machine is one or two accesses of a single cell.
`cellRead` and `cellWrite` are these accesses; the lemmas below rewrite `read`
and `write`, on aligned and on unaligned addresses, into them.
-/

namespace Zkmemory

open Loops

variable {S T : Nat}

/-- The `T` bytes from offset `r` of the low cell on, then those of the high cell. -/
def joinCells (r : Fin T) (lo hi : Bytes T) : Bytes T := fun i =>
  if h : i.val + r.val < T then lo ⟨i + r, h⟩ else hi ⟨i + r - T, by omega⟩

/-- The low cell after a write of `val` at offset `r`. -/
def spliceLo (r : Fin T) (cell val : Bytes T) : Bytes T := fun i =>
  if r.val ≤ i.val then val ⟨i - r, by omega⟩ else cell i

/-- The high cell after a write of `val` at offset `r` of the low cell. -/
def spliceHi (r : Fin T) (cell val : Bytes T) : Bytes T := fun i =>
  if h : i.val < r.val then val ⟨i + (T - r), by omega⟩ else cell i

theorem copyFromSlice_read (r : Fin T) (lo hi : Bytes T) :
    (do
      let buf ← copyFromSlice (fun _ => 0) (T - r) T hi 0 r
      copyFromSlice buf 0 (T - r) lo r T) = .ok (joinCells r lo hi) := by
  have h₁ : T - r.val ≤ T ∧ T ≤ T ∧ 0 ≤ r.val ∧ r.val ≤ T ∧ T - (T - r.val) = r.val - 0 := by omega
  have h₂ : 0 ≤ T - r.val ∧ T - r.val ≤ T ∧ r.val ≤ T ∧ T ≤ T ∧ T - r.val - 0 = T - r.val := by omega
  rw [copyFromSlice, dif_pos h₁, ok_bind, copyFromSlice, dif_pos h₂]
  congr 1
  funext i
  unfold joinCells
  by_cases h : i.val + r.val < T
  · rw [dif_pos (by omega), dif_pos h]
    congr 1
    exact Fin.ext (by simp; omega)
  · rw [dif_neg (by omega), dif_neg h, dif_pos (by omega)]
    congr 1
    exact Fin.ext (by simp; omega)

theorem copyFromSlice_lo (r : Fin T) (cell val : Bytes T) :
    copyFromSlice cell r T val 0 (T - r) = .ok (spliceLo r cell val) := by
  have h : r.val ≤ T ∧ T ≤ T ∧ 0 ≤ T - r.val ∧ T - r.val ≤ T ∧ T - r.val = T - r.val - 0 := by omega
  rw [copyFromSlice, dif_pos h]
  congr 1
  funext i
  unfold spliceLo
  by_cases hi : r.val ≤ i.val
  · rw [dif_pos ⟨hi, i.isLt⟩, if_pos hi]
    congr 1
    exact Fin.ext (by simp)
  · rw [dif_neg (by omega), if_neg hi]

theorem copyFromSlice_hi (r : Fin T) (cell val : Bytes T) :
    copyFromSlice cell 0 r val (T - r) T = .ok (spliceHi r cell val) := by
  have h : 0 ≤ r.val ∧ r.val ≤ T ∧ T - r.val ≤ T ∧ T ≤ T ∧ r.val - 0 = T - (T - r.val) := by omega
  rw [copyFromSlice, dif_pos h]
  congr 1
  funext i
  unfold spliceHi
  by_cases hi : i.val < r.val
  · rw [dif_pos ⟨by omega, hi⟩, dif_pos hi]
    congr 1
    exact Fin.ext (by simp; omega)
  · rw [dif_neg (by omega), dif_neg hi]

namespace Machine

/-- Record one access at the current time and advance the clock. -/
def emit (m : Machine S T) (instruction : MemoryInstruction) (address : Uint S)
    (value : Uint T) : Except Panic (Machine S T) := do
  let m' ← m.track ⟨m.timeLog, m.stackDepth, instruction, address, value⟩
  .ok { m' with timeLog := ← m.timeLog.add (.ofNat 1) }

def cellRead (m : Machine S T) (address : Uint S) : Except Panic (Machine S T) :=
  m.emit .read address (m.dummyRead address)

def cellWrite (m : Machine S T) (address : Uint S) (value : Uint T) :
    Except Panic (Machine S T) :=
  (m.replaceOrInsert address value).emit .write address value

theorem read_aligned {m : Machine S T} (hw : m.WordSized) {a : Uint S} (ha : a.val % T = 0) :
    m.read a = (do
      let m' ← m.cellRead a
      .ok (.singleCell .read a (m.dummyRead a), m')) := by
  have hrem : a.rem m.wordSize = .ok Uint.zero :=
    Uint.rem_ok.mpr ⟨by have := hw.pos; rw [hw.wordSize]; omega, by rw [hw.wordSize, ha]; rfl⟩
  simp only [read, hrem, ok_bind, cellRead, emit, bind_assoc]
  rfl

theorem write_aligned {m : Machine S T} (hw : m.WordSized) {a : Uint S} (ha : a.val % T = 0)
    (v : Uint T) :
    m.write a v = (do
      let m' ← m.cellWrite a v
      .ok (.singleCell .write a v, m')) := by
  have hrem : a.rem m.wordSize = .ok Uint.zero :=
    Uint.rem_ok.mpr ⟨by have := hw.pos; rw [hw.wordSize]; omega, by rw [hw.wordSize, ha]; rfl⟩
  simp only [write, hrem, ok_bind, cellWrite, emit, bind_assoc]
  rfl

/-- An unaligned address: its offset and the two cells around it. -/
structure Straddles (T : Nat) (a : Uint S) (r : Fin T) (lo hi : Uint S) : Prop where
  offset : r.val ≠ 0
  aligned : T ∣ lo.val
  low : lo.val + r.val = a.val
  high : hi.val = lo.val + T

theorem Straddles.mod {a lo hi : Uint S} {r : Fin T} (h : Straddles T a r lo hi) :
    a.val % T = r.val := by
  obtain ⟨k, hk⟩ := h.aligned
  rw [← h.low, hk, Nat.mul_add_mod, Nat.mod_eq_of_lt r.isLt]

theorem Straddles.ne {a lo hi : Uint S} {r : Fin T} (h : Straddles T a r lo hi) : lo ≠ hi := by
  intro he
  have hhigh := h.high
  have hlt := r.isLt
  rw [he] at hhigh
  omega

theorem exists_straddles (hT : 0 < T) {a : Uint S} (ha : a.val % T ≠ 0)
    (hfit : a.val - a.val % T + T < 256 ^ S) : ∃ r lo hi, Straddles T a r lo hi := by
  have hle := Nat.mod_le a.val T
  refine ⟨⟨a.val % T, Nat.mod_lt a.val hT⟩, ⟨a.val - a.val % T, by omega⟩, ⟨_, hfit⟩, ha,
    Nat.dvd_sub_mod _, ?_, rfl⟩
  simp only
  omega

/-- Address arithmetic: an unaligned address either straddles two cells or the
upper one lies outside the address type. -/
theorem straddles_or_overflow {m : Machine S T} (hw : m.WordSized) {a : Uint S}
    (ha : a.val % T ≠ 0) :
    (∃ r lo hi, Straddles T a r lo hi) ∨
      (∀ remain, a.rem m.wordSize = .ok remain →
        m.computeAddress a remain = .error .arithmeticOverflow) := by
  have hle := Nat.mod_le a.val T
  by_cases hfit : a.val - a.val % T + T < 256 ^ S
  · exact .inl (exists_straddles hw.pos ha hfit)
  · refine .inr fun remain hrem => ?_
    obtain ⟨_, hrem⟩ := Uint.rem_ok.mp hrem
    rw [hw.wordSize] at hrem
    have hsub : a.sub remain = .ok ⟨a.val - a.val % T, by have := a.isLt; omega⟩ :=
      Uint.sub_ok.mpr ⟨by omega, by rw [← hrem]⟩
    rw [computeAddress, hsub, ok_bind, Uint.add, dif_neg (by rw [hw.wordSize]; omega)]
    rfl

theorem address_steps {m : Machine S T} (hw : m.WordSized) {a lo hi : Uint S}
    {r : Fin T} (h : Straddles T a r lo hi) :
    ∃ remain, a.rem m.wordSize = .ok remain ∧ remain.isZero = false ∧
      m.computeAddress a remain = .ok (lo, hi) ∧ a.sub lo = .ok remain ∧
      remain.toUsize = r.val ∧ m.wordSize.toUsize = T ∧
      usizeSub T r.val = .ok (T - r.val) := by
  have hlow := h.low
  have hlt := a.isLt
  have hrT := r.isLt
  have husize := hw.usize
  have hzero := h.offset
  refine ⟨⟨r.val, by omega⟩, ?_, ?_, ?_, ?_, ?_, ?_, ?_⟩
  · exact Uint.rem_ok.mpr ⟨by have := hw.pos; rw [hw.wordSize]; omega, by rw [hw.wordSize, h.mod]⟩
  · simpa [Uint.isZero] using h.offset
  · rw [computeAddress, Uint.sub_ok (z := lo) |>.mpr ⟨by simp only; omega, by simp only; omega⟩,
      ok_bind, Uint.add_ok (z := hi) |>.mpr (by rw [hw.wordSize, h.high])]
    rfl
  · exact Uint.sub_ok.mpr ⟨by omega, by simp only; omega⟩
  · exact Nat.mod_eq_of_lt (by simp only; omega)
  · rw [Uint.toUsize, hw.wordSize, Nat.mod_eq_of_lt husize]
  · rw [usizeSub, if_pos (by omega)]

/-- An access whose upper cell lies outside the address type panics before it has an effect. -/
theorem read_write_overflow {m : Machine S T} (hw : m.WordSized) {a : Uint S}
    (ha : a.val % T ≠ 0) (h : ∀ remain, a.rem m.wordSize = .ok remain →
      m.computeAddress a remain = .error .arithmeticOverflow) :
    m.read a = .error .arithmeticOverflow ∧
      ∀ v, m.write a v = .error .arithmeticOverflow := by
  have hrem : a.rem m.wordSize = .ok ⟨a.val % T, lt_of_le_of_lt (Nat.mod_le _ _) a.isLt⟩ :=
    Uint.rem_ok.mpr ⟨by have := hw.pos; rw [hw.wordSize]; omega, by rw [hw.wordSize]⟩
  have hzero : Uint.isZero (⟨a.val % T, lt_of_le_of_lt (Nat.mod_le _ _) a.isLt⟩ : Uint S) = false := by
    simpa [Uint.isZero] using ha
  constructor
  · simp only [read, hrem, ok_bind, hzero, Bool.false_eq_true, ↓reduceIte, h _ hrem, error_bind]
  · intro v
    simp only [write, hrem, ok_bind, hzero, Bool.false_eq_true, ↓reduceIte, h _ hrem, error_bind]

/-- Two records in a row: the second is stamped one later, and the clock moves by two. -/
private theorem emit_emit (m : Machine S T) (i : MemoryInstruction) (a b : Uint S)
    (u v : Uint T) {γ : Type} (f : Machine S T → Except Panic γ) :
    (do
      let m' ← m.track ⟨m.timeLog, m.stackDepth, i, a, u⟩
      let m' ← m'.track ⟨← m.timeLog.add (.ofNat 1), m'.stackDepth, i, b, v⟩
      f { m' with timeLog := ← m.timeLog.add (.ofNat 2) }) =
      (do
        let m₁ ← m.emit i a u
        let m₂ ← m₁.emit i b v
        f m₂) := by
  have h1 : (Uint.ofNat 1 : U64).val = 1 := by decide
  have h2 : (Uint.ofNat 2 : U64).val = 2 := by decide
  simp only [emit, bind_assoc, ok_bind]
  cases ht : m.track ⟨m.timeLog, m.stackDepth, i, a, u⟩ with
  | error e => rfl
  | ok m' =>
    rw [ok_bind, ok_bind]
    cases h : m.timeLog.add (.ofNat 1) with
    | error e => rfl
    | ok t =>
      have hadd : m.timeLog.add (.ofNat 2) = t.add (.ofNat 1) := by
        have hval := Uint.add_ok.mp h
        rw [h1] at hval
        simp only [Uint.add, h1, h2, ← hval, Nat.add_assoc]
      rw [ok_bind, ok_bind, hadd]
      cases hm : insertTrace ⟨t, m'.stackDepth, i, b, v⟩ m'.executionTrace with
      | error e => simp [track, hm]
      | ok l => simp [track, hm]

theorem read_unaligned {m : Machine S T} (hw : m.WordSized) {a lo hi : Uint S} {r : Fin T}
    (h : Straddles T a r lo hi) :
    m.read a = (do
      let m₁ ← m.cellRead lo
      let m₂ ← m₁.emit .read hi (m.dummyRead hi)
      .ok (.doubleCell .read a
        (.fromBeBytes (joinCells r (m.dummyRead lo).toBeBytes (m.dummyRead hi).toBeBytes))
        lo (m.dummyRead lo) hi (m.dummyRead hi), m₂)) := by
  obtain ⟨remain, hrem, hzero, haddr, hsub, hpart, hcell, hpartHi⟩ := address_steps hw h
  have hcopy := copyFromSlice_read r (m.dummyRead lo).toBeBytes (m.dummyRead hi).toBeBytes
  simp only [read, hrem, ok_bind, hzero, Bool.false_eq_true, ↓reduceIte, haddr, hsub, hpart,
    hcell, hpartHi]
  obtain ⟨buf, hbuf, hjoin⟩ := bind_ok_iff.mp hcopy
  rw [hbuf, ok_bind, hjoin, ok_bind]
  exact emit_emit m .read lo hi _ _ fun m' => .ok (_, m')

theorem write_unaligned {m : Machine S T} (hw : m.WordSized) {a lo hi : Uint S} {r : Fin T}
    (h : Straddles T a r lo hi) (v : Uint T) :
    m.write a v = (do
      let valLo := .fromBeBytes (spliceLo r (m.dummyRead lo).toBeBytes v.toBeBytes)
      let valHi := .fromBeBytes (spliceHi r (m.dummyRead hi).toBeBytes v.toBeBytes)
      let m₁ ← m.cellWrite lo valLo
      let m₂ ← m₁.cellWrite hi valHi
      .ok (.doubleCell .write a v lo valLo hi valHi, m₂)) := by
  obtain ⟨remain, hrem, hzero, haddr, hsub, hpart, hcell, hpartHi⟩ := address_steps hw h
  simp only [write, hrem, ok_bind, hzero, Bool.false_eq_true, ↓reduceIte, haddr, hsub, hpart,
    hcell, hpartHi, copyFromSlice_lo, copyFromSlice_hi]
  refine (emit_emit ((m.replaceOrInsert lo _).replaceOrInsert hi _) .write lo hi _ _
    fun m' => .ok (_, m')).trans ?_
  -- the second cell may be stored before or after the first record is tracked
  simp only [cellWrite, emit, track, replaceOrInsert, bind_assoc, ok_bind]

end Machine

end Zkmemory
