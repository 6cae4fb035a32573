import Orochimaru.Lib.Positional

/-!
# Machine words

The `Uint` wrapper of `base.rs` and the part of its `Base` trait the memory
machine and the circuits use: checked arithmetic, the conversions from and to
big-endian bytes and to `usize`.
-/

namespace Zkmemory

/-- Why a run stops: the ways the modelled code can panic, and `fuelExhausted` for a
loop that has not ended within the fuel its model was given. -/
inductive Panic
  | arithmeticOverflow
  | divisionByZero
  | indexOutOfBounds
  | timeLogNeverEqual
  | assertionFailed
  | expectNone
  | fuelExhausted
  deriving DecidableEq, Repr

/-- A word of `S` bytes. -/
structure Uint (S : Nat) where
  val : Nat
  isLt : val < 256 ^ S
  deriving DecidableEq

abbrev B256 := Uint 32
abbrev B128 := Uint 16
abbrev B64 := Uint 8
abbrev B32 := Uint 4
abbrev B16 := Uint 2

/-- The primitive `u64` has the range of an eight-byte word. -/
abbrev U64 := Uint 8

theorem one_lt_u64 : 1 < 256 ^ 8 := by decide

abbrev Byte := Fin 256

/-- A byte array `[u8; n]`. -/
abbrev Bytes (n : Nat) := Fin n → Byte

namespace Uint

variable {S : Nat}

@[ext] theorem ext {x y : Uint S} (h : x.val = y.val) : x = y := by
  cases x
  cases y
  cases h
  rfl

theorem val_injective : Function.Injective (val : Uint S → Nat) := fun _ _ h => Uint.ext h

instance : LinearOrder (Uint S) := LinearOrder.lift' val val_injective

theorem le_iff {x y : Uint S} : x ≤ y ↔ x.val ≤ y.val := Iff.rfl

theorem lt_iff {x y : Uint S} : x < y ↔ x.val < y.val := Iff.rfl

def zero : Uint S := ⟨0, Nat.pow_pos (by decide)⟩

instance : Inhabited (Uint S) := ⟨zero⟩

@[simp] theorem zero_val : (zero : Uint S).val = 0 := rfl

/-- The word `n`, reduced to the range of the type as Rust's `as` does. -/
def ofNat (n : Nat) : Uint S := ⟨n % 256 ^ S, Nat.mod_lt _ (Nat.pow_pos (by decide))⟩

theorem ofNat_val {n : Nat} (h : n < 256 ^ S) : (ofNat n : Uint S).val = n := Nat.mod_eq_of_lt h

/-- `MAX` -/
def max : Uint S := ⟨256 ^ S - 1, Nat.sub_lt (Nat.pow_pos (by decide)) one_pos⟩

def isZero (x : Uint S) : Bool := x.val == 0

/-! Arithmetic panics where the exact result leaves the type. -/

def add (x y : Uint S) : Except Panic (Uint S) :=
  if h : x.val + y.val < 256 ^ S then .ok ⟨x.val + y.val, h⟩ else .error .arithmeticOverflow

def sub (x y : Uint S) : Except Panic (Uint S) :=
  if y.val ≤ x.val then .ok ⟨x.val - y.val, lt_of_le_of_lt (Nat.sub_le _ _) x.isLt⟩
  else .error .arithmeticOverflow

def mul (x y : Uint S) : Except Panic (Uint S) :=
  if h : x.val * y.val < 256 ^ S then .ok ⟨x.val * y.val, h⟩ else .error .arithmeticOverflow

def rem (x y : Uint S) : Except Panic (Uint S) :=
  if y.val = 0 then .error .divisionByZero
  else .ok ⟨x.val % y.val, lt_of_le_of_lt (Nat.mod_le _ _) x.isLt⟩

/-- Conversion to a 64-bit `usize`. -/
def toUsize (x : Uint S) : Nat := x.val % 2 ^ 64

theorem add_ok {x y z : Uint S} : x.add y = .ok z ↔ x.val + y.val = z.val := by
  unfold add
  split
  case isTrue h =>
    simp only [Except.ok.injEq, Uint.ext_iff]
  case isFalse h =>
    have := z.isLt
    simp only [reduceCtorEq, false_iff]
    omega

theorem sub_ok {x y z : Uint S} : x.sub y = .ok z ↔ y.val ≤ x.val ∧ x.val - y.val = z.val := by
  unfold sub
  split
  case isTrue h => simp [Uint.ext_iff, h]
  case isFalse h => simp [h]

theorem mul_ok {x y z : Uint S} : x.mul y = .ok z ↔ x.val * y.val = z.val := by
  unfold mul
  split
  case isTrue h =>
    simp only [Except.ok.injEq, Uint.ext_iff]
  case isFalse h =>
    have := z.isLt
    simp only [reduceCtorEq, false_iff]
    omega

theorem rem_ok {x y z : Uint S} : x.rem y = .ok z ↔ y.val ≠ 0 ∧ x.val % y.val = z.val := by
  unfold rem
  split
  case isTrue h => simp [h]
  case isFalse h => simp [Uint.ext_iff, h]

theorem add_error {x y : Uint S} {e : Panic} (h : x.add y = .error e) :
    e = .arithmeticOverflow ∧ 256 ^ S ≤ x.val + y.val := by
  unfold add at h
  split at h
  case isTrue => cases h
  case isFalse hlt => cases h; exact ⟨rfl, Nat.le_of_not_lt hlt⟩

theorem sub_error {x y : Uint S} {e : Panic} (h : x.sub y = .error e) :
    e = .arithmeticOverflow ∧ x.val < y.val := by
  unfold sub at h
  split at h
  case isTrue => cases h
  case isFalse hlt => cases h; exact ⟨rfl, Nat.lt_of_not_le hlt⟩

/-! ## Big-endian bytes -/

/-- The bytes of an array as a digit function. -/
def digits {n : Nat} (b : Bytes n) (i : Nat) : Nat := if h : i < n then (b ⟨i, h⟩).val else 0

theorem digits_lt {n : Nat} (b : Bytes n) (i : Nat) : digits b i < 256 := by
  unfold digits
  split
  · exact (b _).isLt
  · decide

def toBeBytes (x : Uint S) : Bytes S :=
  fun i => ⟨Positional.beDigit 256 S x.val i, Positional.beDigit_lt (by decide) _ _ _⟩

def fromBeBytes (b : Bytes S) : Uint S :=
  ⟨Positional.beVal 256 S (digits b), Positional.beVal_lt fun i _ => digits_lt b i⟩

theorem digits_toBeBytes (x : Uint S) {i : Nat} (hi : i < S) :
    digits x.toBeBytes i = Positional.beDigit 256 S x.val i := by
  simp [digits, toBeBytes, hi]

@[simp] theorem fromBeBytes_toBeBytes (x : Uint S) : fromBeBytes x.toBeBytes = x := by
  apply Uint.ext
  change Positional.beVal 256 S (digits x.toBeBytes) = x.val
  rw [Positional.beVal_congr fun i hi => digits_toBeBytes x hi, Positional.beVal_beDigit,
    Nat.mod_eq_of_lt x.isLt]

@[simp] theorem toBeBytes_fromBeBytes (b : Bytes S) : (fromBeBytes b).toBeBytes = b := by
  funext i
  apply Fin.ext
  change Positional.beDigit 256 S (Positional.beVal 256 S (digits b)) i = (b i).val
  rw [Positional.beDigit_beVal (fun j _ => digits_lt b j) i i.isLt]
  simp [digits]

theorem toBeBytes_injective : Function.Injective (toBeBytes : Uint S → Bytes S) := by
  intro x y h
  rw [← fromBeBytes_toBeBytes x, h, fromBeBytes_toBeBytes]

@[simp] theorem toBeBytes_zero (i : Fin S) : (zero : Uint S).toBeBytes i = 0 := by
  apply Fin.ext
  simp [toBeBytes, Positional.beDigit]

/-- `fixed_be_bytes`: the big-endian bytes, padded in front to 32 of them. -/
def fixedBeBytes (x : Uint S) : Bytes 32 := fun i =>
  if h : 32 - S ≤ i.val then x.toBeBytes ⟨i - (32 - S), by omega⟩ else 0

end Uint

end Zkmemory
