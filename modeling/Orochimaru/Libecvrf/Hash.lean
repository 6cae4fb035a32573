import Orochimaru.Lib.Loops
import Orochimaru.Zkmemory.Base
import Orochimaru.Libecvrf.Secp256k1

/-!
# Coordinates, bytes and hashes

Points leave the group as affine coordinates, normalised, and enter the hashes as
big-endian bytes. Keccak-256 is a parameter.
-/

namespace Libecvrf

open Zkmemory ShortWeierstrass WeierstrassCurve

/-! ## Affine coordinates -/

structure Affine where
  x : Field
  y : Field
  infinity : Bool
  deriving DecidableEq

namespace Affine

/-- `Affine::from_jacobian`. -/
def fromJacobian : Point → Affine
  | .zero => ⟨0, 0, true⟩
  | .some x y _ => ⟨x, y, false⟩

def isValidVar (a : Affine) : Bool := !a.infinity && a.y ^ 2 = a.x ^ 3 + 7

/-- `Jacobian::from_ge`; nothing but a point of the curve is ever converted. -/
def toJacobian (a : Affine) : Point :=
  if h : a.infinity = false ∧ a.y ^ 2 = a.x ^ 3 + 7 then
    .some a.x a.y ((nonsingular_iff curve_delta_ne_zero).mpr h.2)
  else 0

@[simp] theorem toJacobian_fromJacobian (P : Point) : (fromJacobian P).toJacobian = P := by
  cases P with
  | zero => rfl
  | some x y h =>
    have heq := (nonsingular_iff curve_delta_ne_zero).mp h
    simp [fromJacobian, toJacobian, heq]

theorem fromJacobian_toJacobian {a : Affine} (h : a.isValidVar = true) :
    fromJacobian a.toJacobian = a := by
  simp only [isValidVar, Bool.and_eq_true, Bool.not_eq_true', decide_eq_true_eq] at h
  rw [toJacobian, dif_pos h, fromJacobian, ← h.1]

theorem isValidVar_fromJacobian {P : Point} : (fromJacobian P).isValidVar = true ↔ P ≠ 0 := by
  cases P with
  | zero => exact ⟨fun h => absurd h (by decide), fun h => absurd rfl h⟩
  | some x y h =>
    have heq := (nonsingular_iff curve_delta_ne_zero).mp h
    simp [fromJacobian, isValidVar, heq]

theorem infinity_fromJacobian {P : Point} : (fromJacobian P).infinity = true ↔ P = 0 := by
  cases P with
  | zero => exact ⟨fun _ => rfl, fun _ => rfl⟩
  | some x y h => simp [fromJacobian]

theorem isValidVar_fromJacobian_eq (P : Point) :
    (fromJacobian P).isValidVar = !(fromJacobian P).infinity := by
  rw [Bool.eq_iff_iff, isValidVar_fromJacobian, Bool.not_eq_true', ← Bool.not_eq_true,
    infinity_fromJacobian]

end Affine

/-! ## Bytes -/

/-- The big-endian bytes of a field element. -/
def Field.b32 (x : Field) : List Byte := List.ofFn (Uint.ofNat x.val : Uint 32).toBeBytes

/-- The big-endian bytes of a scalar. -/
def Scalar.b32 (x : Scalar) : List Byte := List.ofFn (Uint.ofNat x.val : Uint 32).toBeBytes

/-- `Scalar::from_bytes` of at most 32 bytes, which stand at the front of the number. -/
def Scalar.fromBytes {k : Nat} (bytes : Bytes k) : Scalar :=
  ((Uint.fromBeBytes fun i : Fin 32 => if h : i.val < k then bytes ⟨i, h⟩ else 0).val : Scalar)

/-- Every scalar is drawn from some bytes. -/
theorem Scalar.fromBytes_toBeBytes (x : Scalar) :
    Scalar.fromBytes (Uint.ofNat x.val : Uint 32).toBeBytes = x := by
  have hbytes : (fun i : Fin 32 => if h : i.val < 32 then
      (Uint.ofNat x.val : Uint 32).toBeBytes ⟨i, h⟩ else 0) = (Uint.ofNat x.val).toBeBytes :=
    funext fun i => dif_pos i.isLt
  have hlt : x.val < 256 ^ 32 := (ZMod.val_lt x).trans (by norm_num [groupOrder])
  rw [Scalar.fromBytes, hbytes, Uint.fromBeBytes_toBeBytes, Uint.ofNat_val hlt,
    ZMod.natCast_zmod_val]

/-- The point at infinity hashes its zero coordinates. -/
def Affine.b32 (a : Affine) : List Byte := Field.b32 a.x ++ Field.b32 a.y

/-! ## Hashes -/

section Hashes

variable (keccak : List Byte → Bytes 32)

def Affine.keccak256 (a : Affine) : Bytes 32 := keccak a.b32

def hashPoints (g h pk gamma kg kh : Affine) : Scalar :=
  Scalar.fromBytes (keccak ([g, h, pk, gamma, kg, kh].flatMap Affine.b32))

def hashPointsPrefix (hash pk gamma : Affine) (uWitness : Bytes 20) (v : Affine) : Scalar :=
  Scalar.fromBytes (keccak
    (Scalar.b32 2 ++ [hash, pk, gamma, v].flatMap Affine.b32 ++ List.ofFn uWitness))

def ySquared (x : Field) : Field := x * x * x + 7

def isOnCurve (point : Affine) : Bool := ySquared point.x = point.y * point.y

/-- The second hash is for digests above the field, which a reduced scalar never is. -/
def fieldHash (b : List Byte) : Except Panic Field :=
  let output := keccak b
  let s : Scalar := Scalar.fromBytes output
  if fieldSize ≤ s.val then
    let output := keccak (List.ofFn output)
    if groupOrder ≤ (Uint.fromBeBytes output).val then
      .ok ((Scalar.fromBytes output).val : Field)
    else .error .assertionFailed
  else .ok (s.val : Field)

theorem fieldHash_eq (b : List Byte) :
    fieldHash keccak b = .ok ((Scalar.fromBytes (keccak b)).val : Field) := by
  have hlt : (Scalar.fromBytes (keccak b)).val < fieldSize :=
    (ZMod.val_lt _).trans (by norm_num [groupOrder, fieldSize])
  rw [fieldHash]
  dsimp only
  rw [if_neg hlt.not_ge]

/-- The root of a square, `a` to the power of `(p + 1) / 4`. -/
def Field.sqrt (a : Field) : Field := a ^ ((fieldSize + 1) / 4)

def newCandidatePoint (b : List Byte) : Except Panic Affine := do
  let x ← fieldHash keccak b
  let y := Field.sqrt (ySquared x)
  .ok ⟨x, if y.val % 2 = 1 then -y else y, false⟩

/-- The power is a root up to the sign. -/
theorem Field.sqrt_sq (y : Field) : Field.sqrt (y ^ 2) = y ∨ Field.sqrt (y ^ 2) = -y := by
  by_cases hy : y = 0
  · left
    rw [hy, Field.sqrt, zero_pow two_ne_zero, zero_pow (by norm_num [fieldSize])]
  have hsplit : 2 * ((fieldSize + 1) / 4) = fieldSize / 2 + 1 := by norm_num [fieldSize]
  rw [Field.sqrt, ← pow_mul, hsplit, pow_succ]
  rcases ZMod.pow_div_two_eq_neg_one_or_one fieldSize hy with h | h
  · left
    rw [h, one_mul]
  · right
    rw [h, neg_one_mul]

theorem infinity_newCandidatePoint {b : List Byte} {a : Affine}
    (h : newCandidatePoint keccak b = .ok a) : a.infinity = false := by
  obtain ⟨x, -, h⟩ := Loops.bind_ok_iff.mp h
  rw [← Except.ok.inj h]

/-- The candidate for a square is a root of it, the even one. -/
theorem newCandidatePoint_of_sq {b : List Byte} {x y : Field} (hx : fieldHash keccak b = .ok x)
    (hy : ySquared x = y ^ 2) (heven : y.val % 2 = 0) (hodd : (-y).val % 2 = 1) :
    newCandidatePoint keccak b = .ok ⟨x, y, false⟩ := by
  rw [newCandidatePoint, hx, Loops.ok_bind, hy]
  rcases Field.sqrt_sq y with h | h
  · have hne : ¬ y.val % 2 = 1 := by
      rw [heven]
      exact zero_ne_one
    rw [h]
    dsimp only
    rw [if_neg hne]
  · rw [h]
    dsimp only
    rw [if_pos hodd, neg_neg]

/-- The candidates up to the first on the curve; `fuel` bounds the hashes. -/
def hashToCurveLoop : Nat → Affine → Except Panic Affine
  | 0, _ => .error .fuelExhausted
  | fuel + 1, rv =>
    if isOnCurve rv then .ok rv
    else do
      let rv ← newCandidatePoint keccak (Field.b32 rv.x)
      hashToCurveLoop fuel rv

def hashToCurvePrefix (fuel : Nat) (alpha : Scalar) (pk : Affine) : Except Panic Affine := do
  let packed := Field.b32 1 ++ pk.b32 ++ Scalar.b32 alpha
  let rv ← newCandidatePoint keccak packed
  hashToCurveLoop keccak fuel rv

/-- The loop ends at a point of the curve. -/
theorem hashToCurveLoop_isValidVar {fuel : Nat} {rv a : Affine} (hrv : rv.infinity = false)
    (h : hashToCurveLoop keccak fuel rv = .ok a) : a.isValidVar = true := by
  induction fuel generalizing rv with
  | zero => cases h
  | succ fuel ih =>
    rw [hashToCurveLoop] at h
    split at h
    case isTrue hcurve =>
      have heq : rv.y ^ 2 = rv.x ^ 3 + 7 := by
        rw [isOnCurve, decide_eq_true_eq, ySquared] at hcurve
        linear_combination -hcurve
      rw [← Except.ok.inj h, Affine.isValidVar, hrv, decide_eq_true heq]
      rfl
    case isFalse =>
      obtain ⟨rv', hrv', h⟩ := Loops.bind_ok_iff.mp h
      exact ih (infinity_newCandidatePoint keccak hrv') h

theorem hashToCurvePrefix_isValidVar {fuel : Nat} {alpha : Scalar} {pk a : Affine}
    (h : hashToCurvePrefix keccak fuel alpha pk = .ok a) : a.isValidVar = true := by
  obtain ⟨rv, hrv, h⟩ := Loops.bind_ok_iff.mp h
  exact hashToCurveLoop_isValidVar keccak (infinity_newCandidatePoint keccak hrv) h

end Hashes

/-- `add_ge`; the second point must not be at infinity. -/
def addGe (a : Point) (b : Affine) : Except Panic Point :=
  if b.infinity then .error .assertionFailed else .ok (a + b.toJacobian)

def hashToCurve (alpha : Scalar) (y : Option Affine) : Except Panic Affine := do
  let r := alpha • generator
  let r ← match y with
    | some v => addGe r v
    | none => .ok r
  .ok (Affine.fromJacobian r)

end Libecvrf
