import Orochimaru.Libecvrf.Hash
import Orochimaru.Libecvrf.ProjectiveAdd

/-!
# Multiples of points and the addition of the on-chain verifier

The chain adds two points as fractions over a common denominator and is given the
inverse of that denominator.
-/

namespace Libecvrf

open Zkmemory ShortWeierstrass WeierstrassCurve

/-! ## Multiples -/

/-- `ECMultContext::ecmult`: `na * a + ng * G`. -/
def ecmultContext (a : Point) (na ng : Scalar) : Point := na • a + ng • generator

/-- `ecmult` of a finite point; the library asserts so. -/
def ecmult (a : Affine) (na : Scalar) : Affine :=
  Affine.fromJacobian (ecmultContext a.toJacobian na 0)

def ecmultGen (ng : Scalar) : Affine := Affine.fromJacobian (ng • generator)

/-- `calculate_witness_address`: the last 20 bytes of the hash. -/
def calculateWitnessAddress (keccak : List Byte → Bytes 32) (witness : Affine) :
    Bytes 20 :=
  fun i => witness.keccak256 keccak ⟨i.val + 12, by omega⟩

theorem ecmultContext_zero (a : Point) (na : Scalar) : ecmultContext a na 0 = na • a := by
  rw [ecmultContext]
  module

@[simp] theorem toJacobian_ecmult (a : Affine) (na : Scalar) :
    (ecmult a na).toJacobian = na • a.toJacobian := by
  rw [ecmult, Affine.toJacobian_fromJacobian, ecmultContext_zero]

@[simp] theorem toJacobian_ecmultGen (ng : Scalar) :
    (ecmultGen ng).toJacobian = ng • generator := Affine.toJacobian_fromJacobian _

theorem isValidVar_ecmultGen {ng : Scalar} (h : ng ≠ 0) : (ecmultGen ng).isValidVar = true :=
  Affine.isValidVar_fromJacobian.mpr (smul_ne_zero h generator_ne_zero)

theorem isValidVar_ecmult {a : Affine} {na : Scalar} (h : (ecmult a na).infinity = false) :
    (ecmult a na).isValidVar = true := by
  rw [ecmult, Affine.isValidVar_fromJacobian_eq, ← ecmult, h, Bool.not_false]

theorem ecmult_eq (a : Affine) (na : Scalar) :
    ecmult a na = Affine.fromJacobian (na • a.toJacobian) := by
  rw [ecmult, ecmultContext_zero]

/-- Points over the same `x` agree up to the sign. -/
theorem eq_or_eq_neg_of_x_eq {P Q : Point} (hP : P ≠ 0) (hQ : Q ≠ 0)
    (hx : (Affine.fromJacobian P).x = (Affine.fromJacobian Q).x) : P = Q ∨ P = -Q := by
  cases P with
  | zero => exact absurd rfl hP
  | some x y h =>
    cases Q with
    | zero => exact absurd rfl hQ
    | some x' y' h' =>
      obtain rfl : x = x' := hx
      rcases Affine.Y_eq_of_X_eq h.1 h'.1 rfl with rfl | hy
      · exact .inl rfl
      · right
        rw [Affine.Point.neg_some, Affine.Point.some.injEq]
        exact ⟨rfl, hy⟩

/-! ## The projective sum -/

/-- The coordinates the projective addition leaves in a `Jacobian`. -/
structure Jacobian where
  x : Field
  y : Field
  z : Field

def projectiveSub (a b : Affine) : Affine := ⟨b.y * a.x + a.y * -b.x, a.y * b.y, false⟩

def projectiveMul (a b : Affine) : Affine := ⟨a.x * b.x, a.y * b.y, false⟩

def projectiveEcAdd (a b : Affine) : Jacobian :=
  let z1 : Field := 1
  let z2 : Field := 1
  let l : Affine := ⟨b.y + -a.y, b.x + -a.x, false⟩
  let s1 := projectiveMul l l
  let s1 := projectiveSub s1 ⟨a.x, z1, false⟩
  let s1 := projectiveSub s1 ⟨b.x, z2, false⟩
  let s2 := projectiveSub ⟨a.x, z1, false⟩ s1
  let s2 := projectiveMul s2 l
  let s2 := projectiveSub s2 ⟨a.y, z1, false⟩
  if s1.y ≠ s2.y then ⟨s1.x * s2.y, s2.x * s1.y, s1.y * s2.y⟩ else ⟨s1.x, s2.x, s1.y⟩

/-- The addition over any field, at this one. -/
theorem projectiveEcAdd_eq_overField (a b : Affine) :
    let v := projectiveEcAdd a b
    let w := OverField.projectiveEcAdd ⟨a.x, a.y⟩ ⟨b.x, b.y⟩
    v.x = w.x ∧ v.y = w.y ∧ v.z = w.z := by
  unfold projectiveEcAdd OverField.projectiveEcAdd
  dsimp only
  split
  case isTrue h =>
    split
    case isTrue => exact ⟨rfl, rfl, rfl⟩
    case isFalse h' => exact absurd h h'
  case isFalse h =>
    split
    case isTrue h' => exact absurd h' h
    case isFalse => exact ⟨rfl, rfl, rfl⟩

/-- Over different `x`, dividing by the denominator gives the sum in the group. -/
theorem projectiveEcAdd_sum {a b : Affine} (ha : a.isValidVar = true) (hb : b.isValidVar = true)
    (hx : a.x ≠ b.x) :
    let v := projectiveEcAdd a b
    v.z ≠ 0 ∧ (⟨v.x * v.z⁻¹, v.y * v.z⁻¹, false⟩ : Affine) =
      Affine.fromJacobian (a.toJacobian + b.toJacobian) := by
  intro v
  simp only [Affine.isValidVar, Bool.and_eq_true, Bool.not_eq_true', decide_eq_true_eq] at ha hb
  obtain ⟨hvx, hvy, hvz⟩ := projectiveEcAdd_eq_overField a b
  obtain ⟨hz, hx', hy'⟩ := OverField.projectiveEcAdd_quotients (7 : Field) (a := ⟨a.x, a.y⟩)
    (b := ⟨b.x, b.y⟩) hx
  refine ⟨hvz ▸ hz, ?_⟩
  rw [Affine.toJacobian, Affine.toJacobian, dif_pos ha, dif_pos hb,
    Affine.Point.add_of_X_ne hx, Affine.fromJacobian, hvx, hvy, hvz, ← div_eq_mul_inv,
    ← div_eq_mul_inv, hx', hy']

end Libecvrf
