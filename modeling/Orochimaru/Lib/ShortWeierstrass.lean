import Mathlib
import Orochimaru.Lib.Literals

/-!
# Points of a curve `y² = x³ + b`

Multiples of a point in Jacobian coordinates, where no step divides, and the number of
points: at most two for each `x`, and odd where `-b` is no cube.
-/

namespace ShortWeierstrass

open WeierstrassCurve

variable {K : Type*} [Field K]

abbrev curve (b : K) : WeierstrassCurve.Affine K := ⟨0, 0, 0, 0, b⟩

theorem equation_iff {b x y : K} : (curve b).Equation x y ↔ y ^ 2 = x ^ 3 + b := by
  rw [Affine.equation_iff]
  simp

theorem nonsingular_iff {b x y : K} (h : (curve b).Δ ≠ 0) :
    (curve b).Nonsingular x y ↔ y ^ 2 = x ^ 3 + b := by
  rw [← equation_iff]
  exact (Affine.equation_iff_nonsingular_of_Δ_ne_zero h).symm

/-! ## Multiples in Jacobian coordinates -/

/-- The coordinates `(x / z², y / z³)` of a point. -/
structure Triple (R : Type*) where
  x : R
  y : R
  z : R

section Formulas

variable {R : Type*} [CommRing R]

def Triple.double (t : Triple R) : Triple R :=
  let x := 9 * t.x ^ 4 - 8 * t.x * t.y ^ 2
  ⟨x, 3 * t.x ^ 2 * (4 * t.x * t.y ^ 2 - x) - 8 * t.y ^ 4, 2 * t.y * t.z⟩

/-- The sum with the point `(gx, gy)`. -/
def Triple.add (t : Triple R) (gx gy : R) : Triple R :=
  let h := gx * t.z ^ 2 - t.x
  let r := gy * t.z ^ 3 - t.y
  let x := r ^ 2 - h ^ 3 - 2 * t.x * h ^ 2
  ⟨x, r * (t.x * h ^ 2 - x) - t.y * h ^ 3, t.z * h⟩

/-- The multiple of `(gx, gy)` by the upper bits of `k`, after `i` of the bits below the
highest, which is bit `top`. -/
def multiple (gx gy : R) (k top : Nat) : Nat → Triple R
  | 0 => ⟨gx, gy, 1⟩
  | i + 1 =>
    if k / 2 ^ (top - (i + 1)) % 2 = 1 then (multiple gx gy k top i).double.add gx gy
    else (multiple gx gy k top i).double

end Formulas

variable [DecidableEq K] {b : K}

/-- `t` has the coordinates of `P`. -/
def Represents (P : (curve b).Point) (t : Triple K) : Prop :=
  t.z ≠ 0 ∧ ∃ x y h, P = .some x y h ∧ t.x = x * t.z ^ 2 ∧ t.y = y * t.z ^ 3

omit [DecidableEq K] in
theorem represents_some {x y : K} (h : (curve b).Nonsingular x y) :
    Represents (.some x y h) ⟨x, y, 1⟩ := by
  refine ⟨one_ne_zero, x, y, h, rfl, ?_, ?_⟩
  · rw [one_pow, mul_one]
  · rw [one_pow, mul_one]

/-- The step for a bit: where the new `z` is not zero, the tangent is not vertical. -/
theorem Represents.double {P : (curve b).Point} {t : Triple K} (h : Represents P t)
    (hz : t.double.z ≠ 0) : Represents (P + P) t.double := by
  obtain ⟨htz, x, y, hxy, rfl, htx, hty⟩ := h
  have h2y : 2 * y ≠ 0 := by
    intro h0
    apply hz
    rw [Triple.double, hty, ← mul_assoc, h0, zero_mul, zero_mul]
  have hy : y ≠ (curve b).negY x y := by
    intro h0
    apply h2y
    rw [Affine.negY] at h0
    linear_combination h0
  have h2 : (2 : K) ≠ 0 := left_ne_zero_of_mul h2y
  have hy0 : y ≠ 0 := right_ne_zero_of_mul h2y
  have hslope : (curve b).slope x x y y = 3 * x ^ 2 / (2 * y) := by
    rw [Affine.slope_of_Y_ne rfl hy, Affine.negY]
    congr 1 <;> ring
  refine ⟨hz, _, _, _, Affine.Point.add_self_of_Y_ne hy, ?_, ?_⟩
  · rw [hslope]
    simp only [Triple.double, Affine.addX, htx, hty]
    field_simp
    ring
  · rw [hslope]
    simp only [Triple.double, Affine.addY, Affine.negY, Affine.negAddY, Affine.addX, htx, hty]
    field_simp
    ring

/-- The step for a bit that is set: where the new `z` is not zero, the points differ in `x`. -/
theorem Represents.add {P : (curve b).Point} {t : Triple K} (h : Represents P t) {gx gy : K}
    (hg : (curve b).Nonsingular gx gy) (hz : (t.add gx gy).z ≠ 0) :
    Represents (P + .some gx gy hg) (t.add gx gy) := by
  obtain ⟨htz, x, y, hxy, rfl, htx, hty⟩ := h
  have hx : x ≠ gx := by
    rintro rfl
    apply hz
    rw [Triple.add, htx, sub_self, mul_zero]
  have hsub : x - gx ≠ 0 := sub_ne_zero.mpr hx
  refine ⟨hz, _, _, _, Affine.Point.add_of_X_ne hx, ?_, ?_⟩
  · rw [Affine.slope_of_X_ne hx]
    simp only [Triple.add, Affine.addX, htx, hty]
    field_simp
    ring
  · rw [Affine.slope_of_X_ne hx]
    simp only [Triple.add, Affine.addY, Affine.negY, Affine.negAddY, Affine.addX, htx, hty]
    field_simp
    ring

/-- A last `z` that is not zero vouches for all steps. -/
theorem represents_multiple {gx gy : K} (hg : (curve b).Nonsingular gx gy) {k top : Nat}
    (hk : k / 2 ^ top = 1) {i : Nat} (hi : i ≤ top) (hz : (multiple gx gy k top i).z ≠ 0) :
    Represents ((k / 2 ^ (top - i)) • (.some gx gy hg : (curve b).Point))
      (multiple gx gy k top i) := by
  induction i with
  | zero =>
    rw [Nat.sub_zero, hk, one_smul]
    exact represents_some hg
  | succ i ih =>
    have hhalf : k / 2 ^ (top - i) = k / 2 ^ (top - (i + 1)) / 2 := by
      rw [Nat.div_div_eq_div_mul, ← pow_succ]
      congr 2
      omega
    have hsplit := Nat.div_add_mod (k / 2 ^ (top - (i + 1))) 2
    have hdouble : ∀ t : Triple K, t.double.z ≠ 0 → t.z ≠ 0 := fun t h => right_ne_zero_of_mul h
    rw [← hsplit, add_smul, two_mul, add_smul, ← hhalf]
    rw [multiple] at hz ⊢
    split at hz
    case isTrue hbit =>
      have hd : ((multiple gx gy k top i).double).z ≠ 0 := left_ne_zero_of_mul hz
      rw [if_pos hbit, hbit, one_smul]
      exact ((ih (by omega) (hdouble _ hd)).double hd).add hg hz
    case isFalse hbit =>
      rw [if_neg hbit, Nat.mod_two_ne_one.mp hbit, zero_smul, add_zero]
      exact (ih (by omega) (hdouble _ hz)).double hz

/-! ## The number of points -/

section Count

variable [Finite K]

omit [DecidableEq K] [Finite K] in
/-- A point as `x` and one bit for `y`, none for the point at infinity. -/
theorem exists_point_injection (b : K) :
    ∃ f : (curve b).Point → Option (K × Bool), Function.Injective f := by
  classical
  let root : K → K := fun x => if h : ∃ y, y ^ 2 = x ^ 3 + b then h.choose else 0
  have hroot : ∀ {x y : K}, y ^ 2 = x ^ 3 + b → y = root x ∨ y = -root x := by
    intro x y h
    have hex : ∃ y, y ^ 2 = x ^ 3 + b := ⟨y, h⟩
    apply sq_eq_sq_iff_eq_or_eq_neg.mp
    simp only [root, dif_pos hex]
    rw [h, hex.choose_spec]
  let f : (curve b).Point → Option (K × Bool)
    | .zero => none
    | .some x y _ => some (x, decide (y = root x))
  refine ⟨f, ?_⟩
  rintro (_ | ⟨x, y, h⟩) (_ | ⟨x', y', h'⟩) heq
  · rfl
  · cases heq
  · cases heq
  · obtain ⟨rfl, hbit⟩ := Prod.mk.inj (Option.some.inj heq)
    have hy := hroot (equation_iff.mp h.1)
    have hy' := hroot (equation_iff.mp h'.1)
    have : y = y' := by
      rw [decide_eq_decide] at hbit
      rcases hy with hy | hy
      · rw [hy, hbit.mp hy]
      · rcases hy' with hy' | hy'
        · rw [hy', hbit.mpr hy']
        · rw [hy, hy']
    subst this
    rfl

omit [DecidableEq K] in
theorem finite_point (b : K) : Finite (curve b).Point :=
  have ⟨_, hf⟩ := exists_point_injection b
  Finite.of_injective _ hf

omit [DecidableEq K] in
theorem card_point_le (b : K) : Nat.card (curve b).Point ≤ 2 * Nat.card K + 1 := by
  obtain ⟨f, hf⟩ := exists_point_injection b
  calc Nat.card (curve b).Point ≤ Nat.card (Option (K × Bool)) :=
        Nat.card_le_card_of_injective f hf
    _ = 2 * Nat.card K + 1 := by
        rw [Finite.card_option, Nat.card_prod, Nat.card_eq_fintype_card (α := Bool),
          Fintype.card_bool, mul_comm]

/-- Where `-b` is no cube no point is its own inverse. -/
theorem odd_card_point (h2 : (2 : K) ≠ 0) (hcube : ∀ x : K, x ^ 3 ≠ -b) :
    Odd (Nat.card (curve b).Point) := by
  have := finite_point b
  rw [← Nat.not_even_iff_odd, even_iff_two_dvd]
  intro hdvd
  obtain ⟨P, hP⟩ := exists_prime_addOrderOf_dvd_card' 2 hdvd
  have hzero : P ≠ 0 := by
    rintro rfl
    rw [addOrderOf_zero] at hP
    exact absurd hP (by decide)
  have hneg : P = -P := by
    rw [eq_neg_iff_add_eq_zero, ← two_nsmul, ← hP]
    exact addOrderOf_nsmul_eq_zero P
  obtain _ | ⟨x, y, h⟩ := P
  · exact hzero rfl
  · rw [Affine.Point.neg_some, Affine.Point.some.injEq] at hneg
    have hy : y = 0 := by
      have h0 := hneg.2
      rw [Affine.negY] at h0
      have : 2 * y = 0 := by linear_combination h0
      exact (mul_eq_zero.mp this).resolve_left h2
    have heq := equation_iff.mp h.1
    rw [hy, zero_pow two_ne_zero] at heq
    exact hcube x (eq_neg_of_add_eq_zero_left heq.symm)

/-- The prime order of one point is that of all, where it is over a third of the bound. -/
theorem nsmul_point_eq_zero (h2 : (2 : K) ≠ 0) (hcube : ∀ x : K, x ^ 3 ≠ -b) {n : Nat}
    (hn : n.Prime) (hlt : 2 * Nat.card K + 1 < 3 * n) {G : (curve b).Point} (hG : G ≠ 0)
    (hnG : n • G = 0) (P : (curve b).Point) : n • P = 0 := by
  have := finite_point b
  have : Fact n.Prime := ⟨hn⟩
  have hdvd : n ∣ Nat.card (curve b).Point :=
    addOrderOf_eq_prime hnG hG ▸ addOrderOf_dvd_natCard G
  obtain ⟨m, hm⟩ := hdvd
  have hcard : Nat.card (curve b).Point = n := by
    have hle := card_point_le b
    have hpos : 0 < Nat.card (curve b).Point := Nat.card_pos
    have hodd := odd_card_point h2 hcube
    rw [hm] at hle hpos hodd
    have hm3 : m < 3 := by
      by_contra hge
      have : n * 3 ≤ n * m := Nat.mul_le_mul_left n (by omega)
      omega
    have hmodd := (Nat.odd_mul.mp hodd).2
    interval_cases m
    · simp at hpos
    · rw [hm, mul_one]
    · exact absurd hmodd (by decide)
  rw [← hcard]
  exact card_nsmul_eq_zero'

end Count

end ShortWeierstrass
