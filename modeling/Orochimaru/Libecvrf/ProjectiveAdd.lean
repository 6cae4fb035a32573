import Orochimaru.Lib.ShortWeierstrass

/-!
# The addition of the on-chain verifier over any field

Coordinates are numerators, each with its own denominator, and no step divides. The last step
brings both to a common denominator unless they have one.
-/

namespace Libecvrf.OverField

open ShortWeierstrass WeierstrassCurve

variable {K : Type*} [Field K]

/-- A point, or a numerator over a denominator. -/
structure Affine (K : Type*) where
  x : K
  y : K

structure Jacobian (K : Type*) where
  x : K
  y : K
  z : K

def projectiveSub (a b : Affine K) : Affine K := ⟨b.y * a.x + a.y * -b.x, a.y * b.y⟩

def projectiveMul (a b : Affine K) : Affine K := ⟨a.x * b.x, a.y * b.y⟩

def projectiveEcAdd [DecidableEq K] (a b : Affine K) : Jacobian K :=
  let z1 : K := 1
  let z2 : K := 1
  let l : Affine K := ⟨b.y + -a.y, b.x + -a.x⟩
  let s1 := projectiveMul l l
  let s1 := projectiveSub s1 ⟨a.x, z1⟩
  let s1 := projectiveSub s1 ⟨b.x, z2⟩
  let s2 := projectiveSub ⟨a.x, z1⟩ s1
  let s2 := projectiveMul s2 l
  let s2 := projectiveSub s2 ⟨a.y, z1⟩
  if s1.y ≠ s2.y then ⟨s1.x * s2.y, s2.x * s1.y, s1.y * s2.y⟩ else ⟨s1.x, s2.x, s1.y⟩

section Sum

variable [DecidableEq K]

/-- The numerators over the square and the cube of the difference `d`. -/
theorem projectiveEcAdd_eq {a b : Affine K} {d t u : K} (hd : d = b.x - a.x)
    (ht : t = (b.y - a.y) ^ 2 - d ^ 2 * (a.x + b.x))
    (hu : u = (d ^ 2 * a.x - t) * (b.y - a.y) - d ^ 3 * a.y) :
    projectiveEcAdd a b =
      if d ^ 2 ≠ d ^ 3 then ⟨t * d ^ 3, u * d ^ 2, d ^ 2 * d ^ 3⟩ else ⟨t, u, d ^ 2⟩ := by
  have hs1x : 1 * (1 * ((b.y + -a.y) * (b.y + -a.y)) +
      (b.x + -a.x) * (b.x + -a.x) * -a.x) + (b.x + -a.x) * (b.x + -a.x) * 1 * -b.x = t := by
    rw [ht, hd]
    ring
  have hs1y : (b.x + -a.x) * (b.x + -a.x) * 1 * 1 = d ^ 2 := by
    rw [hd]
    ring
  have hs2x : 1 * ((d ^ 2 * a.x + 1 * -t) * (b.y + -a.y)) +
      1 * d ^ 2 * (b.x + -a.x) * -a.y = u := by
    rw [hu, hd]
    ring
  have hs2y : 1 * d ^ 2 * (b.x + -a.x) * 1 = d ^ 3 := by
    rw [hd]
    ring
  simp only [projectiveEcAdd, projectiveMul, projectiveSub, hs1x, hs1y, hs2x, hs2y]

/-- Both branches leave the same two fractions. -/
theorem projectiveEcAdd_fractions {a b : Affine K} {d t u : K} (hd : d = b.x - a.x)
    (ht : t = (b.y - a.y) ^ 2 - d ^ 2 * (a.x + b.x))
    (hu : u = (d ^ 2 * a.x - t) * (b.y - a.y) - d ^ 3 * a.y) (hne : d ≠ 0) :
    let v := projectiveEcAdd a b
    v.z ≠ 0 ∧ v.x / v.z = t / d ^ 2 ∧ v.y / v.z = u / d ^ 3 := by
  intro v
  have hv : v = _ := projectiveEcAdd_eq hd ht hu
  by_cases h : d ^ 2 = d ^ 3
  · rw [if_neg (not_not.mpr h)] at hv
    rw [hv, ← h]
    exact ⟨pow_ne_zero 2 hne, rfl, rfl⟩
  · rw [if_pos h] at hv
    rw [hv]
    refine ⟨mul_ne_zero (pow_ne_zero 2 hne) (pow_ne_zero 3 hne), ?_, ?_⟩
    · field_simp
    · field_simp

/-- Over different `x` the quotients are those of the chord law. -/
theorem projectiveEcAdd_quotients (B : K) {a b : Affine K} (hx : a.x ≠ b.x) :
    let v := projectiveEcAdd a b
    let slope := (curve B).slope a.x b.x a.y b.y
    v.z ≠ 0 ∧ v.x / v.z = (curve B).addX a.x b.x slope ∧
      v.y / v.z = (curve B).addY a.x b.x a.y slope := by
  intro v slope
  have hd : b.x - a.x ≠ 0 := sub_ne_zero.mpr hx.symm
  obtain ⟨hz, hvx, hvy⟩ := projectiveEcAdd_fractions (a := a) (b := b) rfl rfl rfl hd
  have hslope : slope = (b.y - a.y) / (b.x - a.x) := by
    rw [← neg_sub a.y, ← neg_sub a.x, neg_div_neg_eq]
    exact Affine.slope_of_X_ne hx
  refine ⟨hz, ?_, ?_⟩
  · rw [hvx, hslope, WeierstrassCurve.Affine.addX]
    field_simp
    ring
  · rw [hvy, hslope, WeierstrassCurve.Affine.addY, WeierstrassCurve.Affine.negAddY,
      WeierstrassCurve.Affine.negY, WeierstrassCurve.Affine.addX]
    field_simp
    ring

/-- Two points of the curve over different `x`: the quotients are the chord-law sum, a point of
the curve, and the sum in the group where both points are regular. -/
theorem projectiveEcAdd_chord (B : K) {a b : Affine K} (ha : a.y ^ 2 = a.x ^ 3 + B)
    (hb : b.y ^ 2 = b.x ^ 3 + B) (hx : a.x ≠ b.x) :
    let v := projectiveEcAdd a b
    let slope := (curve B).slope a.x b.x a.y b.y
    v.z ≠ 0 ∧ v.x / v.z = (curve B).addX a.x b.x slope ∧
      v.y / v.z = (curve B).addY a.x b.x a.y slope ∧
      (v.y / v.z) ^ 2 = (v.x / v.z) ^ 3 + B ∧
      ∀ (ha' : (curve B).Nonsingular a.x a.y) (hb' : (curve B).Nonsingular b.x b.y),
        ∃ h, (.some a.x a.y ha' + .some b.x b.y hb' : (curve B).Point) =
          .some (v.x / v.z) (v.y / v.z) h := by
  intro v slope
  obtain ⟨hz, hvx, hvy⟩ := projectiveEcAdd_quotients B hx
  have hne : ¬(a.x = b.x ∧ a.y = (curve B).negY b.x b.y) := fun h => hx h.1
  refine ⟨hz, hvx, hvy, ?_, fun ha' hb' => ?_⟩
  · rw [hvx, hvy, ← equation_iff]
    exact Affine.equation_add (equation_iff.mpr ha) (equation_iff.mpr hb) hne
  · rw [hvx, hvy]
    exact ⟨Affine.nonsingular_add ha' hb' hne, Affine.Point.add_of_X_ne hx⟩

/-- Both branches on `y² = x³ + 1`: the denominators of the first sum differ, those of the second
agree. -/
theorem projectiveEcAdd_chord_rat :
    let v := projectiveEcAdd (⟨0, 1⟩ : Affine ℚ) ⟨2, 3⟩
    let w := projectiveEcAdd (⟨-1, 0⟩ : Affine ℚ) ⟨0, 1⟩
    (v.z ≠ 0 ∧ (v.y / v.z) ^ 2 = (v.x / v.z) ^ 3 + 1) ∧
      w.z ≠ 0 ∧ (w.y / w.z) ^ 2 = (w.x / w.z) ^ 3 + 1 := by
  intro v w
  have hv := projectiveEcAdd_chord (1 : ℚ) (a := ⟨0, 1⟩) (b := ⟨2, 3⟩) (by norm_num) (by norm_num)
    (by norm_num)
  have hw := projectiveEcAdd_chord (1 : ℚ) (a := ⟨-1, 0⟩) (b := ⟨0, 1⟩) (by norm_num) (by norm_num)
    (by norm_num)
  exact ⟨⟨hv.1, hv.2.2.2.1⟩, hw.1, hw.2.2.2.1⟩

end Sum

end Libecvrf.OverField
