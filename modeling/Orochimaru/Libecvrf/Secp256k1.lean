import Orochimaru.Lib.ShortWeierstrass
import Orochimaru.Libecvrf.Constants

/-!
# The group of secp256k1

The points of `y² = x³ + 7` over the field of `FIELD_SIZE` elements. The generator has the
prime order `GROUP_ORDER`, there are at most `2 * FIELD_SIZE + 1` points and none of order
two, so every point has that order and scalars are integers modulo it.
-/

namespace Libecvrf

open ShortWeierstrass WeierstrassCurve

abbrev Field := ZMod fieldSize

abbrev Scalar := ZMod groupOrder

abbrev Point := (curve (7 : Field)).Point

theorem curve_delta_ne_zero : (curve (7 : Field)).Δ ≠ 0 := by
  have hdelta : (curve (7 : Field)).Δ = -((432 * 49 : Nat) : Field) := by
    simp only [WeierstrassCurve.Δ, WeierstrassCurve.b₂, WeierstrassCurve.b₄, WeierstrassCurve.b₆,
      WeierstrassCurve.b₈]
    push_cast
    ring
  rw [hdelta, neg_ne_zero, ne_eq, ZMod.natCast_eq_zero_iff]
  decide

/-! ## The generator -/

def generatorX : Field :=
  (0x79BE667EF9DCBBAC55A06295CE870B07029BFCDB2DCE28D959F2815B16F81798 : Nat)

def generatorY : Field :=
  (0x483ADA7726A3C4655DA4FBFC0E1108A8FD17B448A68554199C47D08FFB10D4B8 : Nat)

theorem generator_nonsingular : (curve (7 : Field)).Nonsingular generatorX generatorY := by
  rw [nonsingular_iff curve_delta_ne_zero, generatorX, generatorY]
  have hmod := (ZMod.natCast_eq_natCast_iff _ _ fieldSize).mpr
    (show (0x483ADA7726A3C4655DA4FBFC0E1108A8FD17B448A68554199C47D08FFB10D4B8 : Nat) ^ 2 ≡
      0x79BE667EF9DCBBAC55A06295CE870B07029BFCDB2DCE28D959F2815B16F81798 ^ 3 + 7 [MOD fieldSize]
      by norm_num [Nat.ModEq, fieldSize])
  exact_mod_cast hmod

/-- `AFFINE_G` -/
def generator : Point := .some generatorX generatorY generator_nonsingular

/-- One less than the order gives the inverse of the generator. -/
theorem multiple_generator :
    let t : Triple Field := multiple generatorX generatorY (groupOrder - 1) 255 255
    t.z ≠ 0 ∧ t.x = generatorX * t.z ^ 2 ∧ t.y = -generatorY * t.z ^ 3 := by
  decide +kernel

theorem generator_ne_zero : generator ≠ 0 := Affine.Point.some_ne_zero _

theorem generator_order : groupOrder • generator = 0 := by
  obtain ⟨hz, hx, hy⟩ := multiple_generator
  have htop : (groupOrder - 1) / 2 ^ 255 = 1 := by norm_num [groupOrder]
  obtain ⟨-, x, y, h, hP, hx', hy'⟩ :=
    represents_multiple generator_nonsingular htop le_rfl hz
  have hxg : x = generatorX := mul_right_cancel₀ (pow_ne_zero 2 hz) (hx'.symm.trans hx)
  have hyg : y = -generatorY := mul_right_cancel₀ (pow_ne_zero 3 hz) (hy'.symm.trans hy)
  have hneg : (groupOrder - 1) • generator = -generator := by
    rw [Nat.sub_self, pow_zero, Nat.div_one] at hP
    rw [generator, hP, Affine.Point.neg_some, Affine.Point.some.injEq]
    refine ⟨hxg, ?_⟩
    rw [hyg, Affine.negY]
    ring
  have hsucc : groupOrder = groupOrder - 1 + 1 := by norm_num [groupOrder]
  rw [hsucc, succ_nsmul, hneg, neg_add_cancel]

/-- The power `(p - 1) / 3` of a cube is one, that of `-7` is not. -/
theorem cube_ne_neg_seven (x : Field) : x ^ 3 ≠ -7 := by
  intro h
  have hx : x ≠ 0 := by
    rintro rfl
    rw [zero_pow three_ne_zero, eq_comm, neg_eq_zero] at h
    revert h
    decide
  have hpow : (-7 : Field) ^ ((fieldSize - 1) / 3) = 1 := by
    rw [← h, ← pow_mul, show 3 * ((fieldSize - 1) / 3) = fieldSize - 1 by norm_num [fieldSize]]
    exact ZMod.pow_card_sub_one_eq_one hx
  have hbits : (fieldSize - 1) / 3 < 2 ^ 256 := by norm_num [fieldSize]
  have hseven : ((fieldSize - 7 : Nat) : Field) = -7 := by
    rw [Nat.cast_sub (by norm_num [fieldSize]), ZMod.natCast_self, zero_sub, Nat.cast_ofNat]
  have hone : (Lucas.powMod fieldSize 256 (fieldSize - 7) ((fieldSize - 1) / 3) : Field) =
      (1 : Nat) := by
    rw [Lucas.powMod_cast _ _ _ _ hbits, hseven, hpow, Nat.cast_one]
  exact absurd ((ZMod.natCast_eq_natCast_iff _ _ _).mp hone) (by decide +kernel)

theorem groupOrder_nsmul (P : Point) : groupOrder • P = 0 := by
  apply nsmul_point_eq_zero _ cube_ne_neg_seven groupOrder_prime _ generator_ne_zero generator_order
  · decide
  · rw [Nat.card_zmod]
    norm_num [fieldSize, groupOrder]

/-- Scalars act on points. -/
instance : Module Scalar Point := AddCommGroup.zmodModule groupOrder_nsmul

end Libecvrf
