import Orochimaru.Zkmemory.Constraints.ConsistencyCheck

/-!
# Words as field elements

The conversions of `extends.rs` into the two fields. The one into `Fr` reads the bytes of
the word from the least significant on. The one into `Fp` cuts them into limbs from the
most significant on, and `from_raw` takes the first limb as the least significant.
-/

namespace Zkmemory.Constraints

open Positional

/-! ## Bytes of a word -/

section Bytes

variable {S : Nat} (x : Uint S)

/-- `to_le_bytes` -/
def toLeBytes : Bytes S := fun i => x.toBeBytes i.rev

/-- `fixed_le_bytes`: the little-endian bytes, padded behind to 32 of them. -/
def fixedLeBytes : Bytes 32 := fun i => if h : i.val < S then toLeBytes x ⟨i, h⟩ else 0

variable {x}

/-- The padding stands for leading zeros. -/
theorem digits_fixedBeBytes (hS : S ≤ 32) {i : Nat} (hi : i < 32) :
    Uint.digits x.fixedBeBytes i = beDigit 256 32 x.val i := by
  rw [Uint.digits, dif_pos hi, Uint.fixedBeBytes, beDigit]
  by_cases h : 32 - S ≤ i
  · rw [dif_pos h]
    change beDigit 256 S x.val (i - (32 - S)) = _
    rw [beDigit]
    congr 3
    omega
  · have hlt : x.val < 256 ^ (32 - 1 - i) :=
      x.isLt.trans_le (Nat.pow_le_pow_right (by decide) (by omega))
    rw [dif_neg h, Nat.div_eq_of_lt hlt]
    rfl

theorem digits_fixedLeBytes (hS : S ≤ 32) {i : Nat} (hi : i < 32) :
    Uint.digits (fixedLeBytes x) i = beDigit 256 32 x.val (31 - i) := by
  rw [← digits_fixedBeBytes hS (show 31 - i < 32 by omega), Uint.digits, dif_pos hi, Uint.digits,
    dif_pos (show 31 - i < 32 by omega), fixedLeBytes, Uint.fixedBeBytes]
  by_cases h : i < S
  · rw [dif_pos h, dif_pos (show 32 - S ≤ 31 - i by omega), toLeBytes]
    congr 2
    ext
    simp only [Fin.val_rev]
    omega
  · rw [dif_neg h, dif_neg (show ¬ 32 - S ≤ 31 - i by omega)]

end Bytes

/-! ## The scalar field of BN254 -/

def frModulus : Nat :=
  21888242871839275222246405745257275088548364400416034343698204186575808495617

abbrev Fr := ZMod frModulus

/-- The number little-endian bytes stand for. -/
def leVal (b : Bytes 32) : Nat := beVal 256 32 fun i => Uint.digits b (31 - i)

/-- `Fr::from_bytes` refuses what is not reduced. -/
def frFromBytes (b : Bytes 32) : Option Fr := if leVal b < frModulus then some (leVal b) else none

/-- `From<Uint> for Fr` -/
def frFromWord {S : Nat} (x : Uint S) : Except Panic Fr :=
  match frFromBytes (fixedLeBytes x) with
  | some y => .ok y
  | none => .error .expectNone

section Fr

variable {S : Nat} {x : Uint S}

theorem leVal_fixedLeBytes (hS : S ≤ 32) : leVal (fixedLeBytes x) = x.val := by
  have hdigit : ∀ i < 32, Uint.digits (fixedLeBytes x) (31 - i) = beDigit 256 32 x.val i := by
    intro i hi
    rw [digits_fixedLeBytes hS (by omega)]
    congr 1
    omega
  rw [leVal, beVal_congr hdigit, beVal_beDigit]
  exact Nat.mod_eq_of_lt (x.isLt.trans_le (Nat.pow_le_pow_right (by decide) hS))

/-- The conversion into `Fr` keeps the number, or panics. -/
theorem frFromWord_eq (hS : S ≤ 32) : frFromWord x =
    if x.val < frModulus then .ok (x.val : Fr) else .error .expectNone := by
  rw [frFromWord, frFromBytes, leVal_fixedLeBytes hS]
  by_cases h : x.val < frModulus
  · rw [if_pos h, if_pos h]
  · rw [if_neg h, if_neg h]

end Fr

/-! ## The Pasta field -/

/-- The 64-bit limb of a word, the least significant one first. -/
def limb (x i : Nat) : Nat := x / 2 ^ (64 * i) % 2 ^ 64

/-- The number the limbs stand for when they are taken in reverse. -/
def reversed (x : Nat) : Nat :=
  limb x 3 + limb x 2 * 2 ^ 64 + limb x 1 * 2 ^ 128 + limb x 0 * 2 ^ 192

theorem limbs_sum {x : Nat} (hx : x < 2 ^ 256) :
    x = limb x 0 + limb x 1 * 2 ^ 64 + limb x 2 * 2 ^ 128 + limb x 3 * 2 ^ 192 := by
  simp only [limb]
  omega

theorem limb_lt (x i : Nat) : limb x i < 2 ^ 64 := Nat.mod_lt _ (by decide)

section Fp

variable {S : Nat} {x : Uint S}

theorem chunk_eq (hS : S ≤ 32) {i : Nat} (hi : i < 4) :
    beVal 256 8 (fun k => Uint.digits x.fixedBeBytes (8 * i + k)) = limb x.val (3 - i) := by
  have hdigit : ∀ k < 8, Uint.digits x.fixedBeBytes (8 * i + k) =
      beDigit 256 8 (x.val / 2 ^ (64 * (3 - i))) k := by
    intro k hk
    rw [digits_fixedBeBytes hS (by omega), beDigit, beDigit, Nat.div_div_eq_div_mul,
      show (2 : Nat) ^ (64 * (3 - i)) = 256 ^ (8 * (3 - i)) by
        rw [show (256 : Nat) = 2 ^ 8 by decide, ← Nat.pow_mul, ← Nat.mul_assoc], ← Nat.pow_add]
    congr 3
    omega
  rw [beVal_congr hdigit, beVal_beDigit, limb, show (256 : Nat) ^ 8 = 2 ^ 64 by norm_num]

/-- The conversion into `Fp` reverses the limbs. -/
theorem fpFromWord_eq (hS : S ≤ 32) : fpFromWord x = ((reversed x.val : Nat) : Fp) := by
  rw [fpFromWord, show List.range 4 = [0, 1, 2, 3] from rfl]
  simp only [List.map_cons, List.map_nil, List.sum_cons, List.sum_nil]
  rw [chunk_eq hS (by decide), chunk_eq hS (by decide), chunk_eq hS (by decide),
    chunk_eq hS (by decide), reversed]
  push_cast
  ring

end Fp

/-- Below the modulus, a number and its reverse are congruent only where they are equal. -/
theorem reversed_modEq_iff {x : Nat} (hx : x < pastaModulus) :
    reversed x ≡ x [MOD pastaModulus] ↔ limb x 0 = limb x 3 ∧ limb x 1 = limb x 2 := by
  have hbound : x < 2 ^ 256 := hx.trans (by norm_num [pastaModulus])
  have hsum := limbs_sum hbound
  have h0 := limb_lt x 0
  have h1 := limb_lt x 1
  have h2 := limb_lt x 2
  have h3 := limb_lt x 3
  rw [reversed]
  generalize limb x 0 = a, limb x 1 = b, limb x 2 = c, limb x 3 = d at *
  constructor
  · intro h
    -- The difference is a multiple of `2 ^ 64 - 1`, which the modulus does not divide.
    have hdvd := h.symm.dvd
    have hfactor : ((d + c * 2 ^ 64 + b * 2 ^ 128 + a * 2 ^ 192 : Nat) : ℤ) - (x : Nat) =
        (2 ^ 64 - 1) * ((a - d) * (2 ^ 128 + 2 ^ 64 + 1) + (b - c) * 2 ^ 64) := by
      rw [hsum]
      push_cast
      ring
    have hcoprime : IsCoprime (pastaModulus : ℤ) (2 ^ 64 - 1) := by
      rw [Int.isCoprime_iff_gcd_eq_one]
      norm_num [pastaModulus]
    rw [hfactor] at hdvd
    have hdvd' := hcoprime.dvd_of_dvd_mul_left hdvd
    have hzero := Int.eq_zero_of_abs_lt_dvd hdvd' (by
      rw [abs_lt]
      constructor
      · norm_num [pastaModulus]
        omega
      · norm_num [pastaModulus]
        omega)
    constructor
    · omega
    · omega
  · rintro ⟨rfl, rfl⟩
    rw [hsum]

/-- Both conversions keep the number exactly when its limbs read the same in both orders. -/
theorem conversions_preserve_iff {S : Nat} (hS : S ≤ 32) (x : Uint S)
    (hp : x.val < pastaModulus) (hr : x.val < frModulus) :
    ((fpFromWord x).val = x.val ∧ ∃ y, frFromWord x = .ok y ∧ y.val = x.val) ↔
      limb x.val 0 = limb x.val 3 ∧ limb x.val 1 = limb x.val 2 := by
  have hfr : ∃ y, frFromWord x = .ok y ∧ y.val = x.val :=
    ⟨_, by rw [frFromWord_eq hS, if_pos hr], ZMod.val_cast_of_lt hr⟩
  rw [and_iff_left hfr, fpFromWord_eq hS, ← reversed_modEq_iff hp, ZMod.val_natCast, Nat.ModEq,
    Nat.mod_eq_of_lt hp]

/-- A word of four equal limbs is kept. -/
theorem conversions_preserve_iff_ones :
    ((fpFromWord (.ofNat (1 + 2 ^ 64 + 2 ^ 128 + 2 ^ 192) : B256)).val =
        (.ofNat (1 + 2 ^ 64 + 2 ^ 128 + 2 ^ 192) : B256).val ∧
      ∃ y, frFromWord (.ofNat (1 + 2 ^ 64 + 2 ^ 128 + 2 ^ 192) : B256) = .ok y ∧
        y.val = (.ofNat (1 + 2 ^ 64 + 2 ^ 128 + 2 ^ 192) : B256).val) ↔
      limb (1 + 2 ^ 64 + 2 ^ 128 + 2 ^ 192) 0 = limb (1 + 2 ^ 64 + 2 ^ 128 + 2 ^ 192) 3 ∧
        limb (1 + 2 ^ 64 + 2 ^ 128 + 2 ^ 192) 1 = limb (1 + 2 ^ 64 + 2 ^ 128 + 2 ^ 192) 2 :=
  conversions_preserve_iff le_rfl (.ofNat (1 + 2 ^ 64 + 2 ^ 128 + 2 ^ 192)) (by decide) (by decide)

/-- The word 1 becomes `2 ^ 192`. -/
theorem fpFromWord_one :
    ¬ ((fpFromWord (.ofNat 1 : B16)).val = (.ofNat 1 : B16).val ∧
      ∃ y, frFromWord (.ofNat 1 : B16) = .ok y ∧ y.val = (.ofNat 1 : B16).val) := by
  rintro ⟨h, -⟩
  rw [fpFromWord_eq (by decide), ZMod.val_natCast] at h
  exact absurd h (by decide)

end Zkmemory.Constraints
