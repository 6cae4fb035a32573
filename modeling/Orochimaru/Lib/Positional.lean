import Mathlib
import Orochimaru.Lib.Literals

/-!
# Positional notation, most significant digit first

The value of the first `n` digits of a digit function in a base `b`, with the
facts an ordering argument needs: digits below the base give a value below
`b ^ n`, the first difference decides the order, and the value determines the
digits. Nothing here depends on what the digits stand for.
-/

namespace Positional

/-- Value of the digits `f 0, ..., f (n - 1)` in base `b`, `f 0` most significant. -/
def beVal (b : Nat) : Nat → (Nat → Nat) → Nat
  | 0, _ => 0
  | n + 1, f => beVal b n f * b + f n

/-- Digit `i` of `x` written with `n` digits in base `b`, most significant first. -/
def beDigit (b n x i : Nat) : Nat := x / b ^ (n - 1 - i) % b

@[simp] theorem beVal_zero (b : Nat) (f : Nat → Nat) : beVal b 0 f = 0 := rfl

theorem beVal_succ (b n : Nat) (f : Nat → Nat) :
    beVal b (n + 1) f = beVal b n f * b + f n := rfl

theorem beVal_congr {b n : Nat} {f g : Nat → Nat} (h : ∀ i < n, f i = g i) :
    beVal b n f = beVal b n g := by
  induction n with
  | zero => rfl
  | succ n ih =>
    rw [beVal_succ, beVal_succ, ih fun i hi => h i (by omega), h n (by omega)]

theorem beVal_lt {b n : Nat} {f : Nat → Nat} (h : ∀ i < n, f i < b) :
    beVal b n f < b ^ n := by
  induction n with
  | zero => simp
  | succ n ih =>
    have hv := ih fun i hi => h i (by omega)
    have hd := h n (by omega)
    have hm := Nat.mul_le_mul_right b hv
    rw [beVal_succ, Nat.pow_succ]
    rw [Nat.succ_mul] at hm
    omega

/-- The digits split at any place: the leading `n` weigh `b ^ m` each. -/
theorem beVal_add (b n m : Nat) (f : Nat → Nat) :
    beVal b (n + m) f = beVal b n f * b ^ m + beVal b m (fun i => f (n + i)) := by
  induction m with
  | zero => simp
  | succ m ih =>
    rw [← Nat.add_assoc, beVal_succ, ih, beVal_succ, Nat.pow_succ]
    ring

/-- Digits taken in groups of `m` are the digits in base `b ^ m`. -/
theorem beVal_group (b m n : Nat) (f : Nat → Nat) :
    beVal (b ^ m) n (fun j => beVal b m fun k => f (m * j + k)) = beVal b (m * n) f := by
  induction n with
  | zero => rfl
  | succ n ih => rw [beVal_succ, ih, Nat.mul_succ, beVal_add]

theorem beVal_lt_of_first_diff {b n k : Nat} {f g : Nat → Nat} (hf : ∀ i < n, f i < b)
    (hk : k < n) (heq : ∀ i < k, f i = g i) (hlt : f k < g k) :
    beVal b n f < beVal b n g := by
  induction n with
  | zero => omega
  | succ n ih =>
    rw [beVal_succ, beVal_succ]
    rcases Nat.lt_or_ge k n with h | h
    · have hv := ih (fun i hi => hf i (by omega)) h
      have hm := Nat.mul_le_mul_right b hv
      have hd := hf n (by omega)
      rw [Nat.succ_mul] at hm
      omega
    · have hkn : k = n := by omega
      subst hkn
      rw [beVal_congr heq]
      omega

/-- Two digit functions that are not equal on `[0, n)` have a first difference. -/
theorem exists_first_diff {n : Nat} {f g : Nat → Nat} (h : ¬ ∀ i < n, f i = g i) :
    ∃ k, k < n ∧ (∀ i < k, f i = g i) ∧ f k ≠ g k := by
  induction n with
  | zero => exact absurd (fun i hi => by omega) h
  | succ n ih =>
    by_cases hn : ∀ i < n, f i = g i
    · refine ⟨n, by omega, hn, fun he => h fun i hi => ?_⟩
      rcases Nat.lt_or_ge i n with hi' | hi'
      · exact hn i hi'
      · rw [show i = n by omega]; exact he
    · obtain ⟨k, hk, heq, hne⟩ := ih hn
      exact ⟨k, by omega, heq, hne⟩

theorem beVal_inj {b n : Nat} {f g : Nat → Nat} (hf : ∀ i < n, f i < b)
    (hg : ∀ i < n, g i < b) (h : beVal b n f = beVal b n g) : ∀ i < n, f i = g i := by
  by_contra hne
  obtain ⟨k, hk, heq, hd⟩ := exists_first_diff hne
  rcases Nat.lt_or_gt_of_ne hd with hlt | hlt
  · exact absurd h (Nat.ne_of_lt (beVal_lt_of_first_diff hf hk heq hlt))
  · exact absurd h
      (Nat.ne_of_gt (beVal_lt_of_first_diff hg hk (fun i hi => (heq i hi).symm) hlt))

/-- The order of the values is the lexicographic order of the digits. -/
theorem beVal_lt_iff {b n : Nat} {f g : Nat → Nat} (hf : ∀ i < n, f i < b)
    (hg : ∀ i < n, g i < b) :
    beVal b n f < beVal b n g ↔ ∃ k, k < n ∧ (∀ i < k, f i = g i) ∧ f k < g k := by
  constructor
  · intro h
    have hne : ¬ ∀ i < n, f i = g i := fun he => by rw [beVal_congr he] at h; omega
    obtain ⟨k, hk, heq, hd⟩ := exists_first_diff hne
    refine ⟨k, hk, heq, Nat.lt_of_le_of_ne (Nat.le_of_not_lt fun hgt => ?_) hd⟩
    have := beVal_lt_of_first_diff hg hk (fun i hi => (heq i hi).symm) hgt
    omega
  · rintro ⟨k, hk, heq, hlt⟩
    exact beVal_lt_of_first_diff hf hk heq hlt

theorem beDigit_lt {b : Nat} (hb : 0 < b) (n x i : Nat) : beDigit b n x i < b :=
  Nat.mod_lt _ hb

/-- Dropping the last digit divides by the base. -/
theorem beDigit_succ {b n i : Nat} (x : Nat) (hi : i < n) :
    beDigit b (n + 1) x i = beDigit b n (x / b) i := by
  have he : n + 1 - 1 - i = (n - 1 - i) + 1 := by omega
  rw [beDigit, beDigit, he, Nat.div_div_eq_div_mul, Nat.pow_succ, Nat.mul_comm (b ^ _)]

theorem beVal_beDigit (b n x : Nat) : beVal b n (beDigit b n x) = x % b ^ n := by
  induction n generalizing x with
  | zero => simp [Nat.mod_one]
  | succ n ih =>
    have hlast : beDigit b (n + 1) x n = x % b := by simp [beDigit]
    rw [beVal_succ, beVal_congr fun i hi => beDigit_succ x hi, ih, hlast, Nat.pow_succ',
      Nat.mod_mul]
    ring

theorem beDigit_beVal {b n : Nat} {f : Nat → Nat} (hf : ∀ i < n, f i < b) :
    ∀ i < n, beDigit b n (beVal b n f) i = f i := by
  intro i hi
  have hb : 0 < b := by have := hf i hi; omega
  refine beVal_inj (fun j _ => beDigit_lt hb n _ j) hf ?_ i hi
  rw [beVal_beDigit, Nat.mod_eq_of_lt (beVal_lt hf)]

end Positional
