import Mathlib
import Orochimaru.Lib.Literals

/-!
# Primality from a partial factorisation

Lucas' test with the prime factors of `p - 1` given as a list. Each power is one
evaluation in `ZMod p`, so a prime of a few hundred bits costs a few of them.
-/

namespace Lucas

/-- `a` has order `p - 1`, where the primes that divide `p - 1` are in `factors`. -/
theorem prime_of_factors {p : Nat} (a : ZMod p) (factors : List Nat) (k : Nat)
    (hprime : ∀ q ∈ factors, q.Prime) (hdvd : p - 1 ∣ factors.prod ^ k) (hone : a ^ (p - 1) = 1)
    (hne : ∀ q ∈ factors, a ^ ((p - 1) / q) ≠ 1) : p.Prime := by
  apply lucas_primality p a hone
  intro q hq hqp
  have hprod : q ∣ factors.prod := hq.dvd_of_dvd_pow (hqp.trans hdvd)
  rw [(Nat.prime_iff.mp hq).dvd_prod_iff] at hprod
  obtain ⟨r, hr, hqr⟩ := hprod
  rw [(Nat.prime_dvd_prime_iff_eq hq (hprime r hr)).mp hqr]
  exact hne r hr

/-! ## As a computation -/

/-- `a ^ e` modulo `m` by repeated squaring, for exponents of at most `fuel` bits. -/
def powMod (m : Nat) : Nat → Nat → Nat → Nat
  | 0, _, _ => 1
  | fuel + 1, a, e =>
    if e % 2 = 1 then a * powMod m fuel (a * a % m) (e / 2) % m
    else powMod m fuel (a * a % m) (e / 2)

theorem powMod_cast (m fuel a e : Nat) (h : e < 2 ^ fuel) :
    (powMod m fuel a e : ZMod m) = (a : ZMod m) ^ e := by
  induction fuel generalizing a e with
  | zero =>
    obtain rfl : e = 0 := by simpa using h
    simp [powMod]
  | succ fuel ih =>
    have hhalf : e / 2 < 2 ^ fuel := by
      rw [pow_succ] at h
      omega
    have hsquare : ((a * a % m : Nat) : ZMod m) ^ (e / 2) = (a : ZMod m) ^ (2 * (e / 2)) := by
      rw [ZMod.natCast_mod, Nat.cast_mul, ← pow_two, ← pow_mul]
    rw [powMod]
    split
    case isTrue hodd =>
      rw [ZMod.natCast_mod, Nat.cast_mul, ih _ _ hhalf, hsquare, ← pow_succ']
      congr 1
      omega
    case isFalse heven =>
      rw [ih _ _ hhalf, hsquare]
      congr 1
      omega

/-- Lucas' test with the base `a`, computed. -/
def check (p a : Nat) (factors : List Nat) (k : Nat) : Bool :=
  p - 1 < 2 ^ 256 && factors.prod ^ k % (p - 1) == 0 && powMod p 256 a (p - 1) == 1 &&
    factors.all fun q => powMod p 256 a ((p - 1) / q) % p != 1 % p

theorem prime_of_check {p a : Nat} {factors : List Nat} {k : Nat}
    (hprime : ∀ q ∈ factors, q.Prime) (hcheck : check p a factors k = true) : p.Prime := by
  simp only [check, Bool.and_eq_true, decide_eq_true_eq, beq_iff_eq, List.all_eq_true,
    bne_iff_ne] at hcheck
  obtain ⟨⟨⟨hlt, hdvd⟩, hone⟩, hne⟩ := hcheck
  apply prime_of_factors (a : ZMod p) factors k hprime (Nat.dvd_of_mod_eq_zero hdvd)
  · rw [← powMod_cast p 256 a (p - 1) hlt, hone, Nat.cast_one]
  · intro q hq hpow
    have hq' : (p - 1) / q < 2 ^ 256 := (Nat.div_le_self _ _).trans_lt hlt
    have hmod : (powMod p 256 a ((p - 1) / q) : ZMod p) = (1 : Nat) := by
      rw [powMod_cast p 256 a _ hq', hpow, Nat.cast_one]
    exact hne q hq ((ZMod.natCast_eq_natCast_iff _ _ _).mp hmod)

/-- The data of one test: every prime of `factors` divides `p - 1` at most `exponent` times. -/
structure Certificate where
  p : Nat
  base : Nat
  factors : List Nat
  exponent : Nat

/-- Every test passes, with factors that are known or that were tested before. -/
def checkAll : List Nat → List Certificate → Bool
  | _, [] => true
  | known, c :: cs => c.factors.all known.contains && check c.p c.base c.factors c.exponent &&
    checkAll (c.p :: known) cs

theorem prime_of_checkAll {known : List Nat} {cs : List Certificate}
    (hknown : ∀ q ∈ known, q.Prime) (h : checkAll known cs = true) : ∀ c ∈ cs, c.p.Prime := by
  induction cs generalizing known with
  | nil => simp
  | cons c cs ih =>
    simp only [checkAll, Bool.and_eq_true, List.all_eq_true, List.contains_iff_mem] at h
    obtain ⟨⟨hfactors, hcheck⟩, hrest⟩ := h
    have hc : c.p.Prime := prime_of_check (fun q hq => hknown q (hfactors q hq)) hcheck
    rw [List.forall_mem_cons]
    exact ⟨hc, ih (List.forall_mem_cons.mpr ⟨hc, hknown⟩) hrest⟩

end Lucas
