import Orochimaru.Lib.Lucas

/-!
# The constants of secp256k1

`FIELD_SIZE` and `GROUP_ORDER` of `helper.rs` are prime: Lucas' test down the tree of the
factors of each, to primes that trial division settles.
-/

namespace Libecvrf

open Lucas

def fieldSize : Nat := 0xFFFFFFFFFFFFFFFFFFFFFFFFFFFFFFFFFFFFFFFFFFFFFFFFFFFFFFFEFFFFFC2F

def groupOrder : Nat := 0xFFFFFFFFFFFFFFFFFFFFFFFFFFFFFFFEBAAEDCE6AF48A03BBFD25E8CD0364141

def smallPrimes : List Nat :=
  [2, 3, 5, 7, 11, 17, 29, 31, 41, 53, 59, 109, 149, 293, 461, 631, 1627, 2621, 2657, 4051, 4423,
    5323, 7723, 13441, 16699, 24809, 28181, 41201, 85831, 96557, 120233, 305873, 1627771, 4681609,
    7240687, 13331831, 44706919]

def certificates : List Certificate :=
  [
    ⟨173378833005251801, 6, [2, 5, 2621, 24809, 13331831], 3⟩,
    ⟨22149492674086928081353, 5, [2, 3, 5323, 173378833005251801], 3⟩,
    ⟨132896956044521568488119, 6, [2, 3, 22149492674086928081353], 1⟩,
    ⟨107590001, 3, [2, 5, 7, 29, 53], 4⟩,
    ⟨255515944373312847190720520512484175977, 3, [2, 7, 11, 1627, 2657, 4423, 41201, 96557,
      7240687, 107590001], 3⟩,
    ⟨205115282021455665897114700593932402728804164701536103180137503955397371, 10, [2, 3, 5, 29,
      31, 7723, 132896956044521568488119, 255515944373312847190720520512484175977], 2⟩,
    ⟨fieldSize, 3, [2, 3, 7, 13441,
      205115282021455665897114700593932402728804164701536103180137503955397371], 1⟩,
    ⟨107361793816595537, 3, [2, 16699, 85831, 4681609], 4⟩,
    ⟨174723607534414371449, 3, [2, 17, 59, 4051, 120233, 44706919], 3⟩,
    ⟨545358713, 5, [2, 41, 59, 28181], 3⟩,
    ⟨297159362677, 2, [2, 3, 11, 461, 1627771], 2⟩,
    ⟨29047611873442575647497758179, 2, [2, 293, 305873, 545358713, 297159362677], 1⟩,
    ⟨341948486974166000522343609283189, 2, [2, 3, 109, 29047611873442575647497758179], 3⟩,
    ⟨groupOrder, 7, [2, 3, 149, 631, 107361793816595537, 174723607534414371449,
      341948486974166000522343609283189], 6⟩]

theorem smallPrimes_prime : ∀ q ∈ smallPrimes, q.Prime := by
  norm_num [smallPrimes]

theorem certificates_prime : ∀ q ∈ certificates.map Certificate.p, q.Prime := by
  rw [List.forall_mem_map]
  exact prime_of_checkAll smallPrimes_prime (by decide +kernel)

theorem fieldSize_prime : Nat.Prime fieldSize :=
  certificates_prime fieldSize (by simp [certificates])

theorem groupOrder_prime : Nat.Prime groupOrder :=
  certificates_prime groupOrder (by simp [certificates])

instance : Fact (Nat.Prime fieldSize) := ⟨fieldSize_prime⟩

instance : Fact (Nat.Prime groupOrder) := ⟨groupOrder_prime⟩

end Libecvrf
