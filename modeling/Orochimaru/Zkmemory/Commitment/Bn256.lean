import Orochimaru.Lib.Lucas
import Orochimaru.Zkmemory.Constraints.FieldConversions

/-!
# The curve of the KZG commitments

A commitment is a point of BN254, whose coordinates lie in a field larger than `Fr`. They
are read as elements of `Fr` through their bytes.
-/

namespace Zkmemory.Commitment

open Constraints Lucas Positional

def frSmallPrimes : List Nat :=
  [2, 3, 5, 7, 11, 13, 29, 83, 107, 229, 379, 661, 823, 853, 983, 1637, 3691, 4999, 11003, 93001,
    237073, 1593227]

def frCertificates : List Certificate :=
  [
    ⟨405928799, 22, [2, 11, 3691, 4999], 1⟩,
    ⟨12048837557, 2, [2, 7, 661, 93001], 2⟩,
    ⟨5156902474397, 2, [2, 107, 12048837557], 2⟩,
    ⟨1670836401704629, 2, [2, 3, 5156902474397], 4⟩,
    ⟨639533339, 2, [2, 229, 853, 1637], 1⟩,
    ⟨65865678001877903, 5, [2, 83, 379, 1637, 639533339], 1⟩,
    ⟨13818364434197438864469338081, 3, [2, 5, 823, 1593227, 65865678001877903], 5⟩,
    ⟨frModulus, 5, [2, 3, 13, 29, 983, 11003, 237073, 405928799, 1670836401704629,
      13818364434197438864469338081], 28⟩]

theorem frSmallPrimes_prime : ∀ q ∈ frSmallPrimes, q.Prime := by
  norm_num [frSmallPrimes]

theorem frModulus_prime : Nat.Prime frModulus := by
  have h : ∀ c ∈ frCertificates, c.p.Prime :=
    prime_of_checkAll frSmallPrimes_prime (by decide +kernel)
  exact h _ (List.mem_of_getLast? (a := ⟨frModulus, 5, _, 28⟩) rfl)

instance : Fact (Nat.Prime frModulus) := ⟨frModulus_prime⟩

def fqModulus : Nat :=
  21888242871839275222246405745257275088696311157297823662689037894645226208583

abbrev Fq := ZMod fqModulus

/-- `to_bytes`, from the least significant byte on. -/
def Fq.toBytes (x : Fq) : Bytes 32 := fun i =>
  ⟨beDigit 256 32 x.val i.rev, beDigit_lt (by decide) _ _ _⟩

structure G1Affine where
  x : Fq
  y : Fq
  deriving DecidableEq

end Zkmemory.Commitment
