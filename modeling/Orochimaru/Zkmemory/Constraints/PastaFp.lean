import Orochimaru.Lib.Lucas

/-!
# The field of the Halo2 backend

`halo2curves::pasta::Fp` as `ZMod` of its modulus. The modulus is prime: Lucas' test
down the tree of the factors of `p - 1`, to primes that trial division settles.
-/

namespace Zkmemory.Constraints

def pastaModulus : Nat :=
  28948022309329048855892746252171976963363056481941560715954676764349967630337

abbrev Fp := ZMod pastaModulus

/-! ## The primes below the modulus -/

section

open Lucas

theorem prime_6942563 : Nat.Prime 6942563 := by
  apply prime_of_factors 2 [2, 11, 17, 19, 977] 1
  · simp only [List.forall_mem_cons, List.not_mem_nil, false_imp_iff, implies_true, and_true]
    exact ⟨by norm_num, by norm_num, by norm_num, by norm_num, by norm_num⟩
  · norm_num
  · reduce_mod_char
  · simp only [List.forall_mem_cons, List.not_mem_nil, false_imp_iff, implies_true, and_true]
    norm_num
    reduce_mod_char
    decide

theorem prime_41655379 : Nat.Prime 41655379 := by
  apply prime_of_factors 2 [2, 3, 6942563] 1
  · simp only [List.forall_mem_cons, List.not_mem_nil, false_imp_iff, implies_true, and_true]
    exact ⟨by norm_num, by norm_num, prime_6942563⟩
  · norm_num
  · reduce_mod_char
  · simp only [List.forall_mem_cons, List.not_mem_nil, false_imp_iff, implies_true, and_true]
    norm_num
    reduce_mod_char
    decide

theorem prime_22160661629 : Nat.Prime 22160661629 := by
  apply prime_of_factors 3 [2, 7, 19, 41655379] 2
  · simp only [List.forall_mem_cons, List.not_mem_nil, false_imp_iff, implies_true, and_true]
    exact ⟨by norm_num, by norm_num, by norm_num, prime_41655379⟩
  · norm_num
  · reduce_mod_char
  · simp only [List.forall_mem_cons, List.not_mem_nil, false_imp_iff, implies_true, and_true]
    norm_num
    reduce_mod_char
    decide

theorem prime_325086459374267 : Nat.Prime 325086459374267 := by
  apply prime_of_factors 2 [2, 509, 413527, 772231] 1
  · simp only [List.forall_mem_cons, List.not_mem_nil, false_imp_iff, implies_true, and_true]
    exact ⟨by norm_num, by norm_num, by norm_num, by norm_num⟩
  · norm_num
  · reduce_mod_char
  · simp only [List.forall_mem_cons, List.not_mem_nil, false_imp_iff, implies_true, and_true]
    norm_num
    reduce_mod_char
    decide

theorem prime_417677162933 : Nat.Prime 417677162933 := by
  apply prime_of_factors 2 [2, 59, 1973, 897019] 2
  · simp only [List.forall_mem_cons, List.not_mem_nil, false_imp_iff, implies_true, and_true]
    exact ⟨by norm_num, by norm_num, by norm_num, by norm_num⟩
  · norm_num
  · reduce_mod_char
  · simp only [List.forall_mem_cons, List.not_mem_nil, false_imp_iff, implies_true, and_true]
    norm_num
    reduce_mod_char
    decide

theorem prime_539204044132271846773 : Nat.Prime 539204044132271846773 := by
  apply prime_of_factors 5 [2, 3, 89, 14923, 417677162933] 5
  · simp only [List.forall_mem_cons, List.not_mem_nil, false_imp_iff, implies_true, and_true]
    exact ⟨by norm_num, by norm_num, by norm_num, by norm_num, prime_417677162933⟩
  · norm_num
  · reduce_mod_char
  · simp only [List.forall_mem_cons, List.not_mem_nil, false_imp_iff, implies_true, and_true]
    norm_num
    reduce_mod_char
    decide

theorem largestFactor_prime :
    Nat.Prime 8999194758858563409123804352480028797519453 := by
  apply prime_of_factors 2 [2, 3, 11, 2531, 115603, 1197907, 22160661629, 325086459374267] 4
  · simp only [List.forall_mem_cons, List.not_mem_nil, false_imp_iff, implies_true, and_true]
    exact ⟨by norm_num, by norm_num, by norm_num, by norm_num, by norm_num, by norm_num,
      prime_22160661629, prime_325086459374267⟩
  · norm_num
  · reduce_mod_char
  · simp only [List.forall_mem_cons, List.not_mem_nil, false_imp_iff, implies_true, and_true]
    norm_num
    reduce_mod_char
    decide

theorem pastaModulus_prime : Nat.Prime pastaModulus := by
  unfold pastaModulus
  apply prime_of_factors 5 [2, 3, 463, 539204044132271846773,
    8999194758858563409123804352480028797519453] 32
  · simp only [List.forall_mem_cons, List.not_mem_nil, false_imp_iff, implies_true, and_true]
    exact ⟨by norm_num, by norm_num, by norm_num, prime_539204044132271846773, largestFactor_prime⟩
  · norm_num
  · reduce_mod_char
  · simp only [List.forall_mem_cons, List.not_mem_nil, false_imp_iff, implies_true, and_true]
    norm_num
    reduce_mod_char
    decide

end

instance : Fact (Nat.Prime pastaModulus) := ⟨pastaModulus_prime⟩

theorem lt_pastaModulus : 2 ^ 248 < pastaModulus := by
  norm_num [pastaModulus]

end Zkmemory.Constraints
