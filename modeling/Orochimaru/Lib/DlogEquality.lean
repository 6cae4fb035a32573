import Mathlib.Algebra.Module.Basic
import Mathlib.Algebra.Field.Basic
import Mathlib.Algebra.Module.Torsion.Field
import Mathlib.Tactic.LinearCombination
import Mathlib.Tactic.Module
import Orochimaru.Lib.Literals

/-!
# Equality of two discrete logarithms

The protocol of Chaum and Pedersen: a proof that `z = x • h` for the `x` of a public key
`y = x • g`. A challenge `c` and a response `s` determine the two commitments.
-/

namespace DlogEquality

variable {S G : Type*} [Field S] [AddCommGroup G] [Module S G]

def commitments (g h y z : G) (c s : S) : G × G := (c • y + s • g, c • z + s • h)

def response (k c x : S) : S := k - c * x

/-- The response of the holder of `x` gives back the commitments to its nonce. -/
theorem commitments_response (g h : G) (x k c : S) :
    commitments g h (x • g) (x • h) c (response k c x) = (k • g, k • h) := by
  rw [commitments, response, Prod.mk.injEq]
  constructor
  · module
  · module

/-- Two challenges answered for the same commitments: the second discrete logarithm is
the first. -/
theorem eq_smul_of_commitments_eq {g h z : G} {x c s c' s' : S} (hg : g ≠ 0) (hc : c ≠ c')
    (heq : commitments g h (x • g) z c s = commitments g h (x • g) z c' s') : z = x • h := by
  obtain ⟨hu, hv⟩ := Prod.mk.injEq .. ▸ heq
  have hs : (c * x + s - (c' * x + s')) • g = 0 := by
    rw [sub_smul, sub_eq_zero, add_smul, add_smul, mul_smul, mul_smul]
    exact hu
  have hresp : s' - s = (c - c') * x := by
    have hzero := (smul_eq_zero.mp hs).resolve_right hg
    linear_combination -hzero
  have hz : (c - c') • z = (c - c') • x • h :=
    calc (c - c') • z = (c • z + s • h) - (c' • z + s • h) := by module
      _ = (c' • z + s' • h) - (c' • z + s • h) := by rw [hv]
      _ = (s' - s) • h := by module
      _ = (c - c') • x • h := by rw [hresp, mul_smul]
  exact smul_right_injective G (sub_ne_zero.mpr hc) hz

end DlogEquality
