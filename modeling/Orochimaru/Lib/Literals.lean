import Mathlib.Data.Nat.Cast.Defs

/-!
# Literals

What makes the numerals of the models literals of a ring or of a bounded type, each
under one name: a definition that writes `2` or `256` then carries no proof of its own.
-/

namespace Literals

instance two_atLeastTwo : Nat.AtLeastTwo 2 := ⟨by decide⟩

instance three_atLeastTwo : Nat.AtLeastTwo 3 := ⟨by decide⟩

instance seven_atLeastTwo : Nat.AtLeastTwo 7 := ⟨by decide⟩

instance byte_atLeastTwo : Nat.AtLeastTwo 256 := ⟨by decide⟩

-- with the zero that `Fin` asks for, the literal ones before the successors

instance (priority := 3000) two_neZero : @NeZero Nat Zero.ofOfNat0 2 := ⟨by decide⟩

instance (priority := 3000) byte_neZero : @NeZero Nat Zero.ofOfNat0 256 := ⟨by decide⟩

instance (priority := 2000) succ_neZero (n : Nat) : @NeZero Nat Zero.ofOfNat0 (n + 1) :=
  ⟨Nat.succ_ne_zero n⟩

end Literals
