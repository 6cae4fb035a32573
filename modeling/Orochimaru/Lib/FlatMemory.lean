import Mathlib
import Orochimaru.Lib.Literals

/-!
# Flat memories

An unbounded array of bytes, read and written in blocks of a fixed length.
-/

namespace FlatMemory

variable {β : Type*} {n : Nat}

/-- The block of length `n` at `a`. -/
def readBlock (mem : Nat → β) (a : Nat) : Fin n → β := fun i => mem (a + i)

/-- Replace the block at `a` and no other byte. -/
def writeBlock (mem : Nat → β) (a : Nat) (v : Fin n → β) : Nat → β := fun x =>
  if h : a ≤ x ∧ x < a + n then v ⟨x - a, by omega⟩ else mem x

theorem writeBlock_inside (mem : Nat → β) (a : Nat) (v : Fin n → β) (i : Fin n) :
    writeBlock mem a v (a + i) = v i := by
  rw [writeBlock, dif_pos (by omega)]
  congr 1
  exact Fin.ext (by simp)

theorem writeBlock_outside (mem : Nat → β) {a : Nat} (v : Fin n → β) {x : Nat}
    (h : x < a ∨ a + n ≤ x) : writeBlock mem a v x = mem x := by
  rw [writeBlock, dif_neg (by omega)]

theorem readBlock_writeBlock (mem : Nat → β) (a : Nat) (v : Fin n → β) :
    readBlock (writeBlock mem a v) a = v := by
  funext i
  exact writeBlock_inside mem a v i

end FlatMemory
