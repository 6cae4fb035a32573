import Orochimaru.Zkmemory.Base
import Mathlib.Data.Matrix.Mul
import Orochimaru.Lib.Literals

/-!
# The Poseidon hash

The native sponge of `poseidon_hash.rs` over a state of `R` words and one word of
capacity. The bookkeeping of absorbing and squeezing is shared with the circuit and is
generic in what a sponge runs on its state.
-/

namespace Poseidon

open Zkmemory

/-- The state of width `T = R + 1`. -/
abbrev State (F : Type) (R : Nat) := Fin (R + 1) → F

structure Spec (F : Type) (R : Nat) where
  fullRounds : Nat
  partialRounds : Nat
  sbox : F → F
  roundConstants : List (State F R)
  mds : Matrix (Fin (R + 1)) (Fin (R + 1)) F
  mdsInv : Matrix (Fin (R + 1)) (Fin (R + 1)) F

/-- The parameters the circuit is made for. -/
structure Spec.Pow5 {F : Type} [Field F] {R : Nat} (S : Spec F R) : Prop where
  even_fullRounds : S.fullRounds % 2 = 0
  even_partialRounds : S.partialRounds % 2 = 0
  sbox_eq : ∀ x, S.sbox x = x ^ 5
  le_length : S.fullRounds + S.partialRounds ≤ S.roundConstants.length
  mdsInv_mul_mds : S.mdsInv * S.mds = 1

/-! ## The domain -/

namespace ConstantLength

def initialCapacityElement {F : Type} [Field F] (L : Nat) : F := ((L * 2 ^ 64 : Nat) : F)

def padding {F : Type} [Field F] (R L inputLen : Nat) : Except Panic (List F) :=
  if inputLen ≠ L then .error .assertionFailed
  else if R = 0 then .error .divisionByZero
  else
    let k := (L + R - 1) / R
    .ok (List.replicate (k * R - L) 0)

end ConstantLength

/-! ## The sponge -/

/-- A sponge that absorbs; `mode` holds the words put into the array of rate `R` so far. -/
structure Sponge (σ α : Type) where
  mode : List α
  state : σ

namespace Sponge

section Generic

variable {m : Type → Type} [Monad m] {σ α β : Type} (R : Nat)
  (poseidonSponge : σ → Option (List α) → m (σ × List β))

def absorb (sponge : Sponge σ α) (value : α) : m (Sponge σ α) :=
  if sponge.mode.length < R then pure { sponge with mode := sponge.mode ++ [value] }
  else do
    let r ← poseidonSponge sponge.state (some sponge.mode)
    pure ⟨[value], r.1⟩

def finishAbsorbing (sponge : Sponge σ α) : m (σ × List β) :=
  poseidonSponge sponge.state (some sponge.mode)

/-- The first word squeezed. Without a rate the loop refills an empty array forever. -/
def squeeze [MonadExcept Panic m] (sponge : σ × List β) : m β :=
  match sponge.2 with
  | e :: _ => pure e
  | [] => do
    let r ← poseidonSponge sponge.1 none
    match r.2 with
    | e :: _ => pure e
    | [] => throw .fuelExhausted

end Generic

end Sponge

/-! ## The permutation -/

section Native

variable {F : Type} [Field F] {R : Nat} (S : Spec F R)

def fullRound (state rcs : State F R) : State F R :=
  S.mds.mulVec fun i => S.sbox (state i + rcs i)

/-- The S-box is only applied to the first word. -/
def partRound (state rcs : State F R) : State F R :=
  S.mds.mulVec fun i => if i = 0 then S.sbox (state i + rcs i) else state i + rcs i

def permute (state : State F R) : State F R :=
  let rF := S.fullRounds / 2
  let rP := S.partialRounds
  let state := (S.roundConstants.take rF).foldl (fullRound S) state
  let state := ((S.roundConstants.drop rF).take rP).foldl (partRound S) state
  ((S.roundConstants.take (rP + 2 * rF)).drop (rP + rF)).foldl (fullRound S) state

def poseidonSponge (state : State F R) (input : Option (List F)) :
    Except Panic (State F R × List F) := do
  let state ← match input with
    | some input =>
      if input.length = R then .ok fun i => state i + input.getD i 0 else .error .expectNone
    | none => .ok state
  let state := permute S state
  .ok (state, List.ofFn fun i : Fin R => state i.castSucc)

/-- `Sponge::new` -/
def initialState (initialCapacityElement : F) : State F R := fun i =>
  if i = Fin.last R then initialCapacityElement else 0

def hash {L : Nat} (message : Fin L → F) : Except Panic F := do
  let padding ← ConstantLength.padding R L L
  let sponge : Sponge (State F R) F :=
    ⟨[], initialState (ConstantLength.initialCapacityElement L)⟩
  let sponge ← (List.ofFn message ++ padding).foldlM (Sponge.absorb R (poseidonSponge S)) sponge
  let sponge ← Sponge.finishAbsorbing (poseidonSponge S) sponge
  Sponge.squeeze (poseidonSponge S) sponge

/-! ## Rounds by number -/

/-- The constants of a round. -/
def Spec.rc (round : Nat) : State F R := S.roundConstants.getD round 0

/-- The rounds of a stretch of the constants, one after the other. -/
theorem foldl_take_drop (f : State F R → State F R → State F R) (l : List (State F R))
    (start n : Nat) (h : start + n ≤ l.length) (state : State F R) :
    ((l.drop start).take n).foldl f state =
      (List.range n).foldl (fun s r => f s (l.getD (start + r) 0)) state := by
  induction n with
  | zero => simp
  | succ n ih =>
    have hget : (l.drop start)[n]? = some (l.getD (start + n) 0) := by
      rw [List.getElem?_drop, List.getD_eq_getElem?_getD,
        List.getElem?_eq_getElem (by omega), Option.getD_some]
    rw [List.take_add_one, hget, List.foldl_append, ih (by omega), List.range_succ,
      List.foldl_append]
    rfl

theorem permute_eq (h : S.Pow5) (state : State F R) :
    let half := S.fullRounds / 2
    let first := (List.range half).foldl (fun s r => fullRound S s (S.rc r)) state
    let mid := (List.range S.partialRounds).foldl
      (fun s r => partRound S s (S.rc (half + r))) first
    permute S state = (List.range half).foldl
      (fun s r => fullRound S s (S.rc (half + S.partialRounds + r))) mid := by
  intro half first mid
  have hlen := h.le_length
  have heven := h.even_fullRounds
  have hfirst : (S.roundConstants.take half).foldl (fullRound S) state = first := by
    have h0 := foldl_take_drop (fullRound S) S.roundConstants 0 half (by omega) state
    simp only [List.drop_zero, zero_add] at h0
    exact h0
  have hmid : ((S.roundConstants.drop half).take S.partialRounds).foldl (partRound S) first = mid :=
    foldl_take_drop (partRound S) S.roundConstants half S.partialRounds (by omega) first
  have hlast := foldl_take_drop (fullRound S) S.roundConstants (half + S.partialRounds) half
    (by omega) mid
  have hcount : S.partialRounds + 2 * half - (S.partialRounds + half) = half := by omega
  rw [permute, List.drop_take]
  change (List.take _ (S.roundConstants.drop _)).foldl _ (((S.roundConstants.drop half).take
    S.partialRounds).foldl _ ((S.roundConstants.take half).foldl _ state)) = _
  rw [hfirst, hmid, hcount, add_comm S.partialRounds half]
  exact hlast

end Native

end Poseidon
