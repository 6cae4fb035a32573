import Orochimaru.Lib.Loops
import Orochimaru.Zkmemory.Base

/-!
# Routing of a Benes network

`benes.rs`: switch settings that realize a permutation of `2 ^ v` wires, and their
application to a state. Arrays are functions of the index; the colour `u8::MAX` of
an uncoloured input is `none`, the colours 0 and 1 are `some false` and `some true`.
-/

namespace Zkmemory.Zincplus

/-- Stride bit of a layer; the callers keep `1 ≤ v` and `layer < numLayers v`. -/
def strideBit (v layer : Nat) : Nat := if layer < v then v - 1 - layer else layer - v + 1

def numLayers (v : Nat) : Nat := 2 * v - 1

/-- Switch bits, by layer and wire. -/
abbrev Layers := Nat → Nat → Bool

def Layers.set (layers : Layers) (layer wire : Nat) (bit : Bool) : Layers :=
  Function.update layers layer (Function.update (layers layer) wire bit)

/-- `assert!`, and `debug_assert!` of a debug build. -/
def ensure (p : Prop) [Decidable p] : Except Panic Unit :=
  if p then .ok () else .error .assertionFailed

theorem ensure_ok {p : Prop} [Decidable p] (h : p) : ensure p = .ok () := if_pos h

/-- The inner loop of the colouring: walk the cycle through `start`, alternating the
colours and the kind of edge taken. -/
def walk (entryMate exitMate : Nat → Nat) (start : Nat) :
    Nat → (Nat → Option Bool) → Nat → Bool → Bool → Except Panic (Nat → Option Bool)
  | 0, _, _, _, _ => .error .fuelExhausted
  | fuel + 1, color, i, c, viaEntry =>
    let color := Function.update color i (some c)
    let next := if viaEntry then entryMate i else exitMate i
    if next = start then .ok color
    else do
      ensure (color next = none)
      walk entryMate exitMate start fuel color next (!c) (!viaEntry)

/-- The outer loop of the colouring. A walk never takes more than `m` steps. -/
def colorInputs (m : Nat) (entryMate exitMate : Nat → Nat) : Except Panic (Nat → Option Bool) :=
  (List.range m).foldlM
    (fun color start =>
      if color start = none then walk entryMate exitMate start m color start false true
      else .ok color)
    fun _ => none

/-- Route the block of `2 ^ t` wires from `base` on. -/
def routeBlock (v : Nat) : Nat → (Nat → Nat) → Nat → Nat → Layers → Except Panic Layers
  | 0, _, _, _, _ => .error .assertionFailed
  | 1, perm, base, depth, layers => do
    let middle := v - 1
    ensure (depth = middle)
    .ok (layers.set middle base (perm 0 == 1))
  | t + 2, perm, base, depth, layers => do
    let h := 2 ^ (t + 1)
    let m := 2 ^ (t + 2)
    let inv := (List.range m).foldl (fun inv j => Function.update inv (perm j) j) fun _ => 0
    let entryMate := fun i => (i + h) % m
    let exitMate := fun i => perm ((inv i + h) % m)
    let color ← colorInputs m entryMate exitMate
    let entryLayer := depth
    let layers ← (List.range h).foldlM (fun layers a => do
      ensure (color a ≠ color (a + h))
      .ok (layers.set entryLayer (base + a) (color a == some true))) layers
    let exitLayer := 2 * v - 2 - depth
    let layers ← (List.range h).foldlM (fun layers j => do
      ensure (color (perm j) ≠ color (perm (j + h)))
      .ok (layers.set exitLayer (base + j) (color (perm j) == some true))) layers
    let permTop := fun j =>
      (if color (perm j) = some false then perm j else perm (j + h)) % h
    let permBot := fun j =>
      (if color (perm j) = some false then perm (j + h) else perm j) % h
    let layers ← routeBlock v (t + 1) permTop base (depth + 1) layers
    routeBlock v (t + 1) permBot (base + h) (depth + 1) layers

/-- Switch settings after which output `j` holds input `perm[j]`. -/
def route (perm : List Nat) : Except Panic Layers := do
  let n := perm.length
  -- `trailing_zeros` of a power of two
  let v := Nat.log2 n
  ensure (2 ≤ n ∧ n = 2 ^ v)
  ensure ((∀ p ∈ perm, p < n) ∧ perm.Nodup)
  routeBlock v v (fun j => perm.getD j 0) 0 0 fun _ _ => false

def swap {α : Type*} (state : Nat → α) (i j : Nat) : Nat → α :=
  Function.update (Function.update state i (state j)) j (state i)

def applyLayer {α : Type*} (state : Nat → α) (v layer : Nat) (bits : Nat → Bool) : Nat → α :=
  let stride := 2 ^ strideBit v layer
  (List.range (2 ^ v)).foldl
    (fun state i => if i &&& stride = 0 ∧ bits i then swap state i (i + stride) else state) state

end Zkmemory.Zincplus
