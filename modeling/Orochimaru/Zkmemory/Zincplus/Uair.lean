import Mathlib
import Orochimaru.Lib.Literals
import Orochimaru.Zkmemory.Zincplus.Benes

/-!
# The memory-consistency UAIR

`uair.rs`: the column layout of the network, the constraints of one row, and what it
means for an assignment of the columns to satisfy them. Zero constraints are
identities in `ℤ[X]`, ideal constraints are membership in `(X - 2)`.
-/

namespace Zkmemory.Zincplus

def numAddrLimbs : Nat := 8
def numTimeLimbs : Nat := 2
def numStackDepthLimbs : Nat := 2
def numValueLimbs : Nat := 8
def numLexLimbs : Nat := numAddrLimbs + numTimeLimbs

def plAddr : Nat := 0
def plTime : Nat := plAddr + numAddrLimbs
def plStackDepth : Nat := plTime + numTimeLimbs
def plValue : Nat := plStackDepth + numStackDepthLimbs
def plInstr : Nat := plValue + numValueLimbs
def payloadCells : Nat := plInstr + 1

def minNumVars : Nat := 3
def maxNumVars : Nat := 16

/-- The layout for `2 ^ numVars` rows, which exists for supported sizes only. -/
structure NetLayout where
  numVars : Nat
  inRange : minNumVars ≤ numVars ∧ numVars ≤ maxNumVars

namespace NetLayout

variable (layout : NetLayout)

def numLayers : Nat := Zincplus.numLayers layout.numVars
def numStates : Nat := layout.numLayers + 1
def payloadCols : Nat := layout.numStates * payloadCells
def bpSlackSorted : Nat := layout.payloadCols
def bpSlackOriginal : Nat := layout.payloadCols + 1

def intIsFirst : Nat := 0
def intUpper : Nat := 1
def intS : Nat := intUpper + layout.numVars
def intW : Nat := layout.intS + numLexLimbs
def intTimeHiSel : Nat := layout.intW + 1
def intTimeLoSel : Nat := layout.intTimeHiSel + 1
def intSwitch : Nat := layout.intTimeLoSel + 1
def numPublicIntCols : Nat := 1 + layout.numVars

/-- The column of payload cell `payload` of network state `state`. -/
def stateCol (state payload : Nat) : Nat := state * payloadCells + payload

def originalState : Nat := layout.numStates - 1

def stride (layer : Nat) : Nat := 2 ^ strideBit layout.numVars layer

/-- The shifts of one payload cell, in increasing order. -/
def shiftAmounts (state payload : Nat) : List Nat :=
  if state = 0 then
    (if payload ≠ plStackDepth ∧ payload ≠ plStackDepth + 1 then [1] else []) ++ [layout.stride 0]
  else if state < layout.originalState then
    let a := layout.stride (state - 1)
    let b := layout.stride state
    [min a b, max a b]
  else
    (if payload = plTime ∨ payload = plTime + 1 then [1] else []) ++
      [layout.stride (layout.numLayers - 1)]

/-- `build_shifts`: every shifted column the constraints read. -/
def shifts : List (Nat × Nat) :=
  (List.range layout.numStates).flatMap fun state =>
    (List.range payloadCells).flatMap fun payload =>
      (layout.shiftAmounts state payload).map fun amount => (stateCol state payload, amount)

/-- Position of a shifted column in the down row; `shifts` is strictly sorted, so the
binary search of the source finds this one. -/
def downIdx (col amount : Nat) : Nat := layout.shifts.idxOf (col, amount)

end NetLayout

/-! ## Constraints -/

/-- The cells a constraint can read: a row, or the shifted row below it. -/
structure TraceRow (E : Type*) where
  binaryPoly : Nat → E
  int : Nat → E

/-- `assert_zero`, and `assert_in_ideal` for the one ideal in use, `(X - 2)`. -/
inductive Constraint (E : Type*)
  | zero (e : E)
  | inIdeal (e : E)

/-- `f 0 + ... + f j`, accumulated from the left. -/
def runningSum {E : Type*} [Add E] (f : Nat → E) : Nat → E
  | 0 => f 0
  | j + 1 => runningSum f j + f (j + 1)

section Constraints

variable {E : Type*} [CommRing E] (layout : NetLayout) (up down : TraceRow E)

def downBp (col amount : Nat) : E := down.binaryPoly (layout.downIdx col amount)

open NetLayout in
/-- (S1) to (S9), on network state 0. -/
def sortedConstraints : List (Constraint E) :=
  let isFirst := up.int intIsFirst
  let instrCol := stateCol 0 plInstr
  let instr := up.binaryPoly instrCol
  let instrNext := downBp layout down instrCol 1
  let selector := fun j => up.int (layout.intS + j)
  let w := up.int layout.intW
  let slackSorted := up.binaryPoly layout.bpSlackSorted
  let d := fun j => downBp layout down (stateCol 0 (plAddr + j)) 1 -
    up.binaryPoly (stateCol 0 (plAddr + j))
  let dv := fun j => downBp layout down (stateCol 0 (plValue + j)) 1 -
    up.binaryPoly (stateCol 0 (plValue + j))
  let aSame := selector numAddrLimbs + selector (numAddrLimbs + 1)
  [.zero (isFirst * (instr - 1)), .zero (instrNext * (instrNext - 1))] ++
    (List.range numLexLimbs).map (fun j => .zero (selector j * (selector j - 1))) ++
    [.zero (runningSum selector (numLexLimbs - 1) - 1)] ++
    (List.range numLexLimbs).map (fun j => .zero ((1 - runningSum selector j) * d j)) ++
    [.inIdeal (runningSum (fun j => selector j * d j) (numLexLimbs - 1) - 1 - slackSorted),
      .zero (w - aSame * (instrNext - 1))] ++
    (List.range numValueLimbs).map (fun j => .zero (w * dv j)) ++
    [.zero ((1 - aSame) * (instrNext - 1))]

open NetLayout in
/-- (O1) to (O6), on the last network state. -/
def originalConstraints : List (Constraint E) :=
  let isFirst := up.int intIsFirst
  let timeHiCol := stateCol layout.originalState plTime
  let timeLoCol := stateCol layout.originalState (plTime + 1)
  let timeHi := up.binaryPoly timeHiCol
  let timeLo := up.binaryPoly timeLoCol
  let hiSel := up.int layout.intTimeHiSel
  let loSel := up.int layout.intTimeLoSel
  let slackOriginal := up.binaryPoly layout.bpSlackOriginal
  let dHi := downBp layout down timeHiCol 1 - timeHi
  let dLo := downBp layout down timeLoCol 1 - timeLo
  [.zero (isFirst * timeHi), .zero (isFirst * timeLo), .zero (hiSel * (hiSel - 1)),
    .zero (loSel * (loSel - 1)), .zero (hiSel + loSel - 1), .zero ((1 - hiSel) * dHi),
    .inIdeal (hiSel * dHi + loSel * dLo - 1 - slackOriginal)]

open NetLayout in
/-- (N1) to (N3): layer by layer, the conditional swap of every payload cell. -/
def networkConstraints : List (Constraint E) :=
  (List.range layout.numLayers).flatMap fun layer =>
    let stride := layout.stride layer
    let mask := up.int (intUpper + strideBit layout.numVars layer)
    let switch := up.int (layout.intSwitch + layer)
    .zero (mask * (switch * (switch - 1))) ::
      (List.range payloadCells).flatMap fun payload =>
        let inCol := stateCol layer payload
        let outCol := stateCol (layer + 1) payload
        let in₁ := up.binaryPoly inCol
        let in₂ := downBp layout down inCol stride
        let out₁ := up.binaryPoly outCol
        let out₂ := downBp layout down outCol stride
        let switched := switch * (in₂ - in₁)
        [.zero (mask * (out₁ - in₁ - switched)), .zero (mask * (out₂ - in₂ + switched))]

def constrainGeneral : List (Constraint E) :=
  sortedConstraints layout up down ++ originalConstraints layout up down ++
    networkConstraints layout up down

end Constraints

/-! ## Assignments of the columns -/

/-- A cell with one boolean coefficient for each power of `X` below 32. -/
abbrev BinaryPoly := Fin 32 → Bool

namespace BinaryPoly

/-- `BinaryPoly::from(u32)`. -/
def ofNat (n : Nat) : BinaryPoly := fun i => n.testBit i

/-- The value at `X = 2`. -/
def value (p : BinaryPoly) : Nat := Nat.ofBits p

open Polynomial in
noncomputable def toPoly (p : BinaryPoly) : ℤ[X] := ∑ i : Fin 32, if p i then X ^ i.val else 0

end BinaryPoly

/-- Every committed and public column, as cells by column and row. Rows past the end
are those a shift of the last rows would read. -/
structure Columns where
  binaryPoly : Nat → Nat → BinaryPoly
  int : Nat → Nat → ℤ

namespace Columns

open Polynomial

variable (c : Columns)

noncomputable def poly (col row : Nat) : ℤ[X] := (c.binaryPoly col row).toPoly

noncomputable def up (row : Nat) : TraceRow ℤ[X] where
  binaryPoly col := c.poly col row
  int col := C (c.int col row)

/-- The shifted columns of the signature; no integer column is shifted. -/
noncomputable def down (layout : NetLayout) (row : Nat) : TraceRow ℤ[X] where
  binaryPoly idx :=
    let (col, amount) := layout.shifts.getD idx (0, 0)
    c.poly col (row + amount)
  int _ := 0

end Columns

open Polynomial in
/-- Vanishing as a polynomial, or at `X = 2`. -/
def Constraint.Holds : Constraint ℤ[X] → Prop
  | .zero e => e = 0
  | .inIdeal e => e.eval 2 = 0

/-- The public columns, as the verifier rebuilds them: `is_first`, then `upper_k`. -/
def publicIntColumns (col row : Nat) : ℤ :=
  if col = NetLayout.intIsFirst then if row = 0 then 1 else 0
  else if (row >>> (col - NetLayout.intUpper)) &&& 1 = 0 then 1 else 0

namespace Columns

/-- Every constraint holds on every row but the last. -/
def Satisfied (c : Columns) (layout : NetLayout) : Prop :=
  ∀ row < 2 ^ layout.numVars - 1,
    ∀ k ∈ constrainGeneral layout (c.up row) (c.down layout row), k.Holds

def PublicFixed (c : Columns) (layout : NetLayout) : Prop :=
  ∀ col < layout.numPublicIntCols, ∀ row < 2 ^ layout.numVars,
    c.int col row = publicIntColumns col row

end Columns

end Zkmemory.Zincplus
