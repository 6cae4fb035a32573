import Orochimaru.Lib.Layouter
import Orochimaru.Poseidon.Hash

/-!
# The Poseidon circuit

Gates and regions of `circuit.rs` and the in-circuit sponge of `gadgets.rs`. A circuit
that embeds the gadget has columns and selectors of its own, which stay abstract here.
-/

namespace Poseidon

open Zkmemory Layouter Plonkish

/-! ## Columns and gates -/

/-- The columns of the gadget, and those of the circuit around it. -/
inductive Column (R : Nat) (X : Type)
  | state (i : Fin (R + 1))
  | partialSbox
  | rcA (i : Fin (R + 1))
  | rcB (i : Fin (R + 1))
  | other (c : X)
  deriving DecidableEq

inductive Selector (Y : Type)
  | fullRound
  | partialRound
  | padAndAdd
  | other (q : Y)

section Gates

variable {F : Type} [Field F] {R : Nat} {X : Type} (S : Spec F R)

def pow5 (v : F) : F :=
  let v2 := v * v
  v2 * v2 * v

open Column

def fullRoundGate : Gate (Column R X) F := fun q =>
  List.ofFn fun nextIdx =>
    (∑ idx, pow5 (q (state idx) .cur + q (rcA idx) .cur) * S.mds nextIdx idx) -
      q (state nextIdx) 1

/-- A word between the two rounds of a row. -/
def mid (q : Column R X → Rotation → F) (idx : Fin (R + 1)) : F :=
  q partialSbox .cur * S.mds idx 0 +
    ∑ curIdx : Fin R, (q (state curIdx.succ) .cur + q (rcA curIdx.succ) .cur) *
      S.mds idx curIdx.succ

/-- A word after the S-box of the second round, from the row below. -/
def next (q : Column R X → Rotation → F) (idx : Fin (R + 1)) : F :=
  ∑ nextIdx, q (state nextIdx) 1 * S.mdsInv idx nextIdx

def partialRoundsGate : Gate (Column R X) F := fun q =>
  [pow5 (q (state 0) .cur + q (rcA 0) .cur) - q partialSbox .cur,
    pow5 (mid S q 0 + q (rcB 0) .cur) - next S q 0] ++
  List.ofFn fun idx : Fin R =>
    mid S q idx.succ + q (rcB idx.succ) .cur - next S q idx.succ

def padAndAddGate : Gate (Column R X) F := fun q =>
  (List.ofFn fun idx : Fin R =>
    q (state idx.castSucc) .prev + q (state idx.castSucc) .cur - q (state idx.castSucc) 1) ++
  [q (state (Fin.last R)) .prev - q (state (Fin.last R)) 1]

/-- The gates of the gadget and of the circuit around it. -/
def gates {Y : Type} (outer : Y → Gate (Column R X) F) : Selector Y → Gate (Column R X) F
  | .fullRound => fullRoundGate S
  | .partialRound => partialRoundsGate S
  | .padAndAdd => padAndAddGate
  | .other q => outer q

end Gates

/-- The part of the configuration that is no column or selector. -/
structure PoseidonConfig (F : Type) (R : Nat) where
  halfFullRounds : Nat
  halfPartialRounds : Nat
  roundConstants : List (State F R)
  mReg : Matrix (Fin (R + 1)) (Fin (R + 1)) F

section Regions

variable {F : Type} [Field F] {R : Nat} {X Y : Type}

abbrev Word (F : Type) (R : Nat) (X : Type) := AssignedCell (Column R X) F

abbrev Ops (F : Type) (R : Nat) (X Y : Type) := List (Op (Selector Y) (Column R X) F)

/-- A word from the padded input to the sponge. -/
inductive PaddedWord (F : Type) (R : Nat) (X : Type)
  | message (word : Word F R X)
  | padding (value : F)

/-- `assign_advice` of the state columns at one row. -/
def assignState (region offset : Nat) (value : State F R) :
    Ops F R X Y × (Fin (R + 1) → Word F R X) :=
  (List.ofFn fun i => .assignAdvice ⟨region, offset, .state i⟩ (value i),
    fun i => ⟨⟨region, offset, .state i⟩, value i⟩)

/-- `copy_advice` into the state columns at the first row. -/
def copyState (region : Nat) (words : Fin (R + 1) → Word F R X) :
    Ops F R X Y × (Fin (R + 1) → Word F R X) :=
  let assigned := assignState region 0 fun i => (words i).value
  (assigned.1 ++ List.ofFn fun i => .constrainEqual (assigned.2 i).cell (words i).cell, assigned.2)

namespace PoseidonConfig

def configure (S : Spec F R) : Except Panic (PoseidonConfig F R) :=
  if S.fullRounds % 2 = 0 ∧ S.partialRounds % 2 = 0 then
    .ok ⟨S.fullRounds / 2, S.partialRounds / 2, S.roundConstants, S.mds⟩
  else .error .assertionFailed

variable (config : PoseidonConfig F R)

def rc (round : Nat) : State F R := config.roundConstants.getD round 0

/-- The enabled gate and the first round constants of a row. -/
def round (region round offset : Nat) (gate : Selector Y) : Ops F R X Y :=
  .enable gate region offset ::
    List.ofFn fun i => .assignFixed ⟨region, offset, .rcA i⟩ (config.rc round i)

def fullRound (region round offset : Nat) (words : Fin (R + 1) → Word F R X) :
    Ops F R X Y × (Fin (R + 1) → Word F R X) :=
  let r : State F R := fun idx => ((words idx).value + config.rc round idx) ^ 5
  let assigned := assignState region (offset + 1) (config.mReg.mulVec r)
  (config.round region round offset .fullRound ++ assigned.1, assigned.2)

def partialRound (region round offset : Nat) (words : Fin (R + 1) → Word F R X) :
    Ops F R X Y × (Fin (R + 1) → Word F R X) :=
  let r : State F R := fun i =>
    if i = 0 then ((words i).value + config.rc round i) ^ 5 else (words i).value + config.rc round i
  let pMid := config.mReg.mulVec r
  let rMid : State F R := fun i =>
    if i = 0 then (pMid i + config.rc (round + 1) i) ^ 5 else pMid i + config.rc (round + 1) i
  let assigned := assignState region (offset + 1) (config.mReg.mulVec rMid)
  (config.round region round offset .partialRound ++
    .assignAdvice ⟨region, offset, .partialSbox⟩ (r 0) ::
    (List.ofFn fun i => .assignFixed ⟨region, offset, .rcB i⟩ (config.rc (round + 1) i)) ++
    assigned.1, assigned.2)

def permute (words : Fin (R + 1) → Word F R X) (region : Nat) :
    Ops F R X Y × (Fin (R + 1) → Word F R X) :=
  let half := config.halfFullRounds
  let halfPartial := config.halfPartialRounds
  let loaded := copyState region words
  let first := tryFold (fun s r => config.fullRound region r r s) (List.range half) loaded.2
  let mid := tryFold (fun s r => config.partialRound region (half + 2 * r) (half + r) s)
    (List.range halfPartial) first.2
  let last := tryFold
    (fun s r => config.fullRound region (half + 2 * halfPartial + r) (half + halfPartial + r) s)
    (List.range half) mid.2
  (loaded.1 ++ (first.1 ++ mid.1 ++ last.1), last.2)

/-- `initial_state`: `assign_advice_from_constant` of every word. -/
def initialState (L region : Nat) : Ops F R X Y × (Fin (R + 1) → Word F R X) :=
  let value := Poseidon.initialState (ConstantLength.initialCapacityElement L)
  let assigned := assignState region 0 value
  (assigned.1 ++ List.ofFn fun i => .constrainConstant (assigned.2 i).cell (value i), assigned.2)

/-- The operations that load an input word, with its value. -/
def loadInputWord (region : Nat) (i : Fin R) : PaddedWord F R X → Ops F R X Y × F
  | .message word =>
    ([.assignAdvice ⟨region, 1, .state i.castSucc⟩ word.value,
      .constrainEqual word.cell ⟨region, 1, .state i.castSucc⟩], word.value)
  | .padding value =>
    ([.assignFixed ⟨region, 1, .rcB i.castSucc⟩ value,
      .assignAdvice ⟨region, 1, .state i.castSucc⟩ value,
      .constrainEqual ⟨region, 1, .rcB i.castSucc⟩ ⟨region, 1, .state i.castSucc⟩], value)

/-- The capacity element is never altered by the input. -/
def addInput (words : Fin (R + 1) → Word F R X) (input : Fin R → PaddedWord F R X)
    (region : Nat) : Ops F R X Y × (Fin (R + 1) → Word F R X) :=
  let loaded := copyState region words
  let inputs := fun i => loadInputWord (Y := Y) region i (input i)
  let output := assignState region 2 (Fin.lastCases (loaded.2 (Fin.last R)).value fun i =>
    (loaded.2 i.castSucc).value + (inputs i).2)
  (.enable .padAndAdd region 1 :: loaded.1 ++ (List.ofFn fun i => (inputs i).1).flatten ++
    output.1, output.2)

def getOutput (words : Fin (R + 1) → Word F R X) : List (Word F R X) :=
  List.ofFn fun i : Fin R => words i.castSucc

end PoseidonConfig

/-! ## The sponge in the circuit -/

namespace Gadgets

abbrev Layouter (F : Type) (R : Nat) (X Y α : Type) :=
  Synthesis Panic (Selector Y) (Column R X) F α

variable (config : PoseidonConfig F R)

def poseidonSponge (words : Fin (R + 1) → Word F R X) (input : Option (List (PaddedWord F R X))) :
    Layouter F R X Y ((Fin (R + 1) → Word F R X) × List (Word F R X)) := do
  let words ← match input with
    | some input =>
      if h : input.length = R then
        assignRegion (PoseidonConfig.addInput words fun i => input.get (i.cast h.symm))
      else throw .assertionFailed
    | none => pure words
  let words ← assignRegion (config.permute words)
  pure (words, PoseidonConfig.getOutput words)

def init (L : Nat) : Layouter F R X Y (Sponge (Fin (R + 1) → Word F R X) (PaddedWord F R X)) := do
  let words ← assignRegion (PoseidonConfig.initialState L)
  pure ⟨[], words⟩

def hash {L : Nat} (sponge : Sponge (Fin (R + 1) → Word F R X) (PaddedWord F R X))
    (message : Fin L → Word F R X) : Layouter F R X Y (Word F R X) := do
  let padding ← liftM (ConstantLength.padding R L L : Except Panic (List F))
  let input := (List.ofFn message).map PaddedWord.message ++ padding.map PaddedWord.padding
  let sponge ← input.foldlM (Sponge.absorb R (poseidonSponge config)) sponge
  let sponge ← Sponge.finishAbsorbing (poseidonSponge config) sponge
  Sponge.squeeze (poseidonSponge config) sponge

end Gadgets

end Regions

end Poseidon
