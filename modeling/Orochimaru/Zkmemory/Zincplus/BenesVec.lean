import Orochimaru.Lib.Vectors
import Orochimaru.Zkmemory.Zincplus.Routing

/-!
# Routing on vectors

`benes.rs` with its vectors, every index checked. The vectors of a run are those behind
the functions of the model of the network, so nothing is out of bounds and the routing is
the same.
-/

namespace Zkmemory.Zincplus.Vec

open Loops Switching

def get {α : Type} : List α → Nat → Except Panic α := Vectors.get .indexOutOfBounds

def set {α : Type} : List α → Nat → α → Except Panic (List α) := Vectors.set .indexOutOfBounds

/-- `usize` subtraction. -/
def sub (a b : Nat) : Except Panic Nat :=
  if b ≤ a then .ok (a - b) else .error .arithmeticOverflow

def strideBit (v layer : Nat) : Except Panic Nat := do
  ensure (1 ≤ v)
  ensure (layer < 2 * v - 1)
  .ok (Zincplus.strideBit v layer)

def numLayers (v : Nat) : Except Panic Nat := do
  ensure (1 ≤ v)
  .ok (2 * v - 1)

/-- The inner loop of the colouring; it is followed for `fuel` steps. -/
def walk (entryMate : Nat → Nat) (exitMate : Nat → Except Panic Nat) (start : Nat) :
    Nat → List (Option Bool) → Nat → Bool → Bool → Except Panic (List (Option Bool))
  | 0, _, _, _, _ => .error .fuelExhausted
  | fuel + 1, color, i, c, viaEntry => do
    let color ← set color i (some c)
    let next ← (if viaEntry then .ok (entryMate i) else exitMate i : Except Panic Nat)
    if next = start then .ok color
    else do
      let old ← get color next
      ensure (old = none)
      walk entryMate exitMate start fuel color next (!c) (!viaEntry)

def colorInputs (m : Nat) (entryMate : Nat → Nat) (exitMate : Nat → Except Panic Nat) :
    Except Panic (List (Option Bool)) :=
  (List.range m).foldlM
    (fun color start => do
      let c ← get color start
      if c = none then walk entryMate exitMate start m color start false true else .ok color)
    (List.replicate m none)

/-- `layers[layer][wire] = bit` -/
def setBit (layers : List (List Bool)) (layer wire : Nat) (bit : Bool) :
    Except Panic (List (List Bool)) := do
  let bits ← get layers layer
  let bits ← set bits wire bit
  set layers layer bits

/-- One step of the loop that writes the entry layer. -/
def writeEntry (color : List (Option Bool)) (h layer base : Nat) (layers : List (List Bool))
    (a : Nat) : Except Panic (List (List Bool)) := do
  let c ← get color a
  let layers ← setBit layers layer (base + a) (c == some true)
  let c' ← get color (a + h)
  ensure (c ≠ c')
  .ok layers

/-- One step of the loop that writes the exit layer. -/
def writeExit (perm : List Nat) (color : List (Option Bool)) (h layer base : Nat)
    (layers : List (List Bool)) (j : Nat) : Except Panic (List (List Bool)) := do
  let i ← get perm j
  let c ← get color i
  let layers ← setBit layers layer (base + j) (c == some true)
  let i' ← get perm (j + h)
  let c' ← get color i'
  ensure (c ≠ c')
  .ok layers

/-- The entries `j` of the two sub-permutations. -/
def subEntries (perm : List Nat) (color : List (Option Bool)) (h j : Nat) :
    Except Panic (Nat × Nat) := do
  let i0 ← get perm j
  let i1 ← get perm (j + h)
  let c ← get color i0
  let src := if c = some false then (i0, i1) else (i1, i0)
  .ok (src.1 % h, src.2 % h)

/-- The recursion halves the block; it is followed to the depth `fuel`. -/
def routeBlock (v : Nat) :
    Nat → List Nat → Nat → Nat → List (List Bool) → Except Panic (List (List Bool))
  | 0, _, _, _, _ => .error .fuelExhausted
  | fuel + 1, perm, base, depth, layers => do
    let m := perm.length
    ensure (m = 2 ^ Nat.log2 m ∧ 2 ≤ m)
    if m = 2 then do
      let middle ← sub v 1
      ensure (depth = middle)
      let p ← get perm 0
      setBit layers middle base (p == 1)
    else do
      let h := m / 2
      let inv ← perm.zipIdx.foldlM (fun inv p => set inv p.1 p.2) (List.replicate m 0)
      let entryMate := fun i => (i + h) % m
      let exitMate := fun i => do
        let j ← get inv i
        get perm ((j + h) % m)
      let color ← colorInputs m entryMate exitMate
      let entryLayer := depth
      let layers ← (List.range h).foldlM (writeEntry color h entryLayer base) layers
      let exitLayer ← sub (2 * v - 2) depth
      let layers ← (List.range h).foldlM (writeExit perm color h exitLayer base) layers
      let subs ← (List.range h).mapM (subEntries perm color h)
      let layers ← routeBlock v fuel (subs.map Prod.fst) base (depth + 1) layers
      routeBlock v fuel (subs.map Prod.snd) (base + h) (depth + 1) layers

/-- Switch settings after which output `j` holds input `perm[j]`. -/
def route (perm : List Nat) : Except Panic (List (List Bool)) := do
  let n := perm.length
  let v := Nat.log2 n
  ensure (2 ≤ n ∧ n = 2 ^ v)
  ensure ((∀ p ∈ perm, p < n) ∧ perm.Nodup)
  let count ← numLayers v
  routeBlock v v perm 0 0 (List.replicate count (List.replicate n false))

/-- `slice::swap` -/
def swap {α : Type} (state : List α) (i j : Nat) : Except Panic (List α) := do
  let a ← get state i
  let b ← get state j
  let state ← set state i b
  set state j a

def applyLayer {α : Type} (state : List α) (v layer : Nat) (bits : List Bool) :
    Except Panic (List α) := do
  let n := state.length
  ensure (n = 2 ^ v)
  ensure (bits.length = n)
  let k ← strideBit v layer
  let stride := 2 ^ k
  bits.zipIdx.foldlM (fun state p =>
    if p.2 &&& stride = 0 ∧ p.1 then swap state p.2 (p.2 + stride) else .ok state) state

/-! ## The colouring -/

section Simulation

variable {m : Nat} {entryMate mate : Nat → Nat} {exitMate : Nat → Except Panic Nat}

theorem get_tabulate {α : Type} {n i : Nat} {f : Nat → α} (hi : i < n) :
    get (Vectors.tabulate n f) i = .ok (f i) := Vectors.get_tabulate hi

theorem set_tabulate {α : Type} {n i : Nat} {f : Nat → α} (hi : i < n) (a : α) :
    set (Vectors.tabulate n f) i a = .ok (Vectors.tabulate n (Function.update f i a)) :=
  Vectors.set_tabulate hi a

theorem walk_eq {start : Nat} (hentry : ∀ i < m, entryMate i < m)
    (hexit : ∀ i < m, exitMate i = .ok (mate i)) (hmate : ∀ i < m, mate i < m) (fuel : Nat)
    (color : Nat → Option Bool) {i : Nat} (hi : i < m) (c viaEntry : Bool) :
    walk entryMate exitMate start fuel (Vectors.tabulate m color) i c viaEntry =
      (Zincplus.walk entryMate mate start fuel color i c viaEntry).map (Vectors.tabulate m) := by
  induction fuel generalizing color i c viaEntry with
  | zero => rfl
  | succ fuel ih =>
    have hnext : (if viaEntry then .ok (entryMate i) else exitMate i) =
        .ok (if viaEntry then entryMate i else mate i) := by
      cases viaEntry with
      | true => rfl
      | false => exact hexit i hi
    have hlt : (if viaEntry then entryMate i else mate i) < m := by
      split
      · exact hentry i hi
      · exact hmate i hi
    rw [walk, Zincplus.walk, set_tabulate hi, ok_bind, hnext, ok_bind]
    generalize (if viaEntry then entryMate i else mate i) = next at hlt
    by_cases hstart : next = start
    · rw [if_pos hstart, if_pos hstart]
      rfl
    · rw [if_neg hstart, if_neg hstart, get_tabulate hlt, ok_bind]
      by_cases hold : Function.update color i (some c) next = none
      · rw [ensure_ok hold, ok_bind, ok_bind]
        exact ih _ hlt _ _
      · rw [ensure, if_neg hold]
        rfl

theorem colorInputs_eq (hentry : ∀ i < m, entryMate i < m)
    (hexit : ∀ i < m, exitMate i = .ok (mate i)) (hmate : ∀ i < m, mate i < m) :
    colorInputs m entryMate exitMate =
      (Zincplus.colorInputs m entryMate mate).map (Vectors.tabulate m) := by
  rw [colorInputs, Zincplus.colorInputs, Vectors.replicate_eq_tabulate]
  refine Vectors.foldlM_sim (Vectors.tabulate m) (fun color start hstart => ?_) _
  have hlt := List.mem_range.mp hstart
  rw [get_tabulate hlt, ok_bind]
  by_cases hc : color start = none
  · rw [if_pos hc, if_pos hc]
    exact walk_eq hentry hexit hmate m color hlt false true
  · rw [if_neg hc, if_neg hc]
    rfl

/-! ## A block -/

/-- The vectors of the switch bits. -/
def table (v n : Nat) (layers : Layers) : List (List Bool) :=
  Vectors.tabulate (2 * v - 1) fun layer => Vectors.tabulate n (layers layer)

theorem setBit_table {v n layer wire : Nat} (hlayer : layer < 2 * v - 1) (hwire : wire < n)
    (layers : Layers) (bit : Bool) :
    setBit (table v n layers) layer wire bit = .ok (table v n (layers.set layer wire bit)) := by
  rw [setBit, table, get_tabulate hlayer, ok_bind, set_tabulate hwire, ok_bind,
    set_tabulate hlayer]
  refine congrArg _ (Vectors.tabulate_congr fun l _ => ?_)
  rw [Layers.set]
  by_cases hl : l = layer
  · subst hl
    rw [Function.update_self, Function.update_self]
  · rw [Function.update_of_ne hl, Function.update_of_ne hl]

/-- The inverse, as the loop fills it. -/
def inverse (m : Nat) (perm : Nat → Nat) : Nat → Nat :=
  (List.range m).foldl (fun inv j => Function.update inv (perm j) j) fun _ => 0

theorem inverse_eq {perm : Nat → Nat} (hperm : ∀ j < m, perm j < m) :
    (Vectors.tabulate m perm).zipIdx.foldlM (fun inv p => set inv p.1 p.2) (List.replicate m 0) =
      .ok (Vectors.tabulate m (inverse m perm)) := by
  rw [Vectors.zipIdx_tabulate, List.foldlM_map, Vectors.replicate_eq_tabulate]
  exact Vectors.foldlM_sim_pure (Vectors.tabulate m)
    (fun inv j hj => set_tabulate (hperm j (List.mem_range.mp hj)) j) _

theorem writeLayer_eq {v n h layer base : Nat} (cond : Nat → Prop) [DecidablePred cond]
    (bit : Nat → Bool) {step : List (List Bool) → Nat → Except Panic (List (List Bool))}
    (hstep : ∀ layers, ∀ a < h, step layers a = do
      let layers ← setBit layers layer (base + a) (bit a)
      ensure (cond a)
      .ok layers)
    (hlayer : layer < 2 * v - 1) (hbase : base + h ≤ n) (layers : Layers) :
    (List.range h).foldlM step (table v n layers) =
      ((List.range h).foldlM (fun layers a => do
        ensure (cond a)
        .ok (Layers.set layers layer (base + a) (bit a))) layers).map (table v n) := by
  refine Vectors.foldlM_sim (table v n) (fun layers a ha => ?_) layers
  have hlt := List.mem_range.mp ha
  rw [hstep _ a hlt, setBit_table hlayer (by omega), ok_bind]
  by_cases hcond : cond a
  · rw [ensure_ok hcond, ok_bind, ok_bind]
    rfl
  · rw [ensure, if_neg hcond]
    rfl

variable {v n h layer base : Nat} {perm : Nat → Nat}

theorem writeEntry_eq (hm : h + h ≤ m) (hlayer : layer < 2 * v - 1) (hbase : base + h ≤ n)
    (color : Nat → Option Bool) (layers : Layers) :
    (List.range h).foldlM (writeEntry (Vectors.tabulate m color) h layer base) (table v n layers) =
      ((List.range h).foldlM (fun layers a => do
        ensure (color a ≠ color (a + h))
        .ok (Layers.set layers layer (base + a) (color a == some true))) layers).map
          (table v n) := by
  refine writeLayer_eq _ (fun a => color a == some true) (fun layers a ha => ?_) hlayer hbase layers
  rw [writeEntry, get_tabulate (by omega), get_tabulate (by omega)]
  rfl

theorem writeExit_eq (hm : h + h ≤ m) (hperm : ∀ j < m, perm j < m) (hlayer : layer < 2 * v - 1)
    (hbase : base + h ≤ n) (color : Nat → Option Bool) (layers : Layers) :
    (List.range h).foldlM
        (writeExit (Vectors.tabulate m perm) (Vectors.tabulate m color) h layer base)
        (table v n layers) =
      ((List.range h).foldlM (fun layers j => do
        ensure (color (perm j) ≠ color (perm (j + h)))
        .ok (Layers.set layers layer (base + j) (color (perm j) == some true))) layers).map
          (table v n) := by
  refine writeLayer_eq _ (fun j => color (perm j) == some true) (fun layers j hj => ?_)
    hlayer hbase layers
  have hlo : j < m := by omega
  have hhi : j + h < m := by omega
  simp only [writeExit, get_tabulate hlo, get_tabulate hhi, get_tabulate (hperm j hlo),
    get_tabulate (hperm _ hhi), ok_bind]

theorem subEntries_eq (hm : h + h ≤ m) (hperm : ∀ j < m, perm j < m)
    (color : Nat → Option Bool) :
    (List.range h).mapM (subEntries (Vectors.tabulate m perm) (Vectors.tabulate m color) h) =
      .ok (Vectors.tabulate h fun j =>
        ((if color (perm j) = some false then perm j else perm (j + h)) % h,
          (if color (perm j) = some false then perm (j + h) else perm j) % h)) := by
  refine Vectors.mapM_range_eq fun j hj => ?_
  have hlo : j < m := by omega
  have hhi : j + h < m := by omega
  simp only [subEntries, get_tabulate hlo, get_tabulate hhi, get_tabulate (hperm j hlo), ok_bind]
  split
  · rfl
  · rfl

/-- A block is routed on the vectors as on the functions. -/
theorem routeBlock_eq {t depth : Nat} (hv : depth + (t + 1) = v) (hbase : base + 2 ^ (t + 1) ≤ n)
    (hperm : ∀ j < 2 ^ (t + 1), perm j < 2 ^ (t + 1)) (layers : Layers) :
    routeBlock v (t + 1) (Vectors.tabulate (2 ^ (t + 1)) perm) base depth (table v n layers) =
      (Zincplus.routeBlock v (t + 1) perm base depth layers).map (table v n) := by
  induction t generalizing base depth perm layers with
  | zero =>
    have hmiddle : depth = v - 1 := by omega
    rw [routeBlock, Zincplus.routeBlock, ensure_ok hmiddle, ok_bind]
    simp only [Vectors.length_tabulate]
    rw [ensure_ok ⟨by rw [Nat.log2_two_pow], le_rfl⟩, ok_bind, if_pos (by norm_num), sub,
      if_pos (by omega), ok_bind, ensure_ok hmiddle, ok_bind, get_tabulate (by norm_num), ok_bind,
      setBit_table (by omega) (by omega)]
    rfl
  | succ t ih =>
    have hhalf : 2 ^ (t + 2) / 2 = 2 ^ (t + 1) := by rw [Nat.pow_succ, Nat.mul_div_cancel _ two_pos]
    have hpow : 2 ^ (t + 2) = 2 ^ (t + 1) + 2 ^ (t + 1) := by rw [Nat.pow_succ, Nat.mul_two]
    have hpos : 0 < 2 ^ (t + 1) := Nat.two_pow_pos _
    have hmod : ∀ i, i % 2 ^ (t + 2) < 2 ^ (t + 2) := fun i => Nat.mod_lt _ (Nat.two_pow_pos _)
    have hexit : ∀ i < 2 ^ (t + 2), (do
        let j ← get (Vectors.tabulate (2 ^ (t + 2)) (inverse (2 ^ (t + 2)) perm)) i
        get (Vectors.tabulate (2 ^ (t + 2)) perm) ((j + 2 ^ (t + 1)) % 2 ^ (t + 2))) =
        .ok (perm ((inverse (2 ^ (t + 2)) perm i + 2 ^ (t + 1)) % 2 ^ (t + 2))) :=
      fun i hi => by rw [get_tabulate hi, ok_bind, get_tabulate (hmod _)]
    rw [routeBlock, Zincplus.routeBlock]
    simp only [Vectors.length_tabulate]
    rw [ensure_ok ⟨by rw [Nat.log2_two_pow], by omega⟩, ok_bind, if_neg (by omega),
      inverse_eq hperm, ok_bind, hhalf,
      colorInputs_eq (fun i _ => hmod _) hexit (fun i _ => hperm _ (hmod _))]
    refine Vectors.bind_sim fun color => ?_
    rw [writeEntry_eq (by omega) (by omega) (by omega)]
    refine Vectors.bind_sim fun layers => ?_
    rw [sub, if_pos (by omega), ok_bind, writeExit_eq (by omega) hperm (by omega) (by omega)]
    refine Vectors.bind_sim fun layers => ?_
    rw [subEntries_eq (by omega) hperm, ok_bind, Vectors.tabulate, List.map_map, List.map_map]
    refine (congrArg (· >>= _) (ih (by omega) (by omega) (fun j _ => Nat.mod_lt _ hpos) layers)).trans
      ?_
    exact Vectors.bind_sim fun layers =>
      ih (by omega) (by omega) (fun j _ => Nat.mod_lt _ hpos) layers

theorem route_eq {perm : List Nat} (hlen : perm.length = 2 ^ v) (hv : 1 ≤ v)
    (hlt : ∀ p ∈ perm, p < 2 ^ v) (hnodup : perm.Nodup) :
    route perm = (Zincplus.route perm).map (table v (2 ^ v)) := by
  obtain ⟨t, rfl⟩ : ∃ t, v = t + 1 := ⟨v - 1, by omega⟩
  have htwo : 2 ≤ 2 ^ (t + 1) := by
    have := Nat.two_pow_pos t
    rw [Nat.pow_succ]
    omega
  have hperm : ∀ j < 2 ^ (t + 1), perm.getD j 0 < 2 ^ (t + 1) := by
    intro j hj
    rw [List.getD_eq_getElem?_getD, List.getElem?_eq_getElem (hlen ▸ hj)]
    exact hlt _ (List.getElem_mem _)
  rw [route, Zincplus.route, hlen, Nat.log2_two_pow, ensure_ok ⟨htwo, rfl⟩, ok_bind, ok_bind,
    ensure_ok ⟨hlt, hnodup⟩, ok_bind, ok_bind, numLayers, ensure_ok hv, ok_bind, ok_bind]
  have hinit : List.replicate (2 * (t + 1) - 1) (List.replicate (2 ^ (t + 1)) false) =
      table (t + 1) (2 ^ (t + 1)) fun _ _ => false := by
    rw [table, Vectors.replicate_eq_tabulate, Vectors.replicate_eq_tabulate]
  have hvec : perm = Vectors.tabulate (2 ^ (t + 1)) fun j => perm.getD j 0 :=
    hlen ▸ Vectors.eq_tabulate perm 0
  rw [hinit]
  conv_lhs => rw [hvec]
  exact routeBlock_eq (Nat.zero_add _) (Nat.zero_add _).le hperm _

/-! ## Applying a layer -/

theorem swap_tabulate {α : Type} {state : Nat → α} {i j : Nat} (hi : i < n) (hj : j < n) :
    swap (Vectors.tabulate n state) i j = .ok (Vectors.tabulate n (Zincplus.swap state i j)) := by
  rw [swap, get_tabulate hi, ok_bind, get_tabulate hj, ok_bind, set_tabulate hi, ok_bind,
    set_tabulate hj, Zincplus.swap]

theorem applyLayer_eq {α : Type} {layer : Nat} (hlayer : layer < 2 * v - 1) (state : Nat → α)
    (bits : Nat → Bool) :
    applyLayer (Vectors.tabulate (2 ^ v) state) v layer (Vectors.tabulate (2 ^ v) bits) =
      .ok (Vectors.tabulate (2 ^ v) (Zincplus.applyLayer state v layer bits)) := by
  have hstride : Zincplus.strideBit v layer < v := by
    rw [Zincplus.strideBit]
    split
    · omega
    · omega
  rw [applyLayer, Vectors.length_tabulate, ensure_ok rfl, ok_bind, Vectors.length_tabulate,
    ensure_ok rfl, ok_bind, strideBit, ensure_ok (by omega), ok_bind, ensure_ok hlayer, ok_bind,
    ok_bind, Vectors.zipIdx_tabulate, List.foldlM_map, Zincplus.applyLayer]
  refine Vectors.foldlM_sim_pure (Vectors.tabulate (2 ^ v)) (fun state i hi => ?_) state
  have hlt := List.mem_range.mp hi
  by_cases hswap : i &&& 2 ^ Zincplus.strideBit v layer = 0 ∧ bits i
  · rw [if_pos hswap, if_pos hswap]
    exact swap_tabulate hlt
      (add_stride_lt hstride ((and_stride_eq_zero _ i).mp hswap.1) hlt)
  · rw [if_neg hswap, if_neg hswap]

/-- The layers in order. -/
def applyLayers {α : Type} (state : List α) (v : Nat) (layers : List (List Bool)) :
    Except Panic (List α) :=
  (List.range (2 * v - 1)).foldlM (fun state layer => do
    let bits ← get layers layer
    applyLayer state v layer bits) state

theorem applyLayers_eq {α : Type} (state : Nat → α) (layers : Layers) :
    applyLayers (Vectors.tabulate (2 ^ v) state) v (table v (2 ^ v) layers) =
      .ok (Vectors.tabulate (2 ^ v) ((List.range (2 * v - 1)).foldl
        (fun state layer => Zincplus.applyLayer state v layer (layers layer)) state)) := by
  refine Vectors.foldlM_sim_pure (Vectors.tabulate (2 ^ v)) (fun state layer hlayer => ?_) state
  have hlt := List.mem_range.mp hlayer
  rw [table, get_tabulate hlt, ok_bind, applyLayer_eq hlt]

end Simulation

/-! ## Upper wires -/

/-- The bits set so far are those of upper wires. -/
def Upper (v : Nat) (layers : Layers) : Prop :=
  ∀ l w, layers l w = true → w.testBit (Zincplus.strideBit v l) = false

theorem Upper.set {v : Nat} {layers : Layers} (h : Upper v layers) {layer wire : Nat}
    (hwire : wire.testBit (Zincplus.strideBit v layer) = false) (bit : Bool) :
    Upper v (layers.set layer wire bit) := by
  intro l w hbit
  rw [Layers.set] at hbit
  by_cases hl : l = layer
  · subst hl
    by_cases hw : w = wire
    · exact hw ▸ hwire
    · rw [Function.update_self, Function.update_of_ne hw] at hbit
      exact h l w hbit
  · rw [Function.update_of_ne hl] at hbit
    exact h l w hbit

/-- The upper wires of the switches between the halves of a block. -/
theorem testBit_block {t q a : Nat} (ha : a < 2 ^ t) : (2 ^ (t + 1) * q + a).testBit t = false := by
  have hsplit : 2 ^ (t + 1) * q + a = a + 2 ^ t * (2 * q) := by ring
  rw [Nat.testBit_eq_decide_div_mod_eq, hsplit, Nat.add_mul_div_left _ _ (Nat.two_pow_pos t),
    Nat.div_eq_of_lt ha, zero_add, Nat.mul_mod_right]
  rfl

/-- A layer of a block is written on its upper wires. -/
theorem upper_writes {v t q layer : Nat} (hstride : Zincplus.strideBit v layer = t)
    {cond : Nat → Prop} [DecidablePred cond] (bit : Nat → Bool) {layers : Layers}
    (h : Upper v layers) :
    Ends (fun _ => True) (Upper v) ((List.range (2 ^ t)).foldlM (fun layers a => do
      ensure (cond a)
      .ok (Layers.set layers layer (2 ^ (t + 1) * q + a) (bit a))) layers) := by
  refine Ends.foldlM_mem (Upper v) (fun layers a ha hlayers => ?_) h
  have hwire := testBit_block (q := q) (List.mem_range.mp ha)
  by_cases hcond : cond a
  · rw [ensure_ok hcond, ok_bind]
    exact hlayers.set (by rw [hstride, hwire]) (bit a)
  · rw [ensure, if_neg hcond]
    exact trivial

theorem routeBlock_upper {v t q depth : Nat} (hv : depth + (t + 1) = v) (perm : Nat → Nat)
    {layers : Layers} (h : Upper v layers) :
    Ends (fun _ => True) (Upper v)
      (Zincplus.routeBlock v (t + 1) perm (2 ^ (t + 1) * q) depth layers) := by
  induction t generalizing q depth perm layers with
  | zero =>
    have hmiddle : depth = v - 1 := by omega
    have hstride : Zincplus.strideBit v (v - 1) = 0 := by
      rw [Zincplus.strideBit, if_pos (by omega), Nat.sub_self]
    rw [Zincplus.routeBlock, ensure_ok hmiddle, ok_bind]
    exact h.set (by rw [hstride]; exact testBit_block (a := 0) one_pos) _
  | succ t ih =>
    have hentry : Zincplus.strideBit v depth = t + 1 := by
      rw [Zincplus.strideBit, if_pos (by omega)]
      omega
    have hexit : Zincplus.strideBit v (2 * v - 2 - depth) = t + 1 := by
      rw [Zincplus.strideBit, if_neg (by omega)]
      omega
    have htop : 2 ^ (t + 2) * q = 2 ^ (t + 1) * (2 * q) := by ring
    have hbottom : 2 ^ (t + 2) * q + 2 ^ (t + 1) = 2 ^ (t + 1) * (2 * q + 1) := by ring
    rw [Zincplus.routeBlock]
    refine Ends.bind (P := fun _ => True) ?_ fun color _ => ?_
    · cases Zincplus.colorInputs (2 ^ (t + 2)) _ _ with
      | error e => exact trivial
      | ok color => exact trivial
    refine Ends.bind (upper_writes hentry _ h) fun layers h => ?_
    refine Ends.bind (upper_writes hexit _ h) fun layers h => ?_
    rw [htop]
    refine Ends.bind (ih (by omega) _ h) fun layers h => ?_
    rw [← htop, hbottom]
    exact ih (by omega) _ h

theorem route_upper {v : Nat} (hv : 1 ≤ v) {perm : List Nat} (hlen : perm.length = 2 ^ v)
    {layers : Layers} (hroute : Zincplus.route perm = .ok layers) :
    Upper v layers := by
  obtain ⟨t, rfl⟩ : ∃ t, v = t + 1 := ⟨v - 1, by omega⟩
  have hblock := routeBlock_upper (q := 0) (Nat.zero_add (t + 1)) (fun j => perm.getD j 0)
    (show Upper (t + 1) fun _ _ => false from fun _ _ h => by cases h)
  rw [Zincplus.route, hlen, Nat.log2_two_pow] at hroute
  obtain ⟨_, -, hroute⟩ := bind_ok_iff.mp hroute
  obtain ⟨_, -, hroute⟩ := bind_ok_iff.mp hroute
  rw [mul_zero, hroute] at hblock
  exact hblock

/-- Routing a permutation succeeds; the settings are on upper wires only, and bring input
`perm[j]` to output `j`. -/
theorem route_correct {v : Nat} (hv : 1 ≤ v) {perm : List Nat} (hlen : perm.length = 2 ^ v)
    (hlt : ∀ p ∈ perm, p < 2 ^ v) (hnodup : perm.Nodup) {α : Type} {input : List α}
    (hinput : input.length = 2 ^ v) :
    ∃ (layers : List (List Bool)) (out : List α), route perm = .ok layers ∧
      layers.length = 2 * v - 1 ∧
      (∀ layer bits, layers[layer]? = some bits → bits.length = 2 ^ v ∧
        ∀ i : Nat, bits[i]? = some true → i.testBit (Zincplus.strideBit v layer) = false) ∧
      applyLayers input v layers = .ok out ∧ out.length = 2 ^ v ∧
      ∀ j p : Nat, perm[j]? = some p → out[j]? = input[p]? := by
  obtain ⟨layers, hroute, hsources⟩ := route_ok hv hlen hlt hnodup
  have hupper := route_upper hv hlen hroute
  obtain ⟨d⟩ : Nonempty α := by
    cases input with
    | nil => exact absurd hinput (Nat.two_pow_pos v).ne
    | cons a _ => exact ⟨a⟩
  set state : Nat → α := fun i => input.getD i d
  have hvec : input = Vectors.tabulate (2 ^ v) state := hinput ▸ Vectors.eq_tabulate input d
  refine ⟨table v (2 ^ v) layers, _, by rw [route_eq hlen hv hlt hnodup, hroute]; rfl,
    Vectors.length_tabulate, fun layer bits hbits => ?_,
    (congrArg (applyLayers · v _) hvec).trans (applyLayers_eq state layers),
    Vectors.length_tabulate, fun j p hp => ?_⟩
  · obtain ⟨hlayer, -⟩ := List.getElem?_eq_some_iff.mp hbits
    rw [table, Vectors.length_tabulate] at hlayer
    rw [table, Vectors.getElem?_tabulate hlayer] at hbits
    obtain rfl := Option.some.inj hbits
    refine ⟨Vectors.length_tabulate, fun i hi => hupper layer i ?_⟩
    obtain ⟨hwire, -⟩ := List.getElem?_eq_some_iff.mp hi
    rw [Vectors.length_tabulate] at hwire
    rw [Vectors.getElem?_tabulate hwire] at hi
    exact Option.some.inj hi
  · obtain ⟨hj, hget⟩ := List.getElem?_eq_some_iff.mp hp
    rw [hlen] at hj
    have hpv : p < 2 ^ v := hlt p (hget ▸ List.getElem_mem _)
    have hlayers : ∀ l < 2 * v - 1, Zincplus.strideBit v l < v := by
      intro l hl
      exact strideBit_lt (Nat.zero_add v) (Nat.zero_le l) (by omega)
    -- The contents run through the layers as the switches say.
    have hrun := states_eq_sources (fun l => (Zincplus.strideBit v l, layers l))
      (fun n => (List.range n).foldl
        (fun state layer => Zincplus.applyLayer state v layer (layers layer)) state) hlayers
      (fun l _ i hi => by
        rw [List.range_succ, List.foldl_append]
        exact applyLayer_apply _ v l (layers l) hi) hj
    have hsource := hsources j hj
    rw [net, Zincplus.numLayers, ← List.range_eq_range'] at hsource
    rw [Vectors.getElem?_tabulate hj, hrun, hsource, List.getD_eq_getElem?_getD, hp, hvec,
      Vectors.getElem?_tabulate hpv]
    rfl

/-- Eight wires through five layers. -/
theorem route_correct_eight :
    let perm := [3, 7, 0, 5, 2, 6, 1, 4]
    let input := ['a', 'b', 'c', 'd', 'e', 'f', 'g', 'h']
    ∃ (layers : List (List Bool)) (out : List Char), route perm = .ok layers ∧
      layers.length = 2 * 3 - 1 ∧
      (∀ layer bits, layers[layer]? = some bits → bits.length = 2 ^ 3 ∧
        ∀ i : Nat, bits[i]? = some true → i.testBit (Zincplus.strideBit 3 layer) = false) ∧
      applyLayers input 3 layers = .ok out ∧ out.length = 2 ^ 3 ∧
      ∀ j p : Nat, perm[j]? = some p → out[j]? = input[p]? :=
  route_correct (by decide) rfl (by decide) (by decide) rfl

end Zkmemory.Zincplus.Vec
