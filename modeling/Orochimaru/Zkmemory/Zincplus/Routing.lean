import Orochimaru.Zkmemory.Zincplus.Coloring

/-!
# Routing realizes the permutation

The settings of a block bring input `perm j` of the block to its output `j`: the exit
switch picks the sub-network by the colour of `perm j`, the sub-network delivers
position `perm j % h`, and the entry switch undoes the split. Blocks write disjoint
wires, so the induction composes.
-/

namespace Zkmemory.Zincplus

open Loops Switching

/-- Maps `[0, n)` into itself, injectively. -/
structure PermOn (n : Nat) (perm : Nat → Nat) : Prop where
  lt : ∀ j < n, perm j < n
  inj : ∀ i < n, ∀ j < n, perm i = perm j → i = j

theorem PermOn.congr {n : Nat} {f g : Nat → Nat} (h : PermOn n f) (hfg : ∀ j < n, f j = g j) :
    PermOn n g := by
  refine ⟨fun j hj => hfg j hj ▸ h.lt j hj, fun i hi j hj he => h.inj i hi j hj ?_⟩
  rw [hfg i hi, hfg j hj, he]

/-! ## The two matchings -/

theorem entryMate_low {h i : Nat} (hi : i < h) : (i + h) % (2 * h) = i + h :=
  Nat.mod_eq_of_lt (by omega)

theorem entryMate_high {h i : Nat} (hi : h ≤ i) (hi' : i < 2 * h) : (i + h) % (2 * h) = i - h := by
  rw [show i + h = (i - h) + 2 * h by omega, Nat.add_mod_right, Nat.mod_eq_of_lt (by omega)]

theorem entryMates (h : Nat) (hpos : 0 < h) : Mates (2 * h) fun i => (i + h) % (2 * h) := by
  refine ⟨fun i _ => Nat.mod_lt _ (by omega), fun i hi => ?_, fun i hi => ?_⟩
  · rcases Nat.lt_or_ge i h with hlt | hge
    · simp only [entryMate_low hlt]
      rw [entryMate_high (by omega) (by omega)]
      omega
    · simp only [entryMate_high hge hi]
      rw [entryMate_low (by omega)]
      omega
  · rcases Nat.lt_or_ge i h with hlt | hge
    · simp only [entryMate_low hlt]
      omega
    · simp only [entryMate_high hge hi]
      omega

/-- Filling an array at distinct positions: each keeps what was stored for it. -/
theorem foldl_update_apply {α β : Type*} [DecidableEq α] {key : Nat → α} {val : Nat → β} {n : Nat}
    (hinj : ∀ i < n, ∀ j < n, key i = key j → i = j) (init : α → β) {j : Nat} (hj : j < n) :
    (List.range n).foldl (fun f i => Function.update f (key i) (val i)) init (key j) = val j := by
  induction n with
  | zero => omega
  | succ n ih =>
    rw [List.range_succ, List.foldl_append]
    rcases Nat.lt_succ_iff_lt_or_eq.mp hj with hlt | rfl
    · have hne : key j ≠ key n := fun he => by
        have := hinj j (by omega) n (by omega) he
        omega
      rw [List.foldl_cons, List.foldl_nil, Function.update_of_ne hne]
      exact ih (fun a ha b hb => hinj a (by omega) b (by omega)) hlt
    · exact Function.update_self ..

/-- The exit mates: the entry matching, carried along the permutation. -/
theorem exitMates {m : Nat} {perm inv e : Nat → Nat} (hp : PermOn m perm) (he : Mates m e)
    (hinv : ∀ j < m, inv (perm j) = j) : Mates m fun i => perm (e (inv i)) := by
  have hsurj : ∀ i < m, ∃ j < m, perm j = i := fun i => exists_preimage hp.lt hp.inj
  refine ⟨fun i hi => ?_, fun i hi => ?_, fun i hi => ?_⟩
  · obtain ⟨j, hj, rfl⟩ := hsurj i hi
    rw [hinv j hj]
    exact hp.lt _ (he.lt j hj)
  · obtain ⟨j, hj, rfl⟩ := hsurj i hi
    simp only [hinv j hj]
    rw [hinv _ (he.lt j hj), he.invol j hj]
  · obtain ⟨j, hj, rfl⟩ := hsurj i hi
    simp only [hinv j hj]
    exact fun h => he.ne j hj (hp.inj _ (he.lt j hj) j hj h)

/-! ## One level of the recursion -/

/-- A colouring of the inputs as the two layers around the sub-networks need it. -/
structure Splits (h : Nat) (perm : Nat → Nat) (c : Nat → Bool) : Prop where
  entry : ∀ a < h, c (a + h) = !c a
  exit : ∀ j < h, c (perm (j + h)) = !c (perm j)

/-- Of the two inputs an exit switch delivers, the one of colour `b`. -/
def pick (h : Nat) (perm : Nat → Nat) (c : Nat → Bool) (b : Bool) (j : Nat) : Nat :=
  if c (perm j) = b then perm j else perm (j + h)

section Level

variable {h : Nat} {perm : Nat → Nat} {c : Nat → Bool}

theorem color_pick (hs : Splits h perm c) (b : Bool) {j : Nat} (hj : j < h) :
    c (pick h perm c b j) = b := by
  unfold pick
  split
  case isTrue hb => exact hb
  case isFalse hb =>
    rw [hs.exit j hj]
    cases hc : c (perm j) <;> cases b <;> simp_all

theorem pick_lt (hp : PermOn (2 * h) perm) (b : Bool) {j : Nat} (hj : j < h) :
    pick h perm c b j < 2 * h := by
  unfold pick
  split
  · exact hp.lt _ (by omega)
  · exact hp.lt _ (by omega)

/-- Inputs of one colour at the same position of their half are the same input. -/
theorem eq_of_mod_eq (hs : Splits h perm c) {i i' : Nat} (hi : i < 2 * h) (hi' : i' < 2 * h)
    (hc : c i = c i') (hmod : i % h = i' % h) : i = i' := by
  have hmate : ∀ a < h, c a ≠ c (a + h) := by
    intro a ha he
    rw [hs.entry a ha] at he
    cases hca : c a <;> simp [hca] at he
  have hval : ∀ x < 2 * h, x = x % h ∨ x = x % h + h := by
    intro x hx
    rcases Nat.lt_or_ge x h with hlt | hge
    · exact .inl (Nat.mod_eq_of_lt hlt).symm
    · rw [Nat.mod_eq_sub_mod hge, Nat.mod_eq_of_lt (by omega)]
      omega
  have hlt : i % h < h := Nat.mod_lt _ (by omega)
  rcases hval i hi with h₁ | h₁ <;> rcases hval i' hi' with h₂ | h₂
  · omega
  · rw [h₁, h₂, ← hmod] at hc
    exact absurd hc (hmate _ hlt)
  · rw [h₁, h₂, ← hmod] at hc
    exact absurd hc.symm (hmate _ hlt)
  · omega

/-- Each sub-network is given a permutation again. -/
theorem pick_permOn (hp : PermOn (2 * h) perm) (hs : Splits h perm c) (b : Bool) :
    PermOn h fun j => pick h perm c b j % h := by
  refine ⟨fun j hj => Nat.mod_lt _ (by omega), fun i hi j hj he => ?_⟩
  have hpick : pick h perm c b i = pick h perm c b j :=
    eq_of_mod_eq hs (pick_lt hp b hi) (pick_lt hp b hj)
      (by rw [color_pick hs b hi, color_pick hs b hj]) he
  unfold pick at hpick
  split at hpick <;> split at hpick
  all_goals
    have := hp.inj _ (by omega) _ (by omega) hpick
    omega

/-- The entry layer brings an input to its position in the sub-network of its colour. -/
theorem entry_source {k i : Nat} {s : Nat → Bool} (hs : Splits (2 ^ k) perm c)
    (hbit : ∀ a < 2 ^ k, s a = c a) (hi : i < 2 * 2 ^ k) :
    source k s (i % 2 ^ k + if c i then 2 ^ k else 0) = i := by
  have hlow : ∀ a < 2 ^ k, a.testBit k = false := fun a ha => Nat.testBit_lt_two_pow ha
  rcases Nat.lt_or_ge i (2 ^ k) with hlt | hge
  · rw [Nat.mod_eq_of_lt hlt]
    cases hc : c i with
    | false => simp [source_upper (hlow i hlt), hbit i hlt, hc]
    | true => simp [source_lower (hlow i hlt), hbit i hlt, hc]
  · obtain ⟨a, rfl⟩ : ∃ a, i = a + 2 ^ k := ⟨i - 2 ^ k, by omega⟩
    have ha : a < 2 ^ k := by omega
    rw [Nat.add_mod_right, Nat.mod_eq_of_lt ha, hs.entry a ha]
    cases hc : c a with
    | false => simp [source_lower (hlow a ha), hbit a ha, hc]
    | true => simp [source_upper (hlow a ha), hbit a ha, hc]

/-- The exit layer takes output `j` from the sub-network of the colour of `perm j`. -/
theorem exit_source {k j : Nat} {s : Nat → Bool} (hs : Splits (2 ^ k) perm c)
    (hbit : ∀ a < 2 ^ k, s a = c (perm a)) (hj : j < 2 * 2 ^ k) :
    source k s j = j % 2 ^ k + (if c (perm j) then 2 ^ k else 0) ∧
      pick (2 ^ k) perm c (c (perm j)) (j % 2 ^ k) = perm j := by
  have hlow : ∀ a < 2 ^ k, a.testBit k = false := fun a ha => Nat.testBit_lt_two_pow ha
  rcases Nat.lt_or_ge j (2 ^ k) with hlt | hge
  · rw [Nat.mod_eq_of_lt hlt, source_upper (hlow j hlt), hbit j hlt]
    refine ⟨?_, if_pos rfl⟩
    split <;> rfl
  · obtain ⟨a, rfl⟩ : ∃ a, j = a + 2 ^ k := ⟨j - 2 ^ k, by omega⟩
    have ha : a < 2 ^ k := by omega
    rw [Nat.add_mod_right, Nat.mod_eq_of_lt ha, source_lower (hlow a ha), hbit a ha,
      pick, hs.exit a ha]
    cases c (perm a) with
    | false => exact ⟨rfl, rfl⟩
    | true => exact ⟨rfl, rfl⟩

end Level

/-! ## Blocks -/

/-- The layers `lo, ..., lo + n - 1` as a switching network. -/
def net (v : Nat) (layers : Layers) (lo n : Nat) : List (Nat × (Nat → Bool)) :=
  (List.range' lo n).map fun l => (strideBit v l, layers l)

/-- One layer, rewritten on the wires `base, ..., base + n - 1`. -/
def Layers.fill (layers : Layers) (layer base n : Nat) (bit : Nat → Bool) : Layers := fun l w =>
  if l = layer ∧ base ≤ w ∧ w < base + n then bit (w - base) else layers l w

/-- The loops that write a layer: with their assertions true, they fill it. -/
theorem fill_loop {cond : Nat → Prop} [DecidablePred cond] {n : Nat} (hcond : ∀ a < n, cond a)
    (layers : Layers) (layer base : Nat) (bit : Nat → Bool) :
    (List.range n).foldlM (fun layers a => do
      ensure (cond a)
      .ok (Layers.set layers layer (base + a) (bit a))) layers =
        .ok (layers.fill layer base n bit) := by
  obtain ⟨layers', hrun, rfl⟩ := foldlM_range_ok (fun a l => l = layers.fill layer base a bit)
    (f := fun layers a => do
      ensure (cond a)
      .ok (Layers.set layers layer (base + a) (bit a))) (n := n) (s := layers)
    (by funext l w; rw [Layers.fill, if_neg (by omega)])
    (fun a ha l hl => by
      refine ⟨_, by rw [ensure_ok (hcond a ha), ok_bind], ?_⟩
      subst hl
      funext l w
      by_cases hl : l = layer
      · subst hl
        by_cases hw : w = base + a
        · subst hw
          simp [Layers.set, Layers.fill]
        · simp only [Layers.set, Layers.fill, Function.update_self, Function.update_of_ne hw]
          have hiff : w < base + a ↔ w < base + (a + 1) := by omega
          simp only [hiff]
      · simp [Layers.set, Layers.fill, hl])
  exact hrun

/-- What routing a block of `2 ^ t` wires from `2 ^ t * q` on achieves. -/
structure Routed (v t q depth : Nat) (perm : Nat → Nat) (layers layers' : Layers) : Prop where
  frame : ∀ l w, l < depth ∨ 2 * v - 2 - depth < l ∨ w < 2 ^ t * q ∨ 2 ^ t * q + 2 ^ t ≤ w →
    layers' l w = layers l w
  realizes : ∀ j < 2 ^ t,
    sources (net v layers' depth (2 * t - 1)) (2 ^ t * q + j) = 2 ^ t * q + perm j

theorem Routed.congr {v t q depth : Nat} {f g : Nat → Nat} {layers layers' : Layers}
    (h : Routed v t q depth f layers layers') (hfg : ∀ j < 2 ^ t, f j = g j) :
    Routed v t q depth g layers layers' :=
  ⟨h.frame, fun j hj => hfg j hj ▸ h.realizes j hj⟩

theorem strideBit_lt {v depth t l : Nat} (hv : depth + t = v) (hlo : depth ≤ l)
    (hhi : l < depth + (2 * t - 1)) : strideBit v l < t := by
  unfold strideBit
  split <;> omega

theorem net_congr {v t q lo n : Nat} {layers layers' : Layers}
    (hk : ∀ l, lo ≤ l → l < lo + n → strideBit v l < t)
    (hw : ∀ l, lo ≤ l → l < lo + n → ∀ w < 2 ^ t,
      layers l (2 ^ t * q + w) = layers' l (2 ^ t * q + w)) {i : Nat} (hi : i < 2 ^ t) :
    sources (net v layers lo n) (2 ^ t * q + i) = sources (net v layers' lo n) (2 ^ t * q + i) := by
  have hmem : ∀ l ∈ List.range' lo n, lo ≤ l ∧ l < lo + n := fun l hl => by
    simpa [List.mem_range'_1] using hl
  have hstride : ∀ layers : Layers, ∀ l ∈ net v layers lo n, l.1 < t := by
    intro layers l hl
    obtain ⟨l', hl', rfl⟩ := List.mem_map.mp hl
    exact hk l' (hmem l' hl').1 (hmem l' hl').2
  rw [sources_block (hstride layers) q hi, sources_block (hstride layers') q hi]
  simp only [net, List.map_map, Function.comp_def]
  rw [sources_congr (fun l hl => hk l (hmem l hl).1 (hmem l hl).2)
    (fun l hl => hw l (hmem l hl).1 (hmem l hl).2) hi]

/-- A network between its entry and its exit layer. -/
theorem sources_net_split {v t depth : Nat} (hv : depth + (t + 2) = v) (layers : Layers) (i : Nat) :
    sources (net v layers depth (2 * (t + 2) - 1)) i =
      source (t + 1) (layers depth)
        (sources (net v layers (depth + 1) (2 * (t + 1) - 1))
          (source (t + 1) (layers (2 * v - 2 - depth)) i)) := by
  have hentry : strideBit v depth = t + 1 := by unfold strideBit; split <;> omega
  have hexit : strideBit v (2 * v - 2 - depth) = t + 1 := by unfold strideBit; split <;> omega
  have hrange : List.range' depth (2 * (t + 2) - 1) =
      depth :: (List.range' (depth + 1) (2 * (t + 1) - 1) ++ [2 * v - 2 - depth]) := by
    rw [show 2 * (t + 2) - 1 = (2 * (t + 1) - 1 + 1) + 1 by omega, List.range'_succ,
      List.range'_1_concat, show depth + 1 + (2 * (t + 1) - 1) = 2 * v - 2 - depth by omega]
  rw [net, hrange, List.map_cons, List.map_append, sources, sources_append]
  simp only [List.map_cons, List.map_nil, sources, hentry, hexit]
  rfl

/-- The single switch of the middle layer. -/
theorem routeBlock_one {v q depth : Nat} {perm : Nat → Nat} (hv : depth + 1 = v)
    (hp : PermOn 2 perm) (layers : Layers) :
    ∃ layers', routeBlock v 1 perm (2 ^ 1 * q) depth layers = .ok layers' ∧
      Routed v 1 q depth perm layers layers' := by
  refine ⟨_, by rw [routeBlock, ensure_ok (by omega), ok_bind], ?_, ?_⟩
  · intro l w h
    by_cases hl : l = v - 1
    · subst hl
      have hw : w ≠ 2 * q := by omega
      simp [Layers.set, Function.update_of_ne hw]
    · simp [Layers.set, hl]
  · intro j hj
    have hstride : strideBit v depth = 0 := by unfold strideBit; split <;> omega
    have h0 := hp.lt 0 (by omega)
    have h1 := hp.lt 1 (by omega)
    have hne : perm 0 ≠ perm 1 := fun h => absurd (hp.inj 0 (by omega) 1 (by omega) h) (by omega)
    have hdepth : v - 1 = depth := by omega
    change source (strideBit v depth) _ (2 ^ 1 * q + j) = _
    rw [hstride, source_block (by omega) q hj, hdepth]
    congr 1
    interval_cases j
    · rw [source_upper rfl]
      by_cases h : perm 0 = 1
      · simp [Layers.set, h]
      · simp [Layers.set, h]
        omega
    · rw [show (1 : Nat) = 0 + 2 ^ 0 from rfl, source_lower rfl]
      by_cases h : perm 0 = 1
      · simp [Layers.set, h]
        omega
      · simp [Layers.set, h]
        omega

/-- A proper colouring splits the inputs. -/
theorem splits_of_opposite {h : Nat} {perm inv : Nat → Nat} {color : Nat → Option Bool}
    (hp : PermOn (2 * h) perm) (hinv : ∀ j < 2 * h, inv (perm j) = j)
    (hall : ∀ j < 2 * h, color j ≠ none)
    (he : Opposite (2 * h) (fun i => (i + h) % (2 * h)) color)
    (hx : Opposite (2 * h) (fun i => perm ((inv i + h) % (2 * h))) color) :
    Splits h perm fun i => color i == some true := by
  have key : ∀ i k, i < 2 * h → (∀ b, color i = some b → color k = some !b) →
      (color k == some true) = !(color i == some true) := by
    intro i k hi hk
    obtain ⟨b, hb⟩ := Option.ne_none_iff_exists'.mp (hall i hi)
    rw [hk b hb, hb]
    cases b <;> rfl
  refine ⟨fun a ha => key a _ (by omega) fun b hb => ?_, fun j hj => ?_⟩
  · have := he a (by omega) b hb
    simpa only [entryMate_low ha] using this
  · refine key _ _ (hp.lt j (by omega)) fun b hb => ?_
    have := hx _ (hp.lt j (by omega)) b hb
    simpa only [hinv j (by omega), entryMate_low hj] using this

theorem Splits.color_ne {h : Nat} {perm : Nat → Nat} {color : Nat → Option Bool}
    (hs : Splits h perm fun i => color i == some true) :
    (∀ a < h, color a ≠ color (a + h)) ∧ ∀ j < h, color (perm j) ≠ color (perm (j + h)) := by
  refine ⟨fun a ha he => ?_, fun j hj he => ?_⟩
  · have := hs.entry a ha
    simp [he] at this
  · have := hs.exit j hj
    simp [he] at this

/-- `pick` names what the code computes as the two sub-permutations. -/
theorem pick_false (h : Nat) {perm : Nat → Nat} {color : Nat → Option Bool} {j : Nat}
    (hc : color (perm j) ≠ none) :
    pick h perm (fun i => color i == some true) false j =
      if color (perm j) = some false then perm j else perm (j + h) := by
  obtain ⟨b, hb⟩ := Option.ne_none_iff_exists'.mp hc
  cases b <;> simp [pick, hb]

theorem pick_true (h : Nat) {perm : Nat → Nat} {color : Nat → Option Bool} {j : Nat}
    (hc : color (perm j) ≠ none) :
    pick h perm (fun i => color i == some true) true j =
      if color (perm j) = some false then perm (j + h) else perm j := by
  obtain ⟨b, hb⟩ := Option.ne_none_iff_exists'.mp hc
  cases b <;> simp [pick, hb]

/-- A block is routed: its two halves are, between the entry and the exit layer. -/
theorem Routed.level {v t q depth : Nat} {perm : Nat → Nat} {c : Nat → Bool}
    {layers layersTop layersBot : Layers} (hv : depth + (t + 2) = v)
    (hs : Splits (2 ^ (t + 1)) perm c)
    (hentry : ∀ a < 2 ^ (t + 1), layers depth (2 ^ (t + 2) * q + a) = c a)
    (hexit : ∀ j < 2 ^ (t + 1), layers (2 * v - 2 - depth) (2 ^ (t + 2) * q + j) = c (perm j))
    (htop : Routed v (t + 1) (2 * q) (depth + 1)
      (fun j => pick (2 ^ (t + 1)) perm c false j % 2 ^ (t + 1)) layers layersTop)
    (hbot : Routed v (t + 1) (2 * q + 1) (depth + 1)
      (fun j => pick (2 ^ (t + 1)) perm c true j % 2 ^ (t + 1)) layersTop layersBot)
    (hp : PermOn (2 * 2 ^ (t + 1)) perm) {j : Nat} (hj : j < 2 * 2 ^ (t + 1)) :
    sources (net v layersBot depth (2 * (t + 2) - 1)) (2 ^ (t + 2) * q + j) =
      2 ^ (t + 2) * q + perm j := by
  have hpow : 2 ^ (t + 2) = 2 * 2 ^ (t + 1) := Nat.pow_succ'
  have hbase₀ : 2 ^ (t + 2) * q = 2 ^ (t + 1) * (2 * q) := by rw [hpow]; ring
  have hbase₁ : 2 ^ (t + 2) * q + 2 ^ (t + 1) = 2 ^ (t + 1) * (2 * q + 1) := by rw [hpow]; ring
  have houter : ∀ l, l = depth ∨ l = 2 * v - 2 - depth → layersBot l = layers l := by
    intro l hl
    funext w
    rw [hbot.frame l w (by omega), htop.frame l w (by omega)]
  have hmod : j % 2 ^ (t + 1) < 2 ^ (t + 1) := Nat.mod_lt _ (by positivity)
  -- what the two sub-networks deliver
  have hinner : ∀ b, ∀ a < 2 ^ (t + 1),
      sources (net v layersBot (depth + 1) (2 * (t + 1) - 1))
        (2 ^ (t + 2) * q + (a + if b then 2 ^ (t + 1) else 0)) =
      2 ^ (t + 2) * q + (pick (2 ^ (t + 1)) perm c b a % 2 ^ (t + 1) +
        if b then 2 ^ (t + 1) else 0) := by
    intro b a ha
    have hstride : ∀ l, depth + 1 ≤ l → l < depth + 1 + (2 * (t + 1) - 1) →
        strideBit v l < t + 1 := fun l h₁ h₂ => strideBit_lt (by omega) h₁ h₂
    cases b with
    | false =>
      simp only [Bool.false_eq_true, if_false, Nat.add_zero]
      rw [hbase₀, ← htop.realizes a ha]
      exact net_congr hstride (fun l h₁ h₂ w hw => hbot.frame l _ (by
        rw [← hbase₁, hbase₀]; omega)) ha
    | true =>
      simp only [if_true]
      rw [Nat.add_comm a, ← Nat.add_assoc, hbase₁, hbot.realizes a ha, ← hbase₁]
      omega
  rw [sources_net_split hv, houter _ (.inl rfl), houter _ (.inr rfl),
    source_block (by omega) q (by omega)]
  obtain ⟨hx, hpick⟩ := exit_source hs hexit hj
  rw [hx, hinner _ _ hmod, hpick, source_block (by omega) q, entry_source hs hentry (hp.lt j hj)]
  have := Nat.mod_lt (perm j) (show 0 < 2 ^ (t + 1) by positivity)
  split <;> omega

/-- Routing a block of any size succeeds. -/
theorem routeBlock_ok {v t q depth : Nat} {perm : Nat → Nat} (hv : depth + (t + 1) = v)
    (hp : PermOn (2 ^ (t + 1)) perm) (layers : Layers) :
    ∃ layers', routeBlock v (t + 1) perm (2 ^ (t + 1) * q) depth layers = .ok layers' ∧
      Routed v (t + 1) q depth perm layers layers' := by
  induction t generalizing q depth perm layers with
  | zero => exact routeBlock_one hv hp layers
  | succ t ih =>
    have hpow : 2 ^ (t + 2) = 2 * 2 ^ (t + 1) := Nat.pow_succ'
    have hp' : PermOn (2 * 2 ^ (t + 1)) perm := hpow ▸ hp
    have he := entryMates (2 ^ (t + 1)) (by positivity)
    have hinv : ∀ j < 2 * 2 ^ (t + 1), (List.range (2 * 2 ^ (t + 1))).foldl
        (fun inv j => Function.update inv (perm j) j) (fun _ => 0) (perm j) = j :=
      fun j hj => foldl_update_apply hp'.inj (fun _ => 0) hj
    obtain ⟨color, hcolor, hoe, hox, hall⟩ := colorInputs_ok he (exitMates hp' he hinv)
    have hs := splits_of_opposite hp' hinv hall hoe hox
    rw [routeBlock]
    simp only [hpow, hcolor, ok_bind]
    rw [fill_loop hs.color_ne.1, ok_bind, fill_loop hs.color_ne.2, ok_bind]
    have hcol : ∀ j < 2 ^ (t + 1), color (perm j) ≠ none :=
      fun j hj => hall _ (hp'.lt j (by omega))
    generalize hB : ((layers.fill depth (2 * 2 ^ (t + 1) * q) (2 ^ (t + 1))
      fun a => color a == some true).fill (2 * v - 2 - depth) (2 * 2 ^ (t + 1) * q) (2 ^ (t + 1))
      fun j => color (perm j) == some true) = layersB
    have htopEq := fun j hj => congrArg (· % 2 ^ (t + 1)) (pick_false (2 ^ (t + 1)) (hcol j hj))
    have hbotEq := fun j hj => congrArg (· % 2 ^ (t + 1)) (pick_true (2 ^ (t + 1)) (hcol j hj))
    obtain ⟨layersTop, htop, hrTop⟩ := @ih (2 * q) (depth + 1) _ (by omega)
      ((pick_permOn hp' hs false).congr htopEq) layersB
    obtain ⟨layersBot, hbot, hrBot⟩ := @ih (2 * q + 1) (depth + 1) _ (by omega)
      ((pick_permOn hp' hs true).congr hbotEq) layersTop
    have hrTop := hrTop.congr fun j hj => (htopEq j hj).symm
    have hrBot := hrBot.congr fun j hj => (hbotEq j hj).symm
    have hbase₂ : 2 * 2 ^ (t + 1) * q = 2 ^ (t + 1) * (2 * q) := by ring
    have hbase₃ : 2 * 2 ^ (t + 1) * q + 2 ^ (t + 1) = 2 ^ (t + 1) * (2 * q + 1) := by ring
    refine ⟨layersBot, ?_, ?_, ?_⟩
    · rw [← hbase₂] at htop
      rw [← hbase₃] at hbot
      rw [htop, ok_bind, hbot]
    · intro l w hout
      simp only [hpow] at hout
      rw [hrBot.frame l w (by omega), hrTop.frame l w (by omega), ← hB, Layers.fill,
        if_neg (by omega), Layers.fill, if_neg (by omega)]
    · intro j hj
      refine Routed.level hv hs (fun a ha => ?_) (fun j hj => ?_) hrTop hrBot hp' (hpow ▸ hj)
      · rw [← hB, hpow, Layers.fill, if_neg (by omega), Layers.fill, if_pos (by omega),
          Nat.add_sub_cancel_left]
      · rw [← hB, hpow, Layers.fill, if_pos (by omega), Nat.add_sub_cancel_left]

/-- **Routing is complete.** Every permutation of `2 ^ v` wires is routed, and the
settings bring input `perm[j]` to output `j`. -/
theorem route_ok {v : Nat} (hv : 1 ≤ v) {perm : List Nat} (hlen : perm.length = 2 ^ v)
    (hlt : ∀ p ∈ perm, p < 2 ^ v) (hnodup : perm.Nodup) :
    ∃ layers, route perm = .ok layers ∧
      ∀ j < 2 ^ v, sources (net v layers 0 (numLayers v)) j = perm.getD j 0 := by
  obtain ⟨t, rfl⟩ : ∃ t, v = t + 1 := ⟨v - 1, by omega⟩
  have hget : ∀ j (hj : j < 2 ^ (t + 1)), perm.getD j 0 = perm.get ⟨j, hlen ▸ hj⟩ := by
    intro j hj
    simp [List.getD_eq_getElem?_getD, hlen, hj]
  have hp : PermOn (2 ^ (t + 1)) fun j => perm.getD j 0 := by
    refine ⟨fun j hj => ?_, fun i hi j hj he => ?_⟩
    · simp only [hget j hj]
      exact hlt _ (List.getElem_mem _)
    · simp only [hget i hi, hget j hj] at he
      exact (hnodup.getElem_inj_iff).mp he
  obtain ⟨layers, hroute, hrouted⟩ :=
    routeBlock_ok (q := 0) (Nat.zero_add _) hp fun _ _ => false
  refine ⟨layers, ?_, fun j hj => by simpa [numLayers] using hrouted.realizes j hj⟩
  have htwo : 2 ≤ 2 ^ (t + 1) := by rw [Nat.pow_succ']; have := Nat.one_le_two_pow (n := t); omega
  rw [route, hlen, Nat.log2_two_pow, ensure_ok ⟨htwo, rfl⟩, ok_bind, ensure_ok ⟨hlt, hnodup⟩,
    ok_bind]
  simpa using hroute

/-! ## Applying a layer -/

theorem and_stride_eq_zero (k i : Nat) : i &&& 2 ^ k = 0 ↔ i.testBit k = false := by
  rw [Nat.and_two_pow]
  cases i.testBit k <;> simp

/-- The upper wire of the switch at `i`. -/
def upperWire (k i : Nat) : Nat := if i.testBit k then i - 2 ^ k else i

theorem upperWire_cases {k i : Nat} :
    (i.testBit k = false ∧ upperWire k i = i) ∨
      ∃ j, j.testBit k = false ∧ i = j + 2 ^ k ∧ upperWire k i = j := by
  cases h : i.testBit k with
  | false => exact .inl ⟨rfl, by simp [upperWire, h]⟩
  | true =>
    obtain ⟨j, hj, rfl⟩ := exists_upper h
    exact .inr ⟨j, hj, rfl, by simp [upperWire, testBit_add_stride hj]⟩

theorem upperWire_source (k : Nat) (s : Nat → Bool) (i : Nat) :
    upperWire k (source k s i) = upperWire k i := by
  rcases upperWire_cases (k := k) (i := i) with ⟨hbit, hup⟩ | ⟨j, hbit, rfl, hup⟩
  · rw [hup, source_upper hbit]
    split
    · simp [upperWire, testBit_add_stride hbit]
    · exact hup
  · rw [hup, source_lower hbit]
    split
    · simp [upperWire, hbit]
    · exact hup

/-- One iteration does the switch whose upper wire it stands at. -/
theorem switch_apply {α : Type*} (state : Nat → α) (k : Nat) (bits : Nat → Bool) (n i : Nat) :
    (if n &&& 2 ^ k = 0 ∧ bits n then swap state n (n + 2 ^ k) else state) i =
      if upperWire k i = n then state (source k bits i) else state i := by
  have hpos : 0 < 2 ^ k := by positivity
  simp only [and_stride_eq_zero]
  rcases upperWire_cases (k := k) (i := i) with ⟨hbit, hup⟩ | ⟨j, hbit, rfl, hup⟩
  · rw [hup, source_upper hbit]
    by_cases hin : i = n
    · subst hin
      cases hb : bits i with
      | false => simp
      | true => simp [hbit, swap]
    · rw [if_neg hin]
      split
      case isFalse => rfl
      case isTrue h =>
        have hne : i ≠ n + 2 ^ k := by
          rintro rfl
          rw [testBit_add_stride h.1] at hbit
          cases hbit
        rw [swap, Function.update_of_ne hne, Function.update_of_ne hin]
  · rw [hup, source_lower hbit]
    by_cases hjn : j = n
    · subst hjn
      cases hb : bits j with
      | false => simp
      | true => simp [hbit, swap]
    · rw [if_neg hjn]
      split
      case isFalse => rfl
      case isTrue h =>
        have hne : j + 2 ^ k ≠ n := by
          rintro rfl
          rw [testBit_add_stride hbit] at h
          cases h.1
        rw [swap, Function.update_of_ne (by omega), Function.update_of_ne hne]

/-- `apply_layer` moves the contents as the switching layer says. -/
theorem applyLayer_apply {α : Type*} (state : Nat → α) (v layer : Nat) (bits : Nat → Bool) {i : Nat}
    (hi : i < 2 ^ v) :
    applyLayer state v layer bits i = state (source (strideBit v layer) bits i) := by
  rw [applyLayer]
  generalize strideBit v layer = k
  -- after `n` iterations exactly the switches with upper wire below `n` are done
  suffices hrun : ∀ n i, ((List.range n).foldl (fun state i =>
      if i &&& 2 ^ k = 0 ∧ bits i then swap state i (i + 2 ^ k) else state) state) i =
        if upperWire k i < n then state (source k bits i) else state i by
    refine (hrun (2 ^ v) i).trans (if_pos (Nat.lt_of_le_of_lt ?_ hi))
    unfold upperWire
    split
    · exact Nat.sub_le _ _
    · exact le_rfl
  intro n
  induction n with
  | zero => simp
  | succ n ih =>
    intro i
    rw [List.range_succ, List.foldl_append, List.foldl_cons, List.foldl_nil, switch_apply, ih, ih,
      upperWire_source]
    by_cases hn : upperWire k i = n
    · rw [if_pos hn, if_neg (by omega), if_pos (by omega)]
    · rw [if_neg hn]
      have hiff : upperWire k i < n ↔ upperWire k i < n + 1 := by omega
      simp only [hiff]

end Zkmemory.Zincplus
