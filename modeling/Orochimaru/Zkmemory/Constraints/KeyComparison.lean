import Orochimaru.Zkmemory.Constraints.SortedSoundness

/-!
# The comparison of two rows

Where the limbs are bytes, the ordering check compares the numbers they stand for. A row
that is not larger passes only for the few values of `alpha` at which the combination of
its earlier differences vanishes; a larger row, as the sorted circuit assigns it, passes
for all of them.
-/

namespace Zkmemory.Constraints

open Plonkish FieldDigits Positional ConvertedTraceRecord Loops

variable {p : Nat} [Fact p.Prime]

/-! ## Limbs that are bytes -/

/-- The number the first `n` limbs stand for. -/
def limbKey (n : Nat) (limbs : List (ZMod p)) : Nat := beVal 256 n fun i => (limbs.getD i 0).val

def ByteLimbs (n : Nat) (limbs : List (ZMod p)) : Prop := ∀ j < n, (limbs.getD j 0).val < 256

theorem byteLimbs_iff (hp : 256 ≤ p) {n : Nat} {limbs : List (ZMod p)} (hlen : limbs.length = n) :
    ByteLimbs n limbs ↔ ∀ x ∈ limbs, Below 256 x := by
  have hval : ∀ x : ZMod p, Below 256 x ↔ x.val < 256 := fun x => exists_lt_iff_val hp
  constructor
  · intro h x hx
    obtain ⟨j, hj, rfl⟩ := List.mem_iff_getElem.mp hx
    have hbyte := h j (hlen ▸ hj)
    rwa [List.getD_eq_getElem _ _ hj, ← hval] at hbyte
  · intro h j hj
    rw [List.getD_eq_getElem _ _ (hlen ▸ hj), ← hval]
    exact h _ (List.getElem_mem _)

theorem limbDifference_eq_zero {j : Nat} {cur prev : List (ZMod p)} :
    limbDifference cur prev j = 0 ↔ (cur.getD j 0).val = (prev.getD j 0).val := by
  rw [limbDifference, sub_eq_zero]
  exact (ZMod.val_injective p).eq_iff.symm

/-- A row named by the check is larger, if no earlier limb differs. -/
theorem GreaterThanConfig.Ordered.limbKey_lt (hp : 2 ^ 9 < p) {N n r k : Nat}
    {g : GreaterThanConfig (ZMod p) N} {alpha : ZMod p} {cur prev : List (ZMod p)}
    (h : g.Ordered alpha cur prev r k) (hk : k < n) (hcur : ByteLimbs n cur)
    (hprev : ByteLimbs n prev) (hrange : Below 256 (g.difference r))
    (hbefore : ∀ j < k, limbDifference cur prev j = 0) : limbKey n prev < limbKey n cur := by
  obtain ⟨d, hd, hdiff⟩ := hrange
  have hne : d ≠ 0 := by
    rintro rfl
    have hinv := h.inverse
    rw [hdiff, Nat.cast_zero, zero_mul] at hinv
    exact zero_ne_one hinv
  have hlt : (prev.getD k 0).val < (cur.getD k 0).val := by
    have hhere := h.here
    have hc := hcur k hk
    have hp' := hprev k hk
    rw [hdiff, limbDifference, eq_sub_iff_add_eq, ← ZMod.natCast_zmod_val (cur.getD k 0),
      ← ZMod.natCast_zmod_val (prev.getD k 0), ← Nat.cast_add,
      natCast_inj_of_lt (by omega) (by omega)] at hhere
    omega
  refine beVal_lt_of_first_diff (fun i hi => hprev i hi) hk (fun j hj => ?_) hlt
  exact (limbDifference_eq_zero.mp (hbefore j hj)).symm

/-! ## One row of the check -/

section Row

variable {c : GreaterThanConfig (ZMod p) 6} {t : TraceRecordWitnessTable (ZMod p)} {alpha : ZMod p}
  {tables : LookUpTables (ZMod p)} {selector : Column (ZMod p)} {D : Domain} {r : Nat}

theorem gatesHold_iff : (c.configure t (alphaPower alpha 40) tables selector true).GatesHold D r ↔
    c.RowHolds t alpha selector true (D.at r) := by
  change (∀ g ∈ (((c.firstDifferenceLimb.configure selector).gates ++
    c.gates t (alphaPower alpha 40) selector true) ++ []) ++ [], _) ↔ _
  rw [List.append_nil, List.append_nil, List.forall_mem_append]
  rfl

theorem lookupsHold_iff (htab : tables.Loaded D) :
    (c.configure t (alphaPower alpha 40) tables selector true).LookupsHold D r ↔
      Below 40 (c.lookupValue r) ∧ Below 256 (c.difference r) := by
  change (∀ l ∈ [(c.lookupValue, tables.size40Table), (c.difference, tables.size256Table)], _) ↔ _
  rw [List.forall_mem_cons, List.forall_mem_singleton, htab.size40.mem_iff, htab.size256.mem_iff]

/-- Bits in range of the table name a limb. -/
theorem index_lt_of_below (hp : 2 ^ 6 < p) (hrange : Below 40 (c.lookupValue r)) {k : Nat}
    (hk : k < 2 ^ 6) (hbits : ∀ i, c.index r i = (asBits 6 k i : ZMod p)) : k < 40 := by
  obtain ⟨v, hv, he⟩ := hrange
  rw [c.lookupValue_asBits hk hbits, natCast_inj_of_lt (by omega) (by omega)] at he
  omega

/-- The gates at a selected row. -/
theorem gatesHold_ordered_iff (hp : 2 ^ 6 < p) (hr : r + 1 < D.usable) (hsel : selector (r + 1) = 1)
    (hrange : Below 40 (c.lookupValue (r + 1))) :
    (c.configure t (alphaPower alpha 40) tables selector true).GatesHold D (r + 1) ↔
      ∃ k < 40, c.Ordered alpha (t.limbs true (r + 1)) (t.limbs true r) (r + 1) k := by
  have hrows := D.usable_lt
  have hcur : D.at (r + 1) .cur = r + 1 := D.at_cur (by omega)
  have hprev : D.at (r + 1) .prev = r := D.at_prev (by omega)
  rw [gatesHold_iff, c.rowHolds_iff (by decide) (by rwa [hcur]), hcur, hprev]
  · rfl
  · intro k hk hbits
    rw [hcur] at hbits
    exact index_lt_of_below hp hrange hk hbits

/-- A row that is not larger passes for few values of `alpha`. -/
theorem encard_gatesHold_le (hp : 2 ^ 9 < p) (hr : r + 1 < D.usable) (hsel : selector (r + 1) = 1)
    (hprev : ByteLimbs 40 (t.limbs true r)) (hcur : ByteLimbs 40 (t.limbs true (r + 1)))
    (hindex : Below 40 (c.lookupValue (r + 1))) (hrange : Below 256 (c.difference (r + 1)))
    (hle : ¬ limbKey 40 (t.limbs true r) < limbKey 40 (t.limbs true (r + 1))) :
    {alpha | (c.configure t (alphaPower alpha 40) tables selector true).GatesHold D
      (r + 1)}.encard ≤ 39 := by
  rcases Set.eq_empty_or_nonempty {alpha | (c.configure t (alphaPower alpha 40) tables selector
    true).GatesHold D (r + 1)} with hempty | ⟨alpha₀, h₀⟩
  · rw [hempty, Set.encard_empty]
    exact zero_le
  · have hgates : ∀ alpha, (c.configure t (alphaPower alpha 40) tables selector true).GatesHold D
        (r + 1) ↔ ∃ k < 40, c.Ordered alpha (t.limbs true (r + 1)) (t.limbs true r) (r + 1) k :=
      fun alpha => gatesHold_ordered_iff (by omega) hr hsel hindex
    obtain ⟨k, hk, hord⟩ := (hgates alpha₀).mp h₀
    have hdiffer : ∃ j < k, limbDifference (t.limbs true (r + 1)) (t.limbs true r) j ≠ 0 := by
      by_contra hall
      push Not at hall
      exact hle (hord.limbKey_lt hp hk hcur hprev hrange hall)
    -- the bits name the same limb for every `alpha`
    have hsub : {alpha | (c.configure t (alphaPower alpha 40) tables selector true).GatesHold D
        (r + 1)} ⊆ {alpha | combination alpha k
          (limbDifference (t.limbs true (r + 1)) (t.limbs true r)) = 0} := by
      intro alpha halpha
      obtain ⟨m, hm, hord'⟩ := (hgates alpha).mp halpha
      have hkm : k = m := by
        refine asBits_inj (N := 6) (by omega) (by omega) fun i => ?_
        have hi := (hord.bits i).symm.trans (hord'.bits i)
        have h2 := asBits_lt 6 k i
        have h2' := asBits_lt 6 m i
        exact (natCast_inj_of_lt (by omega) (by omega)).mp hi
      rw [hkm]
      exact hord'.before
    calc _ ≤ _ := Set.encard_le_encard hsub
      _ ≤ ((k - 1 : Nat) : ℕ∞) := encard_combination_eq_zero_le hdiffer
      _ ≤ 39 := by exact_mod_cast (show k - 1 ≤ 39 by omega)

end Row

/-! ## The row the circuit assigns -/

theorem map_getD_range {limbs : List (ZMod p)} {n : Nat} (hlen : limbs.length = n) :
    (List.range n).map (fun i => limbs.getD i 0) = limbs := by
  apply List.ext_getElem
  · simp [hlen]
  · intro i hi₁ hi₂
    rw [List.getElem_map, List.getElem_range, List.getD_eq_getElem _ _ hi₂]

/-- The comparison cells do not depend on the element drawn, which only has to be invertible. -/
theorem sortedMemoryAssign_difference {records : List (ConvertedTraceRecord (ZMod p))}
    {random : ZMod p} {offset k : Nat} {prev cur : ConvertedTraceRecord (ZMod p)} {x y : ZMod p}
    (hprev : records[offset]? = some prev) (hcur : records[offset + 1]? = some cur)
    (hfind : findDifference 40 (cur.beLimbs true) (prev.beLimbs true) = (k, x, y))
    (hne : x - y ≠ 0) :
    (random ≠ 0 → ∃ row, sortedMemoryAssign records random (offset + 1) = .ok row) ∧
      ∀ row, sortedMemoryAssign records random (offset + 1) = .ok row →
        row.difference = x - y ∧ row.differenceInverse = (x - y)⁻¹ ∧
          row.firstDifferenceLimb = assignBits k := by
  rw [sortedMemoryAssign, hcur, hprev]
  simp only [hfind, invert_of_ne hne, ok_bind]
  constructor
  · intro hrandom
    by_cases hdiff : addressLimbToField cur.address - addressLimbToField prev.address = 0
    · rw [if_pos hdiff, invert_of_ne hrandom]
      exact ⟨_, rfl⟩
    · rw [if_neg hdiff, invert_of_ne hdiff]
      exact ⟨_, rfl⟩
  · intro row hrow
    split at hrow
    · obtain ⟨_, -, hrow⟩ := bind_ok_iff.mp hrow
      cases hrow
      exact ⟨rfl, rfl, rfl⟩
    · obtain ⟨_, -, hrow⟩ := bind_ok_iff.mp hrow
      cases hrow
      exact ⟨rfl, rfl, rfl⟩

/-- A larger row differs from the one before it first at a limb where it is larger. -/
theorem exists_first_larger {cur prev : List (ZMod p)} (hcur : ByteLimbs 40 cur)
    (hprev : ByteLimbs 40 prev) (hlt : limbKey 40 prev < limbKey 40 cur) :
    ∃ k < 40, FirstLarger (fun i => (cur.getD i 0).val) (fun i => (prev.getD i 0).val) k := by
  obtain ⟨k, hk, hbefore, hlarger⟩ := (beVal_lt_iff (fun i hi => hprev i hi)
    fun i hi => hcur i hi).mp hlt
  exact ⟨k, hk, fun j hj => (hbefore j hj).symm, hlarger, hcur k hk⟩

/-- The cells of a config at row `r` are those of an assigned row. -/
structure GreaterThanConfig.Holding (c : GreaterThanConfig (ZMod p) 6) (r : Nat)
    (row : SortedMemoryRow (ZMod p)) : Prop where
  difference : c.difference r = row.difference
  differenceInverse : c.differenceInverse r = row.differenceInverse
  bits : ∀ i, c.index r i = row.firstDifferenceLimb i

section Assigned

variable {c : GreaterThanConfig (ZMod p) 6} {t : TraceRecordWitnessTable (ZMod p)}
  {tables : LookUpTables (ZMod p)} {selector : Column (ZMod p)} {D : Domain} {r offset : Nat}
  {records : List (ConvertedTraceRecord (ZMod p))}

theorem assigned_of_larger (random : ZMod p) (hp : 2 ^ 9 < p) (hr : r + 1 < D.usable)
    (htab : tables.Loaded D) (hsel : selector (r + 1) = 1) (hprev : ByteLimbs 40 (t.limbs true r))
    (hcur : ByteLimbs 40 (t.limbs true (r + 1)))
    (hlt : limbKey 40 (t.limbs true r) < limbKey 40 (t.limbs true (r + 1)))
    (hget : records[offset]? = some (t.queries r))
    (hget' : records[offset + 1]? = some (t.queries (r + 1))) :
    (random ≠ 0 → ∃ row, sortedMemoryAssign records random (offset + 1) = .ok row) ∧
      ∀ row, sortedMemoryAssign records random (offset + 1) = .ok row → c.Holding (r + 1) row →
        ∀ alpha, (c.configure t (alphaPower alpha 40) tables selector true).GatesHold D (r + 1) ∧
          (c.configure t (alphaPower alpha 40) tables selector true).LookupsHold D (r + 1) := by
  obtain ⟨k, hk, hfirst⟩ := exists_first_larger hcur hprev hlt
  have hbefore : ∀ j < k, limbDifference (t.limbs true (r + 1)) (t.limbs true r) j = 0 :=
    fun j hj => limbDifference_eq_zero.mpr (hfirst.before j hj)
  have hne : limbDifference (t.limbs true (r + 1)) (t.limbs true r) k ≠ 0 := fun h0 =>
    Nat.ne_of_gt hfirst.larger (limbDifference_eq_zero.mp h0)
  have hlen := t.limbs_length true
  have hfind : findDifference 40 (t.limbs true (r + 1)) (t.limbs true r) =
      (k, (t.limbs true (r + 1)).getD k 0, (t.limbs true r).getD k 0) := by
    rw [← map_getD_range (hlen (r + 1)), ← map_getD_range (hlen r)]
    refine (findDifference_eq hk (fun j hj => sub_eq_zero.mp (hbefore j hj))
      fun h0 => hne (sub_eq_zero.mpr h0)).trans ?_
    rw [map_getD_range (hlen (r + 1)), map_getD_range (hlen r)]
  obtain ⟨hrun, hcells⟩ := sortedMemoryAssign_difference hget hget' hfind hne
  refine ⟨hrun, fun row hrow hholding alpha => ?_⟩
  obtain ⟨hdiff, hinv, hbits⟩ := hcells row hrow
  have hindex : ∀ i, c.index (r + 1) i = (asBits 6 k i : ZMod p) := fun i =>
    (hholding.bits i).trans (congrFun hbits i)
  have hbelow : Below 40 (c.lookupValue (r + 1)) :=
    ⟨k, hk, c.lookupValue_asBits (by omega) hindex⟩
  have hdifference : c.difference (r + 1) = limbDifference (t.limbs true (r + 1)) (t.limbs true r) k :=
    hholding.difference.trans hdiff
  constructor
  · rw [gatesHold_ordered_iff (by omega) hr hsel hbelow]
    refine ⟨k, hk, hindex, ?_, combination_of_zero _ hbefore, hdifference⟩
    rw [hdifference, hholding.differenceInverse, hinv]
    exact mul_inv_cancel₀ hne
  · rw [lookupsHold_iff htab]
    refine ⟨hbelow, ?_⟩
    rw [hdifference, limbDifference, ← ZMod.natCast_zmod_val ((t.limbs true (r + 1)).getD k 0),
      ← ZMod.natCast_zmod_val ((t.limbs true r).getD k 0)]
    exact hfirst.sub_below

/-- **The gadget orders the keys.** -/
theorem greaterThan_orders (hp : 2 ^ 16 < p) (hr : r + 1 < D.usable) (htab : tables.Loaded D)
    (hsel : selector (r + 1) = 1) (hprev : ∀ x ∈ t.limbs true r, Below 256 x)
    (hcur : ∀ x ∈ t.limbs true (r + 1), Below 256 x) :
    (¬ orderKey (t.queries r) < orderKey (t.queries (r + 1)) →
      ∀ c : GreaterThanConfig (ZMod p) 6, (∀ alpha, (c.configure t (alphaPower alpha 40) tables
          selector true).LookupsHold D (r + 1)) →
        {alpha | (c.configure t (alphaPower alpha 40) tables selector true).GatesHold D
          (r + 1)}.encard ≤ 39) ∧
    (orderKey (t.queries r) < orderKey (t.queries (r + 1)) →
      ∀ records offset random, records[offset]? = some (t.queries r) →
        records[offset + 1]? = some (t.queries (r + 1)) →
        (random ≠ 0 → ∃ row, sortedMemoryAssign records random (offset + 1) = .ok row) ∧
        ∀ row, sortedMemoryAssign records random (offset + 1) = .ok row →
          ∀ c : GreaterThanConfig (ZMod p) 6, c.Holding (r + 1) row → ∀ alpha,
            (c.configure t (alphaPower alpha 40) tables selector true).GatesHold D (r + 1) ∧
            (c.configure t (alphaPower alpha 40) tables selector true).LookupsHold D (r + 1)) := by
  have hprev' : ByteLimbs 40 (t.limbs true r) :=
    (byteLimbs_iff (by omega) (t.limbs_length true r)).mpr hprev
  have hcur' : ByteLimbs 40 (t.limbs true (r + 1)) :=
    (byteLimbs_iff (by omega) (t.limbs_length true (r + 1))).mpr hcur
  constructor
  · intro hle c hlookups
    obtain ⟨hindex, hrange⟩ := (lookupsHold_iff htab).mp (hlookups 0)
    exact encard_gatesHold_le (by omega) hr hsel hprev' hcur' hindex hrange hle
  · intro hlt records offset random hget hget'
    have hall : ∀ c : GreaterThanConfig (ZMod p) 6, _ := fun c =>
      assigned_of_larger (c := c) random (by omega) hr htab hsel hprev' hcur' hlt hget hget'
    exact ⟨(hall ⟨0, 0, ⟨0⟩⟩).1, fun row hrow c hholding => (hall c).2 row hrow hholding⟩

end Assigned

instance fermatPrime : Fact (Nat.Prime 65537) := ⟨by norm_num⟩

/-- Reads of 7 at addresses 5, 9 and 2, over the smallest field in question. -/
def threeRows : TraceRecordWitnessTable (ZMod 65537) where
  address i r := if i.val = 31 then ([5, 9, 2].getD r 0 : Nat) else 0
  timeLog i r := if i.val = 7 then r else 0
  instruction := 0
  value i _ := if i.val = 31 then (7 : Nat) else 0

theorem threeRows_below (r : Fin 3) : ∀ x ∈ threeRows.limbs true r, Below 256 x := by
  have haddress : ∀ (r : Fin 3) (i : Fin 32), (threeRows.address i r).val < 256 := by decide
  have htime : ∀ (r : Fin 3) (i : Fin 8), (threeRows.timeLog i r).val < 256 := by decide
  have hbelow : ∀ x : ZMod 65537, x.val < 256 → Below 256 x :=
    fun x hx => ⟨x.val, hx, (ZMod.natCast_zmod_val x).symm⟩
  intro x hx
  rcases List.mem_append.mp hx with h | h
  · obtain ⟨i, rfl⟩ := (List.mem_ofFn' _ _).mp h
    exact hbelow _ (haddress r i)
  · obtain ⟨i, rfl⟩ := (List.mem_ofFn' _ _).mp h
    exact hbelow _ (htime r i)

def zeroConfig : GreaterThanConfig (ZMod 65537) 6 := ⟨0, 0, ⟨0⟩⟩

def allRows : Column (ZMod 65537) := 1

/-- The second address is larger than the first one and assigned so; the third is smaller, and
almost no challenge hides it. -/
theorem greaterThan_orders_three :
    let D : Domain := ⟨1024, 1018, by decide⟩
    let tables := LookUpTables.blank.load 0
    let records := [threeRows.queries 0, threeRows.queries 1, threeRows.queries 2]
    ((∃ row, sortedMemoryAssign records 1 1 = .ok row) ∧
      ∀ row, sortedMemoryAssign records 1 1 = .ok row →
        ∀ c : GreaterThanConfig (ZMod 65537) 6, c.Holding 1 row → ∀ alpha,
          (c.configure threeRows (alphaPower alpha 40) tables allRows true).GatesHold D 1 ∧
          (c.configure threeRows (alphaPower alpha 40) tables allRows true).LookupsHold D 1) ∧
    {alpha | (zeroConfig.configure threeRows (alphaPower alpha 40) tables allRows true).GatesHold D
      2}.encard ≤ 39 := by
  intro D tables records
  have htab : tables.Loaded D := LookUpTables.loaded_blank (by decide)
  have hsel (r : Nat) : allRows r = 1 := rfl
  have hless : orderKey (threeRows.queries 0) < orderKey (threeRows.queries 1) := by decide +kernel
  have hmore : ¬ orderKey (threeRows.queries 1) < orderKey (threeRows.queries 2) := by
    decide +kernel
  constructor
  · have hassign := (greaterThan_orders (by decide) (by decide) htab (hsel _) (threeRows_below 0)
      (threeRows_below 1)).2 hless records 0 1 rfl rfl
    exact ⟨hassign.1 one_ne_zero, hassign.2⟩
  · refine (greaterThan_orders (by decide) (by decide) htab (hsel _) (threeRows_below 1)
      (threeRows_below 2)).1 hmore zeroConfig fun alpha => ?_
    rw [lookupsHold_iff htab]
    refine ⟨⟨0, by decide, ?_⟩, below_zero (by decide)⟩
    simp [GreaterThanConfig.lookupValue, GreaterThanConfig.index, zeroConfig]

end Zkmemory.Constraints
