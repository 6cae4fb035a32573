import Orochimaru.Lib.Gauge
import Orochimaru.Zkmemory.Zincplus.Equations

/-!
# No wrap-around in the UAIR

Every constraint of a row is a sum of few products of cells, so its size is far below the
modulus, in its coefficients as well as at `X = 2`, even where the witness integers are
chosen by an adversary. What vanishes modulo the sampled prime therefore vanishes over the
integers.
-/

namespace Zkmemory.Zincplus

open Polynomial

/-- The expression a constraint is about. -/
def Constraint.expr {E : Type*} : Constraint E → E
  | .zero e => e
  | .inIdeal e => e

/-! ## The size of the expressions -/

section Sizes

variable {E : Type*} [CommRing E] {g : Gauge E} {layout : NetLayout} {up down : TraceRow E}

/-- The sizes of the cells of a row: below `2 ^ 32` for the binary cells, and up to `2 ^ 63`
for the integers, the public ones being zero or one. -/
structure CellSizes (g : Gauge E) (layout : NetLayout) (up down : TraceRow E) : Prop where
  binary : ∀ col, g.size (up.binaryPoly col) ≤ 2 ^ 32
  shifted : ∀ idx, g.size (down.binaryPoly idx) ≤ 2 ^ 32
  publicInt : ∀ col < layout.numPublicIntCols, g.size (up.int col) ≤ 1
  int : ∀ col, g.size (up.int col) ≤ 2 ^ 63

/-- A few words above the largest product, of two witness integers. -/
def constraintSize : Nat := 2 ^ 128

theorem runningSum_le {f : Nat → E} {a : Nat} (h : ∀ j, g.size (f j) ≤ a) (j : Nat) :
    g.size (runningSum f j) ≤ (j + 1) * a := by
  induction j with
  | zero => simpa [runningSum] using h 0
  | succ j ih =>
    rw [runningSum, Nat.succ_mul]
    exact g.add_le_of ih (h (j + 1))

variable (h : CellSizes g layout up down)

include h

theorem shiftedDifference_le (col amount : Nat) :
    g.size (downBp layout down col amount - up.binaryPoly col) ≤ 2 ^ 33 :=
  g.sub_le_of (h.shifted _) (h.binary _)

/-- The product of a witness integer and its predecessor. -/
theorem boolean_le (col : Nat) : g.size (up.int col * (up.int col - 1)) ≤ constraintSize :=
  (g.mul_le_of (h.int col) (g.sub_one_le_of (h.int col))).trans (by decide)

theorem sortedConstraints_le {k : Constraint E} (hk : k ∈ sortedConstraints layout up down) :
    g.size k.expr ≤ constraintSize := by
  have hselector : ∀ j, g.size (up.int (layout.intS + j)) ≤ 2 ^ 63 := fun j => h.int _
  have hsum : ∀ j < numLexLimbs, g.size (runningSum (fun j => up.int (layout.intS + j)) j) ≤ 2 ^ 67 :=
    fun j hj => (runningSum_le hselector j).trans
      ((Nat.mul_le_mul_right _ (Nat.succ_le_of_lt hj)).trans (by decide))
  have hsame : g.size (up.int (layout.intS + numAddrLimbs) +
      up.int (layout.intS + (numAddrLimbs + 1))) ≤ 2 ^ 64 := g.add_le_of (h.int _) (h.int _)
  have hnext : g.size (downBp layout down (NetLayout.stateCol 0 plInstr) 1 - 1) ≤ 2 ^ 33 :=
    (g.sub_one_le_of (h.shifted _)).trans (by decide)
  simp only [sortedConstraints, List.mem_append, List.mem_cons, List.not_mem_nil, or_false,
    List.mem_map, List.mem_range] at hk
  rcases hk with ((((((rfl | rfl) | ⟨j, hj, rfl⟩) | rfl) | ⟨j, hj, rfl⟩) | (rfl | rfl)) |
    ⟨j, hj, rfl⟩) | rfl
  · exact (g.mul_le_of (h.int _) (g.sub_one_le_of (h.binary _))).trans (by decide)
  · exact (g.mul_le_of (h.shifted _) hnext).trans (by decide)
  · exact boolean_le h _
  · exact (g.sub_one_le_of (hsum _ (by decide))).trans (by decide)
  · exact (g.mul_le_of (g.sub_le_of g.one_le (hsum j hj)) (shiftedDifference_le h _ _)).trans
      (by decide)
  · -- the value of the selected difference against the slack
    have hterm : ∀ j, g.size (up.int (layout.intS + j) *
        (downBp layout down (NetLayout.stateCol 0 (plAddr + j)) 1 -
          up.binaryPoly (NetLayout.stateCol 0 (plAddr + j)))) ≤ 2 ^ 63 * 2 ^ 33 :=
      fun j => g.mul_le_of (hselector j) (shiftedDifference_le h _ _)
    exact (g.sub_le_of (g.sub_one_le_of (runningSum_le hterm _)) (h.binary _)).trans (by decide)
  · exact (g.sub_le_of (h.int _) (g.mul_le_of hsame hnext)).trans (by decide)
  · exact (g.mul_le_of (h.int _) (shiftedDifference_le h _ _)).trans (by decide)
  · exact (g.mul_le_of (g.sub_le_of g.one_le hsame) hnext).trans (by decide)

theorem originalConstraints_le {k : Constraint E} (hk : k ∈ originalConstraints layout up down) :
    g.size k.expr ≤ constraintSize := by
  simp only [originalConstraints, List.mem_cons, List.not_mem_nil, or_false] at hk
  rcases hk with rfl | rfl | rfl | rfl | rfl | rfl | rfl
  · exact (g.mul_le_of (h.int _) (h.binary _)).trans (by decide)
  · exact (g.mul_le_of (h.int _) (h.binary _)).trans (by decide)
  · exact boolean_le h _
  · exact boolean_le h _
  · exact (g.sub_one_le_of (g.add_le_of (h.int _) (h.int _))).trans (by decide)
  · exact (g.mul_le_of (g.sub_le_of g.one_le (h.int _)) (shiftedDifference_le h _ _)).trans
      (by decide)
  · have hselected := g.add_le_of (g.mul_le_of (h.int layout.intTimeHiSel)
      (shiftedDifference_le h (NetLayout.stateCol layout.originalState plTime) 1))
      (g.mul_le_of (h.int layout.intTimeLoSel)
        (shiftedDifference_le h (NetLayout.stateCol layout.originalState (plTime + 1)) 1))
    exact (g.sub_le_of (g.sub_one_le_of hselected) (h.binary _)).trans (by decide)

theorem networkConstraints_le {k : Constraint E} (hk : k ∈ networkConstraints layout up down) :
    g.size k.expr ≤ constraintSize := by
  simp only [networkConstraints, List.mem_flatMap, List.mem_range, List.mem_cons, List.not_mem_nil,
    or_false] at hk
  obtain ⟨layer, hlayer, rfl | ⟨payload, -, hk⟩⟩ := hk
  · -- the only product of three integers has a public factor
    have hmask := h.publicInt (NetLayout.intUpper + strideBit layout.numVars layer)
      (Nat.add_lt_add_left (layout.strideBit_lt_numVars hlayer) _)
    exact (g.mul_le_of hmask (boolean_le h _)).trans (Nat.one_mul _).le
  · have hswitched : ∀ {in₁ in₂ : E}, g.size (in₂ - in₁) ≤ 2 ^ 33 →
        g.size (up.int (layout.intSwitch + layer) * (in₂ - in₁)) ≤ 2 ^ 63 * 2 ^ 33 :=
      fun hd => g.mul_le_of (h.int _) hd
    have hmask := h.publicInt (NetLayout.intUpper + strideBit layout.numVars layer)
      (Nat.add_lt_add_left (layout.strideBit_lt_numVars hlayer) _)
    have hdiff := shiftedDifference_le h (NetLayout.stateCol layer payload) (layout.stride layer)
    rcases hk with rfl | rfl
    · exact (g.mul_le_of hmask (g.sub_le_of (g.sub_le_of (h.binary _) (h.binary _))
        (hswitched hdiff))).trans (by decide)
    · exact (g.mul_le_of hmask (g.add_le_of (g.sub_le_of (h.shifted _) (h.shifted _))
        (hswitched hdiff))).trans (by decide)

theorem constrainGeneral_le {k : Constraint E} (hk : k ∈ constrainGeneral layout up down) :
    g.size k.expr ≤ constraintSize := by
  rcases List.mem_append.mp hk with hk | hk
  · rcases List.mem_append.mp hk with hk | hk
    · exact sortedConstraints_le h hk
    · exact originalConstraints_le h hk
  · exact networkConstraints_le h hk

end Sizes

/-! ## Reduction of the cells -/

section Reduction

variable {E E' : Type*}

def Constraint.map (f : E → E') : Constraint E → Constraint E'
  | .zero e => .zero (f e)
  | .inIdeal e => .inIdeal (f e)

def TraceRow.map (f : E → E') (row : TraceRow E) : TraceRow E' where
  binaryPoly col := f (row.binaryPoly col)
  int col := f (row.int col)

variable [CommRing E] [CommRing E'] (f : E →+* E') {layout : NetLayout} {up down : TraceRow E}

theorem map_runningSum (a : Nat → E) (j : Nat) :
    f (runningSum a j) = runningSum (fun j => f (a j)) j := by
  induction j with
  | zero => rfl
  | succ j ih => rw [runningSum, map_add, ih, runningSum]

/-- The constraints on reduced cells are the reduced constraints. -/
theorem constrainGeneral_map : constrainGeneral layout (up.map f) (down.map f) =
    (constrainGeneral layout up down).map (Constraint.map f) := by
  simp only [constrainGeneral, sortedConstraints, originalConstraints, networkConstraints,
    List.map_append, List.map_cons, List.map_nil, List.map_map, List.map_flatMap, Constraint.map,
    TraceRow.map, downBp, map_mul, map_sub, map_add, map_one, map_runningSum, Function.comp_def]

end Reduction

/-! ## Integer rows -/

/-- The witness integers are `i64` values. -/
def Columns.MachineInts (c : Columns) (layout : NetLayout) : Prop :=
  ∀ col row, layout.numPublicIntCols ≤ col → -2 ^ 63 ≤ c.int col row ∧ c.int col row < 2 ^ 63

/-- The coefficients, or the value at `X = 2`, are below `B`. -/
def Constraint.Below (B : ℤ) : Constraint ℤ[X] → Prop
  | .zero e => ∀ n, |e.coeff n| < B
  | .inIdeal e => |e.eval 2| < B

/-- Vanishing modulo `q`, as the prover checks it on reduced cells. -/
def Constraint.HoldsMod {q : Nat} : Constraint (ZMod q)[X] → Prop
  | .zero e => e = 0
  | .inIdeal e => e.eval 2 = 0

noncomputable def reduce (q : Nat) : ℤ[X] →+* (ZMod q)[X] := mapRingHom (Int.castRingHom (ZMod q))

/-- Below the modulus, what vanishes modulo `q` vanishes. -/
theorem Constraint.holds_of_holdsMod {q : Nat} {k : Constraint ℤ[X]} (hbelow : k.Below q)
    (h : (k.map (reduce q)).HoldsMod) : k.Holds := by
  have hzero : ∀ x : ℤ, |x| < q → (x : ZMod q) = 0 → x = 0 := by
    intro x hx h0
    exact Int.eq_zero_of_abs_lt_dvd ((ZMod.intCast_zmod_eq_zero_iff_dvd x q).mp h0) hx
  cases k with
  | zero e =>
    ext n
    refine hzero _ (hbelow n) ?_
    have hn := congrArg (fun e : (ZMod q)[X] => e.coeff n) h
    simpa [reduce] using hn
  | inIdeal e =>
    refine hzero _ hbelow ?_
    have h2 : (e.map (Int.castRingHom (ZMod q))).eval ((2 : ℤ) : ZMod q) = 0 := by
      simpa [reduce, Constraint.HoldsMod, Constraint.map] using h
    rwa [eval_intCast_map] at h2

theorem coefficients_toPoly (p : BinaryPoly) : Gauge.coefficients.size p.toPoly ≤ 2 ^ 32 := by
  have hterm : ∀ i : Fin 32, Gauge.coefficients.size (if p i then X ^ i.val else 0) ≤ 1 := by
    intro i
    split
    · exact (Gauge.coefficients_X_pow _).le
    · rw [Gauge.coefficients.zero]
      exact Nat.zero_le _
  calc _ ≤ ∑ i : Fin 32, Gauge.coefficients.size (if p i then X ^ i.val else 0) :=
        Gauge.coefficients.sum_le _ _
    _ ≤ ∑ _i : Fin 32, 1 := Finset.sum_le_sum fun i _ => hterm i
    _ ≤ 2 ^ 32 := by decide

theorem value_toPoly (p : BinaryPoly) : (Gauge.valueAt 2).size p.toPoly ≤ 2 ^ 32 := by
  change (p.toPoly.eval 2).natAbs ≤ _
  rw [BinaryPoly.eval_toPoly, Int.natAbs_natCast]
  exact p.value_lt.le

section Columns

variable {c : Columns} {layout : NetLayout} {row : Nat}

theorem natAbs_int_le (hpublic : c.PublicFixed layout) (hints : c.MachineInts layout)
    (hrow : row < 2 ^ layout.numVars) (col : Nat) :
    (col < layout.numPublicIntCols → (c.int col row).natAbs ≤ 1) ∧
      (c.int col row).natAbs ≤ 2 ^ 63 := by
  have hbit : col < layout.numPublicIntCols → (c.int col row).natAbs ≤ 1 := by
    intro hcol
    rw [hpublic col hcol row hrow, publicIntColumns]
    split <;> split <;> decide
  refine ⟨hbit, ?_⟩
  by_cases hcol : col < layout.numPublicIntCols
  · exact (hbit hcol).trans (by decide)
  · have hword := hints col row (Nat.le_of_not_lt hcol)
    omega

/-- A gauge that measures an integer by its absolute value measures the cells of a row. -/
theorem cellSizes {g : Gauge ℤ[X]} (hpublic : c.PublicFixed layout) (hints : c.MachineInts layout)
    (hrow : row < 2 ^ layout.numVars) (hC : ∀ a : ℤ, g.size (C a) = a.natAbs)
    (hpoly : ∀ p : BinaryPoly, g.size p.toPoly ≤ 2 ^ 32) :
    CellSizes g layout (c.up row) (c.down layout row) where
  binary _ := hpoly _
  shifted _ := hpoly _
  publicInt col hcol := (hC _).trans_le ((natAbs_int_le hpublic hints hrow col).1 hcol)
  int col := (hC _).trans_le (natAbs_int_le hpublic hints hrow col).2

theorem constraints_below (hpublic : c.PublicFixed layout) (hints : c.MachineInts layout)
    (hrow : row < 2 ^ layout.numVars) {k : Constraint ℤ[X]}
    (hk : k ∈ constrainGeneral layout (c.up row) (c.down layout row)) : k.Below (2 ^ 191) := by
  have hlt : constraintSize < 2 ^ 191 := by decide
  have hcoefficients := constrainGeneral_le (cellSizes hpublic hints hrow Gauge.coefficients_C
    coefficients_toPoly) hk
  have hvalue := constrainGeneral_le (g := Gauge.valueAt 2) (cellSizes hpublic hints hrow
    (fun a => by simp [Gauge.valueAt]) value_toPoly) hk
  cases k with
  | zero e =>
    intro n
    have hn := (Gauge.natAbs_coeff_le e n).trans_lt (hcoefficients.trans_lt hlt)
    rw [Int.abs_eq_natAbs]
    exact_mod_cast hn
  | inIdeal e =>
    change (e.eval 2).natAbs ≤ _ at hvalue
    change |e.eval 2| < _
    rw [Int.abs_eq_natAbs]
    exact_mod_cast hvalue.trans_lt hlt

/-- **Vanishing modulo a prime of 192 bits is vanishing.** -/
theorem no_wraparound (hpublic : c.PublicFixed layout) (hints : c.MachineInts layout)
    (hrow : row < 2 ^ layout.numVars) :
    (∀ k ∈ constrainGeneral layout (c.up row) (c.down layout row), k.Below (2 ^ 191)) ∧
      ∀ q : Nat, q.Prime → 2 ^ 191 ≤ q →
        (∀ k ∈ constrainGeneral layout ((c.up row).map (reduce q))
          ((c.down layout row).map (reduce q)), k.HoldsMod) →
        ∀ k ∈ constrainGeneral layout (c.up row) (c.down layout row), k.Holds := by
  refine ⟨fun k hk => constraints_below hpublic hints hrow hk, fun q _ hq hmod k hk => ?_⟩
  have hbelow : k.Below q := by
    have hk191 := constraints_below hpublic hints hrow hk
    have hq' : (2 ^ 191 : ℤ) ≤ q := by exact_mod_cast hq
    cases k with
    | zero e => exact fun n => (hk191 n).trans_le hq'
    | inIdeal e => exact lt_of_lt_of_le hk191 hq'
  rw [constrainGeneral_map, List.forall_mem_map] at hmod
  exact Constraint.holds_of_holdsMod hbelow (hmod k hk)

end Columns

/-- Witness integers as far from the honest ones as they can be, over full binary cells. -/
def extremeColumns : Columns where
  binaryPoly _ _ := BinaryPoly.ofNat (2 ^ 32 - 1)
  int col row := if col < 4 then publicIntColumns col row else -2 ^ 63

theorem no_wraparound_extreme :
    (∀ k ∈ constrainGeneral ⟨3, by decide⟩ (extremeColumns.up 0)
      (extremeColumns.down ⟨3, by decide⟩ 0), k.Below (2 ^ 191)) ∧
      ∀ q : Nat, q.Prime → 2 ^ 191 ≤ q →
        (∀ k ∈ constrainGeneral ⟨3, by decide⟩ ((extremeColumns.up 0).map (reduce q))
          ((extremeColumns.down ⟨3, by decide⟩ 0).map (reduce q)), k.HoldsMod) →
        ∀ k ∈ constrainGeneral ⟨3, by decide⟩ (extremeColumns.up 0)
          (extremeColumns.down ⟨3, by decide⟩ 0), k.Holds := by
  apply no_wraparound
  · intro col hcol row _
    exact if_pos hcol
  · intro col row hcol
    have hint : extremeColumns.int col row = -2 ^ 63 := if_neg (Nat.not_lt.mpr hcol)
    rw [hint]
    decide
  · decide

end Zkmemory.Zincplus
