import Orochimaru.Zkmemory.Constraints.PastaFp
import Orochimaru.Zkmemory.Constraints.SortedAssignment

/-!
# The sorted-memory circuit against any prover

Whatever a prover assigns, the rows of a satisfied circuit are strictly ordered and
start with a write, as long as `alpha` avoids finitely many values. A read row repeats
address and value of the row before it up to their first bytes: `limbs_to_expression`
skips them, so the read check is complete exactly where these bytes happen to agree.
-/

namespace Zkmemory.Constraints

open Plonkish FieldDigits Positional ConvertedTraceRecord

section

variable {F : Type*} [Field F]

/-- The values of `alpha` for which some combination of differing limbs vanishes. -/
def exceptional (q : Nat → ConvertedTraceRecord F) (n : Nat) : Set F :=
  {alpha | ∃ i < n - 1, ∃ k < 40,
    (∃ j < k, limbDifference ((q (i + 1)).beLimbs true) ((q i).beLimbs true) j ≠ 0) ∧
      combination alpha k (limbDifference ((q (i + 1)).beLimbs true) ((q i).beLimbs true)) = 0}

/-- The values at which a combination of differing limbs vanishes, over the first rows and
limbs. -/
theorem finite_vanishing (limbs : Nat → List F) (n m : Nat) : {alpha | ∃ i < n, ∃ k < m,
    (∃ j < k, limbDifference (limbs (i + 1)) (limbs i) j ≠ 0) ∧
      combination alpha k (limbDifference (limbs (i + 1)) (limbs i)) = 0}.Finite := by
  have hall : ∀ i k : Nat, {alpha : F |
      (∃ j < k, limbDifference (limbs (i + 1)) (limbs i) j ≠ 0) ∧
        combination alpha k (limbDifference (limbs (i + 1)) (limbs i)) = 0}.Finite := by
    intro i k
    by_cases h : ∃ j < k, limbDifference (limbs (i + 1)) (limbs i) j ≠ 0
    · exact (finite_combination_eq_zero h).subset fun alpha ha => ha.2
    · exact Set.finite_empty.subset fun alpha ha => h ha.1
  refine ((Set.finite_lt_nat n).biUnion fun i _ =>
    (Set.finite_lt_nat m).biUnion fun k _ => hall i k).subset ?_
  rintro alpha ⟨i, hi, k, hk, h⟩
  simp only [Set.mem_iUnion]
  exact ⟨i, hi, k, hk, h⟩

theorem finite_exceptional (q : Nat → ConvertedTraceRecord F) (n : Nat) :
    (exceptional q n).Finite :=
  finite_vanishing (fun i => (q i).beLimbs true) (n - 1) 40

end

variable {p : Nat} [Fact p.Prime]

/-- What the circuit is for: the rows of a sorted trace in which reads are consistent. -/
structure ReadConsistent (q : Nat → ConvertedTraceRecord (ZMod p)) (n : Nat) : Prop where
  increasing : ∀ i, i + 1 < n → orderKey (q i) < orderKey (q (i + 1))
  firstWrite : ∀ i < n, (∀ j < i, (q j).address ≠ (q i).address) → (q i).instruction = 1
  readRepeats : ∀ i < n, (q i).instruction = 0 →
    ∃ j, i = j + 1 ∧ (q j).address = (q i).address ∧ (q j).value = (q i).value

/-- Read rows agree with the row before them in the first byte of address and value. -/
def ReadsKeepTop (q : Nat → ConvertedTraceRecord (ZMod p)) (n : Nat) : Prop :=
  ∀ i, i + 1 < n → (q (i + 1)).instruction = 0 →
    (q i).address 0 = (q (i + 1)).address 0 ∧ (q i).value 0 = (q (i + 1)).value 0

/-- First byte and tail determine a word. -/
theorem word_eq_of_top (hp : 256 ≤ p) {x y : B256}
    (htop : (ofBytes x.toBeBytes 0 : ZMod p) = ofBytes y.toBeBytes 0)
    (htail : x.val % 2 ^ 248 = y.val % 2 ^ 248) : x = y := by
  have htop' : x.toBeBytes 0 = y.toBeBytes 0 :=
    Fin.ext ((natCast_inj_of_lt ((x.toBeBytes 0).isLt.trans_le hp)
      ((y.toBeBytes 0).isLt.trans_le hp)).mp htop)
  have hdiv : ∀ z : B256, (z.toBeBytes 0).val = z.val / 2 ^ 248 := by
    intro z
    have hz := z.isLt
    simp only [Uint.toBeBytes, beDigit, Fin.val_zero]
    norm_num at hz ⊢
    omega
  have hx := hdiv x
  rw [htop', hdiv y] at hx
  apply Uint.ext
  rw [← Nat.div_add_mod x.val (2 ^ 248), ← Nat.div_add_mod y.val (2 ^ 248), htail, hx]

/-- Outside the exceptional set the comparison orders the keys. -/
theorem key_lt_of_ordered (hp : 2 ^ 9 < p) {N : Nat} {g : GreaterThanConfig (ZMod p) N}
    {alpha : ZMod p} {a b : TraceRecord 32 32} {cur prev : List (ZMod p)} {r k : Nat} (hk : k < 40)
    (hcur : cur = (ofRecord b).beLimbs true) (hprev : prev = (ofRecord a).beLimbs true)
    (h : g.Ordered alpha cur prev r k) (hrange : Below 256 (g.difference r))
    (halpha : ¬ ((∃ j < k, limbDifference cur prev j ≠ 0) ∧
      combination alpha k (limbDifference cur prev) = 0)) :
    orderKey (p := p) (ofRecord a) < orderKey (p := p) (ofRecord b) := by
  have hlimb : ∀ j < 40, limbDifference cur prev j =
      (orderByte b j : ZMod p) - (orderByte a j : ZMod p) := by
    intro j hj
    rw [hcur, hprev]
    exact limbDifference_ofRecord a b hj
  have hbefore : ∀ j < k, orderByte a j = orderByte b j := by
    intro j hj
    have hzero : limbDifference cur prev j = 0 :=
      not_not.mp fun hne => halpha ⟨⟨j, hj, hne⟩, h.before⟩
    have ha := orderByte_lt a j
    have hb := orderByte_lt b j
    rw [hlimb j (hj.trans hk), sub_eq_zero, natCast_inj_of_lt (by omega) (by omega)] at hzero
    exact hzero.symm
  have hlt : orderByte a k < orderByte b k := by
    obtain ⟨d, hd, hdiff⟩ := hrange
    have hne : d ≠ 0 := by
      rintro rfl
      have := h.inverse
      rw [hdiff, Nat.cast_zero, zero_mul] at this
      exact zero_ne_one this
    have hhere := h.here
    have ha := orderByte_lt a k
    have hb := orderByte_lt b k
    rw [hdiff, hlimb k hk, eq_sub_iff_add_eq, ← Nat.cast_add,
      natCast_inj_of_lt (by omega) (by omega)] at hhere
    omega
  rw [orderKey_ofRecord (by omega), orderKey_ofRecord (by omega), ← beVal_orderByte,
    ← beVal_orderByte]
  exact beVal_lt_of_first_diff (fun i _ => orderByte_lt a i) hk hbefore hlt

namespace SortedMemoryConfig

variable {c : SortedMemoryConfig (ZMod p)} {D : Domain} {n : Nat} {alpha : ZMod p}

/-- The fixed columns of the circuit with `n` records. -/
structure Synthesized (c : SortedMemoryConfig (ZMod p)) (n : Nat) : Prop
    extends c.Selected 0 n where
  lookupTables : c.lookupTables = LookUpTables.blank.load 0

/-- The rows of a satisfied circuit are records. -/
theorem InRange.record (h : c.InRange D) {r : Nat} (hr : r < D.usable) :
    ∃ record : TraceRecord 32 32, c.traceRecord.queries r = ofRecord record :=
  exists_record (h.instruction r hr) (fun i => h.address i r hr) (fun i => h.timeLog i r hr)
    fun i => h.value i r hr

/-- **Reads are consistent exactly where the first bytes are.** -/
theorem readConsistent_iff (hp : 2 ^ 248 < p) (hfixed : c.Synthesized n)
    (hfit : max 256 n ≤ D.usable) (hsat : (c.configure (alphaPower alpha 40)).Holds D) :
    (exceptional c.traceRecord.queries n).Finite ∧
      (alpha ∉ exceptional c.traceRecord.queries n →
        (ReadConsistent c.traceRecord.queries n ↔ ReadsKeepTop c.traceRecord.queries n)) := by
  refine ⟨finite_exceptional _ _, fun halpha => ?_⟩
  have htab : c.lookupTables.Loaded D := by
    rw [hfixed.lookupTables]
    exact LookUpTables.loaded_blank (by omega)
  obtain ⟨hwrite, heqs, hrange⟩ := (c.holds_iff (by omega) hfixed.toSelected htab
    (by omega)).mp hsat
  simp only [Nat.zero_add] at heqs
  constructor
  · intro h i hi hread
    obtain ⟨j, hj, haddr, hval⟩ := h.readRepeats (i + 1) hi hread
    cases hj
    exact ⟨congrFun haddr 0, congrFun hval 0⟩
  · intro htop
    -- a read row repeats the row before it: tails by the gates, first bytes by assumption
    have hrepeat : ∀ i < n, (c.traceRecord.queries i).instruction = 0 →
        ∃ j, i = j + 1 ∧ (c.traceRecord.queries j).address = (c.traceRecord.queries i).address ∧
          (c.traceRecord.queries j).value = (c.traceRecord.queries i).value := by
      intro i hi hread
      cases i with
      | zero =>
        have hone : (c.traceRecord.queries 0).instruction = 1 := hwrite hi
        rw [hread] at hone
        exact absurd hone zero_ne_one
      | succ i =>
        obtain ⟨a, ha⟩ := hrange.record (show i < D.usable by omega)
        obtain ⟨b, hb⟩ := hrange.record (show i + 1 < D.usable by omega)
        obtain ⟨haddr, hval⟩ := htop i hi hread
        rw [hb] at hread
        obtain ⟨htail, htail'⟩ := (heqs i hi).read hp ha hb (instruction_read.mp hread)
        rw [ha, hb] at haddr hval
        refine ⟨i, rfl, ?_, ?_⟩
        · rw [ha, hb]
          exact congrArg (fun x : B256 => (ofBytes x.toBeBytes : Fin 32 → ZMod p))
            (word_eq_of_top (by omega) haddr htail)
        · rw [ha, hb]
          exact congrArg (fun x : B256 => (ofBytes x.toBeBytes : Fin 32 → ZMod p))
            (word_eq_of_top (by omega) hval htail')
    refine ⟨fun i hi => ?_, fun i hi hfirst => ?_, hrepeat⟩
    · obtain ⟨a, ha⟩ := hrange.record (show i < D.usable by omega)
      obtain ⟨b, hb⟩ := hrange.record (show i + 1 < D.usable by omega)
      obtain ⟨k, hk, hord⟩ := (heqs i hi).ordered
      rw [ha, hb]
      refine key_lt_of_ordered (by omega) hk (by rw [← hb]; rfl) (by rw [← ha]; rfl) hord
        (hrange.order.difference _ (by omega)) ?_
      exact fun hbad => halpha ⟨i, by omega, k, hk, hbad⟩
    · obtain ⟨v, hv, hinstr⟩ := hrange.instruction i (by omega)
      rcases (show v = 0 ∨ v = 1 by omega) with rfl | rfl
      · obtain ⟨j, rfl, haddr, -⟩ := hrepeat i hi (hinstr.trans Nat.cast_zero)
        exact absurd haddr (hfirst j (by omega))
      · exact hinstr.trans Nat.cast_one

/-! ## A read at an address that was never written -/

/-- The second record reads `2^248`, which differs from the written address 0 in its first
byte only. -/
def topForgery : List (TraceRecord 32 32) :=
  [⟨.ofNat 0, .ofNat 0, .write, .ofNat 0, .ofNat 5⟩,
    ⟨.ofNat 1, .ofNat 0, .read, .ofNat (2 ^ 248), .ofNat 5⟩]

def forgeryDomain : Domain := ⟨1024, 1000, usable_lt_rows⟩

theorem topForgery_rows : ∃ rows : List (SortedMemoryRow Fp), (List.range 2).mapM
      (fun i => sortedMemoryAssign (topForgery.map ofRecord) 1 i) = .ok rows ∧
    SortedRows topForgery rows := by
  refine sortedRows_ok (by decide) ?_ fun _ => one_ne_zero
  refine List.isChain_cons_cons.mpr ⟨?_, List.isChain_singleton _⟩
  decide

theorem topForgery_holds {rows : List (SortedMemoryRow Fp)} (h : SortedRows topForgery rows)
    (alpha : Fp) : ((sortedMemoryColumns 0 (LookUpTables.blank.load 0) rows).configure
      (alphaPower alpha 40)).Holds forgeryDomain := by
  have htab : ((LookUpTables.blank : LookUpTables Fp).load 0).Loaded forgeryDomain :=
    LookUpTables.loaded_blank (by decide)
  refine (h.holds_iff lt_pastaModulus htab (by decide)).mpr ⟨?_, ?_⟩
  · intro r hr
    cases hr
    rfl
  · exact List.isChain_cons_cons.mpr ⟨fun _ => by constructor <;> decide,
      List.isChain_singleton _⟩

/-- Only the first limbs before the last one differ, so no `alpha` is exceptional. -/
theorem topForgery_exceptional {rows : List (SortedMemoryRow Fp)} (h : SortedRows topForgery rows)
    (tables : LookUpTables Fp) (alpha : Fp) :
    alpha ∉ exceptional (sortedMemoryColumns 0 tables rows).traceRecord.queries 2 := by
  rintro ⟨i, hi, k, hk, ⟨j, hj, -⟩, hzero⟩
  obtain rfl : i = 0 := by omega
  have hprev := h.queries 0 tables (i := 0) rfl
  have hcur := h.queries 0 tables (i := 1) rfl
  simp only [Nat.zero_add] at hprev hcur
  rw [Nat.zero_add, hprev, hcur, combination, Finset.sum_eq_single 0] at hzero
  · rw [limbDifference_ofRecord _ _ (by decide)] at hzero
    simp [orderByte, beDigit, Uint.ofNat] at hzero
  · intro m hm hm0
    have hmk := Finset.mem_range.mp hm
    rw [limbDifference_ofRecord _ _ (by omega)]
    have hbytes : ∀ m < 39, m ≠ 0 → orderByte ⟨.ofNat 1, .ofNat 0, .read, .ofNat (2 ^ 248), .ofNat 5⟩ m =
        orderByte ⟨.ofNat 0, .ofNat 0, .write, .ofNat 0, .ofNat 5⟩ m := by decide
    rw [hbytes m (by omega) hm0, sub_self, mul_zero]
  · intro h0
    exact absurd (Finset.mem_range.mpr (by omega)) h0

theorem readConsistent_iff_topForgery : ∃ c : SortedMemoryConfig Fp, ∀ alpha : Fp,
    (exceptional c.traceRecord.queries 2).Finite ∧
      (alpha ∉ exceptional c.traceRecord.queries 2 →
        (ReadConsistent c.traceRecord.queries 2 ↔ ReadsKeepTop c.traceRecord.queries 2)) := by
  obtain ⟨rows, -, hrows⟩ := topForgery_rows
  have hlen : rows.length = 2 := hrows.length
  refine ⟨sortedMemoryColumns 0 (LookUpTables.blank.load 0) rows, fun alpha => ?_⟩
  exact readConsistent_iff lt_pastaModulus ⟨⟨by rw [← hlen]; rfl, by rw [← hlen]; rfl⟩, rfl⟩
    (by decide) (topForgery_holds hrows alpha)

theorem topForgery_accepted : ∃ rows : List (SortedMemoryRow Fp),
    (List.range 2).mapM (fun i => sortedMemoryAssign (topForgery.map ofRecord) 1 i) = .ok rows ∧
    ∃ c : SortedMemoryConfig Fp, c = sortedMemoryColumns 0 (LookUpTables.blank.load 0) rows ∧
      c.Synthesized 2 ∧ max 256 2 ≤ forgeryDomain.usable ∧ ∀ alpha,
        (c.configure (alphaPower alpha 40)).Holds forgeryDomain ∧
        alpha ∉ exceptional c.traceRecord.queries 2 ∧
        ¬ ReadConsistent c.traceRecord.queries 2 := by
  obtain ⟨rows, hrun, hrows⟩ := topForgery_rows
  have hlen : rows.length = 2 := hrows.length
  refine ⟨rows, hrun, _, rfl, ⟨⟨by rw [← hlen]; rfl, by rw [← hlen]; rfl⟩, rfl⟩, by decide,
    fun alpha => ⟨topForgery_holds hrows alpha, topForgery_exceptional hrows _ alpha, fun h => ?_⟩⟩
  have hprev := hrows.queries 0 (LookUpTables.blank.load 0) (i := 0) rfl
  have hcur := hrows.queries 0 (LookUpTables.blank.load 0) (i := 1) rfl
  simp only [Nat.zero_add] at hprev hcur
  have hread := h.readRepeats 1 (by decide) (by rw [hcur]; rfl)
  obtain ⟨j, hj, haddr, -⟩ := hread
  obtain rfl : j = 0 := by omega
  rw [hprev, hcur] at haddr
  have hword := (word_limbs_inj (by decide) _ _).mp haddr
  exact absurd hword (by decide)

end SortedMemoryConfig

end Zkmemory.Constraints
