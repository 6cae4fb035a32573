import Orochimaru.Lib.Loops
import Orochimaru.Zkmemory.Commitment.VerkleTree

/-!
# What a Verkle opening binds

The rows link each hash to the next node, but no row follows the last one: the root cell
holds the last path element, and nothing compares it with the hash of the last
commitment.
-/

namespace Zkmemory.Commitment.VerkleTreeCircuit

open Plonkish Rotation Constraints Poseidon Loops

variable {Params : Type} {circuit : VerkleTreeCircuit Params} {R : Nat} {S : Spec Fr R} {A : Nat}

/-! ## The cells -/

section Cells

variable {rows : List VerkleTreeRow} {b : Bool} {root : Fr} {D : Domain}

theorem advice_leaf : (circuit.columns A rows b root).advice 0 0 = circuit.leaf := rfl

theorem advice_root : (circuit.columns A rows b root).advice 0 (circuit.rootRow A) = root := by
  have hne : circuit.rootRow A ≠ 0 := by
    rw [rootRow]
    omega
  change (if circuit.rootRow A = 0 then circuit.leaf
    else if circuit.rootRow A = circuit.rootRow A then root else _) = _
  rw [if_neg hne, if_pos rfl]

theorem advice_node (hlen : rows.length ≤ circuit.pathElements.length) {i : Nat}
    {row : VerkleTreeRow} (h : rows[i]? = some row) :
    (circuit.columns A rows b root).advice 0 (1 + i) = row.node := by
  have hi := (List.getElem?_eq_some_iff.mp h).1
  have hroot : 1 + i ≠ circuit.rootRow A := by
    rw [rootRow]
    omega
  change (if 1 + i = 0 then circuit.leaf else if 1 + i = circuit.rootRow A then root
    else place 1 rows _ (1 + i)) = _
  rw [if_neg (by omega), if_neg hroot]
  exact place_of_some _ h

/-- Every hash is the node of the next row. -/
def Linked (rows : List VerkleTreeRow) : Prop :=
  ∀ i row next, rows[i]? = some row → rows[i + 1]? = some next → row.parent = next.node

theorem linked_iff (hlen : rows.length ≤ circuit.pathElements.length)
    (hfit : circuit.rootRow A < D.usable) :
    (∀ r < D.rows, (circuit.columns A rows b root).selector r *
      ((circuit.columns A rows b root).advice 1 (D.at r prev) -
        (circuit.columns A rows b root).advice 0 r) = 0) ↔ Linked rows := by
  have hrows := D.usable_lt
  rw [rootRow] at hfit
  rw [forall_enabled (F := Fr) 2 (1 + rows.length) (by omega)]
  · constructor
    · intro h i row next hrow hnext
      have hi := (List.getElem?_eq_some_iff.mp hnext).1
      have hgate := h (1 + i + 1) (by omega)
      rw [D.at_prev (by omega)] at hgate
      have hparent : (circuit.columns A rows b root).advice 1 (1 + i) = row.parent :=
        place_of_some _ hrow
      have hsel : (circuit.columns A rows b root).selector (1 + i + 1) = 1 :=
        enabled_of_mem (by omega)
      rw [hsel, one_mul, hparent, add_assoc, advice_node hlen hnext] at hgate
      exact sub_eq_zero.mp hgate
    · intro h r hr
      obtain ⟨i, rfl⟩ : ∃ i, r = 1 + i + 1 := ⟨r - 2, by omega⟩
      have hrow := List.getElem?_eq_getElem (show i < rows.length by omega)
      have hnext := List.getElem?_eq_getElem (show i + 1 < rows.length by omega)
      have hparent : (circuit.columns A rows b root).advice 1 (1 + i) = _ := place_of_some _ hrow
      rw [D.at_prev (by omega), hparent, add_assoc, advice_node hlen hnext,
        h i _ _ hrow hnext, sub_self, mul_zero]
  · intro r _ hsel
    change enabled 2 (1 + rows.length) r * _ = 0
    rw [hsel, zero_mul]

/-- The constraints on the honest cells: the rows are linked, the verdict is positive, and the
indices are in range. -/
theorem holds_iff (hA : 0 < A) (hlen : rows.length ≤ circuit.pathElements.length)
    (hfit : circuit.rootRow A < D.usable) :
    (circuit.columns A rows b root).configure.Holds D ↔
      Linked rows ∧ b = true ∧ ∀ row ∈ rows, Below A row.index := by
  have hrows := D.usable_lt
  have hrange : Ranges A (load A 1 fun _ => (0 : Fr)) D := by
    constructor
    · intro t
      by_cases ht : 1 ≤ t ∧ t < 1 + A
      · exact ⟨t - 1, by omega, if_pos ht⟩
      · exact ⟨0, hA, by simp [load, ht]⟩
    · intro v hv
      rw [rootRow] at hfit
      exact ⟨1 + v, by omega, by simp [load, hv]⟩
  rw [VerkleTreeConfig.configure, System.holds_append, rangeCheck, System.holds_lookup,
    System.holds_gates]
  constructor
  · rintro ⟨hlookup, hgates⟩
    refine ⟨?_, ?_, ?_⟩
    · refine (@linked_iff _ circuit A rows b root D hlen hfit).mp fun r hr => ?_
      have h := hgates r hr _ List.mem_cons_self _ List.mem_cons_self
      rwa [D.at_cur hr] at h
    · have h := hgates 0 (by omega) _ (List.mem_cons_of_mem _ List.mem_cons_self) _
        List.mem_cons_self
      rw [D.at_cur (by omega)] at h
      have hsel : (circuit.columns A rows b root).selectorCheck 0 = 1 :=
        enabled_of_mem (show 0 ≤ 0 ∧ 0 < 1 by decide)
      have hcheck : (circuit.columns A rows b root).check 0 = if b then 1 else 0 := rfl
      rw [hsel, hcheck, one_mul] at h
      by_contra hb
      rw [if_neg hb] at h
      simp at h
    · intro row hrow
      obtain ⟨i, hi⟩ := List.mem_iff_getElem?.mp hrow
      have hlt := (List.getElem?_eq_some_iff.mp hi).1
      rw [rootRow] at hfit
      have h := hrange.lookup_iff.mp hlookup (1 + i) (by omega)
      have hcell : (circuit.columns A rows b root).indices (1 + i) = row.index :=
        place_of_some _ hi
      rwa [hcell] at h
  · rintro ⟨hlinked, rfl, hindex⟩
    refine ⟨hrange.lookup_iff.mpr fun r _ => ?_, ?_⟩
    · rcases place_cases (F := Fr) 1 rows r with ⟨row, hrow, hcell⟩ | hcell
      · rw [show (circuit.columns A rows true root).indices r = row.index from hcell _]
        exact hindex row hrow
      · rw [show (circuit.columns A rows true root).indices r = 0 from hcell _]
        exact below_zero hA
    · intro r hr g hg v hv
      rcases List.mem_pair.mp hg with rfl | rfl
      · rw [List.mem_singleton.mp hv, D.at_cur hr]
        exact (linked_iff hlen hfit).mpr hlinked r hr
      · rw [List.mem_singleton.mp hv, D.at_cur hr]
        by_cases h0 : r = 0
        · have hcheck : (circuit.columns A rows true root).check r = 1 := by
            rw [h0]
            rfl
          rw [hcheck, sub_self, mul_zero]
        · have hsel : (circuit.columns A rows true root).selectorCheck r = 0 :=
            enabled_of_not_mem (by omega)
          rw [hsel, zero_mul]

end Cells

/-! ## The synthesis -/

/-- The commitment of level `i` hashes to `node`. -/
def HashOf (S : Spec Fr R) (circuit : VerkleTreeCircuit Params) (i : Nat) (node : Fr) : Prop :=
  ∃ c, circuit.commitment[i]? = some c ∧ groupToScalar S c = .ok node

/-- The commitment of level `i` opens to `node` at the power of its index. -/
def OpensAt (opens : G1Affine → Fr → Fr → Prop) (circuit : VerkleTreeCircuit Params) (i : Nat)
    (node : Fr) : Prop :=
  ∃ c index x, circuit.commitment[i]? = some c ∧ circuit.indices[i]? = some index ∧
    omegaPower[index.val]? = some x ∧ opens c x node

theorem level_ok {i : Nat} {row : VerkleTreeRow} (h : circuit.level S i = .ok row) :
    (circuit.leaf :: circuit.pathElements)[i]? = some row.node ∧ HashOf S circuit i row.parent ∧
      circuit.indices[i]? = some row.index := by
  unfold level at h
  split at h
  case h_1 node commitment index hnode hcommitment hindex =>
    obtain ⟨parent, hparent, hrow⟩ := bind_ok_iff.mp h
    cases hrow
    exact ⟨hnode, ⟨commitment, hcommitment, hparent⟩, hindex⟩
  case h_2 => cases h

variable {verifyKzgProof : Params → List Fr → List Fr → List G1Affine → List Byte →
  Except Panic Bool}

theorem synthesize_ok_iff {config : VerkleTreeConfig} :
    circuit.synthesize S verifyKzgProof A = .ok config ↔
      circuit.indices.length = circuit.pathElements.length ∧ ∃ rows root points b,
        (List.range circuit.pathElements.length).mapM (circuit.level S) = .ok rows ∧
        circuit.pathElements.getLast? = some root ∧ circuit.indices.mapM point = .ok points ∧
        verifyKzgProof circuit.params points circuit.polyList circuit.commitment circuit.proof =
          .ok b ∧ config = circuit.columns A rows b root := by
  unfold synthesize
  by_cases hlen : circuit.indices.length = circuit.pathElements.length
  · rw [if_neg (by simpa using hlen), and_iff_right hlen]
    cases circuit.pathElements.getLast? with
    | none => simp [bind_ok_iff]
    | some root =>
      simp only [bind_ok_iff, Option.some.injEq, Except.ok.injEq]
      constructor
      · rintro ⟨rows, hrows, points, hpoints, b, hb, rfl⟩
        exact ⟨rows, root, points, b, hrows, rfl, hpoints, hb, rfl⟩
      · rintro ⟨rows, _, points, b, hrows, rfl, hpoints, hb, rfl⟩
        exact ⟨rows, hrows, points, hpoints, b, hb, rfl⟩
  · rw [if_pos (by simpa using hlen)]
    exact iff_of_false (by simp [throw, throwThe, MonadExceptOf.throw]) fun h => hlen h.1

/-! ## The binding of the root -/

/-- What an accepted opening is to say of the tree, from the leaf up to the root. -/
structure Binds (S : Spec Fr R) (opens : G1Affine → Fr → Fr → Prop)
    (circuit : VerkleTreeCircuit Params) (A : Nat) (leaf root : Fr) : Prop where
  indices : ∀ x ∈ circuit.indices, x.val < A
  leaf : circuit.OpensAt opens 0 leaf
  step : ∀ i, i + 1 < circuit.pathElements.length → ∃ node, circuit.pathElements[i]? = some node ∧
    circuit.HashOf S i node ∧ circuit.OpensAt opens (i + 1) node
  root : circuit.HashOf S (circuit.pathElements.length - 1) root

/-- The listed commitments open to the listed values at the listed points. -/
def Verifies (verifyKzgProof : Params → List Fr → List Fr → List G1Affine → List Byte →
    Except Panic Bool) (opens : G1Affine → Fr → Fr → Prop) : Prop :=
  ∀ params points evals commitments proof,
    verifyKzgProof params points evals commitments proof = .ok true →
      ∀ (i : Nat) x, points[i]? = some x → ∃ c e, commitments[i]? = some c ∧ evals[i]? = some e ∧
        opens c x e

theorem point_eq {index x : Fr} (hlt : index.val < 256) (h : point index = .ok x) :
    omegaPower[index.val]? = some x := by
  unfold point at h
  rw [Nat.mod_eq_of_lt hlt] at h
  split at h
  case h_1 y hy =>
    cases h
    exact hy
  case h_2 => cases h

theorem OpensAt.index_lt {opens : G1Affine → Fr → Fr → Prop} {i : Nat} {node index : Fr}
    (h : circuit.OpensAt opens i node) (hindex : circuit.indices[i]? = some index) :
    index.val < 256 := by
  obtain ⟨_, index', x, -, hindex', hx, -⟩ := h
  obtain rfl : index' = index := Option.some.inj (hindex'.symm.trans hindex)
  have hlt := (List.getElem?_eq_some_iff.mp hx).1
  rw [omegaPower, List.length_map] at hlt
  simp only [List.length_cons, List.length_nil] at hlt
  omega

theorem getElem?_point {points : List Fr} (h : circuit.indices.mapM point = .ok points) {i : Nat}
    {index : Fr} (hindex : circuit.indices[i]? = some index) :
    ∃ x, points[i]? = some x ∧ point index = .ok x := by
  obtain ⟨hlen, hget⟩ := List.forall₂_iff_get.mp (forall₂_of_mapM h)
  obtain ⟨hi, rfl⟩ := List.getElem?_eq_some_iff.mp hindex
  have hi' : i < points.length := hlen ▸ hi
  exact ⟨points[i], List.getElem?_eq_getElem hi', hget i hi hi'⟩

theorem getElem?_polyList {i : Nat} (h : i < circuit.pathElements.length) :
    circuit.polyList[i]? = (circuit.leaf :: circuit.pathElements)[i]? := by
  cases i with
  | zero => rfl
  | succ i =>
    rw [polyList, List.getElem?_cons_succ, List.getElem?_cons_succ, List.getElem?_dropLast,
      if_pos (by omega)]

/-- An accepted opening binds the root exactly where the prover lists the hash of the last
commitment as the last path element, and no index is beyond the byte that is looked at. -/
theorem binds_root_iff {opens : G1Affine → Fr → Fr → Prop} (hverify : Verifies verifyKzgProof opens)
    {D : Domain} {leaf root : Fr} (h : circuit.Accepts S verifyKzgProof A D leaf root) :
    Binds S opens circuit A leaf root ↔ 0 < A ∧ (∀ x ∈ circuit.indices, x.val < 256) ∧
      ∃ last, circuit.pathElements.getLast? = some last ∧
        circuit.HashOf S (circuit.pathElements.length - 1) last := by
  obtain ⟨config, hrun, hfit, hholds, hleaf, hroot⟩ := h
  obtain ⟨hindices, rows, last, points, b, hrows, hlast, hpoints, hb, rfl⟩ :=
    synthesize_ok_iff.mp hrun
  rw [advice_leaf] at hleaf
  rw [advice_root] at hroot
  subst hleaf hroot
  obtain ⟨hlen, hlevel⟩ := getElem?_of_mapM_range hrows
  have hpos : 0 < circuit.pathElements.length := by
    refine List.length_pos_iff.mpr fun hnil => ?_
    rw [hnil] at hlast
    cases hlast
  constructor
  · intro hbinds
    refine ⟨?_, ?_, last, hlast, hbinds.root⟩
    · have hmem := List.getElem_mem (show 0 < circuit.indices.length by omega)
      exact (Nat.zero_le _).trans_lt (hbinds.indices _ hmem)
    · intro index hmem
      obtain ⟨i, hi⟩ := List.mem_iff_getElem?.mp hmem
      have hlt := (List.getElem?_eq_some_iff.mp hi).1
      cases i with
      | zero => exact hbinds.leaf.index_lt hi
      | succ i =>
        obtain ⟨node, -, -, hopens⟩ := hbinds.step i (by omega)
        exact hopens.index_lt hi
  · rintro ⟨hA, hbyte, last', hlast', hhash⟩
    obtain rfl : last' = last := Option.some.inj (hlast'.symm.trans hlast)
    obtain ⟨hlinked, rfl, hbelow⟩ := (holds_iff hA hlen.le hfit).mp hholds
    have hopens : ∀ i node, i < circuit.pathElements.length →
        (circuit.leaf :: circuit.pathElements)[i]? = some node → circuit.OpensAt opens i node := by
      intro i node hi hnode
      have hindex := List.getElem?_eq_getElem (show i < circuit.indices.length by omega)
      obtain ⟨x, hx, hpoint⟩ := getElem?_point hpoints hindex
      obtain ⟨c, e, hc, he, hce⟩ := hverify _ _ _ _ _ hb i x hx
      rw [getElem?_polyList hi, hnode] at he
      cases he
      exact ⟨c, _, x, hc, hindex, point_eq (hbyte _ (List.getElem_mem _)) hpoint, hce⟩
    refine ⟨?_, hopens 0 _ hpos rfl, ?_, hhash⟩
    · intro index hmem
      obtain ⟨i, hi⟩ := List.mem_iff_getElem?.mp hmem
      have hlt := (List.getElem?_eq_some_iff.mp hi).1
      obtain ⟨row, hrow, hrowLevel⟩ := hlevel i (by omega)
      obtain ⟨-, -, hrowIndex⟩ := level_ok hrowLevel
      obtain rfl : index = row.index := Option.some.inj (hi.symm.trans hrowIndex)
      obtain ⟨v, hv, he⟩ := hbelow row (List.mem_of_getElem? hrow)
      rw [he, ZMod.val_natCast]
      exact (Nat.mod_le _ _).trans_lt hv
    · intro i hi
      obtain ⟨row, hrow, hrowLevel⟩ := hlevel i (by omega)
      obtain ⟨next, hnext, hnextLevel⟩ := hlevel (i + 1) hi
      obtain ⟨-, hparent, -⟩ := level_ok hrowLevel
      obtain ⟨hnode, -, -⟩ := level_ok hnextLevel
      rw [hlinked i row next hrow hnext] at hparent
      exact ⟨next.node, hnode, hparent, hopens (i + 1) _ hi hnode⟩

/-! ## Openings of the generator -/

/-- The native hash of two words at rate two never fails. -/
theorem hash_pair {F : Type} [Field F] (S : Spec F 2) (message : Fin 2 → F) :
    ∃ out, hash S message = .ok out :=
  ⟨_, rfl⟩

theorem groupToScalar_eq (S : Spec Fr 2) : groupToScalar S ⟨1, 2⟩ = hash S ![1, 2] := by
  have hx : frFromBytes (Fq.toBytes 1) = some 1 := by decide +kernel
  have hy : frFromBytes (Fq.toBytes 2) = some 2 := by decide +kernel
  rw [groupToScalar, hx, hy]

/-- The commitment of the constant polynomial 1 is the generator of the curve, under any
parameters. -/
def verifyGenerator (_ : Unit) (points evals : List Fr) (commitments : List G1Affine)
    (_ : List Byte) : Except Panic Bool :=
  .ok (evals == .replicate points.length 1 && commitments == .replicate points.length ⟨1, 2⟩)

def openGenerator (c : G1Affine) (_ e : Fr) : Prop := c = ⟨1, 2⟩ ∧ e = 1

/-- A path of `n + 1` levels over the leaf 1, with a root of the prover's choice. -/
def generatorOpening (n : Nat) (root : Fr) : VerkleTreeCircuit Unit :=
  ⟨1, .replicate (n + 1) ⟨1, 2⟩, [], .replicate n 1 ++ [root], .replicate (n + 1) 1, ()⟩

theorem verifies_generator : Verifies verifyGenerator openGenerator := by
  intro params points evals commitments proof h i x hx
  simp only [verifyGenerator, Except.ok.injEq, Bool.and_eq_true, beq_iff_eq] at h
  obtain ⟨rfl, rfl⟩ := h
  obtain ⟨hi, -⟩ := List.getElem?_eq_some_iff.mp hx
  exact ⟨⟨1, 2⟩, 1, List.getElem?_replicate_of_lt hi, List.getElem?_replicate_of_lt hi, rfl, rfl⟩

theorem mapM_point_ones (k : Nat) :
    (List.replicate k (1 : Fr)).mapM point = .ok (.replicate k 7) := by
  have hpoint : point 1 = .ok 7 := rfl
  induction k with
  | zero => rfl
  | succ k ih =>
    rw [List.replicate_succ, List.mapM_cons, hpoint, ok_bind, ih, ok_bind]
    rfl

/-- Below the root every node is 1, so the levels are linked where the generator hashes to 1. -/
theorem generatorOpening_accepts (S : Spec Fr 2) {node : Fr}
    (hnode : groupToScalar S ⟨1, 2⟩ = .ok node) {n : Nat} (hn : n = 0 ∨ n ≤ 1000 ∧ node = 1)
    (root : Fr) :
    (generatorOpening n root).Accepts S verifyGenerator 4 ⟨1024, 1018, by decide⟩ 1 root := by
  have hlength : (generatorOpening n root).pathElements.length = n + 1 := by
    simp [generatorOpening]
  have hlevel : ∀ i < n + 1, ∃ row, (generatorOpening n root).level S i = .ok row ∧
      row = ⟨1, node, 1⟩ := by
    intro i hi
    have hpath : ((generatorOpening n root).leaf :: (generatorOpening n root).pathElements)[i]? =
        some 1 := by
      change (1 :: (List.replicate n (1 : Fr) ++ [root]))[i]? = some 1
      rw [← List.cons_append, ← List.replicate_succ, List.getElem?_append_left (by simpa using hi)]
      exact List.getElem?_replicate_of_lt hi
    have hcommitment : (generatorOpening n root).commitment[i]? = some ⟨1, 2⟩ :=
      List.getElem?_replicate_of_lt hi
    have hindex : (generatorOpening n root).indices[i]? = some 1 :=
      List.getElem?_replicate_of_lt hi
    refine ⟨_, ?_, rfl⟩
    rw [level, hpath, hcommitment, hindex]
    change groupToScalar S ⟨1, 2⟩ >>= _ = _
    rw [hnode]
    rfl
  obtain ⟨rows, hrows, hrowsLength, hrow⟩ := mapM_range_ok hlevel
  have hall : ∀ row ∈ rows, row = ⟨1, node, 1⟩ := by
    intro row hmem
    obtain ⟨i, hi, rfl⟩ := List.getElem_of_mem hmem
    obtain ⟨row', hrow', rfl⟩ := hrow i (hrowsLength ▸ hi)
    exact Option.some.inj ((List.getElem?_eq_getElem hi).symm.trans hrow')
  have hfit : (generatorOpening n root).rootRow 4 < 1018 := by
    rw [rootRow, hlength]
    omega
  have hpoints : (generatorOpening n root).indices.mapM point = .ok (.replicate (n + 1) 7) :=
    mapM_point_ones (n + 1)
  have hpoly : (generatorOpening n root).polyList = .replicate (n + 1) 1 := by
    rw [polyList, generatorOpening, List.dropLast_concat]
    rfl
  refine ⟨_, synthesize_ok_iff.mpr ⟨?_, rows, root, _, true, hlength ▸ hrows, ?_, hpoints, ?_, rfl⟩,
    hfit, ?_, advice_leaf, advice_root⟩
  · rw [hlength]
    exact List.length_replicate
  · exact List.getLast?_concat
  · change verifyGenerator () _ (generatorOpening n root).polyList (.replicate (n + 1) ⟨1, 2⟩) [] = _
    rw [hpoly, verifyGenerator, List.length_replicate]
    simp
  · rw [holds_iff (by decide) (by omega) hfit]
    refine ⟨fun i row next hget hnext => ?_, rfl, fun row hmem => ?_⟩
    · obtain ⟨hi, -⟩ := List.getElem?_eq_some_iff.mp hnext
      rw [hall row (List.mem_of_getElem? hget), hall next (List.mem_of_getElem? hnext)]
      exact (hn.resolve_left (by omega)).2
    · rw [hall row hmem]
      exact ⟨1, by decide, by simp⟩

/-- No rounds, so the hash is the first word. -/
def roundless : Spec Fr 2 := ⟨0, 0, id, [], 1, 1⟩

theorem groupToScalar_roundless : groupToScalar roundless ⟨1, 2⟩ = .ok 1 := by
  rw [groupToScalar_eq]
  decide +kernel

/-- Three levels, and the root is the hash of the last commitment. -/
theorem binds_root_iff_generator :
    (generatorOpening 2 1).HashOf roundless 2 1 ∧
      (Binds roundless openGenerator (generatorOpening 2 1) 4 1 1 ↔
        0 < 4 ∧ (∀ x ∈ (generatorOpening 2 1).indices, x.val < 256) ∧
          ∃ last, (generatorOpening 2 1).pathElements.getLast? = some last ∧
            (generatorOpening 2 1).HashOf roundless
              ((generatorOpening 2 1).pathElements.length - 1) last) :=
  ⟨⟨_, rfl, groupToScalar_roundless⟩, binds_root_iff verifies_generator
    (generatorOpening_accepts roundless groupToScalar_roundless (.inr ⟨by decide, rfl⟩) 1)⟩

/-- Whatever the hash is, the opening of one level is accepted under every root. -/
theorem root_unbound : ¬ ∃ S : Spec Fr 2, ∀ root,
    (generatorOpening 0 root).Accepts S verifyGenerator 4 ⟨1024, 1018, by decide⟩ 1 root →
      Binds S openGenerator (generatorOpening 0 root) 4 1 root := by
  rintro ⟨S, h⟩
  obtain ⟨node, hnode⟩ := hash_pair S ![1, 2]
  rw [← groupToScalar_eq] at hnode
  obtain ⟨c, hc, hhash⟩ := (h (node + 1) (generatorOpening_accepts S hnode (.inl rfl) _)).root
  cases hc
  rw [hnode] at hhash
  have hne : node ≠ node + 1 := by simp
  exact hne (Except.ok.inj hhash)

end Zkmemory.Commitment.VerkleTreeCircuit
