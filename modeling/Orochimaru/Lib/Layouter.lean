import Orochimaru.Lib.Loops
import Orochimaru.Lib.Plonkish

/-!
# Circuits laid out in regions

A synthesis assigns regions one after the other and logs what it does to their cells. The
log is a list of constraints on any assignment of the cells, and at the same time the
assignment of the honest prover.
-/

namespace Layouter

open Plonkish Loops

/-- A cell is addressed by its region, its row there and its column. -/
structure Cell (C : Type) where
  region : Nat
  offset : Nat
  column : C
  deriving DecidableEq

/-- A cell together with the value of the honest prover. -/
structure AssignedCell (C F : Type) where
  cell : Cell C
  value : F

inductive Op (Q C F : Type)
  | enable (selector : Q) (region offset : Nat)
  | assignAdvice (cell : Cell C) (value : F)
  | assignFixed (cell : Cell C) (value : F)
  | constrainEqual (a b : Cell C)
  | constrainConstant (cell : Cell C) (value : F)
  | constrainInstance (cell : Cell C) (row : Nat)

/-- The polynomials of a gate, over the columns and rotations it queries. -/
abbrev Gate (C F : Type) := (C → Rotation → F) → List F

variable {ε Q C F : Type}

/-! ## Assignments -/

section Query

variable (v : Cell C → F)

/-- What is queried at a row of a region. -/
def query (region offset : Nat) (c : C) (rotation : Rotation) : F :=
  v ⟨region, (offset + rotation).toNat, c⟩

@[simp] theorem query_cur (region offset : Nat) (c : C) :
    query v region offset c .cur = v ⟨region, offset, c⟩ := by
  rw [query, Rotation.cur, add_zero, Int.toNat_natCast]

theorem query_next (region offset : Nat) (c : C) :
    query v region offset c 1 = v ⟨region, offset + 1, c⟩ := rfl

/-- The value of the honest prover is the one assigned. -/
def AssignedCell.Carried (a : AssignedCell C F) : Prop := v a.cell = a.value

/-- The cell an operation assigns, if any, with its value. -/
def Op.assigned : Op Q C F → Option (Cell C × F)
  | assignAdvice cell value => some (cell, value)
  | assignFixed cell value => some (cell, value)
  | _ => none

def assignments (ops : List (Op Q C F)) : List (Cell C × F) := ops.filterMap Op.assigned

/-- The assignment has the values of the honest prover. -/
def Follows (ops : List (Op Q C F)) : Prop := ∀ a ∈ assignments ops, v a.1 = a.2

variable {v} {ops ops' : List (Op Q C F)}

theorem assignments_append : assignments (ops ++ ops') = assignments ops ++ assignments ops' :=
  List.filterMap_append

theorem assignments_ofFn {n : Nat} {f : Fin n → Op Q C F} {g : Fin n → Cell C × F}
    (h : ∀ i, (f i).assigned = some (g i)) : assignments (List.ofFn f) = List.ofFn g := by
  induction n with
  | zero => simp [assignments]
  | succ n ih =>
    rw [List.ofFn_succ, List.ofFn_succ, ← ih fun i => h i.succ]
    exact List.filterMap_cons_some (h 0)

theorem assignments_eq_nil (h : ∀ op ∈ ops, op.assigned = none) : assignments ops = [] :=
  List.filterMap_eq_nil_iff.mpr h

theorem assignments_ofFn_nil {n : Nat} {f : Fin n → Op Q C F} (h : ∀ i, (f i).assigned = none) :
    assignments (List.ofFn f) = [] :=
  assignments_eq_nil (List.forall_mem_ofFn_iff.mpr h)

theorem assignments_cons_none {op : Op Q C F} (h : op.assigned = none) :
    assignments (op :: ops) = assignments ops :=
  List.filterMap_cons_none h

theorem assignments_cons_some {op : Op Q C F} {a : Cell C × F} (h : op.assigned = some a) :
    assignments (op :: ops) = a :: assignments ops :=
  List.filterMap_cons_some h

theorem follows_append : Follows v (ops ++ ops') ↔ Follows v ops ∧ Follows v ops' := by
  rw [Follows, assignments_append]
  exact List.forall_mem_append

theorem Follows.of_mem (h : Follows v ops) {op : Op Q C F} (hop : op ∈ ops) {a : Cell C × F}
    (ha : op.assigned = some a) : v a.1 = a.2 :=
  h a (List.mem_filterMap.mpr ⟨op, hop, ha⟩)

end Query

section Satisfaction

variable [Zero F] (gates : Q → Gate C F) (instances : Nat → F) (v : Cell C → F)

/-- What the operation demands of an assignment. -/
def Op.Holds : Op Q C F → Prop
  | enable selector region offset => ∀ p ∈ gates selector (query v region offset), p = 0
  | assignAdvice _ _ => True
  | assignFixed cell value => v cell = value
  | constrainEqual a b => v a = v b
  | constrainConstant cell value => v cell = value
  | constrainInstance cell row => v cell = instances row

def Satisfies (ops : List (Op Q C F)) : Prop := ∀ op ∈ ops, op.Holds gates instances v

variable {gates instances v} {ops ops' : List (Op Q C F)}

theorem satisfies_append :
    Satisfies gates instances v (ops ++ ops') ↔
      Satisfies gates instances v ops ∧ Satisfies gates instances v ops' :=
  List.forall_mem_append

theorem satisfies_nil : Satisfies gates instances v ([] : List (Op Q C F)) := by
  simp [Satisfies]

theorem satisfies_singleton {op : Op Q C F} :
    Satisfies gates instances v [op] ↔ op.Holds gates instances v :=
  List.forall_mem_singleton

theorem satisfies_ofFn {n : Nat} {f : Fin n → Op Q C F} :
    Satisfies gates instances v (List.ofFn f) ↔ ∀ i, (f i).Holds gates instances v :=
  List.forall_mem_ofFn_iff

end Satisfaction

/-! ## The assignment of the honest prover -/

section Overlay

variable [DecidableEq C]

/-- What the operations assign, on top of the cells of earlier regions. -/
def overlay (ops : List (Op Q C F)) (v : Cell C → F) : Cell C → F := fun c =>
  (((assignments ops).find? fun a => a.1 = c).map Prod.snd).getD (v c)

/-- No cell is assigned twice. -/
def Unambiguous (ops : List (Op Q C F)) : Prop := ((assignments ops).map Prod.fst).Nodup

theorem follows_overlay {ops : List (Op Q C F)} (h : Unambiguous ops) (v : Cell C → F) :
    Follows (overlay ops v) ops := by
  intro a ha
  obtain ⟨b, hb⟩ : ∃ b, (assignments ops).find? (fun x => x.1 = a.1) = some b :=
    Option.isSome_iff_exists.mp (List.find?_isSome.mpr ⟨a, ha, decide_eq_true rfl⟩)
  have hkey : b.1 = a.1 := by simpa using List.find?_some hb
  have hba : b = a := List.inj_on_of_nodup_map h (List.mem_of_find?_eq_some hb) ha hkey
  rw [overlay, hb, hba]
  rfl

theorem overlay_of_not_mem {ops : List (Op Q C F)} {c : Cell C}
    (h : ∀ a ∈ assignments ops, a.1 ≠ c) (v : Cell C → F) : overlay ops v c = v c := by
  have hnone : (assignments ops).find? (fun a => a.1 = c) = none :=
    List.find?_eq_none.mpr fun a ha => by simpa using h a ha
  rw [overlay, hnone]
  rfl

end Overlay

section Fresh

variable {ops ops' : List (Op Q C F)}

/-- Operations whose cells a measure tells apart. -/
theorem Unambiguous.append {μ : Cell C → Nat} {k : Nat} (h : Unambiguous ops)
    (h' : Unambiguous ops') (hle : ∀ a ∈ assignments ops, μ a.1 ≤ k)
    (hlt : ∀ a ∈ assignments ops', k < μ a.1) : Unambiguous (ops ++ ops') := by
  rw [Unambiguous, assignments_append, List.map_append]
  refine List.Nodup.append h h' ?_
  intro c hc hc'
  obtain ⟨a, ha, rfl⟩ := List.mem_map.mp hc
  obtain ⟨b, hb, hab⟩ := List.mem_map.mp hc'
  have hb' := hlt b hb
  rw [hab] at hb'
  exact absurd (hle a ha) (by omega)

theorem unambiguous_of_nil (h : assignments ops = []) : Unambiguous ops := by
  rw [Unambiguous, h]
  exact List.nodup_nil

theorem unambiguous_ofFn {n : Nat} {f : Fin n → Op Q C F} {g : Fin n → Cell C × F}
    (h : ∀ i, (f i).assigned = some (g i)) (hinj : Function.Injective fun i => (g i).1) :
    Unambiguous (List.ofFn f) := by
  rw [Unambiguous, assignments_ofFn h, List.map_ofFn]
  exact List.nodup_ofFn.mpr hinj

/-- A loop whose steps a measure tells apart. -/
theorem unambiguous_flatten {n : Nat} {f : Fin n → List (Op Q C F)} {μ : Cell C → Nat}
    (h : ∀ i, Unambiguous (f i)) (hμ : ∀ i, ∀ a ∈ assignments (f i), μ a.1 = i) :
    Unambiguous (List.ofFn f).flatten := by
  rw [Unambiguous, assignments, List.filterMap_flatten, List.map_flatten, List.nodup_flatten]
  constructor
  · rw [List.map_ofFn, List.map_ofFn, List.forall_mem_ofFn_iff]
    exact h
  · rw [List.map_ofFn, List.map_ofFn, List.pairwise_ofFn]
    intro i j hij c hc hc'
    obtain ⟨a, ha, rfl⟩ := List.mem_map.mp hc
    obtain ⟨b, hb, hab⟩ := List.mem_map.mp hc'
    have hi := hμ i a ha
    rw [← hab, hμ j b hb] at hi
    exact absurd hi (by omega)

theorem assignments_flatten {n : Nat} {f : Fin n → List (Op Q C F)} {P : Cell C × F → Prop} :
    (∀ a ∈ assignments (List.ofFn f).flatten, P a) ↔ ∀ i, ∀ a ∈ assignments (f i), P a := by
  rw [assignments, List.filterMap_flatten]
  simp only [List.mem_flatten, List.mem_map, List.mem_ofFn]
  constructor
  · intro h i a ha
    exact h a ⟨_, ⟨f i, ⟨i, rfl⟩, rfl⟩, ha⟩
  · rintro h a ⟨_, ⟨_, ⟨i, rfl⟩, rfl⟩, ha⟩
    exact h i a ha

/-- The operations assign cells of the regions from `lo` to `hi`, each once. -/
structure Fresh (lo hi : Nat) (ops : List (Op Q C F)) : Prop where
  unambiguous : Unambiguous ops
  region : ∀ a ∈ assignments ops, lo ≤ a.1.region ∧ a.1.region < hi

theorem Fresh.append {lo mid hi : Nat} (hlo : lo ≤ mid) (hhi : mid ≤ hi) (h : Fresh lo mid ops)
    (h' : Fresh mid hi ops') : Fresh lo hi (ops ++ ops') := by
  constructor
  · cases mid with
    | zero =>
      have hnil : assignments ops = [] :=
        List.eq_nil_iff_forall_not_mem.mpr fun a ha => absurd (h.region a ha).2 (by omega)
      rw [Unambiguous, assignments_append, hnil]
      exact h'.unambiguous
    | succ k =>
      exact h.unambiguous.append (μ := Cell.region) (k := k) h'.unambiguous
        (fun a ha => Nat.le_of_lt_succ (h.region a ha).2) fun a ha => (h'.region a ha).1
  · rw [assignments_append]
    refine List.forall_mem_append.mpr ⟨fun a ha => ?_, fun a ha => ?_⟩
    · exact ⟨(h.region a ha).1, (h.region a ha).2.trans_le hhi⟩
    · exact ⟨hlo.trans (h'.region a ha).1, (h'.region a ha).2⟩

end Fresh

/-! ## Gadgets -/

section Gadgets

variable [Zero F] {gates : Q → Gate C F} {instances : Nat → F} {lo mid hi : Nat}
  {pre rel inter rel' post : (Cell C → F) → Prop} {ops ops' : List (Op Q C F)}

/-- Operations on regions of their own. They force `rel` on any assignment; the values of
the honest prover satisfy them where the cells read are as in `pre`, and leave `post`. -/
structure Gadget (gates : Q → Gate C F) (instances : Nat → F) (lo hi : Nat)
    (pre rel post : (Cell C → F) → Prop) (ops : List (Op Q C F)) : Prop where
  sound : ∀ v, Satisfies gates instances v ops → rel v
  complete : ∀ v, Follows v ops → pre v → Satisfies gates instances v ops ∧ post v
  fresh : Fresh lo hi ops

theorem Gadget.append (hlo : lo ≤ mid) (hhi : mid ≤ hi)
    (h : Gadget gates instances lo mid pre rel inter ops)
    (h' : Gadget gates instances mid hi inter rel' post ops') :
    Gadget gates instances lo hi pre (fun v => rel v ∧ rel' v) post (ops ++ ops') where
  sound v hv := by
    obtain ⟨h1, h2⟩ := satisfies_append.mp hv
    exact ⟨h.sound v h1, h'.sound v h2⟩
  complete v hv hpre := by
    obtain ⟨h1, h2⟩ := follows_append.mp hv
    obtain ⟨hs, hinter⟩ := h.complete v h1 hpre
    obtain ⟨hs', hpost⟩ := h'.complete v h2 hinter
    exact ⟨satisfies_append.mpr ⟨hs, hs'⟩, hpost⟩
  fresh := h.fresh.append hlo hhi h'.fresh

theorem Gadget.imp (h : Gadget gates instances lo hi pre rel post ops)
    (hpre : ∀ v, inter v → pre v) (hrel : ∀ v, rel v → rel' v) {post' : (Cell C → F) → Prop}
    (hpost : ∀ v, post v → post' v) : Gadget gates instances lo hi inter rel' post' ops where
  sound v hv := hrel v (h.sound v hv)
  complete v hv hi := ⟨(h.complete v hv (hpre v hi)).1, hpost v (h.complete v hv (hpre v hi)).2⟩
  fresh := h.fresh

/-- What else is known of the honest values stays known. -/
theorem Gadget.frame (h : Gadget gates instances lo hi pre rel post ops)
    (frame : (Cell C → F) → Prop) :
    Gadget gates instances lo hi (fun v => pre v ∧ frame v) rel (fun v => post v ∧ frame v) ops where
  sound := h.sound
  complete v hv hpre :=
    ⟨(h.complete v hv hpre.1).1, (h.complete v hv hpre.1).2, hpre.2⟩
  fresh := h.fresh

/-- The honest values are among the assignments the operations force `rel` on. -/
theorem Gadget.post_rel (h : Gadget gates instances lo hi pre rel post ops) :
    Gadget gates instances lo hi pre rel (fun v => post v ∧ rel v) ops where
  sound := h.sound
  complete v hv hpre := by
    obtain ⟨hs, hpost⟩ := h.complete v hv hpre
    exact ⟨hs, hpost, h.sound v hs⟩
  fresh := h.fresh

theorem Gadget.nil :
    Gadget gates instances lo lo pre (fun _ => True) pre ([] : List (Op Q C F)) where
  sound _ _ := trivial
  complete _ _ hpre := ⟨satisfies_nil, hpre⟩
  fresh := ⟨unambiguous_of_nil rfl, fun _ ha => by cases ha⟩

end Gadgets

/-! ## Synthesis -/

/-- The number of regions so far, and the log. -/
structure Layout (Q C F : Type) where
  regions : Nat
  ops : List (Op Q C F)

/-- A synthesis; it can fail. -/
abbrev Synthesis (ε Q C F α : Type) := StateT (Layout Q C F) (Except ε) α

section Synthesis

variable {α β : Type}

/-- Assigns the next region. -/
def assignRegion (region : Nat → List (Op Q C F) × α) : Synthesis ε Q C F α := fun l =>
  .ok ((region l.regions).2, ⟨l.regions + 1, l.ops ++ (region l.regions).1⟩)

def constrainInstance (cell : Cell C) (row : Nat) : Synthesis ε Q C F Unit := fun l =>
  .ok ((), { l with ops := l.ops ++ [.constrainInstance cell row] })

theorem bind_apply (x : Synthesis ε Q C F α) (f : α → Synthesis ε Q C F β) (l : Layout Q C F) :
    (x >>= f) l = x l >>= fun r => f r.1 r.2 := rfl

theorem pure_apply (a : α) (l : Layout Q C F) :
    (pure a : Synthesis ε Q C F α) l = .ok (a, l) := rfl

end Synthesis

/-! ## Loops inside a region -/

section TryFold

variable {σ β : Type}

/-- A loop over `l` with a state, collecting what the steps do. -/
def tryFold (f : σ → β → List (Op Q C F) × σ) : List β → σ → List (Op Q C F) × σ
  | [], s => ([], s)
  | b :: l, s =>
    let r := f s b
    let rest := tryFold f l r.2
    (r.1 ++ rest.1, rest.2)

theorem tryFold_append {f : σ → β → List (Op Q C F) × σ} {l l' : List β} {s : σ} :
    tryFold f (l ++ l') s =
      ((tryFold f l s).1 ++ (tryFold f l' (tryFold f l s).2).1,
        (tryFold f l' (tryFold f l s).2).2) := by
  induction l generalizing s with
  | nil => rfl
  | cons b l ih => rw [List.cons_append, tryFold, ih, tryFold, List.append_assoc]

/-- An invariant of the operations done so far and the state. -/
theorem tryFold_range {f : σ → Nat → List (Op Q C F) × σ} {n : Nat} {s : σ}
    (Inv : Nat → List (Op Q C F) → σ → Prop) (hinit : Inv 0 [] s)
    (hstep : ∀ i < n, ∀ ops t, Inv i ops t → Inv (i + 1) (ops ++ (f t i).1) (f t i).2) :
    Inv n (tryFold f (List.range n) s).1 (tryFold f (List.range n) s).2 := by
  induction n with
  | zero => exact hinit
  | succ n ih =>
    have hstep' := hstep n (Nat.lt_succ_self n) _ _ (ih fun i hi => hstep i (by omega))
    rw [List.range_succ, tryFold_append]
    simpa [tryFold] using hstep'

end TryFold

end Layouter
