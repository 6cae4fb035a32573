import Mathlib
import Orochimaru.Lib.Literals

/-!
# Rank-one constraint systems

Synthesis of a circuit allocates variables, each with the value an honest prover gives
it, and enforces products of linear combinations. The constraints a synthesis leaves can
then be read under the honest values or under any other assignment of its variables.
-/

namespace R1cs

inductive Variable
  | one
  | input (i : Nat)
  | aux (i : Nat)
  deriving DecidableEq

abbrev LinearCombination (F : Type*) := List (F × Variable)

namespace LinearCombination

variable {F : Type*} [Field F]

def zero : LinearCombination F := []

def plus (lc : LinearCombination F) (v : Variable) : LinearCombination F := lc ++ [(1, v)]

def minus (lc : LinearCombination F) (v : Variable) : LinearCombination F := lc ++ [(-1, v)]

def eval (w : Variable → F) (lc : LinearCombination F) : F := (lc.map fun t => t.1 * w t.2).sum

variable (w : Variable → F) (lc : LinearCombination F) (v : Variable)

@[simp] theorem eval_zero : (zero : LinearCombination F).eval w = 0 := rfl

@[simp] theorem eval_plus : (lc.plus v).eval w = lc.eval w + w v := by simp [plus, eval]

@[simp] theorem eval_minus : (lc.minus v).eval w = lc.eval w - w v := by
  simp [minus, eval, sub_eq_add_neg]

end LinearCombination

structure Constraint (F : Type*) where
  a : LinearCombination F
  b : LinearCombination F
  c : LinearCombination F

/-- A variable together with the value of the honest prover. -/
structure AllocatedNum (F : Type*) where
  value : F
  var : Variable

/-- The honest values of the auxiliary variables, and the constraints. -/
structure ConstraintSystem (F : Type*) where
  aux : List F
  constraints : List (Constraint F)

def ConstraintSystem.empty {F : Type*} : ConstraintSystem F := ⟨[], []⟩

/-- A synthesis; the computation of an honest value can fail. -/
abbrev Synthesis (ε F α : Type) := StateT (ConstraintSystem F) (Except ε) α

section

variable {ε F α : Type}

def alloc (value : F) : Synthesis ε F (AllocatedNum F) := fun cs =>
  .ok (⟨value, .aux cs.aux.length⟩, { cs with aux := cs.aux ++ [value] })

def enforce (a b c : LinearCombination F) : Synthesis ε F Unit := fun cs =>
  .ok ((), { cs with constraints := cs.constraints ++ [⟨a, b, c⟩] })

/-! Steps of a synthesis, one after the other. -/

theorem bind_apply {β : Type} (x : Synthesis ε F α) (f : α → Synthesis ε F β)
    (cs : ConstraintSystem F) : (x >>= f) cs = x cs >>= fun r => f r.1 r.2 := rfl

theorem pure_apply (a : α) (cs : ConstraintSystem F) :
    (pure a : Synthesis ε F α) cs = .ok (a, cs) := rfl

theorem lift_apply (x : Except ε α) (cs : ConstraintSystem F) :
    (liftM x : Synthesis ε F α) cs = x >>= fun a => .ok (a, cs) := rfl

theorem alloc_apply (value : F) (cs : ConstraintSystem F) :
    alloc (ε := ε) value cs =
      .ok (⟨value, .aux cs.aux.length⟩, { cs with aux := cs.aux ++ [value] }) := rfl

theorem enforce_apply (a b c : LinearCombination F) (cs : ConstraintSystem F) :
    enforce (ε := ε) a b c cs =
      .ok ((), { cs with constraints := cs.constraints ++ [⟨a, b, c⟩] }) := rfl

/-- The variables of a vector of inputs. -/
def inputs (values : List F) : List (AllocatedNum F) :=
  values.mapIdx fun i value => ⟨value, .input i⟩

end

variable {ε F : Type}

/-! ## Satisfaction -/

section Satisfaction

variable [Field F]

def Constraint.Holds (w : Variable → F) (c : Constraint F) : Prop :=
  c.a.eval w * c.b.eval w = c.c.eval w

/-- An assignment that satisfies all constraints, with the inputs fixed. -/
structure Satisfies (w : Variable → F) (values : List F) (cs : ConstraintSystem F) : Prop where
  one : w .one = 1
  input : ∀ i, w (.input i) = values.getD i 0
  holds : ∀ c ∈ cs.constraints, c.Holds w

/-- The assignment of the honest prover. -/
def ConstraintSystem.honest (cs : ConstraintSystem F) (values : List F) : Variable → F
  | .one => 1
  | .input i => values.getD i 0
  | .aux i => cs.aux.getD i 0

theorem honest_satisfies_iff {cs : ConstraintSystem F} {values : List F} :
    Satisfies (cs.honest values) values cs ↔
      ∀ c ∈ cs.constraints, c.Holds (cs.honest values) :=
  ⟨fun h => h.holds, fun h => ⟨rfl, fun _ => rfl, h⟩⟩

/-- Every variable allocated so far has its honest value. -/
def ConstraintSystem.Honest (w : Variable → F) (cs : ConstraintSystem F) : Prop :=
  ∀ i x, cs.aux[i]? = some x → w (.aux i) = x

theorem ConstraintSystem.honest_spec (cs : ConstraintSystem F) (values : List F) :
    cs.Honest (cs.honest values) := by
  intro i x h
  simp [honest, h]

omit [Field F] in
/-- Values of the auxiliary variables are never overwritten. -/
theorem ConstraintSystem.Honest.of_prefix {w : Variable → F} {cs cs' : ConstraintSystem F}
    (h : cs'.Honest w) (haux : cs.aux <+: cs'.aux) : cs.Honest w := by
  intro i x hi
  obtain ⟨more, hmore⟩ := haux
  apply h i x
  rw [← hmore, List.getElem?_append_left (List.getElem?_eq_some_iff.mp hi).1]
  exact hi

/-- A number whose variable has its value. -/
def AllocatedNum.Carried (w : Variable → F) (n : AllocatedNum F) : Prop := w n.var = n.value

theorem inputs_carried {values : List F} {w : Variable → F}
    (hw : ∀ i, w (.input i) = values.getD i 0) : ∀ n ∈ inputs values, n.Carried w := by
  intro n hn
  obtain ⟨i, hi, rfl⟩ := List.mem_mapIdx.mp hn
  simp [AllocatedNum.Carried, hw, hi]

end Satisfaction

@[simp] theorem inputs_length (values : List F) : (inputs values).length = values.length := by
  simp [inputs]

theorem inputs_getElem? (values : List F) (i : Nat) :
    (inputs values)[i]? = (values[i]?).map fun value => ⟨value, .input i⟩ := by
  simp [inputs]

@[simp] theorem inputs_values (values : List F) : (inputs values).map (·.value) = values := by
  apply List.ext_getElem?
  intro i
  rw [List.getElem?_map, inputs_getElem?]
  cases values[i]? <;> rfl

theorem values_of_carried {w : Variable → F} {l : List (AllocatedNum F)}
    (h : ∀ n ∈ l, n.Carried w) : l.map (fun n => w n.var) = l.map (·.value) :=
  List.map_congr_left h

/-! ## Allocating a vector -/

/-- The variables `base, base + 1, ...` with the given values. -/
def numbered (base : Nat) (values : List F) : List (AllocatedNum F) :=
  values.mapIdx fun i value => ⟨value, .aux (base + i)⟩

@[simp] theorem numbered_length (base : Nat) (values : List F) :
    (numbered base values).length = values.length := by simp [numbered]

theorem numbered_getElem? (base : Nat) (values : List F) (i : Nat) :
    (numbered base values)[i]? = (values[i]?).map fun value => ⟨value, .aux (base + i)⟩ := by
  simp [numbered]

theorem numbered_snoc (base : Nat) (values : List F) (value : F) :
    numbered base (values ++ [value]) =
      numbered base values ++ [⟨value, .aux (base + values.length)⟩] := by
  simp [numbered, List.mapIdx_append]

@[simp] theorem numbered_values (base : Nat) (values : List F) :
    (numbered base values).map (·.value) = values := by
  apply List.ext_getElem?
  intro i
  rw [List.getElem?_map, numbered_getElem?]
  cases values[i]? <;> rfl

/-- Numbered variables that stand where the system keeps their values. -/
theorem numbered_carried {w : Variable → F} {cs : ConstraintSystem F} (h : cs.Honest w)
    {base : Nat} {values : List F}
    (haux : ∀ i x, values[i]? = some x → cs.aux[base + i]? = some x) :
    ∀ n ∈ numbered base values, n.Carried w := by
  intro n hn
  obtain ⟨i, hi, rfl⟩ := List.mem_mapIdx.mp hn
  exact h _ _ (haux i _ (List.getElem?_eq_getElem hi))

theorem mapM_alloc (values : List F) (cs : ConstraintSystem F) :
    (values.mapM (alloc (ε := ε))) cs =
      .ok (numbered cs.aux.length values, { cs with aux := cs.aux ++ values }) := by
  induction values generalizing cs with
  | nil =>
    simp only [List.mapM_nil, List.append_nil]
    rfl
  | cons v values ih =>
    rw [List.mapM_cons]
    have hstep : (do
        let n ← alloc (ε := ε) v
        let ns ← values.mapM alloc
        pure (n :: ns)) cs = (do
          let r ← (values.mapM (alloc (ε := ε))) { cs with aux := cs.aux ++ [v] }
          .ok (⟨v, .aux cs.aux.length⟩ :: r.1, r.2)) := rfl
    rw [hstep, ih]
    simp only [numbered, List.mapIdx_cons, List.length_append, List.length_singleton,
      List.append_assoc, List.singleton_append, Nat.add_zero, Nat.add_assoc, Nat.add_comm 1]
    rfl

end R1cs
