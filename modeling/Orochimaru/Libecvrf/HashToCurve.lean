import Orochimaru.Libecvrf.ContractProof
import Orochimaru.Libecvrf.FieldHash

/-!
# Hashing to the curve

The field elements of `libsecp256k1` are integers reduced late: a product or a root may stand
for its residue by a number above the field size, and only normalised elements may be written as
bytes or asked for their parity. The functions of `hash.rs` over any such arithmetic follow the
exact ones, and these end at the first hash of a chain that is a coordinate of the curve.
-/

namespace Libecvrf

open Zkmemory Loops

/-! ## The chain -/

section Chain

variable (keccak : List Byte → Bytes 32)

/-- The element `field_hash` returns. -/
def hashField (b : List Byte) : Field := ((Scalar.fromBytes (keccak b)).val : Field)

/-- The first hash, and each time the hash of the bytes of the last. -/
def chain (start : List Byte) : Nat → Field
  | 0 => hashField keccak start
  | i + 1 => hashField keccak (Field.b32 (chain start i))

end Chain

/-- The coordinate of a point of the curve. -/
def Admissible (x : Field) : Prop := IsSquare (x ^ 3 + 7)

theorem ySquared_eq (x : Field) : ySquared x = x ^ 3 + 7 := by
  rw [ySquared]
  ring

/-- The field size is odd, so an element and its negative have different parities. -/
theorem val_neg_mod_two {y : Field} (hy : y ≠ 0) : (-y).val % 2 = 1 - y.val % 2 := by
  have : NeZero y := ⟨hy⟩
  have hsize : fieldSize % 2 = 1 := by norm_num [fieldSize]
  have hlt : y.val < fieldSize := ZMod.val_lt y
  rw [ZMod.val_neg_of_ne_zero]
  omega

theorem eq_of_even_roots {y y' : Field} (hsq : y ^ 2 = y' ^ 2) (hy : y.val % 2 = 0)
    (hy' : y'.val % 2 = 0) : y = y' := by
  rcases sq_eq_sq_iff_eq_or_eq_neg.mp hsq with h | h
  · exact h
  · by_cases h0 : y' = 0
    · rw [h, h0, neg_zero]
    · rw [h, val_neg_mod_two h0, hy'] at hy
      omega

/-- Euler's criterion, as a computation. -/
theorem admissible_iff (n : Nat) : Admissible (n : Field) ↔
    Lucas.powMod fieldSize 256 (n ^ 3 + 7) (fieldSize / 2) % fieldSize = 1 := by
  have hne : (n : Field) ^ 3 + 7 ≠ 0 := fun h0 =>
    cube_ne_neg_seven (n : Field) (eq_neg_of_add_eq_zero_left h0)
  have hbits : fieldSize / 2 < 2 ^ 256 := by norm_num [fieldSize]
  have hpow : (Lucas.powMod fieldSize 256 (n ^ 3 + 7) (fieldSize / 2) : Field) =
      ((n : Field) ^ 3 + 7) ^ (fieldSize / 2) := by
    rw [Lucas.powMod_cast _ _ _ _ hbits]
    push_cast
    rfl
  rw [Admissible, ZMod.euler_criterion fieldSize hne, ← hpow, ← Nat.cast_one (R := Field),
    ZMod.natCast_eq_natCast_iff']
  rfl

/-- The first hash is taken where it is admissible. -/
theorem hashToCurvePrefix_of_admissible {keccak : List Byte → Bytes 32} {alpha : Scalar}
    {pk : Affine} {x : Field} (fuel : Nat)
    (hx : hashField keccak (Field.b32 1 ++ pk.b32 ++ Scalar.b32 alpha) = x) (hadm : Admissible x) :
    ∃ y, hashToCurvePrefix keccak (fuel + 1) alpha pk = .ok ⟨x, y, false⟩ := by
  obtain ⟨y, hsq, heven, hodd⟩ : ∃ y : Field, ySquared x = y ^ 2 ∧ y.val % 2 = 0 ∧
      (-y).val % 2 = 1 := by
    obtain ⟨r, hr⟩ := hadm
    have hne : r ≠ 0 := by
      rintro rfl
      exact cube_ne_neg_seven x (eq_neg_of_add_eq_zero_left (by rw [hr, mul_zero]))
    by_cases hpar : r.val % 2 = 0
    · exact ⟨r, by rw [ySquared_eq, hr, sq], hpar, by rw [val_neg_mod_two hne, hpar]⟩
    · refine ⟨-r, by rw [ySquared_eq, hr, neg_sq, sq], ?_, ?_⟩
      · rw [val_neg_mod_two hne]
        omega
      · rw [neg_neg]
        omega
  have hfield : fieldHash keccak (Field.b32 1 ++ pk.b32 ++ Scalar.b32 alpha) = .ok x :=
    (fieldHash_eq keccak _).trans (congrArg Except.ok hx)
  have hcurve : isOnCurve ⟨x, y, false⟩ = true := by
    rw [isOnCurve, decide_eq_true_eq, hsq, sq]
  refine ⟨y, ?_⟩
  rw [hashToCurvePrefix, newCandidatePoint_of_sq keccak hfield hsq heven hodd, ok_bind,
    hashToCurveLoop, if_pos hcurve]

/-- The operations of `Field` that `hash.rs` calls. -/
structure LazyField (F : Type) where
  /-- The integer the limbs hold. -/
  value : F → Nat
  normalize : F → F
  fromInt : Nat → F
  add : F → F → F
  mul : F → F → F
  /-- `neg(1)` -/
  neg : F → F
  /-- The first component of `sqrt`. -/
  sqrt : F → F
  setB32 : Bytes 32 → F × Bool
  b32 : F → Bytes 32
  isOdd : F → Bool
  eq : F → F → Bool

namespace LazyField

variable {F : Type} (A : LazyField F)

def toField (a : F) : Field := (A.value a : Field)

def Normal (a : F) : Prop := A.value a < fieldSize

/-- Exact arithmetic modulo the field size; a root is promised of squares only. -/
structure Exact : Prop where
  normalize : ∀ a, A.value (A.normalize a) = A.value a % fieldSize
  fromInt : ∀ n, n < 2 ^ 32 → A.value (A.fromInt n) = n
  add : ∀ a b, A.toField (A.add a b) = A.toField a + A.toField b
  mul : ∀ a b, A.toField (A.mul a b) = A.toField a * A.toField b
  neg : ∀ a, A.Normal a → A.toField (A.neg a) = -A.toField a
  sqrt : ∀ a, IsSquare (A.toField a) → A.toField (A.sqrt a) ^ 2 = A.toField a
  setB32 : ∀ b, A.value (A.setB32 b).1 = (Uint.fromBeBytes b).val
  setB32_flag : ∀ b, (A.setB32 b).2 = true → A.Normal (A.setB32 b).1
  b32 : ∀ a, A.Normal a → A.b32 a = (Uint.ofNat (A.value a)).toBeBytes
  isOdd : ∀ a, A.Normal a → (A.isOdd a = true ↔ A.value a % 2 = 1)
  eq : ∀ a b, A.eq a b = true ↔ A.toField a = A.toField b

/-! ## The functions -/

/-- `Affine`, of a finite point. -/
structure Pair (F : Type) where
  x : F
  y : F

def ySquared (x : F) : F :=
  let t := A.add (A.mul (A.mul x x) x) (A.fromInt 7)
  A.normalize t

def isOnCurve (point : Pair F) : Bool := A.eq (A.ySquared point.x) (A.mul point.y point.y)

section Hashes

variable (keccak : List Byte → Bytes 32)

def fieldHash (b : List Byte) : Except Panic F := do
  let output := keccak b
  let s : Scalar := Scalar.fromBytes output
  let s ← if fieldSize ≤ s.val then
      let output := keccak (List.ofFn output)
      if groupOrder ≤ (Uint.fromBeBytes output).val then .ok (Scalar.fromBytes output)
      else .error .assertionFailed
    else .ok s
  let (f, set) := A.setB32 (Uint.ofNat s.val : Uint 32).toBeBytes
  return if !set then A.normalize f else f

def newCandidatePoint (b : List Byte) : Except Panic (Pair F) := do
  let x ← A.fieldHash keccak b
  let y := A.sqrt (A.ySquared x)
  let x := A.normalize x
  let y := A.normalize y
  return ⟨x, if A.isOdd y then A.normalize (A.neg y) else y⟩

/-- The retries of `hash_to_curve_prefix`; `fuel` bounds the hashes. -/
def hashToCurveLoop : Nat → Pair F → Except Panic (Pair F)
  | 0, _ => .error .fuelExhausted
  | fuel + 1, rv =>
    if A.isOnCurve rv then .ok rv
    else do
      let rv ← A.newCandidatePoint keccak (List.ofFn (A.b32 rv.x))
      hashToCurveLoop fuel rv

def hashToCurvePrefix (fuel : Nat) (alpha : Scalar) (pk : Pair F) : Except Panic (Pair F) := do
  let x := A.normalize pk.x
  let y := A.normalize pk.y
  let packed := List.ofFn (A.b32 (A.fromInt 1)) ++ List.ofFn (A.b32 x) ++ List.ofFn (A.b32 y) ++
    Scalar.b32 alpha
  let rv ← A.newCandidatePoint keccak packed
  A.hashToCurveLoop keccak fuel rv

end Hashes

/-! ## One lemma for each operation -/

section Operations

variable {A} (hA : A.Exact)
include hA

theorem normal_normalize (a : F) : A.Normal (A.normalize a) := by
  rw [Normal, hA.normalize]
  exact Nat.mod_lt _ (by norm_num [fieldSize])

theorem toField_normalize (a : F) : A.toField (A.normalize a) = A.toField a := by
  rw [toField, hA.normalize, toField, ZMod.natCast_mod]

omit hA in
theorem val_toField {a : F} (ha : A.Normal a) : (A.toField a).val = A.value a :=
  ZMod.val_cast_of_lt ha

theorem b32_eq {a : F} (ha : A.Normal a) : List.ofFn (A.b32 a) = Field.b32 (A.toField a) := by
  rw [hA.b32 a ha, Field.b32, val_toField ha]

theorem toField_fromInt {n : Nat} (hn : n < 2 ^ 32) : A.toField (A.fromInt n) = (n : Field) := by
  rw [toField, hA.fromInt n hn]

theorem toField_ySquared (x : F) : A.toField (A.ySquared x) = A.toField x ^ 3 + 7 := by
  rw [← ySquared_eq, ySquared, toField_normalize hA, hA.add, hA.mul, hA.mul,
    toField_fromInt hA (by norm_num), Libecvrf.ySquared]
  rfl

theorem isOnCurve_iff (point : Pair F) :
    A.isOnCurve point = true ↔ A.toField point.x ^ 3 + 7 = A.toField point.y ^ 2 := by
  rw [isOnCurve, hA.eq, toField_ySquared hA, hA.mul, sq]

/-- The assertion is not reached and the hash is normalised. -/
theorem fieldHash_ok (keccak : List Byte → Bytes 32) (b : List Byte) :
    ∃ f, A.fieldHash keccak b = .ok f ∧ A.Normal f ∧ A.toField f = hashField keccak b := by
  have hlt : (Scalar.fromBytes (keccak b)).val < fieldSize :=
    (ZMod.val_lt _).trans_le groupOrder_le_fieldSize
  have hval : (Uint.ofNat (Scalar.fromBytes (keccak b)).val : Uint 32).val =
      (Scalar.fromBytes (keccak b)).val :=
    Uint.ofNat_val (hlt.trans (by norm_num [fieldSize]))
  have hset := hA.setB32 (Uint.ofNat (Scalar.fromBytes (keccak b)).val : Uint 32).toBeBytes
  rw [Uint.fromBeBytes_toBeBytes, hval] at hset
  rw [fieldHash]
  simp only [if_neg hlt.not_ge, ok_bind]
  refine ⟨_, rfl, ?_, ?_⟩
  · cases hflag : (A.setB32 (Uint.ofNat (Scalar.fromBytes (keccak b)).val : Uint 32).toBeBytes).2
    · exact normal_normalize hA _
    · exact hA.setB32_flag _ hflag
  · have hfield : A.toField (A.setB32
        (Uint.ofNat (Scalar.fromBytes (keccak b)).val : Uint 32).toBeBytes).1 =
        hashField keccak b := by
      rw [toField, hset, hashField]
    split
    · rw [toField_normalize hA, hfield]
    · exact hfield

end Operations

/-! ## Candidates -/

/-- What is known of a candidate for `x`: the even root where there is one, all normalised. -/
structure Candidate (x : Field) (rv : Pair F) : Prop where
  x_eq : A.toField rv.x = x
  normal_x : A.Normal rv.x
  normal_y : A.Normal rv.y
  root : Admissible x → x ^ 3 + 7 = A.toField rv.y ^ 2
  even : Admissible x → A.value rv.y % 2 = 0

section Candidates

variable {A} (hA : A.Exact)
include hA

/-- An odd element has an even negative. -/
theorem even_neg {y : F} (hy : A.Normal y) (hodd : A.value y % 2 = 1) :
    A.value (A.normalize (A.neg y)) % 2 = 0 := by
  have hneg : A.toField (A.normalize (A.neg y)) = -A.toField y := by
    rw [toField_normalize hA, hA.neg y hy]
  have hne : A.toField y ≠ 0 := by
    intro h0
    have hval := val_toField hy
    rw [h0, ZMod.val_zero] at hval
    omega
  rw [← val_toField (normal_normalize hA _), hneg, val_neg_mod_two hne, val_toField hy, hodd]

theorem newCandidatePoint_ok (keccak : List Byte → Bytes 32) (b : List Byte) :
    ∃ rv, A.newCandidatePoint keccak b = .ok rv ∧ A.Candidate (hashField keccak b) rv := by
  obtain ⟨x, hx, hnormal, hfield⟩ := fieldHash_ok hA keccak b
  rw [newCandidatePoint, hx, ok_bind]
  set y := A.normalize (A.sqrt (A.ySquared x)) with hy
  have hroot : Admissible (hashField keccak b) →
      hashField keccak b ^ 3 + 7 = A.toField y ^ 2 := by
    intro hadm
    rw [hy, toField_normalize hA, hA.sqrt, toField_ySquared hA, hfield]
    rw [toField_ySquared hA, hfield]
    exact hadm
  have hnormal' : A.Normal y := normal_normalize hA _
  refine ⟨_, rfl, (toField_normalize hA x).trans hfield, normal_normalize hA x, ?_, fun hadm => ?_,
    fun _ => ?_⟩
  · dsimp only
    split
    · exact normal_normalize hA _
    · exact hnormal'
  · dsimp only
    split
    · rw [toField_normalize hA, hA.neg y hnormal', neg_sq]
      exact hroot hadm
    · exact hroot hadm
  · dsimp only
    split
    case isTrue hodd => exact even_neg hA hnormal' ((hA.isOdd y hnormal').mp hodd)
    case isFalse hodd =>
      rw [hA.isOdd y hnormal'] at hodd
      change A.value y % 2 = 0
      omega

theorem Candidate.isOnCurve_iff {x : Field} {rv : Pair F} (h : A.Candidate x rv) :
    A.isOnCurve rv = true ↔ Admissible x := by
  rw [LazyField.isOnCurve_iff hA, h.x_eq]
  exact ⟨fun hsq => ⟨_, hsq.trans (sq _)⟩, h.root⟩

/-- The loop ends at the first admissible element from where it starts. -/
theorem hashToCurveLoop_ok {keccak : List Byte → Bytes 32} {start : List Byte} {i fuel : Nat}
    {rv rv' : Pair F} (h : A.Candidate (chain keccak start i) rv)
    (hbefore : ∀ j < i, ¬ Admissible (chain keccak start j))
    (hloop : A.hashToCurveLoop keccak fuel rv = .ok rv') :
    ∃ i', A.Candidate (chain keccak start i') rv' ∧ Admissible (chain keccak start i') ∧
      ∀ j < i', ¬ Admissible (chain keccak start j) := by
  induction fuel generalizing i rv with
  | zero => cases hloop
  | succ fuel ih =>
    rw [hashToCurveLoop] at hloop
    split at hloop
    case isTrue hcurve =>
      obtain rfl := Except.ok.inj hloop
      exact ⟨i, h, (h.isOnCurve_iff hA).mp hcurve, hbefore⟩
    case isFalse hcurve =>
      obtain ⟨next, hnext, hcand⟩ := newCandidatePoint_ok hA keccak (List.ofFn (A.b32 rv.x))
      rw [b32_eq hA h.normal_x, h.x_eq] at hnext hcand
      rw [b32_eq hA h.normal_x, h.x_eq, hnext, ok_bind] at hloop
      refine ih (i := i + 1) hcand (fun j hj => ?_) hloop
      rcases Nat.lt_succ_iff_lt_or_eq.mp hj with hj | rfl
      · exact hbefore j hj
      · exact fun hadm => hcurve ((h.isOnCurve_iff hA).mpr hadm)

/-- An admissible element ahead ends the loop. -/
theorem hashToCurveLoop_ends {keccak : List Byte → Bytes 32} {start : List Byte} {i k : Nat}
    {rv : Pair F} (h : A.Candidate (chain keccak start i) rv)
    (hadm : Admissible (chain keccak start (i + k))) :
    ∃ rv', A.hashToCurveLoop keccak (k + 1) rv = .ok rv' := by
  induction k generalizing i rv with
  | zero =>
    refine ⟨rv, ?_⟩
    rw [hashToCurveLoop, if_pos ((h.isOnCurve_iff hA).mpr hadm)]
  | succ k ih =>
    rw [hashToCurveLoop]
    split
    case isTrue => exact ⟨rv, rfl⟩
    case isFalse =>
      obtain ⟨next, hnext, hcand⟩ := newCandidatePoint_ok hA keccak (List.ofFn (A.b32 rv.x))
      rw [hnext, ok_bind]
      rw [b32_eq hA h.normal_x, h.x_eq] at hcand
      exact ih (i := i + 1) hcand (by rwa [Nat.add_right_comm, Nat.add_assoc])

/-! ## The result -/

/-- The bytes hashed first. -/
def packed (alpha : Scalar) (x y : Field) : List Byte :=
  Field.b32 1 ++ Field.b32 x ++ Field.b32 y ++ Scalar.b32 alpha

theorem hashToCurvePrefix_eq (keccak : List Byte → Bytes 32) (fuel : Nat) (alpha : Scalar)
    (pk : Pair F) : A.hashToCurvePrefix keccak fuel alpha pk =
      A.newCandidatePoint keccak (packed alpha (A.toField pk.x) (A.toField pk.y)) >>=
        A.hashToCurveLoop keccak fuel := by
  have hone : A.Normal (A.fromInt 1) := by
    rw [Normal, hA.fromInt 1 (by norm_num)]
    norm_num [fieldSize]
  have hone' : A.toField (A.fromInt 1) = 1 := by
    rw [toField_fromInt hA (by norm_num), Nat.cast_one]
  rw [hashToCurvePrefix]
  simp only [b32_eq hA hone, b32_eq hA (normal_normalize hA _), toField_normalize hA, hone', packed]

/-- The result is the even point over the first admissible element of the chain, its coordinates
normalised. -/
theorem hashToCurvePrefix_first {keccak : List Byte → Bytes 32} {fuel : Nat} {alpha : Scalar}
    {pk rv : Pair F} (h : A.hashToCurvePrefix keccak fuel alpha pk = .ok rv) :
    A.toField rv.y ^ 2 = A.toField rv.x ^ 3 + 7 ∧ A.value rv.y % 2 = 0 ∧
      A.Normal rv.x ∧ A.Normal rv.y ∧
      ∃ i, A.toField rv.x = chain keccak (packed alpha (A.toField pk.x) (A.toField pk.y)) i ∧
        ∀ j < i,
          ¬ Admissible (chain keccak (packed alpha (A.toField pk.x) (A.toField pk.y)) j) := by
  rw [hashToCurvePrefix_eq hA] at h
  obtain ⟨rv₀, hrv₀, hloop⟩ := bind_ok_iff.mp h
  obtain ⟨_, hrv, hcand⟩ := newCandidatePoint_ok hA keccak
    (packed alpha (A.toField pk.x) (A.toField pk.y))
  obtain rfl := Except.ok.inj (hrv.symm.trans hrv₀)
  obtain ⟨i, hi, hadm, hbefore⟩ := hashToCurveLoop_ok hA (i := 0) hcand (fun j hj => by omega) hloop
  refine ⟨?_, hi.even hadm, hi.normal_x, hi.normal_y, i, hi.x_eq, hbefore⟩
  rw [hi.x_eq]
  exact (hi.root hadm).symm

omit hA in
/-- The candidate of the exact functions, which is the same point where it is on the curve. -/
theorem Candidate.exact {b : List Byte} {keccak : List Byte → Bytes 32} {rv : Pair F}
    (h : A.Candidate (hashField keccak b) rv) :
    ∃ y, Libecvrf.newCandidatePoint keccak b = .ok ⟨A.toField rv.x, y, false⟩ ∧
      (Libecvrf.isOnCurve ⟨A.toField rv.x, y, false⟩ = true ↔ Admissible (hashField keccak b)) ∧
      (Admissible (hashField keccak b) → y = A.toField rv.y) := by
  have hfield : Libecvrf.fieldHash keccak b = .ok (hashField keccak b) := fieldHash_eq keccak b
  set root := Field.sqrt (Libecvrf.ySquared (hashField keccak b)) with hroot
  have hsq : Admissible (hashField keccak b) → root ^ 2 = hashField keccak b ^ 3 + 7 := by
    rintro ⟨y, hy⟩
    rw [hroot, ySquared_eq, hy, ← sq]
    rcases Field.sqrt_sq y with h | h
    · rw [h]
    · rw [h, neg_sq]
  have hchoice : (if root.val % 2 = 1 then -root else root) ^ 2 = root ^ 2 := by
    split
    · rw [neg_sq]
    · rfl
  have heven : (if root.val % 2 = 1 then -root else root).val % 2 = 0 := by
    split
    case isTrue hodd =>
      have hne : root ≠ 0 := by
        rintro h0
        rw [h0, ZMod.val_zero] at hodd
        omega
      rw [val_neg_mod_two hne, hodd]
    case isFalse => omega
  refine ⟨if root.val % 2 = 1 then -root else root, ?_, ?_, fun hadm => ?_⟩
  · rw [Libecvrf.newCandidatePoint, hfield, ok_bind, h.x_eq]
  · rw [Libecvrf.isOnCurve, decide_eq_true_eq, ySquared_eq, ← sq, hchoice, h.x_eq]
    exact ⟨fun heq => ⟨root, heq.trans (sq root)⟩, fun hadm => (hsq hadm).symm⟩
  · refine eq_of_even_roots ?_ heven ?_
    · rw [hchoice, hsq hadm, h.root hadm]
    · rw [val_toField h.normal_y]
      exact h.even hadm

/-- The exact loop goes through the same candidates. -/
theorem hashToCurveLoop_exact {keccak : List Byte → Bytes 32} {fuel : Nat} {b : List Byte}
    {rv rv' : Pair F} {y : Field} (h : A.Candidate (hashField keccak b) rv)
    (hexact : Libecvrf.newCandidatePoint keccak b = .ok ⟨A.toField rv.x, y, false⟩)
    (hloop : A.hashToCurveLoop keccak fuel rv = .ok rv') :
    Libecvrf.hashToCurveLoop keccak fuel ⟨A.toField rv.x, y, false⟩ =
      .ok ⟨A.toField rv'.x, A.toField rv'.y, false⟩ := by
  induction fuel generalizing b rv y with
  | zero => cases hloop
  | succ fuel ih =>
    obtain ⟨y', hy', hcurve, heq⟩ := h.exact
    obtain rfl : y' = y := by
      rw [hexact, Except.ok.injEq, Affine.mk.injEq] at hy'
      exact hy'.2.1.symm
    rw [hashToCurveLoop] at hloop
    rw [Libecvrf.hashToCurveLoop]
    split at hloop
    case isTrue hon =>
      have hadm := (h.isOnCurve_iff hA).mp hon
      rw [if_pos (hcurve.mpr hadm), ← Except.ok.inj hloop, heq hadm]
    case isFalse hoff =>
      have hadm : ¬ Admissible (hashField keccak b) := fun hadm =>
        hoff ((h.isOnCurve_iff hA).mpr hadm)
      obtain ⟨next, hnext, hcand⟩ := newCandidatePoint_ok hA keccak (List.ofFn (A.b32 rv.x))
      rw [hnext, ok_bind] at hloop
      obtain ⟨z, hz, -⟩ := hcand.exact
      have hbytes := b32_eq hA h.normal_x
      rw [if_neg (mt hcurve.mp hadm), ← hbytes, hz, ok_bind]
      exact ih hcand hz hloop

/-- The functions over any arithmetic refine the exact ones. -/
theorem hashToCurvePrefix_exact {keccak : List Byte → Bytes 32} {fuel : Nat} {alpha : Scalar}
    {pk rv : Pair F} (h : A.hashToCurvePrefix keccak fuel alpha pk = .ok rv) :
    Libecvrf.hashToCurvePrefix keccak fuel alpha ⟨A.toField pk.x, A.toField pk.y, false⟩ =
      .ok ⟨A.toField rv.x, A.toField rv.y, false⟩ := by
  rw [hashToCurvePrefix_eq hA] at h
  obtain ⟨rv₀, hrv₀, hcand⟩ := newCandidatePoint_ok hA keccak
    (packed alpha (A.toField pk.x) (A.toField pk.y))
  rw [hrv₀, ok_bind] at h
  obtain ⟨y, hy, -⟩ := hcand.exact
  have hpacked : Field.b32 1 ++ Affine.b32 ⟨A.toField pk.x, A.toField pk.y, false⟩ ++
      Scalar.b32 alpha = packed alpha (A.toField pk.x) (A.toField pk.y) := by
    simp only [Affine.b32, packed, List.append_assoc]
  rw [Libecvrf.hashToCurvePrefix, hpacked, hy, ok_bind]
  exact hashToCurveLoop_exact hA hcand hy h

/-- The loop ends wherever the chain has an admissible element. -/
theorem hashToCurvePrefix_ends {keccak : List Byte → Bytes 32} {alpha : Scalar} {pk : Pair F}
    {i : Nat}
    (hadm : Admissible (chain keccak (packed alpha (A.toField pk.x) (A.toField pk.y)) i)) :
    ∃ rv, A.hashToCurvePrefix keccak (i + 1) alpha pk = .ok rv := by
  obtain ⟨rv, hrv, hcand⟩ := newCandidatePoint_ok hA keccak
    (packed alpha (A.toField pk.x) (A.toField pk.y))
  rw [hashToCurvePrefix_eq hA, hrv, ok_bind]
  exact hashToCurveLoop_ends hA (i := 0) hcand (by rwa [Nat.zero_add])

end Candidates

/-! ## Integers that are never reduced by themselves -/

def natural : LazyField Nat where
  value a := a
  normalize a := a % fieldSize
  fromInt n := n
  add a b := a + b
  mul a b := a * b
  neg a := fieldSize - a
  sqrt a := (Field.sqrt (a : Field)).val
  setB32 b := ((Uint.fromBeBytes b).val, (Uint.fromBeBytes b).val < fieldSize)
  b32 a := (Uint.ofNat a).toBeBytes
  isOdd a := a % 2 = 1
  eq a b := (a : Field) = b

theorem natural_toField (a : Nat) : natural.toField a = (a : Field) := rfl

theorem natural_sqrt (a : Nat) : natural.sqrt a = (Field.sqrt (a : Field)).val := by
  simp only [natural]

theorem natural_exact : natural.Exact where
  normalize _ := rfl
  fromInt _ _ := rfl
  add a b := Nat.cast_add a b
  mul a b := Nat.cast_mul a b
  neg a ha := by
    have hle : a ≤ fieldSize := Nat.le_of_lt ha
    change ((fieldSize - a : Nat) : Field) = -(a : Field)
    rw [Nat.cast_sub hle, ZMod.natCast_self, zero_sub]
  sqrt a ha := by
    rw [natural_toField] at ha
    obtain ⟨y, hy⟩ := ha
    rw [natural_toField, natural_toField, natural_sqrt, ZMod.natCast_zmod_val, hy, ← sq]
    rcases Field.sqrt_sq y with h | h
    · rw [h]
    · rw [h, neg_sq]
  setB32 _ := rfl
  setB32_flag b h := of_decide_eq_true (p := (Uint.fromBeBytes b).val < fieldSize) h
  b32 _ _ := rfl
  isOdd _ _ := decide_eq_true_iff
  eq _ _ := decide_eq_true_iff

/-- The first hash is no coordinate of the curve, its hash is that of the generator. -/
theorem hashToCurvePrefix_first_generator :
    let keccak : List Byte → Bytes 32 := fun l =>
      (Uint.ofNat (if l.length = 128 then (5 : Scalar) else (generatorX.val : Scalar)).val :
        Uint 32).toBeBytes
    ∃ rv, natural.hashToCurvePrefix keccak 2 9 ⟨generatorX.val, generatorY.val⟩ = .ok rv ∧
      rv.y % 2 = 0 ∧ (rv.y : Field) ^ 2 = (rv.x : Field) ^ 3 + 7 ∧ (rv.x : Field) = generatorX := by
  intro keccak
  have hsq := (ShortWeierstrass.nonsingular_iff curve_delta_ne_zero).mp generator_nonsingular
  have hfive : (5 : Scalar).val = 5 := rfl
  have hlt : generatorX.val < groupOrder := by decide
  set start := packed 9 (natural.toField generatorX.val) (natural.toField generatorY.val)
  have hfirst : chain keccak start 0 = (5 : Nat) := by
    have hlength : start.length = 128 := by simp [start, packed, Field.b32, Scalar.b32]
    simp only [chain, hashField, keccak, hlength, if_true, Scalar.fromBytes_toBeBytes]
    rw [hfive]
  have hnext : ∀ i, chain keccak start (i + 1) = generatorX := by
    intro i
    have hlength : ¬ (Field.b32 (chain keccak start i)).length = 128 := by simp [Field.b32]
    simp only [chain, hashField, keccak, hlength, if_false, Scalar.fromBytes_toBeBytes]
    rw [ZMod.val_cast_of_lt hlt, ZMod.natCast_zmod_val]
  have hfive_not : ¬ Admissible (5 : Nat) := by
    rw [admissible_iff]
    decide +kernel
  have hadm : Admissible (chain keccak start 1) := by
    rw [hnext, Admissible, ← hsq]
    exact IsSquare.sq _
  obtain ⟨rv, hrv⟩ : ∃ rv, natural.hashToCurvePrefix keccak 2 9
      ⟨generatorX.val, generatorY.val⟩ = .ok rv := hashToCurvePrefix_ends natural_exact hadm
  obtain ⟨hcurve, heven, -, -, i, hx, -⟩ := hashToCurvePrefix_first natural_exact hrv
  refine ⟨rv, hrv, heven, hcurve, ?_⟩
  cases i with
  | zero =>
    refine absurd ⟨natural.toField rv.y, ?_⟩ hfive_not
    rw [← hfirst, ← sq, ← hx, hcurve]
  | succ i => exact hx.trans (hnext i)

end LazyField

end Libecvrf
