import Orochimaru.Libecvrf.Helper

/-!
# Digests and addresses as scalars

Digests and addresses pass through scalars, which are reduced modulo the group order. What
stands below it is carried as it is, what stands above is not.
-/

namespace Libecvrf

open Zkmemory

/-- The integer of some bytes at the front of 32, as `from_bytes` lays them out. -/
def frontVal {k : Nat} (bytes : Bytes k) : Nat :=
  (Uint.fromBeBytes fun i : Fin 32 => if h : i.val < k then bytes ⟨i, h⟩ else 0).val

theorem val_fromBytes {k : Nat} (bytes : Bytes k) :
    (Scalar.fromBytes bytes).val = frontVal bytes % groupOrder := ZMod.val_natCast _ _

theorem frontVal_lt {k : Nat} (bytes : Bytes k) : frontVal bytes < 2 ^ 256 := by
  refine (Uint.isLt _).trans_le ?_
  norm_num

/-- An integer of 32 bytes is reduced by one subtraction at most. -/
theorem val_fromBytes_of_le {k : Nat} {bytes : Bytes k} (h : groupOrder ≤ frontVal bytes) :
    (Scalar.fromBytes bytes).val = frontVal bytes - groupOrder := by
  have hlt : frontVal bytes - groupOrder < groupOrder := by
    have h256 := frontVal_lt bytes
    norm_num [groupOrder] at h256 ⊢
    omega
  rw [val_fromBytes, Nat.mod_eq_sub_mod h, Nat.mod_eq_of_lt hlt]

/-! ## Digests -/

section FieldHash

variable (keccak : List Byte → Bytes 32)

def digest (b : List Byte) : Nat := frontVal (keccak b)

/-- The digest of the digest. -/
def digestTwice (b : List Byte) : Nat := digest keccak (List.ofFn (keccak b))

/-- The digest as a field element, or that of the digest where the first is no field element;
the assertion never fails. -/
def HashesToField (b : List Byte) : Prop :=
  ∃ f, fieldHash keccak b = .ok f ∧
    (digest keccak b < fieldSize → f = (digest keccak b : Field)) ∧
    (fieldSize ≤ digest keccak b → digestTwice keccak b < fieldSize →
      f = (digestTwice keccak b : Field))

theorem field_natCast_inj {a b : Nat} (ha : a < fieldSize) (hb : b < fieldSize) :
    (a : Field) = b ↔ a = b := by
  rw [ZMod.natCast_eq_natCast_iff', Nat.mod_eq_of_lt ha, Nat.mod_eq_of_lt hb]

theorem groupOrder_le_fieldSize : groupOrder ≤ fieldSize := by norm_num [groupOrder, fieldSize]

theorem hashesToField_of_lt {b : List Byte} (h : digest keccak b < groupOrder) :
    HashesToField keccak b := by
  have hval : (Scalar.fromBytes (keccak b)).val = digest keccak b := by
    rw [val_fromBytes]
    exact Nat.mod_eq_of_lt h
  refine ⟨_, fieldHash_eq keccak b, fun _ => by rw [hval], fun hge => ?_⟩
  exact absurd (h.trans_le groupOrder_le_fieldSize) hge.not_gt

/-- From the group order on, the digest loses the group order and the second hash is not taken. -/
theorem hashesToField_of_ge {b : List Byte} (h : groupOrder ≤ digest keccak b) :
    HashesToField keccak b ↔ fieldSize ≤ digest keccak b ∧
      (digestTwice keccak b < fieldSize →
        digestTwice keccak b = digest keccak b - groupOrder) := by
  have hval : (Scalar.fromBytes (keccak b)).val = digest keccak b - groupOrder :=
    val_fromBytes_of_le h
  have hlt : digest keccak b - groupOrder < fieldSize :=
    hval ▸ (ZMod.val_lt _).trans_le groupOrder_le_fieldSize
  have hpos : 0 < groupOrder := groupOrder_prime.pos
  simp only [HashesToField, fieldHash_eq, Except.ok.injEq, exists_eq_left', hval]
  constructor
  · rintro ⟨hfirst, hsecond⟩
    have hge : fieldSize ≤ digest keccak b := by
      by_contra hnot
      have heq := (field_natCast_inj hlt (not_le.mp hnot)).mp (hfirst (not_le.mp hnot))
      omega
    exact ⟨hge, fun htwice => ((field_natCast_inj hlt htwice).mp (hsecond hge htwice)).symm⟩
  · rintro ⟨hge, htwice⟩
    exact ⟨fun h => absurd h hge.not_gt, fun _ h => (congrArg Nat.cast (htwice h)).symm⟩

/-- A digest is carried into the field exactly if it is below the group order, or if both
digests are above the field or happen to agree. -/
theorem hashesToField_iff (b : List Byte) :
    HashesToField keccak b ↔ digest keccak b < groupOrder ∨
      fieldSize ≤ digest keccak b ∧ (digestTwice keccak b < fieldSize →
        digestTwice keccak b = digest keccak b - groupOrder) := by
  rcases lt_or_ge (digest keccak b) groupOrder with hlow | hhigh
  · exact iff_of_true (hashesToField_of_lt keccak hlow) (.inl hlow)
  · rw [hashesToField_of_ge keccak hhigh, or_iff_right hhigh.not_gt]

theorem frontVal_toBeBytes (x : Uint 32) : frontVal x.toBeBytes = x.val := by
  have hbytes : (fun i : Fin 32 => if h : i.val < 32 then x.toBeBytes ⟨i, h⟩ else 0) =
      x.toBeBytes := funext fun i => dif_pos i.isLt
  rw [frontVal, hbytes, Uint.fromBeBytes_toBeBytes]

/-- A digest that is the group order becomes zero. -/
theorem not_hashesToField_groupOrder :
    ¬ HashesToField (fun _ => (Uint.ofNat groupOrder : Uint 32).toBeBytes) [] := by
  have hdigest : digest (fun _ => (Uint.ofNat groupOrder : Uint 32).toBeBytes) [] = groupOrder := by
    rw [digest, frontVal_toBeBytes, Uint.ofNat_val (by norm_num [groupOrder])]
  rw [hashesToField_of_ge _ hdigest.ge, hdigest]
  exact fun h => absurd h.1 (by norm_num [groupOrder, fieldSize])

end FieldHash

/-! ## Addresses -/

/-- `b32()[0..20]` -/
def addressBytes (x : Scalar) : List Byte := (Scalar.b32 x).take 20

/-- The first 20 bytes of a word. -/
def frontBytes (x : Uint 32) : Bytes 20 := fun i => x.toBeBytes ⟨i, by omega⟩

theorem val_frontBytes (x : Uint 32) : (Uint.fromBeBytes (frontBytes x)).val = x.val / 256 ^ 12 := by
  have hsplit := Positional.beVal_add 256 20 12 (Uint.digits x.toBeBytes)
  have hwhole : Positional.beVal 256 (20 + 12) (Uint.digits x.toBeBytes) = x.val :=
    congrArg Uint.val (Uint.fromBeBytes_toBeBytes x)
  have hlow : Positional.beVal 256 12 (fun i => Uint.digits x.toBeBytes (20 + i)) < 256 ^ 12 :=
    Positional.beVal_lt fun i _ => Uint.digits_lt _ _
  have hfront : (Uint.fromBeBytes (frontBytes x)).val =
      Positional.beVal 256 20 (Uint.digits x.toBeBytes) := by
    refine Positional.beVal_congr fun i hi => ?_
    have hi' : i < 32 := by omega
    simp only [Uint.digits, frontBytes, dif_pos hi, dif_pos hi']
  rw [hfront]
  omega

theorem frontVal_eq (u : Bytes 20) : frontVal u = (Uint.fromBeBytes u).val * 256 ^ 12 := by
  let padded : Bytes 32 := fun i => if h : i.val < 20 then u ⟨i, h⟩ else 0
  have hwhole : frontVal u = Positional.beVal 256 (20 + 12) (Uint.digits padded) := rfl
  have hlow : ∀ n ≤ 12, Positional.beVal 256 n (fun i => Uint.digits padded (20 + i)) = 0 := by
    intro n hn
    induction n with
    | zero => rfl
    | succ n ih =>
      have hi : 20 + n < 32 := by omega
      have hi' : ¬ 20 + n < 20 := by omega
      have hdigit : Uint.digits padded (20 + n) = 0 := by
        simp only [Uint.digits, padded, dif_pos hi, dif_neg hi', Fin.val_zero]
      rw [Positional.beVal_succ, ih (by omega), hdigit]
  have hfront : Positional.beVal 256 20 (Uint.digits padded) = (Uint.fromBeBytes u).val := by
    refine Positional.beVal_congr fun i hi => ?_
    have hi' : i < 32 := by omega
    simp only [Uint.digits, padded, dif_pos hi, dif_pos hi']
  rw [hwhole, Positional.beVal_add, hlow 12 le_rfl, hfront, Nat.add_zero]

theorem addressBytes_eq (x : Scalar) :
    addressBytes x = List.ofFn (frontBytes (Uint.ofNat x.val)) := by
  refine List.ext_getElem (by simp [addressBytes, Scalar.b32]) fun i hi hi' => ?_
  simp [addressBytes, Scalar.b32, frontBytes]

/-- An address comes back from a scalar exactly if, at the front of 32 bytes, it is below the
group order. -/
theorem addressBytes_fromBytes_iff (u : Bytes 20) :
    addressBytes (Scalar.fromBytes u) = List.ofFn u ↔
      (Uint.fromBeBytes u).val * 256 ^ 12 < groupOrder := by
  have hback : addressBytes (Scalar.fromBytes u) = List.ofFn u ↔
      (Scalar.fromBytes u).val / 256 ^ 12 = (Uint.fromBeBytes u).val := by
    have hval : (Uint.ofNat (Scalar.fromBytes u).val : Uint 32).val = (Scalar.fromBytes u).val :=
      Uint.ofNat_val ((ZMod.val_lt _).trans (by norm_num [groupOrder]))
    have hinj : ∀ b : Bytes 20, b = u ↔ (Uint.fromBeBytes b).val = (Uint.fromBeBytes u).val := by
      intro b
      refine ⟨fun h => h ▸ rfl, fun h => ?_⟩
      rw [← Uint.toBeBytes_fromBeBytes b, Uint.ext h, Uint.toBeBytes_fromBeBytes]
    rw [addressBytes_eq, List.ofFn_inj, hinj, val_frontBytes, hval]
  have hfront := frontVal_eq u
  rw [hback, ← hfront]
  constructor
  · intro h
    by_contra hge
    have hsub := val_fromBytes_of_le (not_lt.mp hge)
    have hpos : 0 < groupOrder := groupOrder_prime.pos
    omega
  · intro h
    rw [val_fromBytes, Nat.mod_eq_of_lt h, hfront]
    omega

end Libecvrf
