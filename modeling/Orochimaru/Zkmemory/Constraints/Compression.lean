import Orochimaru.Lib.LinearForms
import Orochimaru.Zkmemory.Constraints.FieldConversions

/-!
# What compression tells apart

A record is compressed to a linear form of the seeds. Few seeds confuse two records whose
entries differ in the field. Words that differ only by the modulus do not, and all seeds
confuse them.
-/

namespace Zkmemory.Constraints

open LinearForms

/-- The coefficients of a record, one for each seed. -/
def entries (record : TraceRecord 32 32) : Fin 5 → Fp :=
  ![record.timeLog.val, record.stackDepth.val,
    match record.instruction with
    | .write => 1
    | .read => 0,
    fpFromWord record.address, fpFromWord record.value]

theorem compress_eq (seed : Fin 5 → U64) (record : TraceRecord 32 32) :
    compress fpFromWord seed record = ∑ i, entries record i * ((seed i).val : Fp) := by
  rw [Fin.sum_univ_five]
  rfl

/-- The seeds that map two records to one element. -/
def collisions (a b : TraceRecord 32 32) : Set (Fin 5 → U64) :=
  {seed | compress fpFromWord seed a = compress fpFromWord seed b}

theorem collisions_eq (a b : TraceRecord 32 32) :
    collisions a b = zeros (fun i => entries a i - entries b i) fun s : U64 => (s.val : Fp) := by
  ext seed
  change compress fpFromWord seed a = compress fpFromWord seed b ↔
    ∑ i, (entries a i - entries b i) * ((seed i).val : Fp) = 0
  rw [compress_eq, compress_eq, ← sub_eq_zero, ← Finset.sum_sub_distrib]
  simp only [sub_mul]

/-- The numbers two words stand for in the field are the same. -/
def SameWord (x y : B256) : Prop := reversed x.val ≡ reversed y.val [MOD pastaModulus]

theorem fpFromWord_eq_iff {x y : B256} : fpFromWord x = fpFromWord y ↔ SameWord x y := by
  rw [fpFromWord_eq le_rfl, fpFromWord_eq le_rfl, ZMod.natCast_eq_natCast_iff, SameWord]

theorem u64_cast_injective : Function.Injective fun s : U64 => (s.val : Fp) := by
  intro s t h
  have hle : 256 ^ 8 ≤ pastaModulus := by norm_num [pastaModulus]
  exact Uint.ext ((FieldDigits.natCast_inj_of_lt (s.isLt.trans_le hle) (t.isLt.trans_le hle)).mp h)

/-- The records agree in all the field sees of them. -/
structure Confused (a b : TraceRecord 32 32) : Prop where
  timeLog : a.timeLog = b.timeLog
  stackDepth : a.stackDepth = b.stackDepth
  instruction : a.instruction = b.instruction
  address : SameWord a.address b.address
  value : SameWord a.value b.value

theorem confused_iff {a b : TraceRecord 32 32} :
    Confused a b ↔ ∀ i, entries a i - entries b i = 0 := by
  have hinstruction : (match a.instruction with
      | .write => (1 : Fp)
      | .read => 0) = (match b.instruction with
      | .write => (1 : Fp)
      | .read => 0) ↔ a.instruction = b.instruction := by
    cases a.instruction with
    | write => cases b.instruction with
      | write => simp
      | read => simp
    | read => cases b.instruction with
      | write => simp
      | read => simp
  simp only [sub_eq_zero]
  constructor
  · rintro ⟨ht, hd, hi, ha, hv⟩ i
    fin_cases i
    · exact congrArg (fun s : U64 => (s.val : Fp)) ht
    · exact congrArg (fun s : U64 => (s.val : Fp)) hd
    · exact hinstruction.mpr hi
    · exact fpFromWord_eq_iff.mpr ha
    · exact fpFromWord_eq_iff.mpr hv
  · intro h
    exact ⟨u64_cast_injective (h 0), u64_cast_injective (h 1), hinstruction.mp (h 2),
      fpFromWord_eq_iff.mp (h 3), fpFromWord_eq_iff.mp (h 4)⟩

instance {S : Nat} : Finite (Uint S) :=
  Finite.of_injective (fun x : Uint S => (⟨x.val, x.isLt⟩ : Fin (256 ^ S))) fun _ _ h =>
    Uint.ext (Fin.mk.inj h)

theorem card_uint (S : Nat) : Nat.card (Uint S) = 256 ^ S := by
  have e : Uint S ≃ Fin (256 ^ S) :=
    ⟨fun x => ⟨x.val, x.isLt⟩, fun i => ⟨i.val, i.isLt⟩, fun _ => rfl, fun _ => rfl⟩
  rw [Nat.card_congr e, Nat.card_eq_fintype_card, Fintype.card_fin]

/-- Under every seed, and these are too many. -/
theorem Confused.many_collisions {a b : TraceRecord 32 32} (h : Confused a b) :
    2 ^ 256 < (collisions a b).ncard := by
  rw [collisions_eq, ncard_zeros_of_zero (confused_iff.mp h), card_uint, Fintype.card_fin,
    show 2 ^ 256 = (256 ^ 8) ^ 4 by norm_num]
  exact Nat.pow_lt_pow_right (by norm_num) (by norm_num)

/-- Two records collide under few seeds exactly when the field sees a difference. -/
theorem collisions_few_iff (a b : TraceRecord 32 32) :
    (collisions a b).ncard ≤ 2 ^ 256 ↔
      ¬ (a.timeLog = b.timeLog ∧ a.stackDepth = b.stackDepth ∧ a.instruction = b.instruction ∧
        SameWord a.address b.address ∧ SameWord a.value b.value) := by
  constructor
  · rintro hfew ⟨ht, hd, hi, ha, hv⟩
    exact absurd hfew (Nat.not_le.mpr (Confused.many_collisions ⟨ht, hd, hi, ha, hv⟩))
  · intro h
    have hseen : ∃ i, entries a i - entries b i ≠ 0 := by
      by_contra hall
      push Not at hall
      obtain ⟨ht, hd, hi, ha, hv⟩ := confused_iff.mpr hall
      exact h ⟨ht, hd, hi, ha, hv⟩
    have hle := ncard_zeros_le u64_cast_injective hseen
    rw [← collisions_eq, card_uint, Fintype.card_fin] at hle
    exact hle.trans (by norm_num)

/-- The address 0 and the address that stands for the modulus. -/
theorem collisions_modulus :
    let a : TraceRecord 32 32 := ⟨.zero, .zero, .write, .zero, .zero⟩
    let b : TraceRecord 32 32 := ⟨.zero, .zero, .write, .ofNat (reversed pastaModulus), .zero⟩
    a ≠ b ∧ ¬ (collisions a b).ncard ≤ 2 ^ 256 := by
  intro a b
  have haddress : b.address.val = reversed pastaModulus := Uint.ofNat_val (by decide)
  constructor
  · intro h
    have hval := congrArg (fun r : TraceRecord 32 32 => r.address.val) h
    rw [haddress] at hval
    exact absurd hval (by decide)
  · have hsame : SameWord a.address b.address := by
      rw [SameWord, haddress]
      decide
    have hconfused : Confused a b := ⟨rfl, rfl, rfl, hsame, rfl⟩
    exact Nat.not_le.mpr hconfused.many_collisions

end Zkmemory.Constraints
