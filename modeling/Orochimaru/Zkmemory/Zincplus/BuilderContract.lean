import Orochimaru.Zkmemory.Zincplus.BuilderVec

/-!
# The errors of the builder

Which traces `build_uair_trace` refuses, with which error, and that it ends in no other
way. The errors are listed by precedence: each one needs that none before it applies.
-/

namespace Zkmemory.Zincplus

open Loops

def StartsAtZero (trace : List Record) : Prop := ∀ first ∈ trace.head?, first.timeLog.val = 0

def TimesIncrease (trace : List Record) : Prop :=
  trace.IsChain fun a b => a.timeLog < b.timeLog

/-- The size of the padded trace: the smallest one admitted that leaves a padding row. -/
def IsPaddedVars (len v : Nat) : Prop := IsLeast {v | minNumVars ≤ v ∧ len < 2 ^ v} v

/-- The errors, by precedence. -/
inductive Rejected (trace : List Record) : ZincMemoryError → Prop
  | firstTimeNonZero (first : Record) (hfirst : trace.head? = some first)
    (hzero : first.timeLog.val ≠ 0) : Rejected trace (.firstTimeNonZero first.timeLog)
  | emptyTrace (hempty : trace = []) : Rejected trace .emptyTrace
  | duplicatedAccess (hstart : StartsAtZero trace) (before after : List Record) (a b : Record)
    (htrace : trace = before ++ a :: b :: after) (hbefore : TimesIncrease (before ++ [a]))
    (htime : b.timeLog = a.timeLog) : Rejected trace (.duplicatedAccess a.timeLog)
  | timeNotIncreasing (hstart : StartsAtZero trace) (before after : List Record) (a b : Record)
    (htrace : trace = before ++ a :: b :: after) (hbefore : TimesIncrease (before ++ [a]))
    (htime : b.timeLog < a.timeLog) : Rejected trace (.timeNotIncreasing b.timeLog)
  | traceTooLong (hstart : StartsAtZero trace) (htimes : TimesIncrease trace)
    (hlen : 2 ^ 16 - 1 < trace.length) : Rejected trace .traceTooLong
  | timeLogOverflow (hstart : StartsAtZero trace) (htimes : TimesIncrease trace)
    (hlen : trace.length ≤ 2 ^ 16 - 1) (last : Record) (hlast : trace.getLast? = some last)
    (v : Nat) (hv : IsPaddedVars trace.length v)
    (htime : 2 ^ 64 ≤ last.timeLog.val + (2 ^ v - trace.length)) : Rejected trace .timeLogOverflow

/-! ## The steps that fail -/

theorem isPaddedVars_iff {len v : Nat} : IsPaddedVars len v ↔ v = paddedVars len := by
  have hleast : IsLeast {v | minNumVars ≤ v ∧ len < 2 ^ v} (paddedVars len) := by
    refine ⟨⟨le_max_right _ _, lt_two_pow_paddedVars len⟩, fun w hw => max_le ?_ hw.1⟩
    exact (Nat.clog_le_iff_le_pow (by decide)).mpr hw.2
  constructor
  · exact fun h => h.unique hleast
  · rintro rfl
    exact hleast

theorem checkTimes_error {before after : List Record} {a b : Record}
    (hbefore : TimesIncrease (before ++ [a])) (hle : b.timeLog ≤ a.timeLog) :
    checkTimes (before ++ a :: b :: after) = .error (if b.timeLog = a.timeLog then
      .duplicatedAccess a.timeLog else .timeNotIncreasing b.timeLog) := by
  induction before with
  | nil =>
    rw [List.nil_append, checkTimes]
    rcases hle.lt_or_eq with hlt | heq
    · rw [compare_lt_iff_lt.mpr hlt, if_neg hlt.ne]
    · rw [compare_eq_iff_eq.mpr heq, if_pos heq]
  | cons c before ih =>
    obtain ⟨d, l, hd⟩ : ∃ d l, before ++ a :: b :: after = d :: l := by
      cases before with
      | nil => exact ⟨a, _, rfl⟩
      | cons d before => exact ⟨d, _, rfl⟩
    have hcd : c.timeLog < d.timeLog ∧ TimesIncrease (before ++ [a]) := by
      cases before with
      | nil =>
        cases hd
        exact List.isChain_cons_cons.mp hbefore
      | cons e before =>
        cases hd
        exact List.isChain_cons_cons.mp hbefore
    rw [List.cons_append, hd, checkTimes, compare_gt_iff_gt.mpr hcd.1, ← hd]
    exact ih hcd.2

/-- Times that do not increase have a first place where they do not. -/
theorem exists_first_pair {trace : List Record} (h : ¬ TimesIncrease trace) :
    ∃ before after a b, trace = before ++ a :: b :: after ∧ TimesIncrease (before ++ [a]) ∧
      b.timeLog ≤ a.timeLog := by
  induction trace with
  | nil => exact absurd List.isChain_nil h
  | cons a l ih =>
    cases l with
    | nil => exact absurd (List.isChain_singleton a) h
    | cons b l =>
      by_cases hab : a.timeLog < b.timeLog
      · have hrest : ¬ TimesIncrease (b :: l) := fun hl => h (List.isChain_cons_cons.mpr ⟨hab, hl⟩)
        obtain ⟨before, after, c, d, hsplit, hbefore, hle⟩ := ih hrest
        refine ⟨a :: before, after, c, d, by rw [hsplit]; rfl, ?_, hle⟩
        cases before with
        | nil =>
          cases hsplit
          exact List.isChain_cons_cons.mpr ⟨hab, hbefore⟩
        | cons e before =>
          cases hsplit
          exact List.isChain_cons_cons.mpr ⟨hab, hbefore⟩
      · exact ⟨[], l, a, b, rfl, List.isChain_singleton a, not_lt.mp hab⟩

theorem chooseLayout_error {len : Nat} (h : ¬ len + 1 ≤ 2 ^ maxNumVars) :
    chooseLayout len = .error (.error .traceTooLong) := by
  have hgt : maxNumVars < Nat.clog 2 (len + 1) :=
    Nat.lt_of_not_le (mt (Nat.clog_le_iff_le_pow (by decide)).mp h)
  rw [chooseLayout, checkedNextPowerOfTwo]
  by_cases h64 : 2 ^ Nat.clog 2 (len + 1) < 2 ^ 64
  · simp only [if_pos h64, Nat.log2_two_pow, if_pos hgt]
  · simp only [if_neg h64]

theorem padRows_error {base : Record} {n : Nat} {time : U64} (h : 2 ^ 64 ≤ time.val + n) :
    padRows base n time = .error .timeLogOverflow := by
  induction n generalizing time with
  | zero => exact absurd time.isLt (by norm_num at h ⊢; omega)
  | succ n ih =>
    rw [padRows]
    cases hnext : time.add (.ofNat 1) with
    | error e => rfl
    | ok next =>
      have hval := Uint.add_ok.mp hnext
      have hone : (Uint.ofNat 1 : U64).val = 1 := rfl
      simp only [ih (show 2 ^ 64 ≤ next.val + n by omega), error_bind]

/-! ## The contract -/

namespace Vec

variable {trace : List Record}

theorem buildUairTrace_start (hstart : StartsAtZero trace) :
    buildUairTrace trace = buildUairTraceAnyStart trace := by
  rw [buildUairTrace]
  cases hfirst : trace.head? with
  | none => rfl
  | some first => exact if_neg (not_not.mpr (hstart first hfirst))

/-- The order of the times is checked before anything is built. -/
theorem anyStart_of_checkTimes {last : Record} (hlast : trace.getLast? = some last)
    {e : ZincMemoryError} (h : checkTimes trace = .error e) :
    buildUairTraceAnyStart trace = .error (.error e) := by
  rw [buildUairTraceAnyStart, hlast]
  simp only [h]
  rfl

/-- The size and the padding are checked next. -/
theorem anyStart_of_times {last : Record} (hlast : trace.getLast? = some last)
    (htimes : TimesIncrease trace) :
    (¬ trace.length + 1 ≤ 2 ^ maxNumVars →
      buildUairTraceAnyStart trace = .error (.error .traceTooLong)) ∧
    (trace.length + 1 ≤ 2 ^ maxNumVars →
      2 ^ 64 ≤ last.timeLog.val + (2 ^ paddedVars trace.length - trace.length) →
      buildUairTraceAnyStart trace = .error (.error .timeLogOverflow)) := by
  have hcheck : checkTimes trace = .ok () := checkTimes_ok_iff.mpr htimes
  constructor
  · intro hlen
    rw [buildUairTraceAnyStart, hlast]
    simp only [hcheck, fail_ok, ok_bind, chooseLayout_error hlen, error_bind]
  · intro hlen hover
    have hvars : minNumVars ≤ paddedVars trace.length ∧ paddedVars trace.length ≤ maxNumVars :=
      ⟨le_max_right _ _, max_le ((Nat.clog_le_iff_le_pow (by decide)).mpr hlen) (by decide)⟩
    have hlayout : chooseLayout trace.length = .ok ⟨paddedVars trace.length, hvars⟩ :=
      chooseLayout_ok_iff.mpr ⟨hlen, rfl⟩
    obtain ⟨base, hbase⟩ : ∃ base, (sortTrace trace).getLast? = some base := by
      refine ⟨_, List.getLast?_eq_some_getLast fun hnil => ?_⟩
      have hlength := (sortTrace_perm trace).length_eq
      rw [hnil] at hlength
      rw [List.eq_nil_of_length_eq_zero hlength.symm] at hlast
      cases hlast
    rw [buildUairTraceAnyStart, hlast]
    simp only [hcheck, fail_ok, ok_bind, hlayout, hbase, crash_ok, padRows_error hover]
    rfl

theorem getLast?_split {before after : List Record} {a b : Record} :
    ∃ last, (before ++ a :: b :: after).getLast? = some last :=
  ⟨_, List.getLast?_eq_some_getLast (by simp)⟩

theorem buildUairTrace_rejected {e : ZincMemoryError} (h : Rejected trace e) :
    buildUairTrace trace = .error (.error e) := by
  cases h with
  | firstTimeNonZero first hfirst hzero =>
    rw [buildUairTrace, hfirst]
    exact if_pos hzero
  | emptyTrace hempty =>
    subst hempty
    rfl
  | duplicatedAccess hstart before after a b htrace hbefore htime =>
    rw [buildUairTrace_start hstart]
    subst htrace
    obtain ⟨last, hlast⟩ := getLast?_split
    refine anyStart_of_checkTimes hlast ?_
    rw [checkTimes_error hbefore htime.le, if_pos htime]
  | timeNotIncreasing hstart before after a b htrace hbefore htime =>
    rw [buildUairTrace_start hstart]
    subst htrace
    obtain ⟨last, hlast⟩ := getLast?_split
    refine anyStart_of_checkTimes hlast ?_
    rw [checkTimes_error hbefore htime.le, if_neg htime.ne]
  | traceTooLong hstart htimes hlen =>
    have hne : trace ≠ [] := List.ne_nil_of_length_pos (by omega)
    rw [buildUairTrace_start hstart]
    exact (anyStart_of_times (List.getLast?_eq_some_getLast hne) htimes).1
      (by rw [maxNumVars]; omega)
  | timeLogOverflow hstart htimes hlen last hlast v hv htime =>
    rw [buildUairTrace_start hstart]
    obtain rfl := isPaddedVars_iff.mp hv
    exact (anyStart_of_times hlast htimes).2 (by rw [maxNumVars]; omega) htime

theorem buildUairTrace_admissible (h : Admissible trace) :
    ∃ out, buildUairTrace trace = .ok out := by
  obtain ⟨run, hrun⟩ := buildUairTrace_ok h
  exact ⟨_, buildUairTrace_eq hrun⟩

theorem admissible_or_rejected (trace : List Record) :
    Admissible trace ∨ ∃ e, Rejected trace e := by
  by_cases hstart : StartsAtZero trace
  swap
  · simp only [StartsAtZero, not_forall] at hstart
    obtain ⟨first, hfirst, hzero⟩ := hstart
    exact .inr ⟨_, .firstTimeNonZero first hfirst hzero⟩
  by_cases hempty : trace = []
  · exact .inr ⟨_, .emptyTrace hempty⟩
  by_cases htimes : TimesIncrease trace
  swap
  · obtain ⟨before, after, a, b, htrace, hbefore, hle⟩ := exists_first_pair htimes
    rcases hle.lt_or_eq with hlt | heq
    · exact .inr ⟨_, .timeNotIncreasing hstart before after a b htrace hbefore hlt⟩
    · exact .inr ⟨_, .duplicatedAccess hstart before after a b htrace hbefore heq⟩
  by_cases hlen : trace.length ≤ 2 ^ 16 - 1
  swap
  · exact .inr ⟨_, .traceTooLong hstart htimes (by omega)⟩
  obtain ⟨last, hlast⟩ : ∃ last, trace.getLast? = some last :=
    ⟨_, List.getLast?_eq_some_getLast hempty⟩
  by_cases htime : 2 ^ 64 ≤ last.timeLog.val + (2 ^ paddedVars trace.length - trace.length)
  · exact .inr ⟨_, .timeLogOverflow hstart htimes hlen last hlast _ (isPaddedVars_iff.mpr rfl) htime⟩
  · have htrans : IsTrans Record fun a b => a.timeLog < b.timeLog := ⟨fun _ _ _ => lt_trans⟩
    refine .inl ⟨hempty, hstart, List.isChain_iff_pairwise.mp htimes, by rw [maxNumVars]; omega,
      fun r hr => ?_⟩
    rw [hlast] at hr
    cases hr
    exact Nat.lt_of_not_le htime

/-- The error contract: what is accepted, which error is returned otherwise, and that no run
panics, finds an unsorted trace or truncates a difference. -/
theorem buildUairTrace_contract (trace : List Record) :
    ((∃ out, buildUairTrace trace = .ok out) ↔
      trace ≠ [] ∧ StartsAtZero trace ∧ TimesIncrease trace ∧ trace.length ≤ 2 ^ 16 - 1 ∧
        ∀ last ∈ trace.getLast?, ∀ v, IsPaddedVars trace.length v →
          last.timeLog.val + (2 ^ v - trace.length) < 2 ^ 64) ∧
    (∀ e, buildUairTrace trace = .error (.error e) ↔ Rejected trace e) ∧
    (∀ p, buildUairTrace trace ≠ .error (.panic p)) ∧
    buildUairTrace trace ≠ .error (.error .unsortedTrace) ∧
    (∀ cur next s, sortedWitness cur next = .ok s → asU32 s.slack = s.slack) ∧
    ∀ cur next s, originalWitness cur next = .ok s → asU32 s.slack = s.slack := by
  have hrejected : ∀ e, buildUairTrace trace = .error (.error e) ↔ Rejected trace e := by
    intro e
    refine ⟨fun he => ?_, buildUairTrace_rejected⟩
    rcases admissible_or_rejected trace with hadm | ⟨e', he'⟩
    · obtain ⟨out, hout⟩ := buildUairTrace_admissible hadm
      rw [hout] at he
      cases he
    · have := buildUairTrace_rejected he'
      rw [he] at this
      cases this
      exact he'
  refine ⟨⟨?_, ?_⟩, hrejected, fun p hp => ?_, fun h => ?_, fun cur next s h =>
    (sortedWitness_bounds h).2.1, fun cur next s h => originalWitness_bounds h⟩
  · rintro ⟨out, hout⟩
    rcases admissible_or_rejected trace with hadm | ⟨e, he⟩
    · have hlen := hadm.length
      rw [maxNumVars] at hlen
      refine ⟨hadm.nonempty, hadm.first, hadm.increasing.isChain, by omega,
        fun last hlast v hv => ?_⟩
      rw [isPaddedVars_iff.mp hv]
      exact hadm.time last hlast
    · rw [buildUairTrace_rejected he] at hout
      cases hout
  · rintro ⟨hne, hstart, htimes, hlen, htime⟩
    have htrans : IsTrans Record fun a b => a.timeLog < b.timeLog := ⟨fun _ _ _ => lt_trans⟩
    exact buildUairTrace_admissible ⟨hne, hstart, List.isChain_iff_pairwise.mp htimes,
      by rw [maxNumVars]; omega, fun last hlast => htime last hlast _ (isPaddedVars_iff.mpr rfl)⟩
  · rcases admissible_or_rejected trace with hadm | ⟨e, he⟩
    · obtain ⟨out, hout⟩ := buildUairTrace_admissible hadm
      rw [hout] at hp
      cases hp
    · rw [buildUairTrace_rejected he] at hp
      cases hp
  · cases (hrejected _).mp h

end Vec

end Zkmemory.Zincplus
