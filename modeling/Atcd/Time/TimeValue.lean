import Mathlib
/-!
# Time values

`ACE_Time_Value`: seconds and microseconds. The comparisons of the source are
the lexicographic order of the two fields. Fields are integers: only `to_usec`,
which computes in 64 bits, can overflow here.

Results:
* `gt_iff`, `ge_iff`, `lt_iff`, `le_iff`: the operators are a linear order.
* `normalize_total`, `normalize_normal`: `normalize` keeps the time and ends in
  the normal form; `lt_iff_total`: on it the order is that of the times.
-/
namespace Atcd.Time

open Int

/-- mirrors ACE/ace/Time_Value.h:60-330 -/
@[ext] structure TimeValue where
  sec : Int
  usec : Int
  deriving DecidableEq, Repr

namespace TimeValue

def zero : TimeValue := ⟨0, 0⟩

/-- mirrors ACE/ace/Time_Value.inl:227-239 -/
def gt (tv1 tv2 : TimeValue) : Bool :=
  if tv1.sec > tv2.sec then true
  else if tv1.sec = tv2.sec ∧ tv1.usec > tv2.usec then true
  else false

/-- mirrors Time_Value.inl:242-254 -/
def ge (tv1 tv2 : TimeValue) : Bool :=
  if tv1.sec > tv2.sec then true
  else if tv1.sec = tv2.sec ∧ tv1.usec ≥ tv2.usec then true
  else false

/-- mirrors Time_Value.inl:275-281 -/
def lt (tv1 tv2 : TimeValue) : Bool := tv2.gt tv1

/-- mirrors Time_Value.inl:284-290 -/
def le (tv1 tv2 : TimeValue) : Bool := tv2.ge tv1

/-- The order of the fields, seconds first. -/
instance : LinearOrder TimeValue :=
  LinearOrder.lift' (fun t => toLex (t.sec, t.usec)) fun a b h => by
    have := congrArg ofLex h
    simp only [ofLex_toLex, Prod.mk.injEq] at this
    exact TimeValue.ext this.1 this.2

theorem lt_def (a b : TimeValue) : a < b ↔ a.sec < b.sec ∨ a.sec = b.sec ∧ a.usec < b.usec :=
  Prod.Lex.toLex_lt_toLex

theorem le_def (a b : TimeValue) : a ≤ b ↔ a.sec < b.sec ∨ a.sec = b.sec ∧ a.usec ≤ b.usec :=
  Prod.Lex.toLex_le_toLex

@[simp] theorem gt_iff (a b : TimeValue) : a.gt b = true ↔ b < a := by
  unfold gt
  rw [lt_def]
  split
  · simp only [true_iff]; omega
  · split <;> simp <;> omega

@[simp] theorem ge_iff (a b : TimeValue) : a.ge b = true ↔ b ≤ a := by
  unfold ge
  rw [le_def]
  split
  · simp only [true_iff]; omega
  · split <;> simp <;> omega

@[simp] theorem lt_iff (a b : TimeValue) : a.lt b = true ↔ a < b := gt_iff b a

@[simp] theorem le_iff (a b : TimeValue) : a.le b = true ↔ a ≤ b := ge_iff b a

/-! ## Normal form -/

def oneSecondInUsecs : Int := 1000000

/-- The first loop of `normalize`.
mirrors ACE/ace/Time_Value.cpp:177-188 -/
def carryUp : Nat → TimeValue → TimeValue
  | 0, t => t
  | fuel + 1, t =>
    if t.usec ≥ oneSecondInUsecs then carryUp fuel ⟨t.sec + 1, t.usec - oneSecondInUsecs⟩ else t

/-- mirrors Time_Value.cpp:200-210 -/
def carryDown : Nat → TimeValue → TimeValue
  | 0, t => t
  | fuel + 1, t =>
    if t.usec ≤ -oneSecondInUsecs then carryDown fuel ⟨t.sec - 1, t.usec + oneSecondInUsecs⟩ else t

/-- `normalize` without saturation. The microseconds bound the rounds of its
loops.
mirrors Time_Value.cpp:172-235 -/
def normalize (t : TimeValue) : TimeValue :=
  let rounds := (t.usec / oneSecondInUsecs).natAbs
  let t :=
    if t.usec ≥ oneSecondInUsecs then carryUp rounds t
    else if t.usec ≤ -oneSecondInUsecs then carryDown rounds t
    else t
  if t.sec ≥ 1 ∧ t.usec < 0 then ⟨t.sec - 1, t.usec + oneSecondInUsecs⟩
  else if t.sec < 0 ∧ t.usec > 0 then ⟨t.sec + 1, t.usec - oneSecondInUsecs⟩
  else t

/-- The constructor from two numbers.
mirrors Time_Value.inl:32-46,86-91 -/
def set (sec usec : Int) : TimeValue := normalize ⟨sec, usec⟩

/-- mirrors Time_Value.inl:316-325,374-383 -/
def add (tv1 tv2 : TimeValue) : TimeValue := normalize ⟨tv1.sec + tv2.sec, tv1.usec + tv2.usec⟩

/-- mirrors Time_Value.inl:353-361,386-395 -/
def sub (tv1 tv2 : TimeValue) : TimeValue := normalize ⟨tv1.sec - tv2.sec, tv1.usec - tv2.usec⟩

/-- An integer as an `ACE_UINT64`. -/
def uint64 (x : Int) : Nat := (x % 2 ^ 64).toNat

/-- mirrors Time_Value.inl:203-210 -/
def toUsec (t : TimeValue) : Nat :=
  let usec := uint64 t.sec
  let usec := uint64 (usec * 1000000)
  uint64 (usec + t.usec)

/-- `msec` as an unsigned long of `longBits` bits: a value above its range is
cut to the maximum.
mirrors Time_Value.inl:119-130, ACE/ace/Truncate.h:360-385 -/
def msec (longBits : Nat) (t : TimeValue) : Nat :=
  let secs := t.sec * 1000 + t.usec.tdiv 1000
  if secs > 2 ^ longBits - 1 then 2 ^ longBits - 1 else (secs % 2 ^ longBits).toNat

/-- The setter from milliseconds.
mirrors Time_Value.inl:171-181 -/
def ofMsec (milliseconds : Int) : TimeValue :=
  let secs := milliseconds.tdiv 1000
  ⟨secs, (milliseconds - secs * 1000) * 1000⟩

/-- The largest time, for a `time_t` of 64 bits.
mirrors Time_Value.cpp:33-35 -/
def maxTime : TimeValue := ⟨2 ^ 63 - 1, 999999⟩

def total (t : TimeValue) : Int := t.sec * oneSecondInUsecs + t.usec

/-- The form in which every constructor leaves a time: less than a second of
microseconds, and of the sign of the seconds. -/
structure Normal (t : TimeValue) : Prop where
  lo : -oneSecondInUsecs < t.usec
  hi : t.usec < oneSecondInUsecs
  pos : 1 ≤ t.sec → 0 ≤ t.usec
  neg : t.sec < 0 → t.usec ≤ 0

theorem normal_zero : zero.Normal := by
  refine ⟨?_, ?_, ?_, ?_⟩ <;> simp [zero, oneSecondInUsecs]

theorem carryUp_total (fuel : Nat) (t : TimeValue) : (carryUp fuel t).total = t.total := by
  induction fuel generalizing t with
  | zero => rfl
  | succ fuel ih =>
    unfold carryUp
    split
    · rw [ih]
      simp only [total, oneSecondInUsecs]
      omega
    · rfl

theorem carryDown_total (fuel : Nat) (t : TimeValue) : (carryDown fuel t).total = t.total := by
  induction fuel generalizing t with
  | zero => rfl
  | succ fuel ih =>
    unfold carryDown
    split
    · rw [ih]
      simp only [total, oneSecondInUsecs]
      omega
    · rfl

theorem carryUp_usec (fuel : Nat) (t : TimeValue) (h0 : 0 ≤ t.usec)
    (hf : t.usec / oneSecondInUsecs ≤ fuel) :
    0 ≤ (carryUp fuel t).usec ∧ (carryUp fuel t).usec < oneSecondInUsecs := by
  unfold oneSecondInUsecs at *
  induction fuel generalizing t with
  | zero =>
    unfold carryUp
    omega
  | succ fuel ih =>
    unfold carryUp oneSecondInUsecs
    split
    · exact ih _ (by simp only; omega) (by simp only; omega)
    · omega

theorem carryDown_usec (fuel : Nat) (t : TimeValue) (h0 : t.usec ≤ 0)
    (hf : -(t.usec / oneSecondInUsecs) ≤ fuel) :
    -oneSecondInUsecs < (carryDown fuel t).usec ∧ (carryDown fuel t).usec ≤ 0 := by
  unfold oneSecondInUsecs at *
  induction fuel generalizing t with
  | zero =>
    unfold carryDown
    omega
  | succ fuel ih =>
    unfold carryDown oneSecondInUsecs
    split
    · exact ih _ (by simp only; omega) (by simp only; omega)
    · omega

/-- The last adjustment of `normalize`, once less than a second is left. -/
theorem normal_of_carried {t t' : TimeValue} (hlo : -oneSecondInUsecs < t.usec)
    (hhi : t.usec < oneSecondInUsecs)
    (ht : t' = if t.sec ≥ 1 ∧ t.usec < 0 then ⟨t.sec - 1, t.usec + oneSecondInUsecs⟩
      else if t.sec < 0 ∧ t.usec > 0 then ⟨t.sec + 1, t.usec - oneSecondInUsecs⟩ else t) :
    t'.Normal ∧ t'.total = t.total := by
  subst ht
  unfold total oneSecondInUsecs at *
  split
  · refine ⟨⟨?_, ?_, ?_, ?_⟩, ?_⟩ <;> simp only [oneSecondInUsecs] <;> omega
  · split
    · refine ⟨⟨?_, ?_, ?_, ?_⟩, ?_⟩ <;> simp only [oneSecondInUsecs] <;> omega
    · exact ⟨⟨hlo, hhi, by omega, by omega⟩, rfl⟩

theorem normalize_spec (t : TimeValue) : t.normalize.Normal ∧ t.normalize.total = t.total := by
  unfold normalize
  simp only
  by_cases hup : t.usec ≥ oneSecondInUsecs
  · rw [if_pos hup]
    have hc := carryUp_usec (t.usec / oneSecondInUsecs).natAbs t
      (by unfold oneSecondInUsecs at *; omega) (by omega)
    have hn := normal_of_carried (by unfold oneSecondInUsecs at *; omega) hc.2 rfl
    exact ⟨hn.1, hn.2.trans (carryUp_total _ t)⟩
  · rw [if_neg hup]
    by_cases hdown : t.usec ≤ -oneSecondInUsecs
    · rw [if_pos hdown]
      have hc := carryDown_usec (t.usec / oneSecondInUsecs).natAbs t
        (by unfold oneSecondInUsecs at *; omega) (by omega)
      have hn := normal_of_carried hc.1 (by unfold oneSecondInUsecs at *; omega) rfl
      exact ⟨hn.1, hn.2.trans (carryDown_total _ t)⟩
    · rw [if_neg hdown]
      exact normal_of_carried (by omega) (by omega) rfl

theorem normalize_normal (t : TimeValue) : t.normalize.Normal := (normalize_spec t).1

@[simp] theorem normalize_total (t : TimeValue) : t.normalize.total = t.total := (normalize_spec t).2

theorem sub_total (a b : TimeValue) : (a.sub b).total = a.total - b.total := by
  unfold sub
  rw [normalize_total]
  simp only [total, oneSecondInUsecs]
  omega

theorem lt_iff_total {a b : TimeValue} (ha : a.Normal) (hb : b.Normal) :
    a < b ↔ a.total < b.total := by
  obtain ⟨ha1, ha2, ha3, ha4⟩ := ha
  obtain ⟨hb1, hb2, hb3, hb4⟩ := hb
  rw [lt_def]
  unfold total oneSecondInUsecs at *
  omega

theorem le_iff_total {a b : TimeValue} (ha : a.Normal) (hb : b.Normal) :
    a ≤ b ↔ a.total ≤ b.total := by
  rw [← not_lt, lt_iff_total hb ha, not_lt]

theorem Normal.ext {a b : TimeValue} (ha : a.Normal) (hb : b.Normal)
    (h : a.total = b.total) : a = b := by
  obtain ⟨ha1, ha2, ha3, ha4⟩ := ha
  obtain ⟨hb1, hb2, hb3, hb4⟩ := hb
  unfold total oneSecondInUsecs at *
  ext <;> omega

theorem uint64_eq (x : Int) : (uint64 x : Int) = x % 2 ^ 64 := by
  unfold uint64
  omega

theorem toUsec_emod (t : TimeValue) : (t.toUsec : Int) = t.total % 2 ^ 64 := by
  unfold toUsec total oneSecondInUsecs
  simp only [uint64_eq]
  rw [emod_add_emod, ← emod_add_emod, mul_emod, emod_emod_of_dvd _ (dvd_refl _),
    ← mul_emod, emod_add_emod]

theorem toUsec_eq {t : TimeValue} (h0 : 0 ≤ t.total) (h : t.total < 2 ^ 64) :
    (t.toUsec : Int) = t.total := by
  rw [toUsec_emod, emod_eq_of_lt h0 h]

theorem add_total (a b : TimeValue) : (a.add b).total = a.total + b.total := by
  unfold add
  rw [normalize_total]
  simp only [total, oneSecondInUsecs]
  omega

/-- A time that is not negative, with milliseconds in the range of `msec`. -/
structure InMsec (longBits : Nat) (t : TimeValue) : Prop where
  normal : t.Normal
  nonneg : 0 ≤ t.total
  range : t.total / 1000 < 2 ^ longBits

theorem msec_eq {longBits : Nat} {t : TimeValue} (h : InMsec longBits t) :
    t.msec longBits = (t.total / 1000).toNat := by
  obtain ⟨⟨h1, h2, h3, h4⟩, h0, hr⟩ := h
  unfold msec total oneSecondInUsecs at *
  have husec : 0 ≤ t.usec := by omega
  rw [tdiv_eq_ediv_of_nonneg husec]
  have hm : t.sec * 1000 + t.usec / 1000 = (t.sec * 1000000 + t.usec) / 1000 := by omega
  rw [hm, if_neg (by omega), emod_eq_of_lt (by omega) hr]

theorem ofMsec_spec (ms : Int) : (ofMsec ms).Normal ∧ (ofMsec ms).total = ms * 1000 := by
  have hdiv := tdiv_mul_add_tmod ms 1000
  have hlo := tmod_lt_of_pos ms (show (0 : Int) < 1000 by decide)
  have hhi := tmod_lt_of_pos (-ms) (show (0 : Int) < 1000 by decide)
  rw [neg_tmod] at hhi
  have hpos : 0 ≤ ms → 0 ≤ ms.tmod 1000 := tmod_nonneg 1000
  have hneg : 0 ≤ -ms → 0 ≤ -ms.tmod 1000 := by
    rw [← neg_tmod]
    exact tmod_nonneg 1000
  unfold ofMsec
  refine ⟨⟨?_, ?_, ?_, ?_⟩, ?_⟩ <;> simp only [total, oneSecondInUsecs] <;> omega

end TimeValue

end Atcd.Time
