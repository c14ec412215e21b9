import Atcd.Core.Run
import Atcd.Time.TimeValue
/-!
# Runs on time values

Time values are constructed, assigned, and changed by each other, by whole seconds, by a
microsecond and by milliseconds. All of this normalizes, or sets normal fields, but for
`+=` and `-=` of whole seconds: they change the seconds only, also where the microseconds
have the other sign then.

* `canonical_iff`: the values stay canonical, and their comparisons right, if and only if no
  whole seconds are added or subtracted across the sign of the microseconds.
-/
namespace Atcd.Time
open Atcd.Core TimeValue Function

/-- Calls on the values; what `set` gets from a `timeval`, a `timespec_t` or a double are
seconds and microseconds too. -/
inductive Op
  | set (i : Nat) (sec usec : Int)
  | copy (i j : Nat)
  | add (i j : Nat)
  | sub (i j : Nat)
  | addSec (i : Nat) (tv : Int)
  | subSec (i : Nat) (tv : Int)
  | incr (i : Nat)
  | decr (i : Nat)
  | msec (i : Nat) (milliseconds : Int)

def Op.target : Op → Nat
  | .set i _ _ | .copy i _ | .add i _ | .sub i _ | .addSec i _ | .subSec i _ | .incr i
  | .decr i | .msec i _ => i

namespace TimeValue

/-- mirrors ACE/ace/Time_Value.inl:292-299 -/
def eq (tv1 tv2 : TimeValue) : Bool := tv1.sec = tv2.sec && tv1.usec = tv2.usec

/-- mirrors Time_Value.inl:327-333 -/
def addSec (t : TimeValue) (tv : Int) : TimeValue := ⟨t.sec + tv, t.usec⟩

/-- mirrors Time_Value.inl:363-369 -/
def subSec (t : TimeValue) (tv : Int) : TimeValue := ⟨t.sec - tv, t.usec⟩

/-- mirrors ACE/ace/Time_Value.cpp:53-60 -/
def incr (t : TimeValue) : TimeValue := normalize ⟨t.sec, t.usec + 1⟩

/-- mirrors Time_Value.cpp:73-80 -/
def decr (t : TimeValue) : TimeValue := normalize ⟨t.sec, t.usec - 1⟩

end TimeValue

/-- What the target becomes. -/
def result (s : Nat → TimeValue) : Op → TimeValue
  | .set _ sec usec => TimeValue.set sec usec
  | .copy _ j => s j
  | .add i j => (s i).add (s j)
  | .sub i j => (s i).sub (s j)
  | .addSec i tv => (s i).addSec tv
  | .subSec i tv => (s i).subSec tv
  | .incr i => (s i).incr
  | .decr i => (s i).decr
  | .msec _ milliseconds => TimeValue.ofMsec milliseconds

def step (s : Nat → TimeValue) (op : Op) : Option (Nat → TimeValue) :=
  some (update s op.target (result s op))

def start : Nat → TimeValue := fun _ => TimeValue.zero

/-- Microseconds of the target afterwards. -/
def exactResult (s : Nat → TimeValue) : Op → Int
  | .set _ sec usec => sec * 1000000 + usec
  | .copy _ j => (s j).total
  | .add i j => (s i).total + (s j).total
  | .sub i j => (s i).total - (s j).total
  | .addSec i tv => (s i).total + tv * 1000000
  | .subSec i tv => (s i).total - tv * 1000000
  | .incr i => (s i).total + 1
  | .decr i => (s i).total - 1
  | .msec _ milliseconds => milliseconds * 1000

/-- The comparisons are those of the microseconds. -/
def Compared (a b : TimeValue) : Prop :=
  (a.lt b = true ↔ a.total < b.total) ∧ (a.le b = true ↔ a.total ≤ b.total) ∧
    (a.eq b = true ↔ a.total = b.total)

/-- After the call all values are canonical and compared right, and the target is exact. -/
def Right (s : Nat → TimeValue) (op : Op) : Prop :=
  ∀ t, step s op = some t → (∀ i, (t i).Normal) ∧ (∀ i j, Compared (t i) (t j)) ∧
    (t op.target).total = exactResult s op

/-- The microseconds have the sign of the seconds that are left. -/
def NoCross (s : Nat → TimeValue) : Op → Prop
  | .addSec i tv =>
    (1 ≤ (s i).sec + tv → 0 ≤ (s i).usec) ∧ ((s i).sec + tv < 0 → (s i).usec ≤ 0)
  | .subSec i tv =>
    (1 ≤ (s i).sec - tv → 0 ≤ (s i).usec) ∧ ((s i).sec - tv < 0 → (s i).usec ≤ 0)
  | _ => True

theorem TimeValue.eq_iff_total {a b : TimeValue} (ha : a.Normal) (hb : b.Normal) :
    a.eq b = true ↔ a.total = b.total := by
  obtain ⟨ha1, ha2, ha3, ha4⟩ := ha
  obtain ⟨hb1, hb2, hb3, hb4⟩ := hb
  simp only [eq, Bool.and_eq_true, decide_eq_true_eq]
  unfold total oneSecondInUsecs at *
  omega

theorem compared {a b : TimeValue} (ha : a.Normal) (hb : b.Normal) : Compared a b := by
  refine ⟨?_, ?_, eq_iff_total ha hb⟩
  · rw [lt_iff, lt_iff_total ha hb]
  · rw [le_iff, le_iff_total ha hb]

theorem result_total (s : Nat → TimeValue) (op : Op) : (result s op).total = exactResult s op := by
  cases op with
  | set i sec usec => exact normalize_total _
  | copy i j => rfl
  | add i j => exact add_total _ _
  | sub i j => exact sub_total _ _
  | addSec i tv =>
    simp only [result, exactResult, addSec, total, oneSecondInUsecs]
    omega
  | subSec i tv =>
    simp only [result, exactResult, subSec, total, oneSecondInUsecs]
    omega
  | incr i =>
    refine (normalize_total _).trans ?_
    simp only [exactResult, total]
    omega
  | decr i =>
    refine (normalize_total _).trans ?_
    simp only [exactResult, total]
    omega
  | msec i milliseconds => exact (ofMsec_spec milliseconds).2

theorem result_normal_iff {s : Nat → TimeValue} (h : ∀ i, (s i).Normal) (op : Op) :
    (result s op).Normal ↔ NoCross s op := by
  cases op with
  | addSec i tv =>
    exact ⟨fun hn => ⟨hn.pos, hn.neg⟩, fun hc => ⟨(h i).lo, (h i).hi, hc.1, hc.2⟩⟩
  | subSec i tv =>
    exact ⟨fun hn => ⟨hn.pos, hn.neg⟩, fun hc => ⟨(h i).lo, (h i).hi, hc.1, hc.2⟩⟩
  | copy i j => exact iff_of_true (h j) trivial
  | msec i milliseconds => exact iff_of_true (ofMsec_spec milliseconds).1 trivial
  | set i sec usec => exact iff_of_true (normalize_normal _) trivial
  | add i j => exact iff_of_true (normalize_normal _) trivial
  | sub i j => exact iff_of_true (normalize_normal _) trivial
  | incr i => exact iff_of_true (normalize_normal _) trivial
  | decr i => exact iff_of_true (normalize_normal _) trivial

theorem step_normal {s t : Nat → TimeValue} {op : Op} (h : ∀ i, (s i).Normal)
    (hcross : NoCross s op) (ht : step s op = some t) (i : Nat) : (t i).Normal := by
  cases ht
  by_cases hi : i = op.target
  · rw [hi, update_self]
    exact (result_normal_iff h op).mpr hcross
  · rw [update_of_ne hi]
    exact h i

theorem right_iff {s : Nat → TimeValue} (h : ∀ i, (s i).Normal) (op : Op) :
    Right s op ↔ NoCross s op := by
  constructor
  · intro hright
    have hnormal := (hright _ rfl).1 op.target
    rw [update_self] at hnormal
    exact (result_normal_iff h op).mp hnormal
  · intro hcross t ht
    have hnormal := step_normal h hcross ht
    refine ⟨hnormal, fun i j => compared (hnormal i) (hnormal j), ?_⟩
    cases ht
    rw [update_self]
    exact result_total s op

/-- **Time values stay canonical** as long as whole seconds do not cross the sign of the
microseconds. -/
theorem canonical_iff (ops : List Op) :
    AllSteps step Right start ops ↔ AllSteps step NoCross start ops :=
  allSteps_congr (fun _ op h => right_iff h op) (fun _ _ _ h hcross ht => step_normal h hcross ht)
    fun _ => normal_zero

/-- One second is added to minus half a second. -/
theorem second_crosses_sign :
    ¬AllSteps step Right start [.set 0 0 (-500000), .addSec 0 1] := by
  intro h
  have hnormal := ((h.2 _ rfl).1 _ rfl).1 0
  exact absurd (hnormal.pos (by decide)) (by decide)

end Atcd.Time
