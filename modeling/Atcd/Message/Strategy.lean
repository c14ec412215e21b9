import Atcd.Message.Queue
/-!
# Message strategies

`ACE_Dynamic_Message_Strategy`: the status of a message from the time to its
deadline, or its laxity, and the priority that goes with it.

Results:
* `status_mono`: as time passes, a message goes from pending to late to beyond
  late.
* `evaluate_evaluate`: the priority of one time is not changed by evaluating it
  again.
-/
namespace Atcd.Message

open Atcd.Time TimeValue

/-- mirrors ACE/ace/Dynamic_Message_Strategy.h:45-56 -/
inductive PriorityStatus where
  | pending
  | late
  | beyondLate
  deriving DecidableEq, Repr

namespace PriorityStatus

/-- How late. -/
def rank : PriorityStatus → Nat
  | pending => 0
  | late => 1
  | beyondLate => 2

end PriorityStatus

inductive Hook where
  | deadline
  | laxity

/-- mirrors Dynamic_Message_Strategy.h:106-134 -/
structure DynamicStrategy where
  hook : Hook
  staticBitFieldMask : UInt64
  staticBitFieldShift : UInt64
  maxLate : TimeValue
  minPending : TimeValue
  pendingShift : TimeValue

namespace DynamicStrategy

/-- An `unsigned long` as a `suseconds_t`. -/
def suseconds (n : UInt64) : Int := if n.toNat < 2 ^ 63 then n.toNat else n.toNat - 2 ^ 64

/-- mirrors ACE/ace/Dynamic_Message_Strategy.cpp:16-28 -/
def init (hook : Hook) (mask shift priorityMax offset : UInt64) : DynamicStrategy where
  hook := hook
  staticBitFieldMask := mask
  staticBitFieldShift := shift
  maxLate := .set 0 (suseconds (offset - 1))
  minPending := .set 0 (suseconds offset)
  pendingShift := .set 0 (suseconds priorityMax)

/-- The defaults of both strategies.
mirrors Dynamic_Message_Strategy.h:147-151,177-181 -/
def default (hook : Hook) : DynamicStrategy := init hook 0x3FF 10 0x3FFFFF 0x200000

/-- mirrors Dynamic_Message_Strategy.cpp:127-134,174-182 -/
def convertPriority (s : DynamicStrategy) (priority : TimeValue) (mb : MessageBlock) : TimeValue :=
  match s.hook with
  | .deadline => priority.sub mb.deadlineTime
  | .laxity => (priority.add mb.executionTime).sub mb.deadlineTime

/-- The priority with its dynamic part replaced. -/
def replaceDynamic (s : DynamicStrategy) (mb : MessageBlock) (priority : TimeValue) : MessageBlock :=
  let dynamic := UInt64.ofNat (TimeValue.uint64 (priority.usec + TimeValue.oneSecondInUsecs * priority.sec))
  { mb with priority :=
      (mb.priority &&& s.staticBitFieldMask) ||| (dynamic <<< s.staticBitFieldShift) }

/-- The status, and the message with its priority updated.
mirrors Dynamic_Message_Strategy.cpp:36-79 -/
def priorityStatus (s : DynamicStrategy) (mb : MessageBlock) (tv : TimeValue) :
    PriorityStatus × MessageBlock :=
  let priority := s.convertPriority tv mb
  if priority.lt .zero = true then
    let priority := priority.add s.pendingShift
    let priority := if priority.lt s.minPending = true then s.minPending else priority
    (.pending, s.replaceDynamic mb priority)
  else if priority.gt s.maxLate = true then (.beyondLate, { mb with priority := 0 })
  else (.late, s.replaceDynamic mb priority)

def status (s : DynamicStrategy) (mb : MessageBlock) (tv : TimeValue) : PriorityStatus :=
  (s.priorityStatus mb tv).1

def evaluate (s : DynamicStrategy) (mb : MessageBlock) (tv : TimeValue) : MessageBlock :=
  (s.priorityStatus mb tv).2

variable {s : DynamicStrategy} {mb : MessageBlock} {tv tv' : TimeValue}

theorem convertPriority_spec (s : DynamicStrategy) (mb : MessageBlock) :
    ∃ d : Int, ∀ tv, (s.convertPriority tv mb).Normal ∧ (s.convertPriority tv mb).total = tv.total - d := by
  unfold convertPriority
  cases s.hook with
  | deadline =>
    exact ⟨mb.deadlineTime.total, fun tv => ⟨normalize_normal _, sub_total _ _⟩⟩
  | laxity =>
    refine ⟨mb.deadlineTime.total - mb.executionTime.total, fun tv =>
      ⟨normalize_normal _, ?_⟩⟩
    rw [sub_total, add_total]
    omega

theorem status_eq (s : DynamicStrategy) (mb : MessageBlock) (tv : TimeValue) : s.status mb tv =
    if s.convertPriority tv mb < .zero then .pending
    else if s.maxLate < s.convertPriority tv mb then .beyondLate else .late := by
  unfold status priorityStatus
  simp only [lt_iff, gt_iff]
  split
  · rfl
  · split <;> rfl

theorem convertPriority_congr {mb' : MessageBlock} (hd : mb'.deadlineTime = mb.deadlineTime)
    (he : mb'.executionTime = mb.executionTime) : s.convertPriority tv mb' = s.convertPriority tv mb := by
  unfold convertPriority
  rw [hd, he]

theorem convertPriority_evaluate (tv' : TimeValue) :
    s.convertPriority tv (s.evaluate mb tv') = s.convertPriority tv mb := by
  unfold evaluate priorityStatus
  simp only
  split
  · exact convertPriority_congr rfl rfl
  · split <;> exact convertPriority_congr rfl rfl

theorem status_evaluate (tv' : TimeValue) : s.status (s.evaluate mb tv') tv = s.status mb tv := by
  rw [status_eq, status_eq, convertPriority_evaluate]

theorem replaceDynamic_replaceDynamic (p : TimeValue) :
    s.replaceDynamic (s.replaceDynamic mb p) p = s.replaceDynamic mb p := by
  unfold replaceDynamic
  simp only
  congr 1
  generalize UInt64.ofNat _ <<< s.staticBitFieldShift = d
  -- what the mask keeps of the dynamic part is in the dynamic part
  apply UInt64.eq_of_toBitVec_eq
  ext i
  simp only [UInt64.toBitVec_or, UInt64.toBitVec_and, BitVec.getElem_or, BitVec.getElem_and]
  cases d.toBitVec[i] <;> simp

/-- The message for a converted priority. -/
def assign (s : DynamicStrategy) (mb : MessageBlock) (p : TimeValue) : MessageBlock :=
  if p.lt .zero = true then
    s.replaceDynamic mb (if (p.add s.pendingShift).lt s.minPending = true then s.minPending
      else p.add s.pendingShift)
  else if p.gt s.maxLate = true then { mb with priority := 0 } else s.replaceDynamic mb p

theorem evaluate_eq (s : DynamicStrategy) (mb : MessageBlock) (tv : TimeValue) :
    s.evaluate mb tv = s.assign mb (s.convertPriority tv mb) := by
  unfold evaluate priorityStatus assign
  simp only
  split
  · rfl
  · split <;> rfl

theorem evaluate_evaluate : s.evaluate (s.evaluate mb tv) tv = s.evaluate mb tv := by
  rw [evaluate_eq s (s.evaluate mb tv), convertPriority_evaluate, evaluate_eq]
  unfold assign
  split
  · exact replaceDynamic_replaceDynamic _
  · split
    · rfl
    · exact replaceDynamic_replaceDynamic _

/-- **A message gets later.** -/
theorem status_mono (hmax : s.maxLate.Normal) (h : tv.total ≤ tv'.total) :
    (s.status mb tv).rank ≤ (s.status mb tv').rank := by
  obtain ⟨d, hd⟩ := convertPriority_spec s mb
  rw [status_eq, status_eq]
  simp only [lt_iff_total (hd _).1 normal_zero, lt_iff_total hmax (hd _).1, (hd _).2]
  by_cases hp : tv.total - d < zero.total
  · rw [if_pos hp]
    exact Nat.zero_le _
  · have hp' : ¬ tv'.total - d < zero.total := by omega
    rw [if_neg hp, if_neg hp']
    by_cases hb : s.maxLate.total < tv.total - d
    · have hb' : s.maxLate.total < tv'.total - d := by omega
      rw [if_pos hb, if_pos hb']
    · rw [if_neg hb]
      split <;> decide

end DynamicStrategy

end Atcd.Message
