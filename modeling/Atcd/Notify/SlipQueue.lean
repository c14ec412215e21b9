import Atcd.Core.Run
/-!
# `Routing_Slip_Queue`: the slips at the front

At most `allowed_` slips are at the front of the persistence queue at a time, any number when it
is 0. The mutex is given up for the call that tells a slip that it is at the front, so what a
call does up to there is one step, and each such call begins in a step of its own: there may be
other calls in between, of this thread or of others.

Results:
- `step_sound`: what a step keeps;
- `strands_nobody`: the slips come to the front in their order, and one that waits has one at
  the front to wait for, as long as the bound is not lifted while two of them wait.
-/
namespace Atcd.Notify
open Atcd.Core List Option

/-- The queue, with the slips as numbers in the order of `add`, the calls that are still to be
made, those made, and how many slips are completed.
mirrors TAO/orbsvcs/orbsvcs/Notify/Routing_Slip_Queue.h:39-77 -/
structure SlipQueue where
  allowed : Nat
  active : Nat
  queue : List Nat
  added : Nat
  dispatched : List Nat
  called : List Nat
  completed : Nat

inductive QueueCall
  | add
  | complete
  | setAllowed (allowed : Nat)
  /-- The call of `at_front_of_persist_queue` for the `k`-th of those that are still to be made. -/
  | atFront (k : Nat)

namespace SlipQueue

/-- mirrors TAO/orbsvcs/orbsvcs/Notify/Routing_Slip_Queue.cpp:19-23 -/
def init (allowed : Nat) : SlipQueue where
  allowed := allowed
  active := 0
  queue := []
  added := 0
  dispatched := []
  called := []
  completed := 0

/-- Up to the release of the mutex. The result `ok` of the source is always `false`.
mirrors Routing_Slip_Queue.cpp:72-84 -/
def dispatchOne (q : SlipQueue) : SlipQueue :=
  match q.queue with
  | [] => q
  | slip :: queue =>
    { q with queue := queue, active := q.active + 1, dispatched := q.dispatched ++ [slip] }

/-- The loop ends with the first slip, as `dispatch_one` returns `false`.
mirrors Routing_Slip_Queue.cpp:51-70 -/
def dispatch (q : SlipQueue) : SlipQueue :=
  let nice := (q.allowed + 1) % 2 ^ 64
  if nice > 0 ∧ q.active < q.allowed then q.dispatchOne else q

/-- mirrors Routing_Slip_Queue.cpp:29-43 -/
def add (q : SlipQueue) : SlipQueue :=
  let slip := q.added
  let q := { q with added := q.added + 1 }
  if q.allowed = 0 then
    { q with active := q.active + 1, dispatched := q.dispatched ++ [slip] }
  else { q with queue := q.queue ++ [slip] }.dispatch

/-- mirrors Routing_Slip_Queue.cpp:45-51 -/
def complete (q : SlipQueue) : SlipQueue :=
  { q with active := q.active - 1, completed := q.completed + 1 }.dispatch

/-- mirrors Routing_Slip_Queue.cpp:86-103 -/
def setAllowed (q : SlipQueue) (allowed : Nat) : SlipQueue :=
  let allowedWas := q.allowed
  let q := { q with allowed := allowed }
  if allowed = 0 ∧ allowedWas ≠ 0 then q.dispatchOne else q.dispatch

/-- A slip completes after its call at the front. -/
def step (q : SlipQueue) : QueueCall → Option SlipQueue
  | .add => some q.add
  | .complete => if q.completed < q.called.length then some q.complete else none
  | .setAllowed allowed => some (q.setAllowed allowed)
  | .atFront k => q.dispatched[k]?.map fun slip =>
    { q with dispatched := q.dispatched.eraseIdx k, called := q.called ++ [slip] }

/-- No slip is lost or doubled, and those at the front are counted. -/
structure Lined (q : SlipQueue) : Prop where
  inOrder : q.called ++ q.dispatched ++ q.queue = List.range q.added
  active : q.active + q.completed = q.called.length + q.dispatched.length

/-- No slip is stranded either. -/
structure Sound (q : SlipQueue) : Prop extends q.Lined where
  waits : q.queue ≠ [] → 0 < q.active
  unbounded : q.allowed = 0 → q.queue = []

variable {q q' : SlipQueue}

/-- The head of the queue goes to the front. -/
theorem Lined.dispatchOne (h : q.Lined) : q.dispatchOne.Lined := by
  obtain ⟨hin, hactive⟩ := h
  cases hq : q.queue with
  | nil =>
    rw [SlipQueue.dispatchOne, hq]
    exact ⟨hin, hactive⟩
  | cons slip queue =>
    rw [SlipQueue.dispatchOne, hq]
    rw [hq] at hin
    refine ⟨by simpa using hin, ?_⟩
    rw [length_append, length_singleton]
    dsimp only
    omega

theorem dispatchOne_frame (q : SlipQueue) :
    q.dispatchOne.allowed = q.allowed ∧ q.dispatchOne.queue = q.queue.tail ∧
      q.active ≤ q.dispatchOne.active ∧ (q.queue ≠ [] → 0 < q.dispatchOne.active) := by
  cases hq : q.queue with
  | nil =>
    rw [dispatchOne, hq]
    exact ⟨rfl, hq, le_rfl, fun h => absurd rfl h⟩
  | cons slip queue =>
    rw [dispatchOne, hq]
    exact ⟨rfl, rfl, Nat.le_succ _, fun _ => Nat.succ_pos _⟩

theorem dispatch_eq (hbound : q.allowed + 1 < 2 ^ 64) :
    q.dispatch = if q.active < q.allowed then q.dispatchOne else q := by
  rw [dispatch, Nat.mod_eq_of_lt hbound]
  simp

/-- With a bound, one slip goes to the front unless as many as are allowed are there. -/
theorem Lined.dispatch (h : q.Lined) (hbound : q.allowed + 1 < 2 ^ 64)
    (hzero : q.allowed = 0 → q.queue = []) :
    q.dispatch.Sound ∧ q.dispatch.allowed = q.allowed := by
  obtain ⟨hallowed, hqueue, hle, hpos⟩ := dispatchOne_frame q
  rw [dispatch_eq hbound]
  split_ifs with hroom
  · refine ⟨⟨h.dispatchOne, fun hne => ?_, fun h0 => ?_⟩, hallowed⟩
    · apply hpos
      rintro hnil
      rw [hqueue, hnil] at hne
      exact hne rfl
    · rw [hqueue, hzero (hallowed ▸ h0), tail_nil]
  · refine ⟨⟨h, fun hne => ?_, hzero⟩, rfl⟩
    have hsome : q.allowed ≠ 0 := fun h0 => hne (hzero h0)
    omega

/-- The bound is not lifted while two slips wait, it is not the greatest number, and the calls
at the front begin in the order in which the slips come there. -/
def Good (q : SlipQueue) : QueueCall → Prop
  | .setAllowed allowed =>
    allowed + 1 < 2 ^ 64 ∧ (allowed = 0 → q.allowed = 0 ∨ q.queue.length ≤ 1)
  | .atFront k => k = 0
  | _ => True

theorem step_sound {call : QueueCall} (h : q.Sound ∧ q.allowed + 1 < 2 ^ 64)
    (hgood : q.Good call) (hstep : q.step call = some q') :
    q'.Sound ∧ q'.allowed + 1 < 2 ^ 64 := by
  obtain ⟨⟨⟨hin, hactive⟩, hwaits, hzero⟩, hbound⟩ := h
  cases call with
  | add =>
    obtain rfl := some.inj hstep
    unfold add
    dsimp only
    split_ifs with h0
    · have hnil := hzero h0
      rw [hnil, append_nil] at hin
      refine ⟨⟨⟨?_, ?_⟩, fun _ => Nat.succ_pos _, fun _ => hnil⟩, hbound⟩
      · rw [hnil, append_nil, ← append_assoc, hin, range_succ]
      · rw [length_append, length_singleton]
        dsimp only
        omega
    · have hlined : Lined { q with added := q.added + 1, queue := q.queue ++ [q.added] } := by
        refine ⟨?_, hactive⟩
        rw [range_succ, ← hin, append_assoc _ q.queue]
      obtain ⟨hsound, hallowed⟩ := hlined.dispatch hbound fun h => absurd h h0
      exact ⟨hsound, by rwa [hallowed]⟩
  | complete =>
    rw [step] at hstep
    split_ifs at hstep with hdone
    obtain rfl := some.inj hstep
    have hlined : Lined { q with active := q.active - 1, completed := q.completed + 1 } := by
      refine ⟨hin, ?_⟩
      dsimp only
      omega
    obtain ⟨hsound, hallowed⟩ := hlined.dispatch hbound hzero
    exact ⟨hsound, hallowed ▸ hbound⟩
  | setAllowed allowed =>
    obtain rfl := some.inj hstep
    obtain ⟨hlt, hlift⟩ := hgood
    have hlined : Lined { q with allowed := allowed } := ⟨hin, hactive⟩
    unfold setAllowed
    dsimp only
    split_ifs with hzero'
    · -- the one slip that waits goes to the front
      obtain ⟨rfl, hwas⟩ := hzero'
      obtain ⟨hallowed, hqueue, -, -⟩ := dispatchOne_frame { q with allowed := 0 }
      have hnil : (dispatchOne { q with allowed := 0 }).queue = [] := by
        rw [hqueue]
        exact length_eq_zero_iff.mp (by rw [length_tail]; dsimp only; omega)
      refine ⟨⟨hlined.dispatchOne, fun hne => absurd hnil hne, fun _ => hnil⟩, ?_⟩
      rw [hallowed]
      exact hlt
    · obtain ⟨hsound, hallowed⟩ := hlined.dispatch hlt fun h0 => hzero (by
        by_contra hwas
        exact hzero' ⟨h0, hwas⟩)
      exact ⟨hsound, hallowed ▸ hlt⟩
  | atFront k =>
    obtain rfl : k = 0 := hgood
    obtain ⟨slip, hslip, rfl⟩ := map_eq_some_iff.mp hstep
    cases hd : q.dispatched with
    | nil =>
      rw [hd] at hslip
      cases hslip
    | cons first dispatched =>
      rw [hd] at hslip hin hactive
      obtain rfl := some.inj hslip
      refine ⟨⟨⟨by simpa [hd] using hin, ?_⟩, hwaits, hzero⟩, hbound⟩
      simp only [length_append, length_cons, length_nil] at hactive ⊢
      simp only [eraseIdx_zero, tail_cons]
      omega

theorem dispatch_below (hmore : q.dispatched.length < q.dispatch.dispatched.length) :
    q.dispatch.active ≤ q.dispatch.allowed := by
  unfold dispatch at hmore ⊢
  dsimp only at hmore ⊢
  split_ifs at hmore ⊢ with hroom
  · cases hq : q.queue with
    | nil =>
      rw [dispatchOne, hq] at hmore
      exact absurd hmore (lt_irrefl _)
    | cons slip queue =>
      rw [dispatchOne, hq]
      exact hroom.2
  · exact absurd hmore (lt_irrefl _)

/-- A slip goes to the front only below the bound, if there is one. -/
theorem dispatched_below {call : QueueCall} (hstep : q.step call = some q')
    (hmore : q.dispatched.length < q'.dispatched.length) (hbound : 0 < q'.allowed) :
    q'.active ≤ q'.allowed := by
  cases call with
  | add =>
    obtain rfl := some.inj hstep
    unfold add at hmore hbound ⊢
    dsimp only at hmore hbound ⊢
    split_ifs at hmore hbound ⊢ with h0
    · exact absurd h0 hbound.ne'
    · exact dispatch_below hmore
  | complete =>
    rw [step] at hstep
    split_ifs at hstep
    obtain rfl := some.inj hstep
    exact dispatch_below hmore
  | setAllowed allowed =>
    obtain rfl := some.inj hstep
    unfold setAllowed at hmore hbound ⊢
    dsimp only at hmore hbound ⊢
    split_ifs at hmore hbound ⊢ with h0
    · rw [(dispatchOne_frame _).1] at hbound
      exact absurd h0.1 hbound.ne'
    · exact dispatch_below hmore
  | atFront k =>
    obtain ⟨slip, -, rfl⟩ := map_eq_some_iff.mp hstep
    exact absurd hmore (not_lt.mpr (length_eraseIdx_le _ _))

/-- **Nobody is stranded**, as long as the bound is not lifted while two slips wait. -/
theorem strands_nobody {allowed : Nat} {calls : List QueueCall} (hbound : allowed + 1 < 2 ^ 64)
    (hgood : AllSteps step Good (init allowed) calls)
    (hrun : run step (init allowed) calls = some q) :
    q.Sound ∧ ∀ call q', q.step call = some q' → q.dispatched.length < q'.dispatched.length →
      0 < q'.allowed → q'.active ≤ q'.allowed := by
  have hstep : ∀ (q : SlipQueue) call q', q.Sound ∧ q.allowed + 1 < 2 ^ 64 → q.Good call →
      q.step call = some q' → q'.Sound ∧ q'.allowed + 1 < 2 ^ 64 :=
    fun q call q' h hg hs => step_sound h hg hs
  have hinit : (init allowed).Sound := ⟨⟨rfl, rfl⟩, fun h => absurd rfl h, fun _ => rfl⟩
  have hinv := run_inv_of hstep ⟨hinit, hbound⟩ hgood hrun
  exact ⟨hinv.1, fun _ _ hstep => dispatched_below hstep⟩

def sampleCalls : List QueueCall :=
  [.add, .atFront 0, .add, .add, .setAllowed 2, .atFront 0, .setAllowed 0, .atFront 0, .complete]

theorem strands_nobody_sample : ∃ q, run step (init 1) sampleCalls = some q ∧ q.Sound := by
  have hgood : AllSteps step Good (init 1) sampleCalls := by
    simp [sampleCalls, AllSteps, Good, step, init, add, setAllowed, dispatch, dispatchOne]
  exact ⟨_, rfl, (strands_nobody (by decide) hgood rfl).1⟩

/-- Three slips, one at the front, and the bound is lifted: one of those that wait is left. -/
theorem lifted_strands : ¬ ∀ allowed calls q, run step (init allowed) calls = some q → q.Sound := by
  intro h
  have hsound := h 1 [.add, .atFront 0, .add, .add, .setAllowed 0, .atFront 0] _ rfl
  exact absurd (hsound.unbounded rfl) (cons_ne_nil 2 [])

end SlipQueue

end Atcd.Notify
