import Atcd.Core.TailInsert
import Atcd.Message.QueueRuns
/-!
# Enqueueing by deadline

`enqueue_deadline_i` of a queue of timed message blocks. The scan stops at the
first block of a later deadline, and the new block is linked behind that block,
not in front of it.

Results:
* `findDeadline_spec`: what the scan finds;
* `enqueueDeadlineI_lists`: where the new block goes;
* `deadline_order_iff`: the list stays in the order of the deadlines exactly when
  no block has a later deadline than the new one.
-/
namespace Atcd.Message

open Atcd.Core Atcd.Time List

namespace MessageQueue

/-- From the head, the first block of a later deadline. -/
def findDeadline (q : MessageQueue) (deadline : TimeValue) : Nat → Option Addr → Option (Option Addr)
  | _, none => some none
  | 0, some _ => none
  | fuel + 1, some temp =>
    if deadline.lt (q.block temp).deadlineTime then some (some temp)
    else findDeadline q deadline fuel (q.next temp)

/-- A `size_t` returned as an `int`. -/
def toInt (n : UInt64) : Int := n.toUInt32.toInt32.toInt

/-- With `ACE_HAS_TIMED_MESSAGE_BLOCKS`.
mirrors ACE/ace/Message_Queue_T.cpp:1404-1469 -/
def enqueueDeadlineI (q : MessageQueue) (newItem : Option Addr) : Option (Int × MessageQueue) :=
  match newItem with
  | none => some (-1, q)
  | some new =>
    let q := q.setNext new none
    if q.head = none then q.enqueueHeadI (some new)
    else
      match q.findDeadline (q.block new).deadlineTime addresses q.head with
      | none => none
      | some none => q.enqueueTailI (some new)
      | some (some temp) =>
        match q.next temp with
        | none => q.enqueueTailI (some new)
        | some nxt =>
          let q := ((q.linkBetween temp new nxt).addBytes new).incCount
          some (toInt q.curCount, q)

variable {q q' : MessageQueue} {l l₁ l₂ : List Addr} {new : Addr}

def deadline (q : MessageQueue) (a : Addr) : TimeValue := (q.block a).deadlineTime

/-- The scan passes the blocks `a` and stops in front of `b`. -/
theorem findDeadline_spec {fuel : Nat} (h : q.links.Lists (l₁ ++ l₂)) (hfuel : l₂.length ≤ fuel)
    (time : TimeValue) : ∃ a b, l₂ = a ++ b ∧ q.findDeadline time fuel l₂.head? = some b.head? ∧
      (∀ x ∈ a, q.deadline x ≤ time) ∧ ∀ x, b.head? = some x → time < q.deadline x := by
  induction l₂ generalizing l₁ fuel with
  | nil => exact ⟨[], [], rfl, by cases fuel <;> rfl, by simp, by simp⟩
  | cons t l ih =>
    obtain ⟨fuel, rfl⟩ := Nat.exists_eq_succ_of_ne_zero (Nat.ne_of_gt (Nat.lt_of_lt_of_le
      (Nat.succ_pos _) hfuel))
    have hnext : q.next t = l.head? := h.at.1
    rw [head?_cons]
    unfold findDeadline
    by_cases hlt : time.lt (q.block t).deadlineTime = true
    · rw [if_pos hlt]
      refine ⟨[], t :: l, rfl, rfl, by simp, ?_⟩
      rintro x ⟨⟩
      exact (TimeValue.lt_iff _ _).mp hlt
    · rw [if_neg hlt, hnext]
      have h' : q.links.Lists ((l₁ ++ [t]) ++ l) := by rwa [append_assoc]
      have hf : l.length ≤ fuel := Nat.le_of_succ_le_succ hfuel
      obtain ⟨a, b, hab, hscan, ha, hb⟩ := ih h' hf
      refine ⟨t :: a, b, by rw [hab, cons_append], hscan, fun x hx => ?_, hb⟩
      rcases mem_cons.mp hx with rfl | hx
      · exact not_lt.mp fun hc => hlt ((TimeValue.lt_iff _ _).mpr hc)
      · exact ha x hx

/-! ## A single block at an end of the list -/

theorem chainLoop_single (h : q.next new = none) : chainLoop addresses q new = some (new, q) := by
  obtain ⟨n, hn⟩ : ∃ n, addresses = n + 1 := ⟨2 ^ 64 - 2, rfl⟩
  rw [hn, chainLoop, h]

theorem single_chain (q : MessageQueue) (new : Addr) : [new].IsChain fun x y =>
    q.links.next (some x) = some y ∧ q.links.prev (some y) = some x := .singleton new

theorem enqueueTailI_single (h : q.links.Lists l) (hnew : new ∉ l) (hnext : q.next new = none) :
    ∃ r q', q.enqueueTailI (some new) = some (r, q') ∧ q'.links.Lists (l ++ [new]) ∧
      q'.block = q.block := by
  have hloop : chainLoop addresses (q.incCount.addBytes new) new = some (new, q.incCount.addBytes new) :=
    chainLoop_single hnext
  unfold enqueueTailI
  simp only [hloop]
  refine ⟨_, _, rfl, ?_, ?_⟩
  · exact linkTail_lists (q := q.incCount.addBytes new) h (single_chain _ new)
      (nodup_singleton new) (by simpa using hnew) rfl rfl hnext
  · unfold linkTail
    split <;> rfl

theorem enqueueHeadI_single (h : q.links.Lists l) (hnew : new ∉ l) (hnext : q.next new = none) :
    ∃ r q', q.enqueueHeadI (some new) = some (r, q') ∧ q'.links.Lists (new :: l) ∧
      q'.block = q.block := by
  have hloop : chainLoop addresses (q.incCount.addBytes new) new = some (new, q.incCount.addBytes new) :=
    chainLoop_single hnext
  unfold enqueueHeadI
  simp only [hloop]
  refine ⟨_, _, rfl, ?_, by rw [linkHead_block]; rfl⟩
  exact linkHead_lists (q := q.incCount.addBytes new) h (single_chain _ new)
    (nodup_singleton new) (by simpa using hnew) rfl rfl

/-! ## Where the block goes -/

theorem setNext_lists (h : q.links.Lists l) (hnew : new ∉ l) (v : Option Addr) :
    (q.setNext new v).links.Lists l := h.frame rfl rfl (update_of_mem hnew) fun _ _ => rfl

/-- **Enqueue by deadline.** The blocks `a` have no later deadline and the first of
`b` has one; the new block goes behind it. -/
theorem enqueueDeadlineI_lists (h : q.links.Lists l) (hnew : new ∉ l) :
    ∃ r q', q.enqueueDeadlineI (some new) = some (r, q') ∧ q'.block = q.block ∧
      ∃ a b, l = a ++ b ∧ (∀ x ∈ a, q.deadline x ≤ q.deadline new) ∧
        (∀ x, b.head? = some x → q.deadline new < q.deadline x) ∧
        q'.links.Lists (a ++ b.head?.toList ++ new :: b.tail) := by
  have h₀ := setNext_lists h hnew none
  have hnone : (q.setNext new none).next new = none := Function.update_self ..
  have hhead : (q.setNext new none).head = l.head? := h₀.head
  have hlists : (q.setNext new none).links.Lists ([] ++ l) := h₀
  obtain ⟨a, b, hab, hscan, ha, hb⟩ := findDeadline_spec hlists
    (length_le_addresses h.nodup) (q.deadline new)
  have hscan' : (q.setNext new none).findDeadline ((q.setNext new none).block new).deadlineTime
      addresses l.head? = some b.head? := hscan
  unfold enqueueDeadlineI
  simp only
  rw [hhead, hscan']
  by_cases hnil : l.head? = none
  · obtain rfl := head?_eq_none_iff.mp hnil
    obtain ⟨rfl, rfl⟩ := append_eq_nil_iff.mp hab.symm
    obtain ⟨r, q', hq', hl', hblock⟩ := enqueueHeadI_single h₀ hnew hnone
    exact ⟨r, q', hq', hblock, [], [], rfl, ha, hb, hl'⟩
  · rw [if_neg hnil]
    obtain ⟨r, q', hq', hl', hblock⟩ := enqueueTailI_single h₀ hnew hnone
    cases b with
    | nil =>
      refine ⟨r, q', hq', hblock, a, [], hab, ha, hb, ?_⟩
      rw [hab, append_nil] at hl'
      simpa using hl'
    | cons temp b =>
      have hat : (q.setNext new none).links.Lists (a ++ temp :: b) := hab ▸ h₀
      have hnext : (q.setNext new none).next temp = b.head? := hat.at.1
      simp only [head?_cons, hnext]
      cases b with
      | nil =>
        refine ⟨r, q', hq', hblock, a, [temp], hab, ha, hb, ?_⟩
        rw [hab] at hl'
        simpa using hl'
      | cons nxt b =>
        refine ⟨_, _, rfl, rfl, a, temp :: nxt :: b, hab, ha, hb, ?_⟩
        have hsplit : (q.setNext new none).links.Lists ((a ++ [temp]) ++ nxt :: b) := by
          rwa [append_assoc]
        exact linkBetween_lists hsplit (by rw [append_assoc]; exact hab ▸ hnew)
          (by rw [getLast?_concat]) rfl

/-! ## The order of the deadlines -/

/-- `l` with the new block in it: by deadlines, behind those of the same deadline, and
the others in their order. -/
structure DeadlineOrder (q : MessageQueue) (l : List Addr) (new : Addr) (l' : List Addr) : Prop where
  sorted : SortedBy q.deadline l'
  fifo : ∃ a b, l = a ++ b ∧ l' = a ++ new :: b ∧ ∀ x ∈ b, q.deadline x ≠ q.deadline new

theorem deadline_congr (h : q'.block = q.block) : q'.deadline = q.deadline := by
  funext x
  rw [deadline, h]
  rfl

theorem later_in_front {r : Int} {x : Addr} {l' : List Addr} (h : q.links.Lists l) (hnew : new ∉ l)
    (hx : x ∈ l) (hlater : q.deadline new < q.deadline x)
    (hq' : q.enqueueDeadlineI (some new) = some (r, q')) (hl' : q'.links.Lists l') :
    ¬SortedBy q'.deadline l' := by
  obtain ⟨r₁, q₁, hq₁, hblock, a, b, rfl, ha, hb, hl₁⟩ := enqueueDeadlineI_lists h hnew
  obtain ⟨rfl, rfl⟩ := Prod.mk.inj (Option.some.inj (hq₁.symm.trans hq'))
  rw [deadline_congr hblock]
  cases b with
  | nil => exact absurd hlater (not_lt.mpr (ha x (by simpa using hx)))
  | cons temp b =>
    obtain rfl : l' = a ++ [temp] ++ new :: b := hl'.walks.unique hl₁.walks
    intro hsorted
    have hpair := (pairwise_append.mp hsorted).2.2 temp (by simp) new (by simp)
    exact absurd (hb temp rfl) (not_lt.mpr hpair)

/-- **Deadline order.** On a queue sorted by deadlines, the list that
`enqueue_deadline_i` leaves is the one in the order of the deadlines exactly when no
block has a later deadline than the new one. -/
theorem deadline_order_iff (h : q.links.Lists l) (hnew : new ∉ l) (hs : SortedBy q.deadline l) :
    ∃ r q', q.enqueueDeadlineI (some new) = some (r, q') ∧ q'.block = q.block ∧
      ((∃ l', q'.links.Lists l' ∧ DeadlineOrder q' l new l') ↔
        ∀ x ∈ l, q.deadline x ≤ q.deadline new) := by
  obtain ⟨r, q', hq', hblock, a, b, rfl, ha, hb, hl'⟩ := enqueueDeadlineI_lists h hnew
  refine ⟨r, q', hq', hblock, fun ⟨l', hlists, hord⟩ x hx => ?_, fun hle => ?_⟩
  · by_contra hlater
    exact later_in_front h hnew hx (not_le.mp hlater) hq' hlists hord.sorted
  · cases b with
    | nil =>
      simp only [append_nil, head?_nil, Option.toList_none, tail_nil] at hs hl' ⊢
      refine ⟨a ++ [new], hl', ?_, a, [], by simp, rfl, by simp⟩
      rw [deadline_congr hblock]
      exact pairwise_append.mpr ⟨hs, pairwise_singleton _ _, by simpa using ha⟩
    | cons temp b => exact absurd (hb temp rfl) (not_lt.mpr (hle temp (by simp)))

theorem addresses_pos : 0 < addresses := by decide

theorem addresses_gt_one : 1 < addresses := by decide

/-- A block of deadline 2 s in front of one of 3 s; the other blocks have 3 s too. -/
def twoQueued : MessageQueue where
  next := fun a => if a.val = 0 then some ⟨1, addresses_gt_one⟩ else none
  prev := fun a => if a.val = 1 then some ⟨0, addresses_pos⟩ else none
  block := fun a => ⟨1, 1, [], 0, .zero, ⟨if a.val = 0 then 2 else 3, 0⟩⟩
  head := some ⟨0, addresses_pos⟩
  tail := some ⟨1, addresses_gt_one⟩
  curBytes := 2
  curLength := 2
  curCount := 2

theorem twoQueued_lists : twoQueued.links.Lists [⟨0, by decide⟩, ⟨1, by decide⟩] :=
  ⟨isChain_cons_cons.mpr ⟨⟨rfl, rfl⟩, isChain_cons_cons.mpr ⟨⟨rfl, rfl⟩,
    isChain_cons_cons.mpr ⟨⟨rfl, rfl⟩, .singleton _⟩⟩⟩, by simp⟩

/-- A third block with the deadline of the last one. -/
theorem deadline_order_iff_two : ∃ r q' l',
    twoQueued.enqueueDeadlineI (some ⟨2, by decide⟩) = some (r, q') ∧ q'.links.Lists l' ∧
      DeadlineOrder q' [⟨0, by decide⟩, ⟨1, by decide⟩] ⟨2, by decide⟩ l' := by
  have hle : ∀ x, twoQueued.deadline x ≤ ⟨3, 0⟩ := by
    intro x
    change (⟨if x.val = 0 then 2 else 3, 0⟩ : TimeValue) ≤ ⟨3, 0⟩
    split <;> exact (TimeValue.le_def _ _).mpr (by decide)
  have hnew : (⟨2, by decide⟩ : Addr) ∉ [(⟨0, by decide⟩ : Addr), ⟨1, by decide⟩] := by decide
  obtain ⟨r, q', hq', -, hiff⟩ := deadline_order_iff twoQueued_lists hnew (pairwise_pair.mpr (hle _))
  obtain ⟨l', hl', hord⟩ := hiff.mpr fun x _ => hle x
  exact ⟨r, q', l', hq', hl', hord⟩

/-- A queue of one block with deadline 2 s; the other blocks have deadline `sec`. -/
def oneQueued (sec : Int) : MessageQueue where
  next := fun _ => none
  prev := fun _ => none
  block := fun a => ⟨1, 1, [], 0, .zero, ⟨if a.val = 0 then 2 else sec, 0⟩⟩
  head := some ⟨0, addresses_pos⟩
  tail := some ⟨0, addresses_pos⟩
  curBytes := 1
  curLength := 1
  curCount := 1

theorem oneQueued_lists (sec : Int) : (oneQueued sec).links.Lists [⟨0, by decide⟩] :=
  ⟨isChain_cons_cons.mpr ⟨⟨rfl, rfl⟩, isChain_cons_cons.mpr ⟨⟨rfl, rfl⟩, .singleton _⟩⟩,
    by simp⟩

/-- A block of deadline 1 s goes behind the one of 2 s. -/
theorem earlier_block_behind :
    ¬ ∀ (q : MessageQueue) (l : List Addr) (new : Addr), q.links.Lists l → new ∉ l →
      SortedBy q.deadline l → ∃ r q', q.enqueueDeadlineI (some new) = some (r, q') ∧
        ∃ l', q'.links.Lists l' ∧ DeadlineOrder q' l new l' := by
  intro hall
  obtain ⟨r, q', hq', l', hl', hord⟩ := hall (oneQueued 1) [⟨0, by decide⟩] ⟨1, by decide⟩
    (oneQueued_lists 1) (by decide) (pairwise_singleton _ _)
  have hlater : (oneQueued 1).deadline ⟨1, by decide⟩ < (oneQueued 1).deadline ⟨0, by decide⟩ := by
    rw [TimeValue.lt_def]
    exact .inl (by decide)
  exact later_in_front (oneQueued_lists 1) (by decide) (by simp) hlater hq' hl' hord.sorted

end MessageQueue

end Atcd.Message
