import Atcd.Timer.HeapRuns
import Atcd.Timer.List
/-!
# Expiring list and heap queues

The two queues as instances of `expire_fires`. A list queue is well-formed when
it is sorted, a heap queue when the heap is ordered and the index map complete
(`heap_wf`).
-/
namespace Atcd.Timer

open Atcd.Core Atcd.Time List

variable {τ : Type}

namespace TimerHeap

/-- The virtual functions of the heap queue. -/
def vtable (τ : Type) : TimerQueue (TimerHeap τ) τ where
  isEmpty := isEmpty
  earliestTime := earliestTime
  removeFirst := removeFirst
  reschedule := reschedule
  freeNode := freeNode

structure Wf (q : TimerHeap τ) : Prop where
  ok : HeapOk q
  ids_lt : ∀ y ∈ q.nodes, y.timerId < q.maxSize

theorem heap_wf [DecidableEq τ] {size : Nat} {prealloc : Bool} {garbage : Nat → TimerNode τ}
    {ops : List (HeapOp τ)} {s : HeapSys τ} (hsize : 2 ≤ size)
    (h : run HeapSys.step (.init size prealloc garbage) ops = some s) : s.q.Wf := by
  have hinv := HeapSys.run_inv_init hsize h
  exact ⟨hinv.ok, fun y hy => (hinv.id_mem (HeapSys.mem_timers_of_nodes hy)).1⟩

variable {q q' : TimerHeap τ} {x : TimerNode τ}

theorem Removed.fresh (h : Removed q x q') (hq : HeapOk q) {y : TimerNode τ} (hy : y ∈ q'.nodes) :
    y.timerId ≠ x.timerId := fun e => by
  have hnodup := (h.nodes.map (·.timerId)).nodup_iff.mpr hq.ids_nodup
  rw [map_cons, nodup_cons] at hnodup
  exact hnodup.1 (e ▸ mem_map_of_mem hy)

theorem Removed.freeNode_wf (h : Removed q x q') (hq : Wf q) :
    Wf (q'.freeNode x) ∧ (q'.freeNode x).nodes = q'.nodes := by
  rw [freeNode_eq h.limbo]
  refine ⟨⟨⟨h.ok.order, fun i hi => ?_⟩, fun y hy => ?_⟩, rfl⟩
  · have hne := h.fresh hq.ok (heap_mem_nodes hi)
    simpa [hne] using h.ok.index i hi
  · have hmax : q'.maxSize = q.maxSize := by rw [h.frame]
    rw [hmax]
    exact hq.ids_lt y (h.nodes.mem_iff.mp (mem_cons_of_mem _ hy))

theorem Removed.reschedule_wf (h : Removed q x q') (hq : Wf q) (v : TimeValue) :
    Wf (q'.reschedule (x.setTimerValue v)) ∧
      (q'.reschedule (x.setTimerValue v)).nodes.Perm (x.setTimerValue v :: q'.nodes) := by
  have hmax : q'.maxSize = q.maxSize := by rw [h.frame]
  have hlt : ∀ y ∈ x :: q'.nodes, y.timerId < q'.maxSize := fun y hy => by
    rw [hmax]
    exact hq.ids_lt y (h.nodes.mem_iff.mp hy)
  have hok : HeapOk { q' with curLimbo := q'.curLimbo - 1 } := ⟨h.ok.order, h.ok.index⟩
  have hmark : q'.timerIds (x.setTimerValue v).timerId = -2 := h.limbo
  unfold reschedule
  rw [if_pos hmark]
  have hins := insert_spec hok (fun y hy => hlt y (mem_cons_of_mem _ hy))
    (x := x.setTimerValue v) (fun y hy => h.fresh hq.ok hy)
  have hperm := hins.nodes
  rw [nodes_ensureRoom] at hperm
  refine ⟨⟨hins.ok, fun y hy => ?_⟩, hperm⟩
  have hy' : y.timerId < q'.maxSize := by
    rcases mem_cons.mp (hperm.mem_iff.mp hy) with rfl | hy
    · exact hlt x mem_cons_self
    · exact hlt y (mem_cons_of_mem _ hy)
  have hgrow : q'.maxSize ≤ (ensureRoom { q' with curLimbo := q'.curLimbo - 1 }).maxSize := by
    rw [maxSize_ensureRoom]
    simp only
    split <;> omega
  rw [hins.frame]
  exact Nat.lt_of_lt_of_le hy' hgrow

theorem timerHeap_lawful : (vtable τ).Lawful Wf (·.nodes) where
  isEmpty q _ := by
    rw [← length_eq_zero_iff, length_nodes]
    exact decide_eq_true_iff
  removeFirst q hq hne := by
    have h0 : 0 < q.curSize := by
      rw [← length_nodes]
      exact length_pos_of_ne_nil hne
    have hr := remove_spec hq.ok h0
    have hfree := hr.freeNode_wf hq
    refine ⟨q.heap 0, (q.remove 0).2, (q.remove 0).2.nodes, ?_, rfl, hr.nodes, fun y hy => ?_,
      ⟨hfree.1, Perm.of_eq hfree.2⟩, hr.reschedule_wf hq⟩
    · change q.removeFirst = _
      unfold removeFirst
      rw [if_neg (by omega)]
      rfl
    · have hy' := hr.nodes.mem_iff.mp (mem_cons_of_mem _ hy)
      obtain ⟨i, hi, rfl⟩ := mem_nodes.mp hy'
      exact hq.ok.order.root_le i hi

end TimerHeap

/-- **One pass of `expire`** over a list queue or a heap queue. -/
theorem expire_fires_due {cur : TimeValue} (hcur : cur.Normal) :
    (∀ q : TimerList τ, q.Sorted → (∀ x ∈ q.list, InRange cur x) → ∀ fuel, q.list.length < fuel →
      ∃ fired q', (TimerList.vtable τ).expire cur fuel q = some (fired, q') ∧ q'.Sorted ∧
        FiresDue cur q.list (fired.map (·.timer)) q'.list ∧
        ∀ f ∈ fired, f.info = f.timer.getDispatchInfo) ∧
    (∀ q : TimerHeap τ, q.Wf → (∀ x ∈ q.nodes, InRange cur x) → ∀ fuel, q.curSize < fuel →
      ∃ fired q', (TimerHeap.vtable τ).expire cur fuel q = some (fired, q') ∧ q'.Wf ∧
        FiresDue cur q.nodes (fired.map (·.timer)) q'.nodes ∧
        ∀ f ∈ fired, f.info = f.timer.getDispatchInfo) := by
  refine ⟨fun q hq hrange fuel hfuel => ?_, fun q hq hrange fuel hfuel => ?_⟩
  · exact TimerList.timerList_lawful.expire_fires hq hcur hrange hfuel
  · refine TimerHeap.timerHeap_lawful.expire_fires hq hcur hrange ?_
    rwa [TimerHeap.length_nodes]

/-- A one-shot timer, an interval timer many periods late and one that is not due. -/
def lateTimers : List (TimerNode Nat) :=
  [⟨7, 0, ⟨3, 0⟩, .zero, 0⟩, ⟨8, 0, ⟨4, 500000⟩, ⟨2, 0⟩, 1⟩, ⟨9, 0, ⟨20, 0⟩, ⟨1, 0⟩, 2⟩]

def lateOps : List (HeapOp Nat) :=
  [.schedule 9 0 ⟨20, 0⟩ ⟨1, 0⟩, .schedule 8 0 ⟨4, 500000⟩ ⟨2, 0⟩, .schedule 7 0 ⟨3, 0⟩ .zero]

theorem inRange_late : ∀ sec usec isec : Int, 0 ≤ sec → sec ≤ 20 → 0 ≤ usec → usec < 1000000 →
    0 ≤ isec → isec ≤ 2 → ∀ type act id : Nat,
    InRange ⟨10, 0⟩ (⟨type, act, ⟨sec, usec⟩, ⟨isec, 0⟩, id⟩ : TimerNode Nat) := by
  intro sec usec isec h1 h2 h3 h4 h5 h6 _ _ _
  refine ⟨⟨?_, ?_, ?_, ?_⟩, ⟨?_, ?_, ?_, ?_⟩, ?_, ?_⟩ <;>
    simp only [TimeValue.total, TimeValue.oneSecondInUsecs] <;> omega

/-- One pass at 10 s over both queues. -/
theorem expire_fires_due_late :
    (∃ fired q', (TimerList.vtable Nat).expire ⟨10, 0⟩ 4 ⟨lateTimers, 3⟩ = some (fired, q') ∧
      FiresDue ⟨10, 0⟩ lateTimers (fired.map (·.timer)) q'.list) ∧
    (∃ s, run HeapSys.step (.init 2 true fun _ => HeapSys.noTimer) lateOps = some s ∧
      ∃ fired q', (TimerHeap.vtable Nat).expire ⟨10, 0⟩ 4 s.q = some (fired, q') ∧
      FiresDue ⟨10, 0⟩ s.q.nodes (fired.map (·.timer)) q'.nodes) := by
  have hcur : (⟨10, 0⟩ : TimeValue).Normal := by
    refine ⟨?_, ?_, ?_, ?_⟩ <;> simp only [TimeValue.oneSecondInUsecs] <;> omega
  constructor
  · have hsorted : TimerList.Sorted ⟨lateTimers, 3⟩ := by
      unfold TimerList.Sorted SortedBy lateTimers
      decide
    have hrange : ∀ x ∈ lateTimers, InRange ⟨10, 0⟩ x := by
      intro x hx
      simp only [lateTimers, mem_cons, not_mem_nil, or_false] at hx
      rcases hx with rfl | rfl | rfl <;> exact inRange_late _ _ _ (by decide) (by decide) (by decide)
        (by decide) (by decide) (by decide) _ _ _
    obtain ⟨fired, q', hexp, _, hfires, _⟩ :=
      (expire_fires_due hcur).1 ⟨lateTimers, 3⟩ hsorted hrange 4 (by decide)
    exact ⟨fired, q', hexp, hfires⟩
  · have hrun : ∃ s, run HeapSys.step (.init 2 true fun _ => HeapSys.noTimer) lateOps = some s ∧
        s.q.curSize = 3 ∧ s.q.nodes = [⟨7, 0, ⟨3, 0⟩, .zero, 3⟩, ⟨9, 0, ⟨20, 0⟩, ⟨1, 0⟩, 1⟩,
          ⟨8, 0, ⟨4, 500000⟩, ⟨2, 0⟩, 2⟩] := ⟨_, rfl, rfl, rfl⟩
    obtain ⟨s, hs, hsize, hnodes⟩ := hrun
    have hrange : ∀ x ∈ s.q.nodes, InRange ⟨10, 0⟩ x := by
      intro x hx
      simp only [hnodes, mem_cons, not_mem_nil, or_false] at hx
      rcases hx with rfl | rfl | rfl <;> exact inRange_late _ _ _ (by decide) (by decide) (by decide)
        (by decide) (by decide) (by decide) _ _ _
    obtain ⟨fired, q', hexp, _, hfires, _⟩ :=
      (expire_fires_due hcur).2 s.q (TimerHeap.heap_wf (le_refl 2) hs) hrange 4 (by omega)
    exact ⟨s, hs, fired, q', hexp, hfires⟩

end Atcd.Timer
