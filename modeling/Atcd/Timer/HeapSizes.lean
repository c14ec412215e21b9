import Atcd.Timer.HeapRuns
/-!
# The heap timer queue at every size

A heap of one timer grows to two, and the entry that growth adds is the limbo
mark. What the other results rest on holds nevertheless, with that entry as a
limbo node that nobody holds (`run_inv_size`).

Results:
* `ids_free_iff`: growth adds free ids only, if the size is not one.
* `lookup_exact_iff`: `cancel` and `reset_interval` reach the timer of an id and no
  other one, if the id is not `max_size_`.
-/
namespace Atcd.Timer.HeapSys

open Atcd.Core Atcd.Time List TimerHeap

variable {τ : Type} {s s' : HeapSys τ} {g size : Nat} {prealloc : Bool} {garbage : Nat → TimerNode τ}

/-- The first timer of a heap of size one. -/
theorem schedule_one (type : τ) (act : Nat) (futureTime interval : TimeValue) :
    Inv 1 ⟨((init 1 prealloc garbage).q.scheduleI type act futureTime interval).2,
      [{ garbage 0 with timerId := 1 }]⟩ := by
  obtain ⟨q, hq, hids, hnodes, hheap, hpre⟩ :
      ∃ q, ((init 1 prealloc garbage).q.scheduleI type act futureTime interval).2 = q ∧
        (∀ i, q.timerIds i = if i = 0 then 0 else if i = 1 then -2 else -1) ∧
        (q.maxSize = 2 ∧ q.curSize = 1 ∧ q.curLimbo = 0 ∧ q.timerIdsCurr = 0 ∧
          q.timerIdsMinFree = 2) ∧
        (q.heap 0).timerId = 0 ∧ ∀ f, q.preallocated = some f → f = 1 := by
    refine ⟨_, rfl, fun i => ?_, ?_, ?_, ?_⟩
    · rcases i with _ | _ | i
      · cases prealloc <;> rfl
      · cases prealloc <;> rfl
      · have hgrown : ((init 1 prealloc garbage).q.scheduleI type act futureTime interval).2.timerIds
            (i + 2) = Function.update (fun k : Nat => if 1 ≤ k ∧ k < 2 then -((k : Int) + 1) else -1)
              0 0 (i + 2) := by cases prealloc <;> rfl
        simp [hgrown]
    · cases prealloc <;> exact ⟨rfl, rfl, rfl, rfl, rfl⟩
    · cases prealloc <;> rfl
    · cases prealloc
      · exact fun f hf => by cases hf
      · exact fun f hf => by cases hf; rfl
  obtain ⟨hmax, hsize, hlimbo, hcurr, hmin⟩ := hnodes
  rw [hq]
  have hused : ∀ i, q.Used i ↔ i < 2 := fun i => by
    unfold TimerHeap.Used
    rw [hids]
    split
    · omega
    · split <;> omega
  have hnode : ∀ i < q.curSize, i = 0 := fun i hi => by omega
  have hall : ids ⟨q, [{ garbage 0 with timerId := 1 }]⟩ = [0, 1] := by
    simp [ids, timers, nodes, hsize, hheap]
  refine ⟨⟨le_rfl, hmax.ge⟩, ⟨fun i h0 hi => absurd (hnode i hi) h0.ne', fun i hi => ?_⟩, ?_,
    fun x hx => ?_, ?_, ⟨?_, fun i => ?_⟩, ⟨?_, ?_, fun hlt => ?_, fun i j hi hic _ _ _ _ => ?_⟩, ?_⟩
  · rw [hnode i hi, hheap, hids]
    rfl
  · simp only [hsize, hlimbo, hmax]
    omega
  · rw [mem_singleton.mp hx, hids]
    rfl
  · simp [hlimbo]
  · simp [hall]
  · rw [hall, hused, hmax]
    simp
    omega
  · simp only [hcurr, hmax]
    omega
  · simp only [hmin, hmax]
    omega
  · simp only [hmin, hmax] at hlt
    omega
  · rw [hused] at hi
    change i ≤ q.timerIdsCurr at hic
    omega
  · intro f hf
    rw [hpre f hf, hsize, hlimbo, hmax]

theorem step_init [DecidableEq τ] (hsize : size ≤ 1) {op : HeapOp τ}
    (hs : (init size prealloc garbage).step op = some s) : s = init size prealloc garbage ∨
      ∃ ghost : List (TimerNode τ), Inv ghost.length ⟨s.q, s.limbo ++ ghost⟩ := by
  cases op with
  | schedule type act futureTime interval =>
    cases hs
    rcases Nat.le_one_iff_eq_zero_or_eq_one.mp hsize with rfl | rfl
    · exact .inl rfl
    · exact .inr ⟨[_], schedule_one type act futureTime interval⟩
  | cancelId timerId =>
    obtain ⟨r, hr, rfl⟩ := Option.map_eq_some_iff.mp hs
    unfold cancelId at hr
    split at hr
    · cases hr; exact .inl rfl
    · split at hr <;> cases hr
      exact .inl rfl
  | resetInterval timerId interval =>
    obtain ⟨r, hr, rfl⟩ := Option.map_eq_some_iff.mp hs
    unfold resetInterval at hr
    split at hr
    · cases hr; exact .inl rfl
    · split at hr <;> cases hr
      exact .inl rfl
  | cancelType type => cases hs; exact .inl rfl
  | removeFirst => cases hs; exact .inl rfl
  | reschedule timerId timerValue => cases hs
  | freeNode timerId => cases hs

/-- What holds in every state reached: it is the start, or the invariant holds with
a limbo node more. -/
theorem run_inv_size [DecidableEq τ] {ops : List (HeapOp τ)}
    (h : run step (init size prealloc garbage) ops = some s) : s = init size prealloc garbage ∨
      ∃ ghost : List (TimerNode τ), Inv ghost.length ⟨s.q, s.limbo ++ ghost⟩ := by
  rcases Nat.lt_or_ge 1 size with hsize | hsize
  · exact .inr ⟨[], by simpa using run_inv_init hsize h⟩
  · have hstep : ∀ s op s', (s = init size prealloc garbage ∨
        ∃ ghost : List (TimerNode τ), Inv ghost.length ⟨s.q, s.limbo ++ ghost⟩) →
        step s op = some s' → s' = init size prealloc garbage ∨
        ∃ ghost : List (TimerNode τ), Inv ghost.length ⟨s'.q, s'.limbo ++ ghost⟩ := by
      rintro s op s' (rfl | ⟨ghost, hi⟩) hs
      · exact step_init hsize hs
      · exact .inr ⟨ghost, step_inv hi hs⟩
    exact run_inv hstep (.inl rfl) h

/-! ## Free ids -/

/-- `cancel` reads inside `timer_ids_` and removes the timer with the id, or
changes nothing. -/
def CancelsExactly (q : TimerHeap τ) (timerId : Int) : Prop :=
  ∃ r q', q.cancelId timerId = some (r, q') ∧
    ((∀ x ∈ q.nodes, (x.timerId : Int) ≠ timerId) → r = none ∧ q' = q) ∧
    ∀ x ∈ q.nodes, (x.timerId : Int) = timerId → r = some x ∧ (x :: q'.nodes).Perm q.nodes

/-- `reset_interval` reads inside `timer_ids_` and updates the timer with the id,
or changes nothing. -/
def ResetsExactly (q : TimerHeap τ) (timerId : Int) (interval : TimeValue) : Prop :=
  ∃ b q', q.resetInterval timerId interval = some (b, q') ∧
    ((∀ x ∈ q.nodes, (x.timerId : Int) ≠ timerId) → b = false ∧ q' = q) ∧
    ∀ x ∈ q.nodes, (x.timerId : Int) = timerId → b = true ∧
      q'.nodes = q.nodes.map fun y => if y.timerId = x.timerId then { y with interval := interval } else y

/-- The entries of `timer_ids_` and the slots of the heap agree. -/
structure Indexed (q : TimerHeap τ) : Prop where
  ok : q.HeapOk
  lt : ∀ x ∈ q.nodes, x.timerId < q.maxSize
  slot : ∀ i < q.maxSize, 0 ≤ q.timerIds i → ∃ k < q.curSize, (q.heap k).timerId = i

theorem run_indexed [DecidableEq τ] {ops : List (HeapOp τ)}
    (h : run step (init size prealloc garbage) ops = some s) : Indexed s.q := by
  rcases run_inv_size h with rfl | ⟨ghost, hinv⟩
  · exact ⟨⟨fun i _ hi => absurd hi (Nat.not_lt_zero i), fun i hi => absurd hi (Nat.not_lt_zero i)⟩,
      fun x hx => by simp [TimerHeap.nodes, init, TimerHeap.init] at hx, fun i _ h0 => by cases h0⟩
  · exact ⟨hinv.ok, fun x hx => (hinv.id_mem (mem_timers_of_nodes hx)).1, fun i => hinv.slot⟩

variable {q : TimerHeap τ}

theorem Indexed.lookup (h : Indexed q) {timerId : Int} (hne : timerId ≠ q.maxSize) :
    ((∀ x ∈ q.nodes, (x.timerId : Int) ≠ timerId) ∧
      ((timerId < 0 ∨ timerId > q.maxSize) ∨ ¬(timerId < 0 ∨ timerId > q.maxSize) ∧
        q.timerIds timerId.toNat < 0)) ∨
    ∃ k < q.curSize, timerId = (q.heap k).timerId ∧ ¬(timerId < 0 ∨ timerId > q.maxSize) ∧
      q.timerIds timerId.toNat = k ∧ ∀ x ∈ q.nodes, x.timerId = (q.heap k).timerId → x = q.heap k := by
  by_cases hrange : timerId < 0 ∨ timerId > q.maxSize
  · refine .inl ⟨fun x hx he => ?_, .inl hrange⟩
    have := h.lt x hx
    omega
  have hlt : timerId.toNat < q.maxSize := by omega
  by_cases hslot : q.timerIds timerId.toNat < 0
  · refine .inl ⟨fun x hx he => ?_, .inr ⟨hrange, hslot⟩⟩
    obtain ⟨k, hk, rfl⟩ := mem_nodes.mp hx
    rw [← he, Int.toNat_natCast, h.ok.index k hk] at hslot
    omega
  · obtain ⟨k, hk, hid⟩ := h.slot _ hlt (by omega)
    refine .inr ⟨k, hk, by omega, hrange, by rw [← hid, h.ok.index k hk], fun x hx he => ?_⟩
    obtain ⟨l, hl, rfl⟩ := mem_nodes.mp hx
    have hl' := h.ok.index l hl
    rw [he, h.ok.index k hk] at hl'
    rw [show l = k by omega]

theorem Indexed.cancelsExactly (h : Indexed q) {timerId : Int} (hne : timerId ≠ q.maxSize) :
    CancelsExactly q timerId := by
  unfold CancelsExactly cancelId
  rcases h.lookup hne with ⟨hnone, hcase⟩ | ⟨k, hk, hid, hrange, hslot, honly⟩
  · refine ⟨none, q, ?_, fun _ => ⟨rfl, rfl⟩, fun x hx he => absurd he (hnone x hx)⟩
    rcases hcase with hrange | ⟨hrange, hslot⟩
    · rw [if_pos hrange]
    · rw [if_neg hrange, if_neg hne]
      simp only [if_pos hslot]
  · refine ⟨some (q.heap k), (q.remove k).2.freeNode (q.heap k), ?_, fun hnone => ?_, fun x hx he => ?_⟩
    · rw [if_neg hrange, if_neg hne]
      simp only [hslot, Int.toNat_natCast]
      rw [if_neg (by omega), if_neg (by simp [hid])]
      rfl
    · exact absurd hid.symm (hnone _ (heap_mem_nodes hk))
    · rw [honly x hx (by omega)]
      exact ⟨rfl, nodes_cancelSlot (s := ⟨q, []⟩) h.ok hk⟩

theorem Indexed.resetsExactly (h : Indexed q) {timerId : Int} (hne : timerId ≠ q.maxSize)
    (interval : TimeValue) : ResetsExactly q timerId interval := by
  unfold ResetsExactly resetInterval
  rcases h.lookup hne with ⟨hnone, hcase⟩ | ⟨k, hk, hid, hrange, hslot, honly⟩
  · refine ⟨false, q, ?_, fun _ => ⟨rfl, rfl⟩, fun x hx he => absurd he (hnone x hx)⟩
    rcases hcase with hrange | ⟨hrange, hslot⟩
    · rw [if_pos hrange]
    · rw [if_neg hrange, if_neg hne]
      simp only [if_pos hslot]
  · refine ⟨true, q.setInterval k interval, ?_, fun hnone => ?_, fun x hx he => ⟨rfl, ?_⟩⟩
    · rw [if_neg hrange, if_neg hne]
      simp only [hslot, Int.toNat_natCast]
      rw [if_neg (by omega), if_neg (by simp [hid])]
    · exact absurd hid.symm (hnone _ (heap_mem_nodes hk))
    · unfold nodes
      rw [map_map]
      refine map_congr_left fun i hi => ?_
      have hi : i < q.curSize := mem_range.mp hi
      rw [honly x hx (by omega)]
      by_cases hik : i = k
      · simp [setInterval, hik]
      · have hother : (q.heap i).timerId ≠ (q.heap k).timerId := fun e => hik <| by
          have := h.ok.index i hi
          rw [e, h.ok.index k hk] at this
          omega
        simp [setInterval, hik, hother]

/-- **When a lookup is exact**: in every state reached, at every size, if and only
if the id is not `max_size_`. -/
theorem lookup_exact_iff [DecidableEq τ] {ops : List (HeapOp τ)}
    (h : run step (init size prealloc garbage) ops = some s) (timerId : Int) (interval : TimeValue) :
    CancelsExactly s.q timerId ∧ ResetsExactly s.q timerId interval ↔ timerId ≠ s.q.maxSize := by
  refine ⟨fun ⟨⟨_, _, hc, _⟩, _⟩ he => ?_, fun hne =>
    ⟨(run_indexed h).cancelsExactly hne, (run_indexed h).resetsExactly hne interval⟩⟩
  unfold cancelId at hc
  rw [if_neg (by omega), if_pos he] at hc
  cases hc

theorem lookup_exact_iff_grown : ∃ s, run step (init 1 true fun _ => noTimer) grownOps = some s ∧
    s.q.maxSize = 8 ∧ (CancelsExactly s.q 3 ∧ ResetsExactly s.q 3 ⟨2, 0⟩ ↔ 3 ≠ (s.q.maxSize : Int)) :=
  ⟨_, rfl, rfl, lookup_exact_iff (rfl : run step (init 1 true fun _ => noTimer) grownOps = some _) 3 ⟨2, 0⟩⟩

/-- **A read behind the array**: the id 4 in a new heap of size 4. -/
theorem max_size_read : ¬CancelsExactly (init 4 false fun _ => noTimer).q 4 :=
  fun ⟨_, _, h, _⟩ => nomatch h

end Atcd.Timer.HeapSys
