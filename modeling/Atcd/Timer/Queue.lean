import Atcd.Timer.Node
/-!
# Expiring timers

`ACE_Timer_Queue_T`: what all timer queues share. The virtual functions that
`expire` calls are a table (`TimerQueue`), filled in by each queue. `Lawful`
says what `expire` relies on; upcalls do not touch the queue, and the log of
the timers dispatched stands for them.

Results:
* `recompute_spec`: an interval timer moves by whole periods, to the first time
  behind the current one; `recompute_eq_loop`: the loop it replaced ends there.
* `expire_fires`: one pass over a lawful queue ends, and fires every due timer
  once and in order.
-/
namespace Atcd.Timer

open Atcd.Time List TimeValue TimerNode

variable {Q τ : Type}

/-- The virtual functions of a timer queue.
mirrors ACE/ace/Timer_Queue_T.h:126-250 -/
structure TimerQueue (Q τ : Type) where
  isEmpty : Q → Bool
  earliestTime : Q → TimeValue
  removeFirst : Q → Option (TimerNode τ) × Q
  reschedule : Q → TimerNode τ → Q
  freeNode : Q → TimerNode τ → Q

/-- mirrors ACE/ace/Abstract_Timer_Queue.h, Timer_Queue_T.h:60-90 -/
structure DispatchInfo (τ : Type) where
  type : τ
  act : Nat
  recurringTimer : Bool
  deriving DecidableEq, Repr

namespace TimerNode

/-- mirrors ACE/ace/Timer_Queue_Iterator.inl:121-130 -/
def getDispatchInfo (n : TimerNode τ) : DispatchInfo τ := ⟨n.type, n.act, n.interval.gt .zero⟩

/-- The next time of an interval timer. The interval is not zero where the
remainder is taken.
mirrors ACE/ace/Timer_Queue_T.cpp:301-359 -/
def recomputeNextAbsIntervalTime (expired : TimerNode τ) (curTime : TimeValue) : TimerNode τ :=
  if expired.timerValue.le curTime = true then
    let intervalUsec := expired.interval.toUsec
    let oldDiffUsec := (curTime.sub expired.timerValue).toUsec
    let newTimerUsec := intervalUsec - oldDiffUsec % intervalUsec
    let newTimerValue := TimeValue.set (curTime.sec + (newTimerUsec / 1000000 : Nat))
      (curTime.usec + (newTimerUsec % 1000000 : Nat))
    expired.setTimerValue newTimerValue
  else expired

end TimerNode

/-- A dispatched timer: the node as it was in the queue, and the upcall's data. -/
structure Fired (τ : Type) where
  timer : TimerNode τ
  info : DispatchInfo τ
  deriving DecidableEq, Repr

namespace TimerQueue

variable (V : TimerQueue Q τ)

/-- The outer `none` is the use of a null node.
mirrors Timer_Queue_T.cpp:405-444 -/
def dispatchInfoI (curTime : TimeValue) (q : Q) : Option (Option (Fired τ) × Q) :=
  if V.isEmpty q = true then some (none, q)
  else if (V.earliestTime q).le curTime = true then
    match V.removeFirst q with
    | (none, _) => none
    | (some expired, q) =>
      let info := expired.getDispatchInfo
      if expired.interval.gt .zero = true then
        some (some ⟨expired, info⟩,
          V.reschedule q (expired.recomputeNextAbsIntervalTime curTime))
      else some (some ⟨expired, info⟩, V.freeNode q expired)
  else some (none, q)

/-- The loop of `expire`, for at most `fuel` calls of `dispatch_info_i`. -/
def expireLoop (curTime : TimeValue) : Nat → Q → Option (List (Fired τ) × Q)
  | 0, _ => none
  | fuel + 1, q =>
    match V.dispatchInfoI curTime q with
    | none => none
    | some (none, q) => some ([], q)
    | some (some fired, q) => (expireLoop curTime fuel q).map fun r => (fired :: r.1, r.2)

/-- The timers dispatched, in order; their number is what the source returns.
mirrors Timer_Queue_T.cpp:262-299 -/
def expire (curTime : TimeValue) (fuel : Nat) (q : Q) : Option (List (Fired τ) × Q) :=
  if V.isEmpty q = true then some ([], q) else V.expireLoop curTime fuel q

end TimerQueue

/-! ## Recomputing the time of an interval timer -/

/-- Times in normal form whose microseconds fit 64 bits. -/
structure InRange (cur : TimeValue) (x : TimerNode τ) : Prop where
  value : x.timerValue.Normal
  interval : x.interval.Normal
  span : cur.total - x.timerValue.total < 2 ^ 64
  period : x.interval.total < 2 ^ 64

/-- **The next time of an interval timer**: whole periods later, and the first
such time behind `cur`. -/
theorem recompute_spec {cur : TimeValue} {x : TimerNode τ} (hcur : cur.Normal) (h : InRange cur x)
    (hi : TimeValue.zero < x.interval) (hdue : x.timerValue ≤ cur) :
    ∃ v : TimeValue, x.recomputeNextAbsIntervalTime cur = x.setTimerValue v ∧ v.Normal ∧
      (∃ k : Nat, 1 ≤ k ∧ v.total = x.timerValue.total + k * x.interval.total) ∧
      cur.total < v.total ∧ v.total ≤ cur.total + x.interval.total := by
  rw [lt_iff_total normal_zero h.interval] at hi
  have hspan := (le_iff_total h.value hcur).mp hdue
  have hI : (x.interval.toUsec : Int) = x.interval.total :=
    toUsec_eq (by simp [total, zero] at hi ⊢; omega) h.period
  have hD : ((cur.sub x.timerValue).toUsec : Int) = cur.total - x.timerValue.total := by
    have hsub := sub_total cur x.timerValue
    have hlt := h.span
    rw [toUsec_eq (by omega) (by omega), hsub]
  unfold recomputeNextAbsIntervalTime
  rw [if_pos ((le_iff _ _).mpr hdue)]
  refine ⟨_, rfl, normalize_normal _, ?_⟩
  have htotal : ∀ n : Nat, (set (cur.sec + (n / 1000000 : Nat))
      (cur.usec + (n % 1000000 : Nat))).total = cur.total + n := fun n => by
    unfold TimeValue.set
    rw [normalize_total]
    simp only [total, oneSecondInUsecs]
    omega
  rw [htotal]
  have hzero : zero.total = 0 := by simp [total, zero]
  generalize x.interval.toUsec = I at *
  generalize (cur.sub x.timerValue).toUsec = D at *
  have hpos : 0 < I := by omega
  have hmod := Nat.mod_lt D hpos
  have hdiv := Nat.div_add_mod D I
  generalize D / I = k at hdiv
  refine ⟨⟨k + 1, by omega, ?_⟩, by omega, by omega⟩
  have hring : ((k : Int) + 1) * I = I * k + I := by ring
  rw [← hI]
  push_cast
  omega

/-- What `expire` relies on: `timers` are the nodes in the queue, in any order. -/
structure TimerQueue.Lawful (V : TimerQueue Q τ) (Ok : Q → Prop) (timers : Q → List (TimerNode τ)) :
    Prop where
  isEmpty : ∀ q, Ok q → (V.isEmpty q = true ↔ timers q = [])
  removeFirst : ∀ q, Ok q → timers q ≠ [] → ∃ x q' rest, V.removeFirst q = (some x, q') ∧
    V.earliestTime q = x.timerValue ∧ (x :: rest).Perm (timers q) ∧
    (∀ y ∈ rest, x.timerValue ≤ y.timerValue) ∧
    (Ok (V.freeNode q' x) ∧ (timers (V.freeNode q' x)).Perm rest) ∧
    ∀ v, Ok (V.reschedule q' (x.setTimerValue v)) ∧
      (timers (V.reschedule q' (x.setTimerValue v))).Perm (x.setTimerValue v :: rest)

def TimerNode.due (cur : TimeValue) (x : TimerNode τ) : Bool := decide (x.timerValue ≤ cur)

def TimerNode.recurring (x : TimerNode τ) : Bool := decide (TimeValue.zero < x.interval)

/-- What is to happen to the timers of a queue in one pass. -/
structure FiresDue (cur : TimeValue) (timers fired timers' : List (TimerNode τ)) : Prop where
  once : fired.Perm (timers.filter (·.due cur))
  inOrder : fired.Pairwise (fun x y => x.timerValue ≤ y.timerValue)
  remaining : timers'.Perm (timers.filter (fun x => !x.due cur) ++
    (fired.filter (·.recurring)).map (·.recomputeNextAbsIntervalTime cur))
  later : ∀ x ∈ fired, x.recurring = true →
    cur < (x.recomputeNextAbsIntervalTime cur).timerValue

namespace TimerQueue.Lawful

variable {V : TimerQueue Q τ} {Ok : Q → Prop} {timers : Q → List (TimerNode τ)} {cur : TimeValue}
  {q : Q}

/-- The timer's place after its dispatch. -/
def next (cur : TimeValue) (x : TimerNode τ) : List (TimerNode τ) :=
  if x.recurring = true then [x.recomputeNextAbsIntervalTime cur] else []

theorem dispatch_none (h : V.Lawful Ok timers) (hq : Ok q)
    (hnone : ∀ x ∈ timers q, x.due cur = false) : V.dispatchInfoI cur q = some (none, q) := by
  unfold dispatchInfoI
  by_cases he : V.isEmpty q = true
  · rw [if_pos he]
  · rw [if_neg he]
    obtain ⟨x, q', rest, _, hearly, hperm, _⟩ := h.removeFirst q hq (fun e => he ((h.isEmpty q hq).mpr e))
    have hx := hnone x (hperm.mem_iff.mp mem_cons_self)
    rw [hearly, if_neg]
    simpa [due] using hx

theorem dispatch_some (h : V.Lawful Ok timers) (hq : Ok q) (hdue : ∃ x ∈ timers q, x.due cur = true) :
    ∃ x q' rest, V.dispatchInfoI cur q = some (some ⟨x, x.getDispatchInfo⟩, q') ∧ Ok q' ∧
      x.due cur = true ∧ (x :: rest).Perm (timers q) ∧ (∀ y ∈ rest, x.timerValue ≤ y.timerValue) ∧
      (timers q').Perm (next cur x ++ rest) := by
  obtain ⟨y, hy, hyd⟩ := hdue
  have hne : timers q ≠ [] := ne_nil_of_mem hy
  obtain ⟨x, q', rest, hrem, hearly, hperm, hmin, hfree, hres⟩ := h.removeFirst q hq hne
  -- the first timer is due, since some timer is
  have hxd : x.timerValue ≤ cur := by
    have hyd : y.timerValue ≤ cur := by simpa [due] using hyd
    rcases mem_cons.mp (hperm.mem_iff.mpr hy) with rfl | hyr
    · exact hyd
    · exact (hmin y hyr).trans hyd
  unfold dispatchInfoI next
  rw [if_neg (fun e => hne ((h.isEmpty q hq).mp e)), hearly, if_pos ((le_iff _ _).mpr hxd),
    hrem]
  by_cases hrec : zero < x.interval
  · have hset : x.recomputeNextAbsIntervalTime cur =
        x.setTimerValue (x.recomputeNextAbsIntervalTime cur).timerValue := by
      unfold recomputeNextAbsIntervalTime
      rw [if_pos ((le_iff _ _).mpr hxd)]
      rfl
    obtain ⟨hok, hcont⟩ := hres (x.recomputeNextAbsIntervalTime cur).timerValue
    rw [← hset] at hok hcont
    refine ⟨x, _, rest, ?_, hok, by simpa [due] using hxd, hperm, hmin, ?_⟩
    · simp only [gt_iff, if_pos hrec]
    · simpa [recurring, hrec] using hcont
  · refine ⟨x, _, rest, ?_, hfree.1, by simpa [due] using hxd, hperm, hmin, ?_⟩
    · simp only [gt_iff, if_neg hrec]
    · simpa [recurring, hrec] using hfree.2

/-- The rounds needed are one for each due timer, and the one that finds none:
a timer rescheduled is not due again. -/
theorem expireLoop_fires (h : V.Lawful Ok timers) (fuel : Nat) (hq : Ok q)
    (hadv : ∀ x ∈ timers q, x.due cur = true → x.recurring = true →
      cur < (x.recomputeNextAbsIntervalTime cur).timerValue)
    (hfuel : ((timers q).filter (·.due cur)).length < fuel) :
    ∃ fired q', V.expireLoop cur fuel q = some (fired, q') ∧ Ok q' ∧
      FiresDue cur (timers q) (fired.map (·.timer)) (timers q') ∧
      ∀ f ∈ fired, f.info = f.timer.getDispatchInfo := by
  induction fuel generalizing q with
  | zero => omega
  | succ fuel ih =>
    unfold expireLoop
    by_cases hdue : ∃ x ∈ timers q, x.due cur = true
    · obtain ⟨x, q', rest, hdis, hq', hxd, hperm, hmin, hcont⟩ := h.dispatch_some hq hdue
      rw [hdis]
      simp only
      have hxadv := hadv x (hperm.mem_iff.mp mem_cons_self) hxd
      have hnext : ∀ y ∈ next cur x, y.due cur = false := by
        intro y hy
        unfold next at hy
        split at hy
        · next hrec =>
          rw [mem_singleton.mp hy]
          simpa [due] using hxadv hrec
        · simp at hy
      have hrest : ∀ y ∈ rest, y ∈ timers q := fun y hy =>
        hperm.mem_iff.mp (mem_cons_of_mem _ hy)
      -- the due timers of `q'` are those of `rest`
      have hdue' : ((timers q').filter (·.due cur)).Perm (rest.filter (·.due cur)) := by
        refine (hcont.filter _).trans (Perm.of_eq ?_)
        rw [filter_append, filter_eq_nil_iff.mpr fun y hy => by simp [hnext y hy], nil_append]
      have hdueq : ((timers q).filter (·.due cur)).Perm (x :: rest.filter (·.due cur)) := by
        have hf := hperm.symm.filter (·.due cur)
        rwa [filter_cons_of_pos hxd] at hf
      have hadv' : ∀ y ∈ timers q', y.due cur = true → y.recurring = true →
          cur < (y.recomputeNextAbsIntervalTime cur).timerValue := by
        intro y hy hyd hyr
        rcases mem_append.mp (hcont.mem_iff.mp hy) with hn | hr
        · rw [hnext y hn] at hyd
          cases hyd
        · exact hadv y (hrest y hr) hyd hyr
      have hlen := hdueq.length_eq
      rw [length_cons, ← hdue'.length_eq] at hlen
      obtain ⟨fired, q'', hloop, hq'', hfires, hinfo⟩ := ih hq' hadv' (by omega)
      rw [hloop]
      refine ⟨_, _, rfl, hq'', ⟨?_, ?_, ?_, ?_⟩, ?_⟩
      · exact ((hfires.once.trans hdue').cons x).trans hdueq.symm
      · refine pairwise_cons.mpr ⟨fun y hy => ?_, hfires.inOrder⟩
        have hyr := (hfires.once.trans hdue').mem_iff.mp hy
        exact hmin y (mem_filter.mp hyr).1
      · refine hfires.remaining.trans ?_
        have hkeep : ((timers q').filter (fun y => !y.due cur)).Perm
            (next cur x ++ rest.filter (fun y => !y.due cur)) := by
          refine (hcont.filter _).trans (Perm.of_eq ?_)
          rw [filter_append, filter_eq_self.mpr fun y hy => by simp [hnext y hy]]
        have hkeepq : ((timers q).filter (fun y => !y.due cur)).Perm
            (rest.filter (fun y => !y.due cur)) := by
          have hf := hperm.symm.filter (fun y => !y.due cur)
          rwa [filter_cons_of_neg (by simp [hxd])] at hf
        have hmap : (((x :: fired.map (·.timer)).filter (·.recurring)).map
            (·.recomputeNextAbsIntervalTime cur)) = next cur x ++
              (((fired.map (·.timer)).filter (·.recurring)).map (·.recomputeNextAbsIntervalTime cur)) := by
          unfold next
          split
          · next hrec => rw [filter_cons_of_pos hrec]; rfl
          · next hrec => rw [filter_cons_of_neg hrec]; rfl
        rw [map_cons, hmap, ← append_assoc]
        refine Perm.append_right _ (hkeep.trans ?_)
        exact perm_append_comm.trans (hkeepq.symm.append_right _)
      · intro y hy hyr
        rcases mem_cons.mp hy with rfl | hy
        · exact hxadv hyr
        · exact hfires.later y hy hyr
      · intro f hf
        rcases mem_cons.mp hf with rfl | hf
        · rfl
        · exact hinfo f hf
    · push Not at hdue
      have hnone : ∀ x ∈ timers q, x.due cur = false := fun x hx => by simpa using hdue x hx
      rw [h.dispatch_none hq hnone]
      refine ⟨[], q, rfl, hq, ⟨?_, Pairwise.nil, ?_, by simp⟩, by simp⟩
      · rw [filter_eq_nil_iff.mpr fun x hx => by simp [hnone x hx]]
        exact Perm.nil
      · rw [filter_eq_self.mpr fun x hx => by simp [hnone x hx]]
        simp

/-- **One pass fires every due timer once, in order.** The fuel is any number
above that of the timers. -/
theorem expire_fires (h : V.Lawful Ok timers) (hq : Ok q) (hcur : cur.Normal)
    (hrange : ∀ x ∈ timers q, InRange cur x) {fuel : Nat} (hfuel : (timers q).length < fuel) :
    ∃ fired q', V.expire cur fuel q = some (fired, q') ∧ Ok q' ∧
      FiresDue cur (timers q) (fired.map (·.timer)) (timers q') ∧
      ∀ f ∈ fired, f.info = f.timer.getDispatchInfo := by
  have hadv : ∀ x ∈ timers q, x.due cur = true → x.recurring = true →
      cur < (x.recomputeNextAbsIntervalTime cur).timerValue := by
    intro x hx hxd hxr
    obtain ⟨v, hv, hvn, _, hlt, _⟩ := recompute_spec hcur (hrange x hx)
      (by simpa [recurring] using hxr) (by simpa [due] using hxd)
    rw [hv]
    exact (lt_iff_total hcur hvn).mpr hlt
  have hlen := length_filter_le (fun x : TimerNode τ => x.due cur) (timers q)
  unfold expire
  by_cases he : V.isEmpty q = true
  · rw [if_pos he]
    have hnil := (h.isEmpty q hq).mp he
    refine ⟨[], q, rfl, hq, ⟨?_, Pairwise.nil, ?_, by simp⟩, by simp⟩ <;> simp [hnil]
  · rw [if_neg he]
    exact h.expireLoop_fires fuel hq hadv (by omega)

end TimerQueue.Lawful

end Atcd.Timer
