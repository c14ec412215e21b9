import Atcd.Timer.Queue
import Atcd.Core.TailInsert
import Atcd.Core.Run
/-!
# The list timer queue

`ACE_Timer_List_T`: a circular list with a dummy head, kept sorted by time. The
list is that from the node behind the dummy on; nodes of the freelist are not
represented.

Results:
* `list_sorted`: the list is sorted after every run.
* `timerList_lawful`: it is a queue that `expire` can rely on.
-/
namespace Atcd.Timer

open Atcd.Core Atcd.Time List

/-- mirrors ACE/ace/Timer_List_T.h:80-200 -/
structure TimerList (τ : Type) where
  list : List (TimerNode τ)
  idCounter : Nat

namespace TimerList

variable {τ : Type}

def init : TimerList τ := ⟨[], 0⟩

/-- mirrors ACE/ace/Timer_List_T.cpp:98-104 -/
def isEmpty (q : TimerList τ) : Bool := q.list.isEmpty

/-- mirrors Timer_List_T.cpp:109-117 -/
def earliestTime (q : TimerList τ) : TimeValue :=
  match q.list with
  | first :: _ => first.timerValue
  | [] => .zero

/-- mirrors Timer_List_T.cpp:228-254 -/
def scheduleNode (q : TimerList τ) (n : TimerNode τ) (expire : TimeValue) : TimerList τ :=
  if q.isEmpty = true then { q with list := [n] }
  else { q with list := tailInsert (fun p => p.timerValue.gt expire) n q.list }

/-- mirrors Timer_List_T.cpp:202-225 -/
def scheduleI (q : TimerList τ) (type : τ) (act : Nat) (futureTime interval : TimeValue) :
    Nat × TimerList τ :=
  let id := q.idCounter
  let q := { q with idCounter := q.idCounter + 1 }
  (id, q.scheduleNode ⟨type, act, futureTime, interval, id⟩ futureTime)

/-- mirrors Timer_List_T.cpp:189-195 -/
def reschedule (q : TimerList τ) (n : TimerNode τ) : TimerList τ := q.scheduleNode n n.timerValue

/-- mirrors Timer_List_T.cpp:256-270 -/
def findNode (q : TimerList τ) (timerId : Int) : Option (TimerNode τ) :=
  q.list.find? (fun n => (n.timerId : Int) = timerId)

/-- The interval of the first node with the id.
mirrors Timer_List_T.cpp:272-286 -/
def resetInterval (q : TimerList τ) (timerId : Int) (interval : TimeValue) : Bool × TimerList τ :=
  match q.findNode timerId with
  | some _ =>
    let front := q.list.takeWhile (fun n => (n.timerId : Int) ≠ timerId)
    let rest := q.list.dropWhile (fun n => (n.timerId : Int) ≠ timerId)
    (true, { q with list := front ++ rest.modifyHead (fun n => { n with interval := interval }) })
  | none => (false, q)

/-- mirrors Timer_List_T.cpp:288-325 -/
def cancelId (q : TimerList τ) (timerId : Int) : Option (TimerNode τ) × TimerList τ :=
  match q.findNode timerId with
  | some n => (some n, { q with list := q.list.eraseP (fun n => (n.timerId : Int) = timerId) })
  | none => (none, q)

/-- mirrors Timer_List_T.cpp:327-378 -/
def cancelType [DecidableEq τ] (q : TimerList τ) (type : τ) : Nat × TimerList τ :=
  ((q.list.filter (·.type = type)).length, { q with list := q.list.filter (·.type ≠ type) })

/-- mirrors Timer_List_T.cpp:398-412 -/
def getFirst (q : TimerList τ) : Option (TimerNode τ) := q.list.head?

/-- mirrors Timer_List_T.cpp:415-426 -/
def removeFirst (q : TimerList τ) : Option (TimerNode τ) × TimerList τ :=
  match q.list with
  | first :: rest => (some first, { q with list := rest })
  | [] => (none, q)

/-- The virtual functions. A freed node leaves no trace in the list. -/
def vtable (τ : Type) : TimerQueue (TimerList τ) τ where
  isEmpty := isEmpty
  earliestTime := earliestTime
  removeFirst := removeFirst
  reschedule := reschedule
  freeNode := fun q _ => q

def Sorted (q : TimerList τ) : Prop := SortedBy (·.timerValue) q.list

variable {q : TimerList τ}

theorem scheduleNode_perm (n : TimerNode τ) (expire : TimeValue) :
    (q.scheduleNode n expire).list.Perm (n :: q.list) := by
  unfold scheduleNode
  split
  · next he => simp [isEmpty_iff.mp he]
  · exact tailInsert_perm

theorem scheduleNode_sorted (h : q.Sorted) (n : TimerNode τ) :
    (q.scheduleNode n n.timerValue).Sorted := by
  unfold scheduleNode
  split
  · exact pairwise_singleton ..
  · have hgt : (fun p : TimerNode τ => p.timerValue.gt n.timerValue) =
        fun p => decide (n.timerValue < p.timerValue) := by
      funext p
      rw [Bool.eq_iff_iff, TimeValue.gt_iff, decide_eq_true_eq]
    rw [hgt]
    exact tailInsert_sorted h

theorem timerList_lawful : (vtable τ).Lawful Sorted (·.list) where
  isEmpty q _ := isEmpty_iff
  removeFirst q hq hne := by
    obtain ⟨list, counter⟩ := q
    obtain ⟨x, rest, rfl⟩ := exists_cons_of_ne_nil hne
    have hsorted : Sorted (⟨rest, counter⟩ : TimerList τ) := (pairwise_cons.mp hq).2
    refine ⟨x, ⟨rest, counter⟩, rest, rfl, rfl, List.Perm.refl _, (pairwise_cons.mp hq).1,
      ⟨hsorted, List.Perm.refl _⟩, fun v => ⟨?_, scheduleNode_perm _ _⟩⟩
    exact scheduleNode_sorted hsorted (x.setTimerValue v)

/-! ## Runs -/

inductive ListOp (τ : Type) where
  | schedule (type : τ) (act : Nat) (futureTime interval : TimeValue)
  | cancelId (timerId : Int)
  | cancelType (type : τ)
  | resetInterval (timerId : Int) (interval : TimeValue)
  | removeFirst
  | reschedule (n : TimerNode τ)

def step [DecidableEq τ] (q : TimerList τ) : ListOp τ → Option (TimerList τ)
  | .schedule type act futureTime interval => some (q.scheduleI type act futureTime interval).2
  | .cancelId timerId => some (q.cancelId timerId).2
  | .cancelType type => some (q.cancelType type).2
  | .resetInterval timerId interval => some (q.resetInterval timerId interval).2
  | .removeFirst => some q.removeFirst.2
  | .reschedule n => some (q.reschedule n)

theorem resetInterval_values (timerId : Int) (interval : TimeValue) :
    (q.resetInterval timerId interval).2.list.map (·.timerValue) = q.list.map (·.timerValue) := by
  unfold resetInterval
  split
  · simp only
    conv_rhs => rw [← takeWhile_append_dropWhile (p := fun n => (n.timerId : Int) ≠ timerId) (l := q.list)]
    rw [map_append, map_append]
    congr 1
    cases q.list.dropWhile (fun n => (n.timerId : Int) ≠ timerId) <;> rfl
  · rfl

theorem step_sorted [DecidableEq τ] {q' : TimerList τ} (h : q.Sorted) {op : ListOp τ}
    (hs : q.step op = some q') : q'.Sorted := by
  cases op with
  | schedule type act futureTime interval =>
    cases hs
    exact scheduleNode_sorted (q := ⟨q.list, q.idCounter + 1⟩) h
      ⟨type, act, futureTime, interval, q.idCounter⟩
  | cancelId timerId =>
    cases hs
    unfold TimerList.cancelId
    split
    · exact Pairwise.sublist eraseP_sublist h
    · exact h
  | cancelType type =>
    cases hs
    exact Pairwise.sublist filter_sublist h
  | resetInterval timerId interval =>
    cases hs
    have hv := pairwise_map.mpr h
    rw [← resetInterval_values timerId interval] at hv
    exact pairwise_map.mp hv
  | removeFirst =>
    cases hs
    unfold TimerList.removeFirst
    split
    · next hl =>
      unfold Sorted SortedBy at h
      rw [hl] at h
      exact (pairwise_cons.mp h).2
    · exact h
  | reschedule n =>
    cases hs
    exact scheduleNode_sorted h n

theorem list_sorted [DecidableEq τ] {ops : List (ListOp τ)} (h : run step init ops = some q) :
    q.Sorted := by
  have hinit : Sorted (init : TimerList τ) := Pairwise.nil
  exact run_inv (fun _ _ _ hi hs => step_sorted hi hs) hinit h

end TimerList

end Atcd.Timer
