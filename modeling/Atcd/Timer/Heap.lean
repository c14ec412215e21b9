import Atcd.Timer.Node
/-!
# The heap timer queue

`ACE_Timer_Heap_T`: an array of node pointers ordered as a binary heap, and the
array `timer_ids_` from timer ids to heap slots. An entry of `timer_ids_` is a
slot, -2 for a timer that is out of the heap but not freed ("limbo"), or
another negative number for a free id. `timer_ids_curr_` is the last id given
out, `timer_ids_min_free_` the lowest free id behind it that is known.

The arrays are functions on all indices; what lies at and behind `max_size_` is
never looked at but in `cancel`, which accepts the id `max_size_`: the model
has no result there. Allocations succeed; the preallocated nodes are counted,
since which node of the freelist is handed out makes no difference. Upcalls do
not touch the queue.
-/
namespace Atcd.Timer

open Atcd.Time Function

/-- mirrors ACE/ace/Timer_Heap_T.h:255-330 -/
structure TimerHeap (τ : Type) where
  maxSize : Nat
  curSize : Nat
  curLimbo : Nat
  heap : Nat → TimerNode τ
  timerIds : Nat → Int
  timerIdsCurr : Nat
  timerIdsMinFree : Nat
  preallocated : Option Nat     -- nodes on the freelist, when nodes are preallocated

namespace TimerHeap

variable {τ : Type}

/-- A queue for `size` timers; `garbage` is what the heap array holds.
mirrors ACE/ace/Timer_Heap_T.cpp:98-157 -/
def init (size : Nat) (prealloc : Bool) (garbage : Nat → TimerNode τ) : TimerHeap τ where
  maxSize := size
  curSize := 0
  curLimbo := 0
  heap := garbage
  timerIds := fun _ => -1
  timerIdsCurr := 0
  timerIdsMinFree := 0
  preallocated := if prealloc then some size else none

/-- mirrors Timer_Heap_T.cpp:26-30 -/
def heapParent (x : Nat) : Nat := if x = 0 then 0 else (x - 1) / 2

/-- mirrors Timer_Heap_T.cpp:32-36 -/
def heapLchild (x : Nat) : Nat := x + x + 1

/-- mirrors Timer_Heap_T.cpp:390-404 -/
def copy (q : TimerHeap τ) (slot : Nat) (movedNode : TimerNode τ) : TimerHeap τ :=
  { q with heap := update q.heap slot movedNode,
           timerIds := update q.timerIds movedNode.timerId slot }

/-- The loop halves the slot; the slot bounds its rounds.
mirrors Timer_Heap_T.cpp:490-518 -/
def reheapUpLoop (movedNode : TimerNode τ) : Nat → TimerHeap τ → Nat → Nat → TimerHeap τ
  | 0, q, slot, _ => q.copy slot movedNode
  | fuel + 1, q, slot, parent =>
    if slot > 0 then
      if movedNode.timerValue.lt (q.heap parent).timerValue = true then
        reheapUpLoop movedNode fuel (q.copy slot (q.heap parent)) parent (heapParent parent)
      else q.copy slot movedNode
    else q.copy slot movedNode

def reheapUp (q : TimerHeap τ) (movedNode : TimerNode τ) (slot parent : Nat) : TimerHeap τ :=
  reheapUpLoop movedNode slot q slot parent

/-- The smaller of the two children.
mirrors Timer_Heap_T.cpp:465-469 -/
def smallerChild (q : TimerHeap τ) (child : Nat) : Nat :=
  if child + 1 < q.curSize ∧
      (q.heap (child + 1)).timerValue.lt (q.heap child).timerValue = true then child + 1
  else child

/-- The child grows in every round; the size bounds the rounds.
mirrors Timer_Heap_T.cpp:454-488 -/
def reheapDownLoop (movedNode : TimerNode τ) : Nat → TimerHeap τ → Nat → Nat → TimerHeap τ
  | 0, q, slot, _ => q.copy slot movedNode
  | fuel + 1, q, slot, child =>
    if child < q.curSize then
      let child := q.smallerChild child
      if (q.heap child).timerValue.lt movedNode.timerValue = true then
        reheapDownLoop movedNode fuel (q.copy slot (q.heap child)) child (heapLchild child)
      else q.copy slot movedNode
    else q.copy slot movedNode

def reheapDown (q : TimerHeap τ) (movedNode : TimerNode τ) (slot child : Nat) : TimerHeap τ :=
  reheapDownLoop movedNode q.curSize q slot child

/-- mirrors Timer_Heap_T.cpp:406-452 -/
def remove (q : TimerHeap τ) (slot : Nat) : TimerNode τ × TimerHeap τ :=
  let removedNode := q.heap slot
  let q := { q with curSize := q.curSize - 1 }
  let q :=
    if slot < q.curSize then
      let movedNode := q.heap q.curSize
      let q := q.copy slot movedNode
      let parent := heapParent slot
      if movedNode.timerValue.ge (q.heap parent).timerValue = true then
        q.reheapDown movedNode slot (heapLchild slot)
      else q.reheapUp movedNode slot parent
    else q
  (removedNode, { q with timerIds := update q.timerIds removedNode.timerId (-2),
                         curLimbo := q.curLimbo + 1 })

/-- mirrors Timer_Heap_T.cpp:534-611 -/
def growHeap (q : TimerHeap τ) : TimerHeap τ :=
  let newSize := q.maxSize * 2
  { q with timerIds := fun i => if q.maxSize ≤ i ∧ i < newSize then -((i : Int) + 1) else q.timerIds i,
           preallocated := q.preallocated.map (· + q.maxSize),
           maxSize := newSize,
           timerIdsMinFree := newSize }

/-- mirrors Timer_Heap_T.cpp:520-532 -/
def insert (q : TimerHeap τ) (newNode : TimerNode τ) : TimerHeap τ :=
  let q := if q.curSize + q.curLimbo + 2 ≥ q.maxSize then q.growHeap else q
  let q := q.reheapUp newNode q.curSize (heapParent q.curSize)
  { q with curSize := q.curSize + 1 }

/-- mirrors Timer_Heap_T.cpp:613-631 -/
def reschedule (q : TimerHeap τ) (expired : TimerNode τ) : TimerHeap τ :=
  let q := if q.timerIds expired.timerId = -2 then { q with curLimbo := q.curLimbo - 1 } else q
  q.insert expired

/-- An id in use: its entry is a slot or the limbo mark. -/
def inUse (ids : Nat → Int) (i : Nat) : Bool := decide (ids i ≥ 0 ∨ ids i = -2)

/-- The scan of `pop_freelist`: the first id from `i` on that is not in use, at
most `n` steps further.
mirrors Timer_Heap_T.cpp:270-273 -/
def scan (ids : Nat → Int) : Nat → Nat → Nat
  | 0, i => i
  | n + 1, i => if inUse ids i = true then scan ids n (i + 1) else i

/-- Where the scan of `pop_freelist` stops. -/
def scanFrom (q : TimerHeap τ) : Nat :=
  scan q.timerIds (q.maxSize - (q.timerIdsCurr + 1)) (q.timerIdsCurr + 1)

/-- mirrors Timer_Heap_T.cpp:256-287 -/
def popFreelist (q : TimerHeap τ) : Nat × TimerHeap τ :=
  let curr := q.scanFrom
  if curr = q.maxSize then
    (q.timerIdsMinFree, { q with timerIdsCurr := q.timerIdsMinFree, timerIdsMinFree := q.maxSize })
  else (curr, { q with timerIdsCurr := curr })

/-- The assertion of `pop_freelist`.
mirrors Timer_Heap_T.cpp:274-276 -/
def popAssert (q : TimerHeap τ) : Prop := q.scanFrom = q.maxSize → q.timerIdsMinFree < q.maxSize

/-- mirrors Timer_Heap_T.cpp:289-312 -/
def pushFreelist (q : TimerHeap τ) (oldId : Nat) : TimerHeap τ :=
  let q := if q.timerIds oldId = -2 then { q with curLimbo := q.curLimbo - 1 }
    else { q with curSize := q.curSize - 1 }
  { q with timerIds := update q.timerIds oldId (-1),
           timerIdsMinFree :=
             if oldId < q.timerIdsMinFree ∧ oldId ≤ q.timerIdsCurr then oldId else q.timerIdsMinFree }

/-- `none`: no node. With preallocated nodes the queue grows when the freelist
is empty.
mirrors Timer_Heap_T.cpp:633-660 -/
def allocNode (q : TimerHeap τ) : Option (TimerHeap τ) :=
  match q.preallocated with
  | none => some q
  | some _ =>
    let q := if q.preallocated = some 0 then q.growHeap else q
    match q.preallocated with
    | some (n + 1) => some { q with preallocated := some n }
    | _ => none

/-- mirrors Timer_Heap_T.cpp:662-679 -/
def freeNode (q : TimerHeap τ) (node : TimerNode τ) : TimerHeap τ :=
  let q := q.pushFreelist node.timerId
  { q with preallocated := q.preallocated.map (· + 1) }

/-- The result is the timer id, or `none` for -1.
mirrors Timer_Heap_T.cpp:681-716 -/
def scheduleI (q : TimerHeap τ) (type : τ) (act : Nat) (futureTime interval : TimeValue) :
    Option Nat × TimerHeap τ :=
  if q.curSize + q.curLimbo < q.maxSize then
    let (timerId, q) := q.popFreelist
    match q.allocNode with
    | none => (none, q)
    | some q => (some timerId, q.insert ⟨type, act, futureTime, interval, timerId⟩)
  else (none, q)

/-- The node cancelled, if any. The outer `none` is the read of `timer_ids_`
behind its end.
mirrors Timer_Heap_T.cpp:718-774 -/
def cancelId (q : TimerHeap τ) (timerId : Int) : Option (Option (TimerNode τ) × TimerHeap τ) :=
  if timerId < 0 ∨ timerId > q.maxSize then some (none, q)
  else if timerId = q.maxSize then none
  else
    let timerNodeSlot := q.timerIds timerId.toNat
    if timerNodeSlot < 0 then some (none, q)
    else if timerId ≠ (q.heap timerNodeSlot.toNat).timerId then some (none, q)
    else
      let (temp, q) := q.remove timerNodeSlot.toNat
      some (some temp, q.freeNode temp)

def setInterval (q : TimerHeap τ) (slot : Nat) (interval : TimeValue) : TimerHeap τ :=
  { q with heap := update q.heap slot { q.heap slot with interval := interval } }

/-- The outer `none` is as in `cancelId`.
mirrors Timer_Heap_T.cpp:776-809 -/
def resetInterval (q : TimerHeap τ) (timerId : Int) (interval : TimeValue) :
    Option (Bool × TimerHeap τ) :=
  if timerId < 0 ∨ timerId > q.maxSize then some (false, q)
  else if timerId = q.maxSize then none
  else
    let timerNodeSlot := q.timerIds timerId.toNat
    if timerNodeSlot < 0 then some (false, q)
    else if timerId ≠ (q.heap timerNodeSlot.toNat).timerId then some (false, q)
    else some (true, q.setInterval timerNodeSlot.toNat interval)

/-- The scan starts again from the root behind every removal, so the rounds are
bounded by the square of the size.
mirrors Timer_Heap_T.cpp:827-847 -/
def cancelTypeLoop [DecidableEq τ] (type : τ) : Nat → TimerHeap τ → Nat → Nat → Nat × TimerHeap τ
  | 0, q, _, count => (count, q)
  | fuel + 1, q, i, count =>
    if i < q.curSize then
      if (q.heap i).type = type then
        let (temp, q) := q.remove i
        cancelTypeLoop type fuel (q.freeNode temp) 0 (count + 1)
      else cancelTypeLoop type fuel q (i + 1) count
    else (count, q)

/-- mirrors Timer_Heap_T.cpp:813-868 -/
def cancelType [DecidableEq τ] (q : TimerHeap τ) (type : τ) : Nat × TimerHeap τ :=
  cancelTypeLoop type ((q.curSize + 1) * (q.curSize + 1)) q 0 0

/-- mirrors Timer_Heap_T.cpp:870-881 -/
def removeFirst (q : TimerHeap τ) : Option (TimerNode τ) × TimerHeap τ :=
  if q.curSize = 0 then (none, q)
  else
    let (node, q) := q.remove 0
    (some node, q)

/-- mirrors Timer_Heap_T.cpp:326-333 -/
def isEmpty (q : TimerHeap τ) : Bool := decide (q.curSize = 0)

/-- mirrors Timer_Heap_T.cpp:344-350 -/
def earliestTime (q : TimerHeap τ) : TimeValue := (q.heap 0).timerValue

end TimerHeap

end Atcd.Timer
