import Atcd.Message.Strategy
/-!
# Dynamic message queues

`ACE_Dynamic_Message_Queue`: one list of messages, in it the sublists of those
beyond late, late and pending, each with a head and a tail pointer. The current
time is an argument where the source asks the clock.

`none` is the use of a null pointer, or a loop that does not end.
-/
namespace Atcd.Message

open Atcd.Time

/-- mirrors ACE/ace/Message_Queue_T.h:884-902 -/
structure DynamicQueue where
  base : MessageQueue
  pendingHead : Option Addr
  pendingTail : Option Addr
  lateHead : Option Addr
  lateTail : Option Addr
  beyondLateHead : Option Addr
  beyondLateTail : Option Addr
  strategy : DynamicStrategy

namespace DynamicQueue

/-- mirrors ACE/ace/Message_Queue_T.cpp:2055-2073 -/
def init (base : MessageQueue) (strategy : DynamicStrategy) : DynamicQueue where
  base := base.opened
  pendingHead := none
  pendingTail := none
  lateHead := none
  lateTail := none
  beyondLateHead := none
  beyondLateTail := none
  strategy := strategy

/-- `priority_status` of a block in memory. -/
def priorityStatus (d : DynamicQueue) (a : Addr) (tv : TimeValue) : PriorityStatus × DynamicQueue :=
  let (status, mb) := d.strategy.priorityStatus (d.base.block a) tv
  (status, { d with base := { d.base with block := Function.update d.base.block a mb } })

/-- The `do` loops of the refresh operations: from `cur` on, to the next message of
another status, which is returned with its status. -/
def advance (status : PriorityStatus) (currentTime : TimeValue) :
    Nat → DynamicQueue → Addr → Option (Option (Addr × PriorityStatus) × DynamicQueue)
  | 0, _, _ => none
  | fuel + 1, d, cur =>
    match d.base.next cur with
    | none => some (none, d)
    | some nxt =>
      let (currentStatus, d) := d.priorityStatus nxt currentTime
      if currentStatus = status then advance status currentTime fuel d nxt
      else some (some (nxt, currentStatus), d)

def setLateHead (d : DynamicQueue) (pendingHead : Addr) : DynamicQueue :=
  if d.lateHead = none then { d with lateHead := some pendingHead } else d

/-- The case `LATE` of `refresh_pending_queue`. -/
def refreshLateRun (d : DynamicQueue) (pendingHead : Addr) (currentTime : TimeValue) :
    Option (Int × DynamicQueue) :=
  let d := d.setLateHead pendingHead
  match d.advance .late currentTime addresses pendingHead with
  | none => none
  | some (some (pendingHead, currentStatus), d) =>
    let d := { d with pendingHead := some pendingHead }
    if currentStatus ≠ .pending then some (-1, d)
    else some (0, { d with lateTail := d.base.prev pendingHead })
  | some (none, d) =>
    some (0, { d with lateTail := d.base.tail, pendingHead := none, pendingTail := none })

/-- mirrors Message_Queue_T.cpp:2666-2786 -/
def refreshPendingQueue (d : DynamicQueue) (currentTime : TimeValue) : Option (Int × DynamicQueue) :=
  match d.pendingHead with
  | none => some (0, d)
  | some pendingHead =>
    let (currentStatus, d) := d.priorityStatus pendingHead currentTime
    match currentStatus with
    | .beyondLate =>
      let d := { d with beyondLateHead := d.base.head, lateHead := none, lateTail := none }
      match d.advance .beyondLate currentTime addresses pendingHead with
      | none => none
      | some (some (pendingHead, currentStatus), d) =>
        let d := { d with pendingHead := some pendingHead, beyondLateTail := d.base.prev pendingHead }
        if currentStatus = .pending then some (0, d)
        else if currentStatus ≠ .late then some (-1, d)
        else d.refreshLateRun pendingHead currentTime
      | some (none, d) =>
        some (0, { d with beyondLateTail := d.base.tail, pendingHead := none, pendingTail := none })
    | .late => d.refreshLateRun pendingHead currentTime
    | .pending => some (0, d)

/-- mirrors Message_Queue_T.cpp:2792-2869 -/
def refreshLateQueue (d : DynamicQueue) (currentTime : TimeValue) : Option (Int × DynamicQueue) :=
  match d.lateHead with
  | none => some (0, d)
  | some lateHead =>
    let (currentStatus, d) := d.priorityStatus lateHead currentTime
    match currentStatus with
    | .beyondLate =>
      let d := { d with beyondLateHead := d.base.head }
      match d.advance .beyondLate currentTime addresses lateHead with
      | none => none
      | some (some (lateHead, currentStatus), d) =>
        let d := { d with lateHead := some lateHead, beyondLateTail := d.base.prev lateHead }
        if currentStatus = .pending then some (0, { d with lateHead := none, lateTail := none })
        else if currentStatus ≠ .late then some (-1, d)
        else some (0, d)
      | some (none, d) =>
        some (0, { d with beyondLateTail := d.base.tail, lateHead := none, lateTail := none })
    | .late => some (0, d)
    | .pending => some (-1, d)

/-- mirrors Message_Queue_T.cpp:2649-2660 -/
def refreshQueue (d : DynamicQueue) (currentTime : TimeValue) : Option (Int × DynamicQueue) :=
  match d.refreshPendingQueue currentTime with
  | none => none
  | some (result, d) => if result ≠ -1 then d.refreshLateQueue currentTime else some (result, d)

/-- From the tail of a sublist, the message to enqueue behind, and whether it is of
another status. -/
def sublistScan (newItem : Addr) (currentTime : TimeValue) (status : PriorityStatus) :
    Nat → DynamicQueue → Option Addr → Option (Option Addr × Bool × DynamicQueue)
  | _, d, none => some (none, false, d)
  | 0, _, some _ => none
  | fuel + 1, d, some currentItem =>
    let (currentStatus, d) := d.priorityStatus currentItem currentTime
    if currentStatus = status then
      if (d.base.block currentItem).priority ≥ (d.base.block newItem).priority then
        some (some currentItem, false, d)
      else sublistScan newItem currentTime status fuel d (d.base.prev currentItem)
    else some (some currentItem, true, d)

/-- `new` goes behind `cur`. -/
def linkAfter (q : MessageQueue) (cur new : Addr) : MessageQueue :=
  let q := (q.setNext new (q.next cur)).setPrev new (some cur)
  let q := match q.next cur with
    | some nxt => q.setPrev nxt (some new)
    | none => { q with tail := some new }
  q.setNext cur (some new)

/-- The list is that of the sublist's head and tail, by reference in the source.
mirrors Message_Queue_T.cpp:2450-2514 -/
def sublistEnqueueI (d : DynamicQueue) (newItem : Addr) (currentTime : TimeValue)
    (sublistHead sublistTail : Option Addr) (status : PriorityStatus) :
    Option (Option Addr × Option Addr × DynamicQueue) :=
  match d.sublistScan newItem currentTime status addresses sublistTail with
  | none => none
  | some (none, _, d) =>
    let sublistTail := if d.base.head = none then some newItem else sublistTail
    some (some newItem, sublistTail, { d with base := d.base.linkHead newItem newItem })
  | some (some currentItem, other, d) =>
    let sublistHead := if other = true then some newItem else sublistHead
    let sublistTail := if sublistTail = some currentItem then some newItem else sublistTail
    some (sublistHead, sublistTail, { d with base := linkAfter d.base currentItem newItem })

/-- A late message goes between the last beyond late and the first pending one. -/
def spliceLate (q : MessageQueue) (beyondLateTail new pendingHead : Addr) : MessageQueue :=
  (((q.setNext beyondLateTail (some new)).setPrev new (some beyondLateTail)).setPrev pendingHead
    (some new)).setNext new (some pendingHead)

/-- A beyond late message goes behind the last one. -/
def linkBeyondLate (q : MessageQueue) (beyondLateTail new : Addr) : MessageQueue :=
  let q := match q.next beyondLateTail with
    | some nxt => q.setPrev nxt (some new)
    | none => { q with tail := some new }
  ((q.setNext new (q.next beyondLateTail)).setNext beyondLateTail (some new)).setPrev new
    (some beyondLateTail)

/-- What `enqueue_i` does last, where it did not call the base class. -/
def counted (d : DynamicQueue) (newItem : Addr) : Option (Int × DynamicQueue) :=
  let d := { d with base := (d.base.addBytes newItem).incCount }
  some (truncateCast d.base.curCount, d)

/-- The result of an enqueue operation of the base class. -/
def based (d : DynamicQueue) (r : Option (Int × MessageQueue)) : Option (Int × DynamicQueue) :=
  r.map fun (result, base) => (result, { d with base := base })

/-- mirrors Message_Queue_T.cpp:2298-2337 -/
def enqueuePending (d : DynamicQueue) (newItem : Addr) (currentTime : TimeValue) :
    Option (Int × DynamicQueue) :=
  if d.pendingTail = none then
    let d := { d with pendingHead := some newItem, pendingTail := some newItem }
    d.based (d.base.enqueueTailI (some newItem))
  else
    match d.sublistEnqueueI newItem currentTime d.pendingHead d.pendingTail .pending with
    | none => none
    | some (head, tail, d) => { d with pendingHead := head, pendingTail := tail }.counted newItem

def enqueueLate (d : DynamicQueue) (newItem : Addr) (currentTime : TimeValue) :
    Option (Int × DynamicQueue) :=
  if d.lateTail = none then
    let d := { d with lateHead := some newItem, lateTail := some newItem }
    match d.pendingHead with
    | none => d.based (d.base.enqueueTailI (some newItem))
    | some pendingHead =>
      match d.beyondLateTail with
      | none => d.based (d.base.enqueueHeadI (some newItem))
      | some beyondLateTail =>
        { d with base := spliceLate d.base beyondLateTail newItem pendingHead }.counted newItem
  else
    match d.sublistEnqueueI newItem currentTime d.lateHead d.lateTail .late with
    | none => none
    | some (head, tail, d) => { d with lateHead := head, lateTail := tail }.counted newItem

def enqueueBeyondLate (d : DynamicQueue) (newItem : Addr) : Option (Int × DynamicQueue) :=
  match d.beyondLateTail with
  | none =>
    let d := { d with beyondLateHead := some newItem, beyondLateTail := some newItem }
    d.based (d.base.enqueueHeadI (some newItem))
  | some beyondLateTail =>
    { d with base := linkBeyondLate d.base beyondLateTail newItem,
             beyondLateTail := some newItem }.counted newItem

/-- mirrors Message_Queue_T.cpp:2290-2444 -/
def enqueueI (d : DynamicQueue) (newItem : Option Addr) (currentTime : TimeValue) :
    Option (Int × DynamicQueue) :=
  match newItem with
  | none => some (-1, d)
  | some newItem =>
    match d.refreshQueue currentTime with
    | none => none
    | some (result, d) =>
      if result < 0 then some (result, d)
      else
        let (status, d) := d.priorityStatus newItem currentTime
        match status with
        | .pending => d.enqueuePending newItem currentTime
        | .late => d.enqueueLate newItem currentTime
        | .beyondLate => d.enqueueBeyondLate newItem

/-- The pointers of the message dequeued are cleared, and its bytes subtracted. -/
def finishDequeue (d : DynamicQueue) (firstItem : Addr) : Option (Int × Option Addr × DynamicQueue) :=
  let d := { d with base := ((d.base.setPrev firstItem none).setNext firstItem none).subBytes firstItem }
  some (truncateCast d.base.curCount, some firstItem, d)

/-- mirrors Message_Queue_T.cpp:2519-2642 -/
def dequeueHeadI (d : DynamicQueue) : Option (Int × Option Addr × DynamicQueue) :=
  match d.pendingHead with
  | some pendingHead =>
    let base := d.base.unlink pendingHead
    let d := match base.next pendingHead with
      | none => { d with base := base, pendingHead := none, pendingTail := none }
      | some nxt => { d with base := base, pendingHead := some nxt }
    d.finishDequeue pendingHead
  | none =>
    match d.lateHead with
    | some lateHead =>
      let lastInSubqueue := d.lateHead = d.lateTail
      let base := d.base.unlink lateHead
      let d := match base.next lateHead with
        | none => { d with base := base }
        | some nxt => { d with base := base, lateHead := some nxt }
      let d := if lastInSubqueue then { d with lateHead := none, lateTail := none } else d
      d.finishDequeue lateHead
    | none =>
      match d.beyondLateHead with
      | some beyondLateHead =>
        let lastInSubqueue := d.beyondLateHead = d.beyondLateTail
        let base := { d.base with head := d.base.next beyondLateHead }.unlinkPrev beyondLateHead
        let d := match base.next beyondLateHead with
          | none => { d with base := base }
          | some nxt => { d with base := base, beyondLateHead := some nxt }
        let d := if lastInSubqueue then { d with beyondLateHead := none, beyondLateTail := none } else d
        d.finishDequeue beyondLateHead
      | none => some (-1, none, d)

/-- The wait for a message runs into its timeout.
mirrors Message_Queue_T.cpp:2221-2255 -/
def dequeueHead (d : DynamicQueue) (currentTime : TimeValue) :
    Option (Int × Option Addr × DynamicQueue) :=
  match d.refreshQueue currentTime with
  | none => none
  | some (result, d) =>
    if result < 0 then some (result, none, d)
    else if d.base.tail = none then some (-1, none, d)
    else d.dequeueHeadI

end DynamicQueue

end Atcd.Message
