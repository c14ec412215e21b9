import Atcd.Core.Ring
import Atcd.Time.TimeValue
/-!
# Message queues

`ACE_Message_Queue` of `ACE_Message_Block`s, linked by `next` and `prev`. A block
has an address; a null pointer is `none`. The continuation of a block, which no
queue operation changes, is the list of its sizes and lengths. Sizes and counts
are `size_t`.

An operation is `none` where it dereferences a null pointer, or does not end: no
list of blocks is longer than the number of addresses. Signals do not fail.
-/
namespace Atcd.Message

open Atcd.Core Atcd.Time

/-- The addresses but null. -/
def addresses : Nat := 2 ^ 64 - 1

abbrev Addr := Fin addresses

/-- mirrors ACE/ace/Message_Block.h:600-660, less the links -/
structure MessageBlock where
  size : UInt64
  length : UInt64
  cont : List (UInt64 × UInt64)
  priority : UInt64
  executionTime : TimeValue
  deadlineTime : TimeValue

/-- mirrors ACE/ace/Message_Block.cpp:253-266 -/
def MessageBlock.totalSizeAndLength (b : MessageBlock) (mbSize mbLength : UInt64) : UInt64 × UInt64 :=
  ((b.size, b.length) :: b.cont).foldl (fun s i => (s.1 + i.1, s.2 + i.2)) (mbSize, mbLength)

/-- The blocks in memory, and the queue.
mirrors ACE/ace/Message_Queue_T.h:580-602 -/
structure MessageQueue where
  next : Addr → Option Addr
  prev : Addr → Option Addr
  block : Addr → MessageBlock
  head : Option Addr
  tail : Option Addr
  curBytes : UInt64
  curLength : UInt64
  curCount : UInt64

/-- mirrors ACE/ace/Truncate.h:436-463, to `int` -/
def truncateCast (n : UInt64) : Int := if n.toNat > 2147483647 then 2147483647 else n.toNat

namespace MessageQueue

/-- mirrors ACE/ace/Message_Queue_T.cpp:1140-1156 -/
def opened (q : MessageQueue) : MessageQueue :=
  { q with head := none, tail := none, curBytes := 0, curLength := 0, curCount := 0 }

def setNext (q : MessageQueue) (a : Addr) (p : Option Addr) : MessageQueue :=
  { q with next := Function.update q.next a p }

def setPrev (q : MessageQueue) (a : Addr) (p : Option Addr) : MessageQueue :=
  { q with prev := Function.update q.prev a p }

/-- `total_size_and_length (cur_bytes_, cur_length_)`. -/
def addBytes (q : MessageQueue) (a : Addr) : MessageQueue :=
  let (bytes, length) := (q.block a).totalSizeAndLength q.curBytes q.curLength
  { q with curBytes := bytes, curLength := length }

def incCount (q : MessageQueue) : MessageQueue := { q with curCount := q.curCount + 1 }

/-- The bytes of a block that was removed are subtracted. -/
def subBytes (q : MessageQueue) (a : Addr) : MessageQueue :=
  let (bytes, length) := (q.block a).totalSizeAndLength 0 0
  { q with curBytes := q.curBytes - bytes, curLength := q.curLength - length,
           curCount := q.curCount - 1 }

/-- The loop of the enqueue operations over the blocks behind the first. -/
def chainLoop : Nat → MessageQueue → Addr → Option (Addr × MessageQueue)
  | 0, _, _ => none
  | fuel + 1, q, seqTail =>
    match q.next seqTail with
    | none => some (seqTail, q)
    | some nxt => chainLoop fuel ((q.setPrev nxt (some seqTail)).incCount.addBytes nxt) nxt

/-- The blocks from `new` to `seqTail` go behind the tail. -/
def linkTail (q : MessageQueue) (new seqTail : Addr) : MessageQueue :=
  match q.tail with
  | none => { q with head := some new, tail := some seqTail }.setPrev new none
  | some tail => { (q.setNext tail (some new)).setPrev new (some tail) with tail := some seqTail }

/-- mirrors Message_Queue_T.cpp:1237-1284 -/
def enqueueTailI (q : MessageQueue) (newItem : Option Addr) : Option (Int × MessageQueue) :=
  match newItem with
  | none => some (-1, q)
  | some new =>
    match chainLoop addresses (q.incCount.addBytes new) new with
    | none => none
    | some (seqTail, q) =>
      let q := q.linkTail new seqTail
      some (truncateCast q.curCount, q)

/-- The blocks from `new` to `seqTail` go before the head. -/
def linkHead (q : MessageQueue) (new seqTail : Addr) : MessageQueue :=
  let q := (q.setPrev new none).setNext seqTail q.head
  let q := match q.head with
    | some head => q.setPrev head (some seqTail)
    | none => { q with tail := some seqTail }
  { q with head := some new }

/-- mirrors Message_Queue_T.cpp:1288-1328 -/
def enqueueHeadI (q : MessageQueue) (newItem : Option Addr) : Option (Int × MessageQueue) :=
  match newItem with
  | none => some (-1, q)
  | some new =>
    match chainLoop addresses (q.incCount.addBytes new) new with
    | none => none
    | some (seqTail, q) =>
      let q := q.linkHead new seqTail
      some (truncateCast q.curCount, q)

/-- From the tail, the first block of at least the priority. -/
def findPriority (q : MessageQueue) (priority : UInt64) : Nat → Option Addr → Option (Option Addr)
  | _, none => some none
  | 0, some _ => none
  | fuel + 1, some temp =>
    if (q.block temp).priority ≥ priority then some (some temp)
    else findPriority q priority fuel (q.prev temp)

def linkBetween (q : MessageQueue) (temp new nxt : Addr) : MessageQueue :=
  (((q.setPrev new (some temp)).setNext new (some nxt)).setPrev nxt (some new)).setNext temp (some new)

/-- mirrors Message_Queue_T.cpp:1333-1399 -/
def enqueueI (q : MessageQueue) (newItem : Option Addr) : Option (Int × MessageQueue) :=
  match newItem with
  | none => some (-1, q)
  | some new =>
    let q := q.setNext new none
    if q.head = none then q.enqueueHeadI (some new)
    else
      match q.findPriority (q.block new).priority addresses q.tail with
      | none => none
      | some none => q.enqueueHeadI (some new)
      | some (some temp) =>
        match q.next temp with
        | none => q.enqueueTailI (some new)
        | some nxt =>
          let q := ((q.linkBetween temp new nxt).addBytes new).incCount
          some (truncateCast q.curCount, q)

/-- What the dequeue operations do once the block is out of the list. -/
def finishDequeue (q : MessageQueue) (dequeued : Addr) : MessageQueue :=
  let q := q.subBytes dequeued
  let q := if q.curCount = 0 ∧ q.head = q.tail then { q with head := none, tail := none } else q
  (q.setPrev dequeued none).setNext dequeued none

/-- The head moves on from `firstItem`. -/
def dropHead (q : MessageQueue) (firstItem : Addr) : MessageQueue :=
  let q := { q with head := q.next firstItem }
  match q.head with
  | none => { q with tail := none }
  | some head => q.setPrev head none

/-- The second result is the block dequeued.
mirrors Message_Queue_T.cpp:1475-1519 -/
def dequeueHeadI (q : MessageQueue) : Option (Int × Option Addr × MessageQueue) :=
  match q.head with
  | none => some (-1, none, q)
  | some firstItem =>
    let q := (q.dropHead firstItem).finishDequeue firstItem
    some (truncateCast q.curCount, some firstItem, q)

/-- From the tail, the last block that is of no higher priority than those seen. -/
def choosePrio (q : MessageQueue) :
    Nat → Option Addr → UInt64 → Option Addr → Option (Option Addr)
  | _, none, _, chosen => some chosen
  | 0, some _, _, _ => none
  | fuel + 1, some temp, priority, chosen =>
    if (q.block temp).priority ≤ priority then
      choosePrio q fuel (q.prev temp) (q.block temp).priority (some temp)
    else choosePrio q fuel (q.prev temp) priority chosen

/-- `next` of the block before, or `head_`. -/
def unlinkNext (q : MessageQueue) (chosen : Addr) : MessageQueue :=
  match q.prev chosen with
  | none => { q with head := q.next chosen }
  | some before => q.setNext before (q.next chosen)

/-- `prev` of the block behind, or `tail_`. -/
def unlinkPrev (q : MessageQueue) (chosen : Addr) : MessageQueue :=
  match q.next chosen with
  | none => { q with tail := q.prev chosen }
  | some behind => q.setPrev behind (q.prev chosen)

def unlink (q : MessageQueue) (chosen : Addr) : MessageQueue := (q.unlinkNext chosen).unlinkPrev chosen

/-- mirrors Message_Queue_T.cpp:1523-1593 -/
def dequeuePrioI (q : MessageQueue) : Option (Int × Option Addr × MessageQueue) :=
  match q.head with
  | none => some (-1, none, q)
  | some head =>
    match q.choosePrio addresses q.tail (UInt64.ofNat (2 ^ 64 - 1)) none with
    | none => none
    | some chosen =>
      let chosen := chosen.getD head
      let q := (q.unlink chosen).finishDequeue chosen
      some (truncateCast q.curCount, some chosen, q)

/-- The tail moves back from `dequeued`. -/
def dropTail (q : MessageQueue) (dequeued : Addr) : MessageQueue :=
  match q.prev dequeued with
  | none => { q with head := none, tail := none }
  | some before => { q.setNext before none with tail := some before }

/-- mirrors Message_Queue_T.cpp:1599-1644 -/
def dequeueTailI (q : MessageQueue) : Option (Int × Option Addr × MessageQueue) :=
  match q.head with
  | none => some (-1, none, q)
  | some _ =>
    match q.tail with
    | none => none
    | some dequeued =>
      let q := (q.dropTail dequeued).finishDequeue dequeued
      some (truncateCast q.curCount, some dequeued, q)

/-- The blocks released, in order. -/
def flushLoop : Nat → MessageQueue → Option (List Addr × MessageQueue)
  | fuel, q =>
    match q.head with
    | none => some ([], q)
    | some temp =>
      match fuel with
      | 0 => none
      | fuel + 1 =>
        (flushLoop fuel { q.subBytes temp with head := q.next temp }).map fun r => (temp :: r.1, r.2)

/-- The number of blocks released, and the blocks.
mirrors Message_Queue_T.cpp:1096-1134 -/
def flushI (q : MessageQueue) : Option (Nat × List Addr × MessageQueue) :=
  (flushLoop addresses { q with tail := none }).map fun (released, q) =>
    (released.length, released, q)

end MessageQueue

end Atcd.Message
