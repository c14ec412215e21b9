import Atcd.Reactor.SelectReactor
/-!
# Notifications

`ACE_Select_Reactor_Notify` with the notification queue: notifications wait in a queue
under a lock, and a message in the pipe wakes the reactor thread. The convention is one
message in the pipe as long as the queue is not empty: the notifier that finds it empty
writes one, and the dispatcher writes the next one.

A call is cut at its accesses to the queue and the pipe, and the steps of all calls come
in any order. Calls are told apart by tickets.
-/
namespace Atcd.Reactor

/-- `ACE_Notification_Buffer` -/
structure NotificationBuffer where
  eh : Option EventHandler
  mask : Mask
  deriving DecidableEq, Repr

/-- A notification, with the ticket of its call and the mask it was called with. -/
structure Note where
  ticket : Nat
  asked : Mask
  buffer : NotificationBuffer
  deriving DecidableEq, Repr

namespace Note

/-- mirrors ACE/ace/Notification_Queue.inl:24-28 -/
def matchesForPurging (n : Note) (eh : Option EventHandler) : Bool :=
  n.buffer.eh.isSome && (eh.isNone || eh == n.buffer.eh)

/-- mirrors Notification_Queue.inl:30-37 -/
def maskDisablesAllNotifications (n : Note) (mask : Mask) : Bool := n.buffer.mask &&& ~~~mask == 0

/-- mirrors Notification_Queue.inl:39-43 -/
def clearMask (n : Note) (mask : Mask) : Note :=
  { n with buffer := { n.buffer with mask := n.buffer.mask &&& ~~~mask } }

def counted (n : Note) : Bool := n.buffer.eh.any (·.counted)

end Note

/-- The notifications in the queue, and the number of free nodes. -/
structure NotificationQueue where
  notifyQueue : List Note
  freeQueue : Nat
  deriving DecidableEq, Repr

/-- `ACE_REACTOR_NOTIFICATION_ARRAY_SIZE` -/
def notificationArraySize : Nat := 1024

namespace NotificationQueue

/-- The loop of `purge_pending_notifications`: what stays in the queue, and what is purged.
mirrors ACE/ace/Notification_Queue.cpp:99-153 -/
def purgeLoop (eh : Option EventHandler) (mask : Mask) : List Note → List Note × List Note
  | [] => ([], [])
  | node :: rest =>
    let (kept, purged) := purgeLoop eh mask rest
    if !node.matchesForPurging eh then (node :: kept, purged)
    else if !node.maskDisablesAllNotifications mask then (node.clearMask mask :: kept, purged)
    else (kept, node :: purged)

def purgePendingNotifications (q : NotificationQueue) (eh : Option EventHandler) (mask : Mask) :
    NotificationQueue × List Note :=
  let (kept, purged) := purgeLoop eh mask q.notifyQueue
  (⟨kept, q.freeQueue + purged.length⟩, purged)

/-- 1 if a message has to be sent through the pipe, 0 if not, -1 for a failed allocation.
mirrors Notification_Queue.cpp:155-190 -/
def pushNewNotification (q : NotificationQueue) (n : Note) (allocated : Bool) : NotificationQueue × Int :=
  if q.freeQueue = 0 ∧ allocated = false then (q, -1)
  else
    let free := if q.freeQueue = 0 then notificationArraySize else q.freeQueue
    (⟨q.notifyQueue ++ [n], free - 1⟩, if q.notifyQueue.isEmpty then 1 else 0)

/-- The first notification, and the one after it.
mirrors Notification_Queue.cpp:192-221 -/
def popNextNotification (q : NotificationQueue) : Option (Note × Option NotificationBuffer × NotificationQueue) :=
  match q.notifyQueue with
  | [] => none
  | current :: rest => some (current, rest.head?.map (·.buffer), ⟨rest, q.freeQueue + 1⟩)

end NotificationQueue

/-- The methods of a handler that a notification calls. -/
inductive HandlerMethod where
  | handleInput | handleOutput | handleException | handleQos | handleGroupQos
  deriving DecidableEq, Repr

/-- The switch of `dispatch_notify`; none for an invalid mask.
mirrors ACE/ace/Select_Reactor_Base.cpp:823-847 -/
def methodFor (mask : Mask) : Option HandlerMethod :=
  if mask = readMask ∨ mask = acceptMask then some .handleInput
  else if mask = writeMask then some .handleOutput
  else if mask = exceptMask then some .handleException
  else if mask = qosMask then some .handleQos
  else if mask = groupQosMask then some .handleGroupQos
  else none

/-- Where the dispatcher is: between messages, with a message read, or with a notification
taken from the queue and maybe the next one to be sent. -/
inductive Dispatcher where
  | idle
  | received (buffer : NotificationBuffer)
  | popped (current : Note) (next : Option NotificationBuffer)
  deriving DecidableEq, Repr

/-- The queue and the pipe, the calls in progress, and what became of the others. -/
structure NotifySys where
  queue : NotificationQueue
  pipe : List NotificationBuffer
  /-- The calls of `notify` that write to the pipe. -/
  writing : List Note
  dispatcher : Dispatcher
  tickets : Nat
  /-- The calls that returned 0, and those that returned -1. -/
  succeeded : List Nat
  failed : List Nat
  /-- The notifications dispatched, with the call that was made, and those purged. -/
  dispatched : List (Note × Option HandlerMethod)
  purged : List Note
  /-- The calls whose reference to a counted handler is not given back yet. -/
  references : List Nat
  deriving DecidableEq

inductive NotifyStep where
  /-- `notify` up to the queue; `allocated` for the case that there is no free node. -/
  | push (eh : Option EventHandler) (mask : Mask) (allocated : Bool)
  /-- The write of a `notify`, and its return. -/
  | write (ticket : Nat) (ok : Bool)
  | purge (eh : Option EventHandler) (mask : Mask)
  /-- The dispatcher reads a message, takes a notification, sends the next one, and calls. -/
  | receive
  | pop
  | send
  | upcall
  deriving DecidableEq, Repr

namespace NotifySys

def fresh : NotifySys := ⟨⟨[], notificationArraySize⟩, [], [], .idle, 0, [], [], [], [], []⟩

/-- `remove_reference` for each of the notifications that has a reference. -/
def giveBack (references : List Nat) (notes : List Note) : List Nat :=
  references.diff ((notes.filter (·.counted)).map (·.ticket))

/-- `add_reference`, and the push.
mirrors Select_Reactor_Base.cpp:672-709 -/
def push (s : NotifySys) (eh : Option EventHandler) (mask : Mask) (allocated : Bool) : NotifySys :=
  let n : Note := ⟨s.tickets, mask, ⟨eh, mask⟩⟩
  let s := { s with
    tickets := s.tickets + 1
    references := if n.counted then n.ticket :: s.references else s.references }
  let (queue, notificationRequired) := s.queue.pushNewNotification n allocated
  if notificationRequired = -1 then
    { s with failed := n.ticket :: s.failed, references := giveBack s.references [n] }
  else if notificationRequired = 0 then { s with queue, succeeded := n.ticket :: s.succeeded }
  else { s with queue, writing := n :: s.writing }

/-- A failed write gives the reference back, and leaves the queue as it is.
mirrors Select_Reactor_Base.cpp:711-723 -/
def write (s : NotifySys) (n : Note) (ok : Bool) : NotifySys :=
  let s := { s with writing := s.writing.erase n }
  if ok then { s with pipe := s.pipe ++ [n.buffer], succeeded := n.ticket :: s.succeeded }
  else { s with failed := n.ticket :: s.failed, references := giveBack s.references [n] }

/-- The message that was read says only that there is one: `dispatch_notify` takes the
notification from the queue.
mirrors Select_Reactor_Base.cpp:783-861,919-958 -/
def step (s : NotifySys) : NotifyStep → Option NotifySys
  | .push eh mask allocated => some (s.push eh mask allocated)
  | .write ticket ok => (s.writing.find? (·.ticket = ticket)).map fun n => s.write n ok
  | .purge eh mask =>
    let (queue, purged) := s.queue.purgePendingNotifications eh mask
    some { s with
      queue
      purged := purged ++ s.purged
      references := giveBack s.references purged }
  | .receive =>
    match s.dispatcher, s.pipe with
    | .idle, buffer :: pipe => some { s with pipe, dispatcher := .received buffer }
    | _, _ => none
  | .pop =>
    match s.dispatcher with
    | .received _ =>
      match s.queue.popNextNotification with
      | none => some { s with dispatcher := .idle }
      | some (current, next, queue) => some { s with queue, dispatcher := .popped current next }
    | _ => none
  | .send =>
    match s.dispatcher with
    | .popped current (some next) =>
      some { s with pipe := s.pipe ++ [next], dispatcher := .popped current none }
    | _ => none
  | .upcall =>
    match s.dispatcher with
    | .popped current none =>
      some { s with
        dispatcher := .idle
        dispatched := (current, current.buffer.eh.bind fun _ => methodFor current.buffer.mask) :: s.dispatched
        references := giveBack s.references [current] }
    | _ => none

end NotifySys

end Atcd.Reactor
