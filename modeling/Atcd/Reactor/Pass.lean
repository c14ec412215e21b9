import Atcd.Reactor.Registration
/-!
# One pass of the select reactor

`handle_events_i`: wait in `select`, then dispatch timers, notifications and the
ready handles, the latter under a budget of active handles. The upcalls are given by
their requests to the reactor and the status they return. A handler that is removed
may make requests in `handle_close` as well: they follow the removal, since `unbind`
touches no table after that call.

The trace of a pass lists the turns of ready bits and the requests, each with the
state it was made in. The events of a trace are listed from the latest on.
-/
namespace Atcd.Reactor

inductive PassEvent where
  /-- The bit is dispatched: by an upcall, or by none where the handle has no handler. -/
  | turn (k : Key) (upcall : Bool)
  | request (before : SelectReactor) (op : SelectReactor.SelectOp)

/-- An upcall: its requests, what it returns, and the requests of `handle_close` where
the reactor then removes the handler. -/
structure Upcall where
  ops : List SelectReactor.SelectOp
  status : Int
  closeOps : List SelectReactor.SelectOp

/-- The notification pipe, as far as a pass asks. -/
structure Notify where
  readHandle : Int
  maxNotifyIterations : Int

/-- What a pass meets. -/
structure PassInput where
  /-- The sets that `select` leaves, or no result for -1. -/
  selected : Option HandleSets
  sigPending : Bool
  /-- What the n-th `expire` counts, and the requests of its upcalls. -/
  timers : Nat → Int × List SelectReactor.SelectOp
  /-- The requests of the upcall for each message in the pipe. -/
  messages : List (List SelectReactor.SelectOp)
  /-- The requests of other threads, at `renew`. -/
  renewOps : List SelectReactor.SelectOp
  /-- The upcall for a ready bit, as the n-th of the pass. -/
  upcalls : Key → Nat → Upcall

/-- The reactor, the number of upcalls for ready handles so far, and the trace. -/
structure Pass where
  reactor : SelectReactor
  upcallsMade : Nat
  trace : List PassEvent

namespace SelectReactor

/-- mirrors ACE/ace/Select_Reactor_T.cpp:55-81 -/
def anyReady (r : SelectReactor) : SelectReactor × Int :=
  if 0 < r.readySet.numSet then
    ({ r with dispatchSet := r.readySet, readySet := .empty }, r.readySet.numSet)
  else (r, 0)

/-- mirrors Select_Reactor_T.cpp:1074-1147 -/
def waitForMultipleEvents (r : SelectReactor) (selected : Option HandleSets) : SelectReactor × Int :=
  let (r, numberOfActiveHandles) := r.anyReady
  if numberOfActiveHandles = 0 then
    match selected with
    | some sets => ({ r with dispatchSet := sets }, sets.numSet)
    | none => ({ r with dispatchSet := .empty }, -1)
  else (r, numberOfActiveHandles)

end SelectReactor

namespace Pass

open SelectReactor

def request (p : Pass) (op : SelectOp) : Pass :=
  { p with reactor := p.reactor.apply op, trace := .request p.reactor op :: p.trace }

def requests (p : Pass) (ops : List SelectOp) : Pass := ops.foldl request p

def log (p : Pass) (c : Call) : Pass := { p with reactor := p.reactor.log c }

def turn (p : Pass) (k : Key) (upcall : Bool) : Pass := { p with trace := .turn k upcall :: p.trace }

/-- The part of `notify_handle` that follows the upcall. -/
def afterUpcall (p : Pass) (k : Key) (u : Upcall) : Pass :=
  if u.status < 0 then (p.request (.removeHandler k.1 k.2.toMask)).requests u.closeOps
  else if 0 < u.status then
    { p with reactor := { p.reactor with readySet := p.reactor.readySet.setBit k.1 k.2 } }
  else p

/-- mirrors Select_Reactor_T.cpp:804-835 -/
def notifyHandle (input : PassInput) (p : Pass) (k : Key) : Pass :=
  match p.reactor.find k.1 with
  | none => p.turn k false
  | some eh =>
    let p := if eh.counted then p.log (.addReference k.1 eh) else p
    let u := input.upcalls k p.upcallsMade
    let p := { p.turn k true with upcallsMade := p.upcallsMade + 1 }
    let p := (p.requests u.ops).afterUpcall k u
    if eh.counted then p.log (.removeReference k.1 eh) else p

/-- The bit is done, and the iterator starts over: `clear_dispatch_mask` has set
`state_changed_`. -/
def clear (p : Pass) (k : Key) : Pass :=
  { p with reactor := { p.reactor.clearDispatchMask k.1 k.2.toMask with stateChanged := false } }

/-- mirrors Select_Reactor_T.cpp:1188-1226 -/
def dispatchIoSet (input : PassInput) (e : IoEvent) (numberOfActiveHandles : Int) :
    Nat → Pass → Int → Option (Pass × Int)
  | 0, _, _ => none
  | fuel + 1, p, numberOfHandlersDispatched =>
    match firstHandle (p.reactor.dispatchSet.mask e) with
    | none => some (p, numberOfHandlersDispatched)
    | some handle =>
      if numberOfHandlersDispatched < numberOfActiveHandles then
        dispatchIoSet input e numberOfActiveHandles fuel ((p.notifyHandle input (handle, e)).clear (handle, e))
          (numberOfHandlersDispatched + 1)
      else some (p, numberOfHandlersDispatched)

/-- The number of handlers dispatched so far; `number_of_active_handles` goes down by it.
mirrors Select_Reactor_T.cpp:1228-1279 -/
def dispatchIoHandlers (input : PassInput) (fuel : Nat) (p : Pass) (numberOfActiveHandles : Int)
    (numberOfHandlersDispatched : Int) : Option (Pass × Int) := do
  let (p, n) ← dispatchIoSet input .write numberOfActiveHandles fuel p numberOfHandlersDispatched
  let (p, n) ← dispatchIoSet input .except numberOfActiveHandles fuel p n
  dispatchIoSet input .read numberOfActiveHandles fuel p n

/-- The loop of `handle_input` over the messages in the pipe.
mirrors ACE/ace/Select_Reactor_Base.cpp:919-958 -/
def handleInput (n : Notify) : List (List SelectOp) → Pass → Int → Pass × Int
  | [], p, numberDispatched => (p, numberDispatched)
  | message :: messages, p, numberDispatched =>
    let p := p.requests message
    if numberDispatched + 1 = n.maxNotifyIterations then (p, numberDispatched + 1)
    else handleInput n messages p (numberDispatched + 1)

/-- `number_of_active_handles` after the notifications, and their number: it goes down
in `dispatch_notifications` and in the caller.
mirrors Select_Reactor_Base.cpp:729-747, Select_Reactor_T.cpp:1158-1186 -/
def dispatchNotificationHandlers (n : Notify) (input : PassInput) (p : Pass)
    (numberOfActiveHandles : Int) : Pass × Int × Int :=
  if n.readHandle ≠ -1 ∧ p.reactor.dispatchSet.IsSet n.readHandle .read then
    let p := { p with reactor :=
      { p.reactor with dispatchSet := p.reactor.dispatchSet.clrBit n.readHandle .read } }
    let (p, dispatched) := p.handleInput n input.messages 0
    (p.requests input.renewOps, numberOfActiveHandles - 1 - dispatched, dispatched)
  else (p, numberOfActiveHandles, 0)

/-- The end of the loop body: the count is looked up again if it did not go down, or if
the state changed. -/
def reevaluate (p : Pass) (initialHandleCount activeHandleCount : Int) : Pass × Int :=
  if initialHandleCount = activeHandleCount ∨ p.reactor.stateChanged = true then
    ({ p with reactor := p.reactor.anyReady.1 }, p.reactor.anyReady.2)
  else (p, activeHandleCount)

/-- The do-while loop.
mirrors Select_Reactor_T.cpp:1281-1390 -/
def dispatch (n : Notify) (input : PassInput) (setFuel : Nat) :
    Nat → Nat → Pass → Int → Int → Int → Option (Pass × Int)
  | 0, _, _, _, _, _ => none
  | fuel + 1, iteration, p, activeHandleCount, ioHandlersDispatched, otherHandlersDispatched => do
    let p := { p with reactor := { p.reactor with stateChanged := false } }
    if activeHandleCount = -1 then
      if input.sigPending then
        -- the count that `any_ready` gives: the loop ends where it is 0
        let (p, active) := ({ p with reactor := p.reactor.anyReady.1 }, p.reactor.anyReady.2)
        let (p, active) := reevaluate p activeHandleCount active
        if 0 < active then
          dispatch n { input with sigPending := false } setFuel fuel iteration p active
            ioHandlersDispatched (otherHandlersDispatched + 1)
        else some (p, ioHandlersDispatched + otherHandlersDispatched + 1)
      else some (p, -1)
    else
      let (expired, ops) := input.timers iteration
      let p := p.requests ops
      let other := otherHandlersDispatched + expired
      if activeHandleCount = 0 then some (p, ioHandlersDispatched + other)
      else
        let (p, active, dispatched) := p.dispatchNotificationHandlers n input activeHandleCount
        let (p, io) ← p.dispatchIoHandlers input setFuel active ioHandlersDispatched
        let (p, active) := reevaluate p activeHandleCount (active - io)
        if 0 < active then
          dispatch n input setFuel fuel (iteration + 1) p active io (other + dispatched)
        else some (p, io + (other + dispatched))

/-- mirrors Select_Reactor_T.cpp:1440-1476 -/
def handleEventsI (n : Notify) (input : PassInput) (fuel : Nat) (r : SelectReactor) :
    Option (Pass × Int) :=
  let (r, numberOfActiveHandles) :=
    waitForMultipleEvents { r with dispatchSet := .empty } input.selected
  dispatch n input fuel fuel 0 ⟨r, 0, []⟩ numberOfActiveHandles 0 0

end Pass

end Atcd.Reactor
