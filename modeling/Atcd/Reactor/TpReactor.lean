import Atcd.Reactor.Registration
/-!
# Thread-pool reactor

Any number of threads call `handle_events`. The one that holds the token waits in
`select`, picks a ready handle, suspends it, gives the token away and makes the
upcall; afterwards it takes the token again to resume the handle. What is done under
the token is one step here. The steps of different threads come in any order.

Each upcall is listed with the events that were last requested for its handle: those
waited for when it was picked, changed by its own requests.
-/
namespace Atcd.Reactor

open Atcd.Core SelectReactor

/-- `ACE_EH_Dispatch_Info`, with the events last requested for the handle. -/
structure DispatchInfo where
  handle : Int
  eventHandler : EventHandler
  event : IoEvent
  requested : IoEvent → Bool

/-- The notification pipe: its handle and the handler registered for it. -/
structure NotifyPipe where
  handle : Int
  handler : EventHandler

/-- What a thread meets under the token: what `select` leaves, whether a timer is due,
and whether there is a message to dispatch if the pipe is ready. -/
structure TpInput where
  selected : Option HandleSets
  timer : Bool
  message : Bool

/-- The reactor, and the upcall that each thread is in. -/
structure TpSys where
  reactor : SelectReactor
  upcalls : Nat → Option DispatchInfo

namespace SelectReactor

/-- The set after `sync (max_set ())`: the words up to that of the bit before the largest.
mirrors ACE/ace/Handle_Set.cpp:187-204 -/
def resync (s : Finset Int) : Finset Int := s.filter fun h => h / 64 ≤ (maxSet s - 1).tdiv 64

/-- The remembered bits are dropped if the state changed.
mirrors ACE/ace/TP_Reactor.cpp:420-441 -/
def remembered (r : SelectReactor) : SelectReactor :=
  if r.stateChanged then { r with readySet := .empty, stateChanged := false }
  else
    { r with readySet :=
      ⟨resync r.readySet.rdMask, resync r.readySet.wrMask, resync r.readySet.exMask⟩ }

/-- The count that the rest goes by; the bits are in the ready set.
mirrors TP_Reactor.cpp:419-444, ACE/ace/Select_Reactor_T.cpp:1074-1147 -/
def getEventForDispatching (r : SelectReactor) (selected : Option HandleSets) : SelectReactor × Int :=
  let r := r.remembered
  if 0 < r.readySet.numSet then (r, r.readySet.numSet)
  else
    match selected with
    | some sets => ({ r with readySet := sets }, sets.numSet)
    | none => ({ r with readySet := .empty }, -1)

/-- The first handle of the ready set of the event that is not suspended. -/
def firstReady (r : SelectReactor) (e : IoEvent) : Option (Int × IoEvent) :=
  (firstHandle ((r.readySet.mask e).filter fun h => ¬ r.IsSuspendedI h)).map (·, e)

/-- mirrors TP_Reactor.cpp:446-521 -/
def getSocketEventInfo (r : SelectReactor) : Option (Int × IoEvent) :=
  match r.firstReady .write with
  | some found => some found
  | none =>
    match r.firstReady .except with
    | some found => some found
    | none => r.firstReady .read

/-- mirrors ACE/ace/TP_Reactor.inl:99-105 -/
def clearHandleReadSet (r : SelectReactor) (handle : Int) : SelectReactor :=
  { r with
    readySet := ((r.readySet.clrBit handle .write).clrBit handle .except).clrBit handle .read }

def waitedFor (r : SelectReactor) (handle : Int) (e : IoEvent) : Bool := decide (r.waitSet.IsSet handle e)

/-- The part of `handle_socket_events` under the token.
mirrors TP_Reactor.cpp:365-417 -/
def handleSocketEvents (pipe : NotifyPipe) (r : SelectReactor) : SelectReactor × Option DispatchInfo :=
  match r.getSocketEventInfo with
  | none => (r, none)
  | some (handle, event) =>
    let r := r.clearHandleReadSet handle
    match r.find handle with
    | none => ((r.unbind handle event.toMask).1, none)
    | some eh =>
      let info := ⟨handle, eh, event, r.waitedFor handle⟩
      let r := if eh = pipe.handler then r else (r.suspendI handle).1
      (if eh.counted then r.log (.addReference handle eh) else r, some info)

/-- Notifications are read where the pipe is ready; a message to dispatch ends the call.
mirrors TP_Reactor.cpp:314-363,634-651 -/
def handleNotifyEvents (pipe : NotifyPipe) (message : Bool) (r : SelectReactor) : SelectReactor × Bool :=
  if pipe.handle ≠ -1 ∧ r.readySet.IsSet pipe.handle .read then
    ({ r with readySet := r.readySet.clrBit pipe.handle .read }, message)
  else (r, false)

/-- The part of `dispatch_i` under the token, and the upcall that follows it.
mirrors TP_Reactor.cpp:174-252 -/
def dispatchI (pipe : NotifyPipe) (input : TpInput) (r : SelectReactor) :
    SelectReactor × Option DispatchInfo :=
  let (r, eventCount) := r.getEventForDispatching input.selected
  if input.timer then (r, none)
  else
    let (r, dispatched) :=
      if 0 < eventCount then r.handleNotifyEvents pipe input.message else (r, false)
    if dispatched then (r, none)
    else
      let (r, info) := if 0 < eventCount then r.handleSocketEvents pipe else (r, none)
      if info.isNone ∧ eventCount ≠ 0 then ({ r with stateChanged := true }, info)
      else (r, info)

/-- mirrors TP_Reactor.cpp:549-605 -/
def postProcessSocketEvent (pipe : NotifyPipe) (info : DispatchInfo) (status : Int) (r : SelectReactor) :
    SelectReactor :=
  let resumes := info.eventHandler ≠ pipe.handler ∧ info.eventHandler.reactorResumes = true
  let r :=
    if status < 0 ∨ resumes then
      if r.find info.handle = some info.eventHandler then
        let r := if status < 0 then (r.unbind info.handle info.event.toMask).1 else r
        if resumes then (r.resumeI info.handle).1 else r
      else r
    else r
  if info.eventHandler.counted then r.log (.removeReference info.handle info.eventHandler) else r

end SelectReactor

instance (ops : MaskOp) (p q : Prop) [Decidable p] [Decidable q] : Decidable (OpResult ops p q) := by
  cases ops <;> unfold OpResult <;> infer_instance

namespace DispatchInfo

/-- The events requested after a `mask_ops` for the handle. -/
def request (info : DispatchInfo) (mask : Mask) (ops : MaskOp) : DispatchInfo :=
  { info with
    requested := fun e => decide (OpResult ops (selects mask e = true) (info.requested e = true)) }

end DispatchInfo

/-- The steps of the threads: `maskOps` is what `mask_ops`, `schedule_wakeup` (`add`) and
`cancel_wakeup` (`clr`) of the upcall's own handle come to. -/
inductive TpStep where
  | handleEvents (thread : Nat) (input : TpInput)
  | maskOps (thread : Nat) (mask : Mask) (ops : MaskOp)
  | scheduleWakeup (thread : Nat) (mask : Mask)
  | cancelWakeup (thread : Nat) (mask : Mask)
  /-- The upcall returned a positive status, and is made again. -/
  | again (thread : Nat)
  | finish (thread : Nat) (status : Int)

namespace TpSys

def Selects (r : SelectReactor) (selected : Option HandleSets) : Prop :=
  ∀ k ∈ (selected.getD .empty).keys, r.waitSet.IsSet k.1 k.2

instance (r : SelectReactor) (selected : Option HandleSets) : Decidable (Selects r selected) :=
  inferInstanceAs (Decidable (∀ _ ∈ _, _))

def setUpcall (s : TpSys) (thread : Nat) (info : Option DispatchInfo) : TpSys :=
  { s with upcalls := Function.update s.upcalls thread info }

/-- An operation of the upcall on its own handle. -/
def request (s : TpSys) (thread : Nat) (mask : Mask) (ops : MaskOp) : Option TpSys :=
  (s.upcalls thread).map fun info =>
    ({ s with reactor := (s.reactor.maskOps info.handle mask ops).1 }).setUpcall thread
      (some (info.request mask ops))

def step (pipe : NotifyPipe) (s : TpSys) : TpStep → Option TpSys
  | .handleEvents thread input =>
    if s.upcalls thread = none ∧ Selects s.reactor input.selected then
      let (r, info) := s.reactor.dispatchI pipe input
      some (({ s with reactor := r }).setUpcall thread info)
    else none
  | .maskOps thread mask ops => s.request thread mask ops
  | .scheduleWakeup thread mask => s.request thread mask .add
  | .cancelWakeup thread mask => s.request thread mask .clr
  | .again thread => if (s.upcalls thread).isSome then some s else none
  | .finish thread status =>
    if 0 < status then none
    else (s.upcalls thread).map fun info =>
      ({ s with reactor := s.reactor.postProcessSocketEvent pipe info status }).setUpcall thread none

end TpSys

end Atcd.Reactor
