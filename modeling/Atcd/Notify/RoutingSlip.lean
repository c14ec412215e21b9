import Atcd.Core.Run
/-!
# Routing slips that share a persistence queue

A routing slip takes an event to its destinations and keeps it in persistent storage until it
has been delivered. Three parties drive its state machine: the deliveries, the queue that lets
a few slips at a time use the storage, and the storage.

A step is what a thread does under one guard; what it does after it has released the guard are
frames on its stack. A thread is there for each call from outside: the channel's `route`, the
storage's callback, a delivery. Calls inside of a call are frames on top of the others.

Beside the state there is a log of what has been asked of the storage, the slips that have
entered `rssTERMINAL`, and whether a call met a state that it reports as unexpected or an
assertion failed.
-/
namespace Atcd.Notify
open Atcd.Core

/-- mirrors TAO/orbsvcs/orbsvcs/Notify/Routing_Slip.h:183-198 -/
inductive State
  | rssCREATING
  | rssTRANSIENT
  | rssRELOADED
  | rssNEW
  | rssCOMPLETE_WHILE_NEW
  | rssSAVING
  | rssSAVED
  | rssUPDATING
  | rssCHANGED_WHILE_SAVING
  | rssCHANGED
  | rssCOMPLETE
  | rssDELETING
  | rssTERMINAL
deriving DecidableEq

/-- What a delivery request is for. A lookup finds the proxies that a dispatch goes to. -/
inductive Kind
  | lookup
  | dispatch
deriving DecidableEq

/-- A call of the persistence manager. -/
inductive Op
  | store
  | update
  | remove
deriving DecidableEq

/-- What a thread does next. -/
inductive Frame
  /-- `Routing_Slip_Queue::add`. -/
  | add (i : Nat)
  /-- `at_front_of_persist_queue`. -/
  | atFront (i : Nat)
  /-- `Routing_Slip_Queue::complete`. -/
  | complete
  | persist (i : Nat) (op : Op)
  /-- `enter_state_terminal` or `enter_state_transient` with the guard released. -/
  | terminal (i : Nat)
  | transient (i : Nat)
deriving DecidableEq

/-- What a call leaves to be done and what is to be noted about it. -/
structure Out where
  frames : List Frame := []
  terminal : Bool := false
  unexpected : Bool := false

structure RoutingSlip where
  state : State
  /-- Null where the request is complete. -/
  delivery_requests : List (Option Kind)
  complete_requests : Nat
  is_safe : Bool
  /-- Not null. -/
  rspm : Bool
deriving DecidableEq

namespace RoutingSlip

/-- mirrors TAO/orbsvcs/orbsvcs/Notify/Routing_Slip.cpp:165-182 -/
def new : RoutingSlip := ⟨.rssCREATING, [], 0, false, false⟩

/-- mirrors Routing_Slip.cpp:570-574 -/
def allDeliveriesComplete (s : RoutingSlip) : Bool :=
  s.complete_requests == s.delivery_requests.length

/-- mirrors Routing_Slip.cpp:576-581 -/
def addToPersistQueue (s : RoutingSlip) (i : Nat) : RoutingSlip × Out :=
  (s, { frames := [.add i] })

/-! ## State transitions -/

/-- mirrors Routing_Slip.cpp:816-828 -/
def enterStateTerminal (s : RoutingSlip) : RoutingSlip × Out :=
  ({ s with state := .rssTERMINAL }, { terminal := true, unexpected := !s.is_safe })

/-- mirrors Routing_Slip.cpp:638-660 -/
def enterStateTransient (s : RoutingSlip) : RoutingSlip × Out :=
  let s := { s with state := .rssTRANSIENT, is_safe := true }
  if s.allDeliveriesComplete then s.enterStateTerminal else (s, {})

/-- mirrors Routing_Slip.cpp:662-674 -/
def continueStateTransient (s : RoutingSlip) : RoutingSlip × Out :=
  if s.allDeliveriesComplete then s.enterStateTerminal else (s, {})

/-- mirrors Routing_Slip.cpp:586-596 -/
def enterStateNew (s : RoutingSlip) (i : Nat) : RoutingSlip × Out :=
  { s with state := .rssNEW }.addToPersistQueue i

/-- mirrors Routing_Slip.cpp:608-624 -/
def enterStateCompleteWhileNew (s : RoutingSlip) : RoutingSlip × Out :=
  ({ s with is_safe := true, state := .rssCOMPLETE_WHILE_NEW }, {})

/-- mirrors Routing_Slip.cpp:598-607 -/
def continueStateNew (s : RoutingSlip) : RoutingSlip × Out :=
  if s.allDeliveriesComplete then s.enterStateCompleteWhileNew else (s, {})

/-- `created` is whether the strategy's factory makes a persistence manager, if there is none.
mirrors Routing_Slip.cpp:192-209, 675-706 -/
def enterStateSaving (s : RoutingSlip) (i : Nat) (created : Bool) : RoutingSlip × Out :=
  if !s.rspm && !created then (s, { frames := [.complete, .transient i] })
  else ({ s with rspm := true, state := .rssSAVING }, { frames := [.persist i .store] })

/-- mirrors Routing_Slip.cpp:708-718 -/
def enterStateSaved (s : RoutingSlip) : RoutingSlip × Out := ({ s with state := .rssSAVED }, {})

/-- mirrors Routing_Slip.cpp:720-737 -/
def enterStateUpdating (s : RoutingSlip) (i : Nat) : RoutingSlip × Out :=
  ({ s with state := .rssUPDATING }, { frames := [.persist i .update], unexpected := !s.rspm })

/-- mirrors Routing_Slip.cpp:740-750 -/
def enterStateChangedWhileSaving (s : RoutingSlip) : RoutingSlip × Out :=
  ({ s with state := .rssCHANGED_WHILE_SAVING }, {})

/-- mirrors Routing_Slip.cpp:752-757 -/
def continueStateChangedWhileSaving (s : RoutingSlip) : RoutingSlip × Out := (s, {})

/-- mirrors Routing_Slip.cpp:791-801 -/
def enterStateComplete (s : RoutingSlip) : RoutingSlip × Out :=
  ({ s with state := .rssCOMPLETE }, {})

/-- mirrors Routing_Slip.cpp:759-775 -/
def enterStateChanged (s : RoutingSlip) (i : Nat) : RoutingSlip × Out :=
  let s := { s with state := .rssCHANGED }
  (if s.allDeliveriesComplete then s.enterStateComplete.1 else s).addToPersistQueue i

/-- mirrors Routing_Slip.cpp:777-789 -/
def continueStateChanged (s : RoutingSlip) : RoutingSlip × Out :=
  if s.allDeliveriesComplete then s.enterStateComplete else (s, {})

/-- mirrors Routing_Slip.cpp:803-814 -/
def enterStateDeleting (s : RoutingSlip) (i : Nat) : RoutingSlip × Out :=
  ({ s with state := .rssDELETING }, { frames := [.persist i .remove], unexpected := !s.rspm })

/-! ## Calls -/

/-- The event's reliability, if it is set, says whether a reliable channel keeps it.
mirrors Routing_Slip.cpp:227-280 -/
def route (s : RoutingSlip) (i : Nat) (reliable_channel strategy : Bool)
    (reliable : Option Bool) : RoutingSlip × Out :=
  let s := { s with delivery_requests := s.delivery_requests ++ [some .lookup] }
  if s.state = .rssCREATING then
    if !reliable_channel || !strategy then s.enterStateTransient
    else if reliable.getD true then s.enterStateNew i
    else s.enterStateTransient
  else (s, {})

/-- mirrors Routing_Slip.cpp:333-379 -/
def dispatch (s : RoutingSlip) (has_shutdown : Bool) : RoutingSlip × Out :=
  (if has_shutdown then s
    else { s with delivery_requests := s.delivery_requests ++ [some .dispatch] },
    { unexpected := s.state == .rssCREATING })

/-- What `unmarshal` and `reconnect` make of a slip that has been stored with these requests.
mirrors Routing_Slip.cpp:846-915 -/
def reconnect (requests : List Kind) : RoutingSlip :=
  let s := { new with delivery_requests := requests.map some, rspm := true }
  s.enterStateSaved.1

/-- mirrors Routing_Slip.cpp:384-446 -/
def deliveryRequestComplete (s : RoutingSlip) (i request_id : Nat) : RoutingSlip × Out :=
  let s := { s with
    delivery_requests := s.delivery_requests.set request_id none
    complete_requests := s.complete_requests + 1 }
  match s.state with
  | .rssTRANSIENT => s.continueStateTransient
  | .rssNEW => s.continueStateNew
  | .rssSAVING => s.enterStateChangedWhileSaving
  | .rssUPDATING => s.enterStateChangedWhileSaving
  | .rssSAVED => s.enterStateChanged i
  | .rssCHANGED_WHILE_SAVING => s.continueStateChangedWhileSaving
  | .rssCHANGED => s.continueStateChanged
  | _ => (s, { unexpected := true })

/-- mirrors Routing_Slip.cpp:448-503 -/
def atFrontOfPersistQueue (s : RoutingSlip) (i : Nat) (created : Bool) : RoutingSlip × Out :=
  match s.state with
  | .rssNEW => s.enterStateSaving i created
  | .rssCOMPLETE_WHILE_NEW => (s, { frames := [.complete, .terminal i] })
  | .rssCHANGED => s.enterStateUpdating i
  | .rssCOMPLETE => s.enterStateDeleting i
  | _ => (s, { unexpected := true })

/-- mirrors Routing_Slip.cpp:505-565 -/
def persistComplete (s : RoutingSlip) (i : Nat) : RoutingSlip × Out :=
  let s := { s with is_safe := true }
  let (s, out) :=
    match s.state with
    | .rssSAVING => s.enterStateSaved
    | .rssCHANGED_WHILE_SAVING => s.enterStateChanged i
    | .rssUPDATING => s.enterStateSaved
    | .rssDELETING => s.enterStateTerminal
    | _ => (s, { unexpected := true })
  (s, { out with frames := out.frames ++ [.complete] })

end RoutingSlip

/-! ## The slips and their queue -/

structure System where
  slips : List RoutingSlip
  queue : List Nat
  active : Nat
  threads : List (List Frame)
  /-- The slips whose callback is due. -/
  callbacks : List Nat
  log : List (Nat × Op)
  terminals : List Nat
  unexpected : Bool

/-- What happens next. A lookup or a dispatch may be done as soon as its request is there. -/
inductive Label
  /-- A slip is made and routed. -/
  | route (reliable_channel strategy : Bool) (reliable : Option Bool)
  /-- A slip is reloaded from the storage. -/
  | reconnect (requests : List Kind)
  /-- The lookup `request_id` of slip `i` finds a proxy. -/
  | dispatch (i request_id : Nat) (has_shutdown : Bool)
  | deliveryRequestComplete (i request_id : Nat)
  | persistComplete (i : Nat)
  /-- Thread `t` takes its next frame. -/
  | resume (t : Nat) (created : Bool)

namespace System

def init : System := ⟨[], [], 0, [], [], [], [], false⟩

/-- `dispatch_one` returns false whatever it has done, so that one slip at most is sent on.
mirrors TAO/orbsvcs/orbsvcs/Notify/Routing_Slip_Queue.cpp:51-85 -/
def queueDispatch (σ : System) (allowed : Nat) : System × List Frame :=
  if σ.active < allowed then
    match σ.queue with
    | [] => (σ, [])
    | i :: queue => ({ σ with queue := queue, active := σ.active + 1 }, [.atFront i])
  else (σ, [])

/-- mirrors Routing_Slip_Queue.cpp:26-41 -/
def queueAdd (σ : System) (allowed i : Nat) : System × List Frame :=
  if allowed = 0 then ({ σ with active := σ.active + 1 }, [.atFront i])
  else { σ with queue := σ.queue ++ [i] }.queueDispatch allowed

/-- mirrors Routing_Slip_Queue.cpp:43-49 -/
def queueComplete (σ : System) (allowed : Nat) : System × List Frame :=
  { σ with
    active := σ.active - 1
    unexpected := σ.unexpected || σ.active == 0 }.queueDispatch allowed

/-- What is noted of a call on slip `i`. -/
def note (σ : System) (i : Nat) (out : Out) : System :=
  { σ with
    terminals := if out.terminal then i :: σ.terminals else σ.terminals
    unexpected := σ.unexpected || out.unexpected }

/-- A call on a slip. -/
def onSlip (σ : System) (i : Nat) (call : RoutingSlip → RoutingSlip × Out) :
    Option (System × List Frame) :=
  (σ.slips[i]?).map fun s =>
    ({ σ with slips := σ.slips.set i (call s).1 }.note i (call s).2, (call s).2.frames)

def exec (σ : System) (allowed : Nat) (created : Bool) : Frame → Option (System × List Frame)
  | .add i => some (σ.queueAdd allowed i)
  | .atFront i => σ.onSlip i (·.atFrontOfPersistQueue i created)
  | .complete => some (σ.queueComplete allowed)
  | .persist i op => some ({ σ with callbacks := i :: σ.callbacks, log := (i, op) :: σ.log }, [])
  | .terminal i => σ.onSlip i (·.enterStateTerminal)
  | .transient i => σ.onSlip i (·.enterStateTransient)

def spawn (σ : System) (frames : List Frame) : System :=
  { σ with threads := σ.threads ++ [frames] }

/-- Whether the request is there and not complete. -/
def requested (σ : System) (i request_id : Nat) (kind : Kind → Bool) : Bool :=
  (σ.slips[i]?).any fun s => (s.delivery_requests[request_id]?).any fun request =>
    request.any kind

def step (allowed : Nat) (σ : System) : Label → Option System
  | .route reliable_channel strategy reliable =>
    let i := σ.slips.length
    let (s, out) := RoutingSlip.new.route i reliable_channel strategy reliable
    some (({ σ with slips := σ.slips ++ [s] }.note i out).spawn out.frames)
  | .reconnect requests =>
    if requests = [] then none
    else some { σ with
      slips := σ.slips ++ [.reconnect requests]
      log := (σ.slips.length, .store) :: σ.log }
  | .dispatch i request_id has_shutdown =>
    if σ.requested i request_id (· = .lookup) then
      (σ.onSlip i (·.dispatch has_shutdown)).map fun (σ, frames) => spawn σ frames
    else none
  | .deliveryRequestComplete i request_id =>
    if σ.requested i request_id fun _ => true then
      (σ.onSlip i (·.deliveryRequestComplete i request_id)).map fun (σ, frames) => spawn σ frames
    else none
  | .persistComplete i =>
    if i ∈ σ.callbacks then
      ({ σ with callbacks := σ.callbacks.erase i }.onSlip i (·.persistComplete i)).map
        fun (σ, frames) => spawn σ frames
    else none
  | .resume t created =>
    match σ.threads[t]? with
    | some (frame :: rest) => (σ.exec allowed created frame).map fun (σ, frames) =>
      { σ with threads := σ.threads.set t (frames ++ rest) }
    | _ => none

end System

end Atcd.Notify
