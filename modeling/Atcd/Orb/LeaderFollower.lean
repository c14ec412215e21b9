import Mathlib
/-!
# Leader/Followers

`TAO_Leader_Follower`. The threads are cut where they give up the lock: a thread blocks on
its follower condition or on the condition of the event-loop threads, runs the reactor (or
an upcall in it), or yields. The steps of all threads come in any order, and conditions may
wake threads that nobody signaled. A thread in the reactor may call these functions again,
so each has a stack of its calls.

There is no new-leader generator, followers are always allocated, and the part of
`set_client_thread` that serves the shutdown of the ORB is left out. Time is in the labels:
whether the time is up where the code looks at it.
-/
namespace Atcd.Orb

open Function

/-- The states of a `TAO_LF_Event`. -/
inductive LfState where
  | idle | active | connectionWait | success | failure | timeout | connectionClosed
  deriving DecidableEq, Repr

/-- The virtual functions of `TAO_LF_Event`, on the objects of all events; `followers` are
the bound ones, which a state change signals. -/
structure EventClass (n : Nat) (σ : Type) where
  successful : σ → Nat → Bool
  errorDetected : σ → Nat → Bool
  isStateFinal : σ → Nat → Bool
  stateChangedI : σ → Nat → LfState → σ
  setState : σ → Nat → LfState → σ
  bind : σ → Nat → Fin n → σ
  unbind : σ → Nat → Fin n → σ
  followers : σ → Nat → List (Fin n)

/-- mirrors TAO/tao/LF_Event.inl:28-32 -/
def EventClass.keepWaiting {n : Nat} {σ : Type} (C : EventClass n σ) (events : σ) (event : Nat) : Bool :=
  C.successful events event = false && C.errorDetected events event = false

/-- A thread that waits on its follower condition: not signaled, signaled by its event, or
signaled to become the leader. -/
inductive Wake where
  | blocked | signaled | elected
  deriving DecidableEq, Repr

/-- Where a call of `wait_for_event` is: on the follower condition, in the reactor loop of
the client leader, behind that loop and before the lock, or behind `thr_yield`. -/
inductive WaitPc where
  | follower (wake : Wake) | leader | leaving | yielding
  deriving DecidableEq, Repr

/-- Where an event loop is: on the condition of the event-loop threads, running, or with
`set_event_loop_thread` failed. -/
inductive LoopPc where
  | pending (signaled : Bool) | running | failed
  deriving DecidableEq, Repr

/-- A call in progress; `timed` for `max_wait_time` other than null. -/
inductive Frame where
  | wait (event : Nat) (timed : Bool) (result : Int) (pc : WaitPc)
  | eventLoop (timed : Bool) (pc : LoopPc)
  deriving DecidableEq, Repr

/-- The call is in the reactor, or in an upcall. -/
def Frame.active : Frame → Bool
  | .wait _ _ _ .leader => true
  | .eventLoop _ .running => true
  | _ => false

/-- A thread, with its part of `TAO_ORB_Core_TSS_Resources`. -/
structure Thread where
  stack : List Frame
  eventLoopThread : Nat
  clientLeaderThread : Nat
  deriving DecidableEq, Repr

namespace Thread

/-- The thread is in the reactor, in an upcall or outside. -/
def active (th : Thread) : Bool :=
  match th.stack with
  | [] => true
  | frame :: _ => frame.active

/-- The thread is an event-loop thread or a client leader. -/
def leads (th : Thread) : Bool := 0 < th.eventLoopThread || 0 < th.clientLeaderThread

/-- The thread counts as leader: it is one, and not in the client part of a call. -/
def counted (th : Thread) : Bool :=
  match th.stack with
  | .wait _ _ _ (.follower _) :: _ => false
  | .wait _ _ _ .yielding :: _ => false
  | _ => th.leads

def isPending (th : Thread) : Bool :=
  match th.stack with
  | .eventLoop _ (.pending _) :: _ => true
  | _ => false

def follows (th : Thread) : Bool :=
  match th.stack with
  | .wait _ _ _ (.follower _) :: _ => true
  | _ => false

/-- `condition_.signal ()` -/
def signal (th : Thread) (wake : Wake) : Thread :=
  match th.stack with
  | .wait event timed result (.follower .blocked) :: rest =>
    { th with stack := .wait event timed result (.follower wake) :: rest }
  | _ => th

/-- `event_loop_threads_condition_.broadcast ()` -/
def broadcast (th : Thread) : Thread :=
  match th.stack with
  | .eventLoop timed (.pending _) :: rest => { th with stack := .eventLoop timed (.pending true) :: rest }
  | _ => th

end Thread

structure LeaderFollower (n : Nat) (σ : Type) where
  leaders : Int
  clientThreadIsLeader : Int
  eventLoopThreadsWaiting : Int
  followerSet : List (Fin n)
  threads : Fin n → Thread
  events : σ

inductive LfStep (n : Nat) where
  | waitForEvent (t : Fin n) (event : Nat) (timed : Bool)
  /-- The wait of a follower returns, or times out. -/
  | wake (t : Fin n)
  | timeout (t : Fin n)
  /-- The client leader finds its event complete, or returns from `handle_events`. -/
  | stop (t : Fin n)
  | handled (t : Fin n) (result : Int) (expired : Bool)
  /-- It has the lock again, after its loop or after `thr_yield`. -/
  | relock (t : Fin n) (expired : Bool)
  | yielded (t : Fin n) (expired : Bool)
  | setEventLoopThread (t : Fin n) (timed : Bool)
  /-- The wait for the client leader returns, or times out. -/
  | wakeLoop (t : Fin n)
  | timeoutLoop (t : Fin n)
  /-- `reset_event_loop_thread`, unless the thread was never set, and `elect_new_leader` -/
  | resetEventLoopThread (t : Fin n)
  | setUpcallThread (t : Fin n)
  | stateChanged (event : Nat) (newState : LfState)
  deriving DecidableEq, Repr

namespace LeaderFollower

variable {n : Nat} {σ : Type} (C : EventClass n σ)

def fresh (n : Nat) (events : σ) : LeaderFollower n σ := ⟨0, 0, 0, [], fun _ => ⟨[], 0, 0⟩, events⟩

def setThread (s : LeaderFollower n σ) (t : Fin n) (th : Thread) : LeaderFollower n σ :=
  { s with threads := update s.threads t th }

def setStack (s : LeaderFollower n σ) (t : Fin n) (stack : List Frame) : LeaderFollower n σ :=
  s.setThread t { s.threads t with stack }

/-- mirrors TAO/tao/LF_Follower.cpp:20-33 -/
def signal (s : LeaderFollower n σ) (t : Fin n) (wake : Wake) : LeaderFollower n σ :=
  { s.setThread t ((s.threads t).signal wake) with followerSet := s.followerSet.erase t }

/-- mirrors TAO/tao/Leader_Follower.inl:51-70 -/
def electNewLeader (s : LeaderFollower n σ) : LeaderFollower n σ :=
  if s.leaders = 0 then
    if s.eventLoopThreadsWaiting ≠ 0 then { s with threads := fun t => (s.threads t).broadcast }
    else
      match s.followerSet with
      | t :: _ => s.signal t .elected
      | [] => s
  else s

/-- mirrors TAO/tao/Leader_Follower.cpp:156-178 -/
def setClientThread (s : LeaderFollower n σ) (t : Fin n) : LeaderFollower n σ :=
  { s with leaders := if (s.threads t).leads then s.leaders - 1 else s.leaders }

/-- mirrors Leader_Follower.cpp:180-201 -/
def resetClientThread (s : LeaderFollower n σ) (t : Fin n) : LeaderFollower n σ :=
  { s with leaders := if (s.threads t).leads then s.leaders + 1 else s.leaders }

/-- mirrors Leader_Follower.inl:166-173 -/
def setClientLeaderThread (s : LeaderFollower n σ) (t : Fin n) : LeaderFollower n σ :=
  { s.setThread t { s.threads t with clientLeaderThread := (s.threads t).clientLeaderThread + 1 } with
    leaders := s.leaders + 1
    clientThreadIsLeader := s.clientThreadIsLeader + 1 }

/-- mirrors Leader_Follower.inl:175-188 -/
def resetClientLeaderThread (s : LeaderFollower n σ) (t : Fin n) : LeaderFollower n σ :=
  if 0 < (s.threads t).clientLeaderThread then
    { s.setThread t { s.threads t with clientLeaderThread := (s.threads t).clientLeaderThread - 1 } with
      leaders := s.leaders - 1
      clientThreadIsLeader := s.clientThreadIsLeader - 1 }
  else s

/-- mirrors Leader_Follower.inl:105-119 -/
def resetEventLoopThreadI (s : LeaderFollower n σ) (t : Fin n) : LeaderFollower n σ :=
  let th := { s.threads t with eventLoopThread := (s.threads t).eventLoopThread - 1 }
  { s.setThread t th with
    leaders := if th.eventLoopThread = 0 ∧ th.clientLeaderThread = 0 then s.leaders - 1 else s.leaders }

/-- mirrors Leader_Follower.inl:121-127 -/
def resetEventLoopThread (s : LeaderFollower n σ) (t : Fin n) : LeaderFollower n σ :=
  if 0 < (s.threads t).eventLoopThread then s.resetEventLoopThreadI t else s

/-- mirrors Leader_Follower.inl:135-158 -/
def setUpcallThread (s : LeaderFollower n σ) (t : Fin n) : LeaderFollower n σ :=
  if 0 < (s.threads t).eventLoopThread then (s.resetEventLoopThreadI t).electNewLeader
  else if (s.threads t).clientLeaderThread = 1 then (s.resetClientLeaderThread t).electNewLeader
  else s

/-- The end of `set_event_loop_thread`.
mirrors Leader_Follower.inl:96-103 -/
def countEventLoopThread (s : LeaderFollower n σ) (t : Fin n) : LeaderFollower n σ :=
  let th := s.threads t
  { s.setThread t { th with eventLoopThread := th.eventLoopThread + 1 } with
    leaders := if th.eventLoopThread = 0 ∧ th.clientLeaderThread = 0 then s.leaders + 1 else s.leaders }

/-- The thread becomes a follower: Scope #3 up to the wait.
mirrors Leader_Follower.cpp:295-343 -/
def becomeFollower (s : LeaderFollower n σ) (t : Fin n) (event : Nat) (timed : Bool) (result : Int)
    (rest : List Frame) : LeaderFollower n σ :=
  { s.setStack t (.wait event timed result (.follower .blocked) :: rest) with
    followerSet := s.followerSet ++ [t] }

/-- The thread becomes the client leader, and enters the reactor.
mirrors Leader_Follower.cpp:481-491 -/
def becomeLeader (s : LeaderFollower n σ) (t : Fin n) (event : Nat) (timed : Bool) (result : Int)
    (rest : List Frame) : LeaderFollower n σ :=
  (s.setStack t (.wait event timed result .leader :: rest)).setClientLeaderThread t

def leaveScope (s : LeaderFollower n σ) (t : Fin n) (rest : List Frame) : LeaderFollower n σ :=
  (s.setStack t rest).resetClientThread t

/-- The loop of `wait_for_event` from its condition on, to the next place without the lock
or the end.
mirrors Leader_Follower.cpp:284-298,481-491,579-593 -/
def waitLoop (s : LeaderFollower n σ) (t : Fin n) (event : Nat) (timed : Bool) (result : Int) (expired : Bool)
    (rest : List Frame) : LeaderFollower n σ :=
  if C.keepWaiting s.events event ∧ ¬(result = 0 ∧ timed ∧ expired) ∧ result ≠ -1 then
    if s.leaders ≠ 0 then
      { s.becomeFollower t event timed result rest with events := C.bind s.events event t }
    else s.becomeLeader t event timed result rest
  else (s.leaveScope t rest).electNewLeader

/-- The wait of a follower has returned or timed out.
mirrors TAO/tao/LF_Follower_Auto_Adder.cpp:9-12 -/
def removeFollower (s : LeaderFollower n σ) (t : Fin n) (event : Nat) (timed : Bool) (result : Int)
    (rest : List Frame) : LeaderFollower n σ :=
  { s.setStack t (.wait event timed result .yielding :: rest) with
    followerSet := s.followerSet.erase t }

/-- The wait of a follower has returned; its event stays bound while it waits again.
mirrors Leader_Follower.cpp:312-438 -/
def followerWoken (s : LeaderFollower n σ) (t : Fin n) (event : Nat) (timed : Bool) (result : Int)
    (rest : List Frame) : LeaderFollower n σ :=
  let s := s.removeFollower t event timed result rest
  if C.keepWaiting s.events event ∧ s.leaders ≠ 0 then s.becomeFollower t event timed result rest
  else
    let unbound := { s with events := C.unbind s.events event t }
    -- return 0 or -1: without electing a leader
    if C.successful s.events event ∨ C.errorDetected s.events event then unbound.leaveScope t rest
    else unbound.becomeLeader t event timed result rest

/-- The wait of a follower has timed out.
mirrors Leader_Follower.cpp:362-406 -/
def followerTimedOut (s : LeaderFollower n σ) (t : Fin n) (event : Nat) (timed : Bool) (result : Int)
    (rest : List Frame) : LeaderFollower n σ :=
  let s := { s with events := C.setState s.events event .timeout }
  let s := if C.successful s.events event then s else s.electNewLeader
  let s := { s.removeFollower t event timed result rest with events := C.unbind s.events event t }
  s.leaveScope t rest

/-- mirrors TAO/tao/LF_Event.cpp:23-36 -/
def stateChanged (s : LeaderFollower n σ) (event : Nat) (newState : LfState) : LeaderFollower n σ :=
  if C.isStateFinal s.events event then s
  else
    let s := { s with events := C.stateChangedI s.events event newState }
    (C.followers s.events event).foldl (fun s t => s.signal t .signaled) s

def step (s : LeaderFollower n σ) : LfStep n → Option (LeaderFollower n σ)
  | .waitForEvent t event timed =>
    if (s.threads t).active then
      let rest := (s.threads t).stack
      let s := (s.setClientThread t).setStack t (.wait event timed 1 .yielding :: rest)
      some (s.waitLoop C t event timed 1 false rest)
    else none
  | .wake t =>
    match (s.threads t).stack with
    | .wait event timed result (.follower _) :: rest => some (s.followerWoken C t event timed result rest)
    | _ => none
  | .timeout t =>
    match (s.threads t).stack with
    | .wait event true result (.follower _) :: rest => some (s.followerTimedOut C t event true result rest)
    | _ => none
  | .stop t =>
    match (s.threads t).stack with
    | .wait event timed result .leader :: rest =>
      if C.keepWaiting s.events event then none else some (s.setStack t (.wait event timed result .leaving :: rest))
    | _ => none
  | .handled t result expired =>
    match (s.threads t).stack with
    | .wait event timed _ .leader :: rest =>
      if (result = 0 ∧ timed ∧ expired) ∨ result = -1 ∨ s.eventLoopThreadsWaiting ≠ 0 ∨
          (s.threads t).clientLeaderThread = 0 then
        some (s.setStack t (.wait event timed result .leaving :: rest))
      else some (s.setStack t (.wait event timed result .leader :: rest))
    | _ => none
  | .relock t expired =>
    match (s.threads t).stack with
    | .wait event timed result .leaving :: rest =>
      let s := (s.resetClientLeaderThread t).setStack t (.wait event timed result .yielding :: rest)
      if s.eventLoopThreadsWaiting ≠ 0 ∧ s.leaders = 0 then some s.electNewLeader
      else some (s.waitLoop C t event timed result expired rest)
    | _ => none
  | .yielded t expired =>
    match (s.threads t).stack with
    | .wait event timed result .yielding :: rest => some (s.waitLoop C t event timed result expired rest)
    | _ => none
  | .setEventLoopThread t timed =>
    if (s.threads t).active then
      let rest := (s.threads t).stack
      if s.clientThreadIsLeader ≠ 0 ∧ (s.threads t).clientLeaderThread = 0 then
        some { s.setStack t (.eventLoop timed (.pending false) :: rest) with
          eventLoopThreadsWaiting := s.eventLoopThreadsWaiting + 1 }
      else some ((s.countEventLoopThread t).setStack t (.eventLoop timed .running :: rest))
    else none
  | .wakeLoop t =>
    match (s.threads t).stack with
    | .eventLoop timed (.pending _) :: rest =>
      if s.clientThreadIsLeader ≠ 0 then some (s.setStack t (.eventLoop timed (.pending false) :: rest))
      else
        let s := { s with eventLoopThreadsWaiting := s.eventLoopThreadsWaiting - 1 }
        some ((s.countEventLoopThread t).setStack t (.eventLoop timed .running :: rest))
    | _ => none
  | .timeoutLoop t =>
    match (s.threads t).stack with
    | .eventLoop true (.pending _) :: rest =>
      some { s.setStack t (.eventLoop true .failed :: rest) with
        eventLoopThreadsWaiting := s.eventLoopThreadsWaiting - 1 }
    | _ => none
  | .resetEventLoopThread t =>
    match (s.threads t).stack with
    | .eventLoop _ .running :: rest => some ((s.resetEventLoopThread t).setStack t rest).electNewLeader
    | .eventLoop _ .failed :: rest => some (s.setStack t rest).electNewLeader
    | _ => none
  | .setUpcallThread t => if (s.threads t).active then some (s.setUpcallThread t) else none
  | .stateChanged event newState => some (s.stateChanged C event newState)

end LeaderFollower

/-! ## Events of invocations -/

/-- `TAO_LF_Invocation_Event` -/
structure InvocationEvent (n : Nat) where
  state : LfState
  follower : Option (Fin n)
  deriving DecidableEq, Repr

namespace InvocationEvent

variable {n : Nat}

/-- mirrors TAO/tao/LF_Invocation_Event.cpp:15-62 -/
def stateChangedI (e : InvocationEvent n) (newState : LfState) : InvocationEvent n :=
  if e.state = newState then e
  else
    match e.state with
    | .idle => if newState = .active ∨ newState = .connectionClosed then { e with state := newState } else e
    | .active =>
      if newState = .idle then e
      else if newState = .connectionClosed then { e with state := .failure }
      else { e with state := newState }
    | .success | .connectionClosed => if newState = .active then { e with state := newState } else e
    | _ => e

end InvocationEvent

/-- Invocation events by number.
mirrors LF_Event.inl:4-20, LF_Invocation_Event.cpp:64-86 -/
def invocationEvents (n : Nat) : EventClass n (Nat → InvocationEvent n) where
  successful events e := (events e).state = .success
  errorDetected events e :=
    (events e).state = .failure || (events e).state = .timeout || (events e).state = .connectionClosed
  isStateFinal events e := (events e).state = .timeout || (events e).state = .failure
  stateChangedI events e newState := update events e ((events e).stateChangedI newState)
  setState events e newState := update events e { events e with state := newState }
  bind events e t :=
    if (events e).follower.isSome then events else update events e { events e with follower := some t }
  unbind events e _ := update events e { events e with follower := none }
  followers events e := (events e).follower.toList

end Atcd.Orb
