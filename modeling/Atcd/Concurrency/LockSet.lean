import Atcd.Core.Run
import Atcd.Synch.Token
/-!
# `CC_LockSet`: locks in five modes over a token

The lock set counts the modes that are held, `lock_`, and queues the requests that it
cannot grant, `lock_queue_`, both under `mlock_`. The thread of a queued request then
acquires the token `semaphore_`, which stands for a semaphore with the value 0: the
constructing thread has acquired it. `unlock` takes requests off the queue as long as
they are compatible and releases the token once for each.

A thread's call is cut at the ends of the mutex sections and at the calls of the token.
The loop of `unlock` keeps the mutex, and each of its rounds is cut between the release
of the token and the count of the mode, since threads enter and leave the token meanwhile.

Beside the code's state the model has whose the queued requests are, those taken off
the queue as granted whose threads have not returned, the modes that threads have
after a call returned, and the threads that returned from the token without a grant.
-/
namespace Atcd.Concurrency
open Synch (OpType Patience Wake Phase)

/-- `CC_LockModeEnum`, less `CC_EM`.
mirrors TAO/orbsvcs/orbsvcs/Concurrency/CC_LockSet.h:63 -/
inductive Mode | ir | r | u | iw | w
deriving DecidableEq

def Mode.all : List Mode := [.ir, .r, .u, .iw, .w]

theorem Mode.mem_all (m : Mode) : m ∈ Mode.all := by
  cases m <;> decide

/-- `compatible_`: the mode held, and the mode requested.
mirrors TAO/orbsvcs/orbsvcs/Concurrency/CC_LockSet.cpp:293-300 -/
def compatibleModes : Mode → Mode → Bool
  | .ir, .w => false
  | .ir, _ => true
  | .r, .iw => false
  | .r, .w => false
  | .r, _ => true
  | .u, .ir => true
  | .u, .r => true
  | .u, _ => false
  | .iw, .ir => true
  | .iw, .iw => true
  | .iw, _ => false
  | .w, _ => false

theorem compatibleModes_comm (i j : Mode) : compatibleModes i j = compatibleModes j i := by
  cases i <;> cases j <;> rfl

/-- The counters, and the queue with its head first. -/
structure LockSet where
  lock : Mode → Int
  lockQueue : List Mode

namespace LockSet

/-- mirrors CC_LockSet.cpp:71-79 -/
def compatible (s : LockSet) (mr : Mode) : Bool :=
  Mode.all.all fun i => !(s.lock i > 0) || compatibleModes i mr

/-- `lock_[m] += n`. -/
def add (s : LockSet) (m : Mode) (n : Int) : LockSet :=
  { s with lock := Function.update s.lock m (s.lock m + n) }

/-- With whether the request is queued.
mirrors CC_LockSet.cpp:203-221 -/
def lockI (s : LockSet) (lm : Mode) : LockSet × Bool :=
  if s.compatible lm = false ∨ s.lockQueue.length > 0 then
    ({ s with lockQueue := s.lockQueue ++ [lm] }, true)
  else (s.add lm 1, false)

/-- With whether the mode is granted.
mirrors CC_LockSet.cpp:224-240 -/
def tryLockI (s : LockSet) (lm : Mode) : LockSet × Bool :=
  if s.compatible lm = false then (s, false) else (s.add lm 1, true)

/-- With whether the request is queued.
mirrors CC_LockSet.cpp:242-268 -/
def changeModeI (s : LockSet) (held new : Mode) : LockSet × Bool :=
  if (s.add held (-1)).compatible new then ((s.add held (-1)).add new 1, false)
  else ({ s with lockQueue := s.lockQueue ++ [new] }, true)

/-- A round of the loop of `unlock` up to the release: the lock set without the request that
is granted, and the request; `none` for the end of the loop.
mirrors CC_LockSet.cpp:159-176 -/
def grantNext (s : LockSet) : Option (LockSet × Mode) :=
  match s.lockQueue with
  | [] => none
  | m :: queue =>
    if s.compatible m then some ({ s with lockQueue := queue }, m) else none

end LockSet

/-- What a thread does: nothing, `change_mode` after the test of `lock_held` and after
`change_mode_i` has queued the request, the loop of `unlock` and the request for which it
has to acquire the token afterwards, and acquiring the token before the call and in it. -/
inductive Pc
  | idle
  | changing (held new : Mode)
  | giving (held new : Mode)
  | unlocking (next : Option Mode)
  | acquiring (m : Mode)
  | waiting (m : Mode)
deriving DecidableEq

structure State (Thread : Type*) where
  locks : LockSet
  semaphore : Synch.State Thread
  mlock : Option Thread
  /-- The mode that the loop of `unlock` has released the token for and not counted yet. -/
  underway : Option Mode
  pc : Thread → Pc
  /-- Whose the requests in `lockQueue` are. -/
  queued : List (Thread × Mode)
  /-- Requests taken off the queue whose threads have not returned. -/
  granted : List (Thread × Mode)
  /-- Modes that calls have returned with and that are not given back. -/
  held : List (Thread × Mode)
  /-- Threads that have returned from the token without a grant. -/
  strays : List Thread

/-- The steps of `lock`, `try_lock`, `unlock` and `change_mode`. -/
inductive Act (Thread : Type*)
  | lock (t : Thread) (m : Mode)
  | tryLock (t : Thread) (m : Mode)
  | unlock (t : Thread) (m : Mode)
  | lockHeld (t : Thread) (held new : Mode)
  | changeMode (t : Thread)
  | giveHeld (t : Thread)
  | grant (t : Thread)
  | count (t : Thread)
  | leave (t : Thread)
  | acquire (t : Thread)
  | wake (t : Thread) (result : Wake)

namespace State
variable {Thread : Type*} [DecidableEq Thread]

def setPc (s : State Thread) (t : Thread) (p : Pc) : State Thread :=
  { s with pc := Function.update s.pc t p }

/-- The thread is back from the token for its request. -/
def returned (s : State Thread) (t : Thread) (m : Mode) : State Thread :=
  { s.setPc t .idle with
    granted := s.granted.erase (t, m)
    held := (t, m) :: s.held
    strays := if (t, m) ∈ s.granted then s.strays else t :: s.strays }

/-- The thread goes on when it runs in the token. -/
def afterToken (s : State Thread) (k : Synch.State Thread) (t : Thread) (m : Mode) :
    State Thread :=
  if k.phase t = .running then { s with semaphore := k }.returned t m
  else { s with semaphore := k }.setPc t (.waiting m)

/-- `unlock` up to its loop; the exception `LockNotHeld` ends the call.
mirrors CC_LockSet.cpp:147-154 -/
def give (s : State Thread) (t : Thread) (m : Mode) (next : Option Mode) : State Thread :=
  if s.locks.lock m = 0 then s.setPc t .idle
  else
    { s.setPc t (.unlocking next) with
      locks := s.locks.add m (-1)
      mlock := some t
      held := s.held.erase (t, m) }

/-- The test of `lock_held` in `change_mode`, with `LockNotHeld` as in `unlock`.
mirrors CC_LockSet.cpp:191-192, 270-278 -/
def lockHeld (s : State Thread) (t : Thread) (held new : Mode) : State Thread :=
  if s.locks.lock held > 0 then s.setPc t (.changing held new) else s

/-- `lock` up to the call of the token. -/
def lock (s : State Thread) (t : Thread) (m : Mode) : State Thread :=
  if (s.locks.lockI m).2 then
    { s.setPc t (.acquiring m) with
      locks := (s.locks.lockI m).1
      queued := s.queued ++ [(t, m)] }
  else { s with locks := (s.locks.lockI m).1, held := (t, m) :: s.held }

def tryLock (s : State Thread) (t : Thread) (m : Mode) : State Thread :=
  if (s.locks.tryLockI m).2 then
    { s with locks := (s.locks.tryLockI m).1, held := (t, m) :: s.held }
  else s

/-- `change_mode` after the test of `lock_held`. -/
def changeMode (s : State Thread) (t : Thread) (held new : Mode) : State Thread :=
  if (s.locks.changeModeI held new).2 then
    { s.setPc t (.giving held new) with
      locks := (s.locks.changeModeI held new).1
      queued := s.queued ++ [(t, new)] }
  else
    { s.setPc t .idle with
      locks := (s.locks.changeModeI held new).1
      held := (t, new) :: s.held.erase (t, held) }

/-- A round of the loop of `unlock` up to the release of the token. -/
def grant (s : State Thread) (t : Thread) (r : LockSet × Mode) : State Thread :=
  { s with
    locks := r.1
    semaphore := Synch.release s.semaphore t
    underway := some r.2
    queued := s.queued.tail
    granted := s.granted ++ s.queued.take 1 }

/-- The rest of the round. -/
def count (s : State Thread) (m : Mode) : State Thread :=
  { s with locks := s.locks.add m 1, underway := none }

/-- The end of the loop, where the mutex is released. -/
def leave (s : State Thread) (t : Thread) (next : Option Mode) : State Thread :=
  { s.setPc t (next.elim .idle .acquiring) with mlock := none }

/-- One step. Only modes that the thread has are given back and changed; a mutex section
needs the mutex. -/
def step (s : State Thread) : Act Thread → Option (State Thread)
  | .lock t m => if s.pc t = .idle ∧ s.mlock = none then some (s.lock t m) else none
  | .tryLock t m => if s.pc t = .idle ∧ s.mlock = none then some (s.tryLock t m) else none
  | .unlock t m =>
    if s.pc t = .idle ∧ s.mlock = none ∧ (t, m) ∈ s.held then some (s.give t m none) else none
  | .lockHeld t held new =>
    if s.pc t = .idle ∧ s.mlock = none ∧ (t, held) ∈ s.held then
      some (s.lockHeld t held new)
    else none
  | .changeMode t =>
    match s.pc t with
    | .changing held new => if s.mlock = none then some (s.changeMode t held new) else none
    | _ => none
  | .giveHeld t =>
    match s.pc t with
    | .giving held new => if s.mlock = none then some (s.give t held (some new)) else none
    | _ => none
  | .grant t =>
    match s.pc t, s.underway with
    | .unlocking _, none => s.locks.grantNext.map (s.grant t)
    | _, _ => none
  | .count t =>
    match s.pc t, s.underway with
    | .unlocking _, some m => some (s.count m)
    | _, _ => none
  | .leave t =>
    match s.pc t, s.underway with
    | .unlocking next, none => if s.locks.grantNext = none then some (s.leave t next) else none
    | _, _ => none
  | .acquire t =>
    match s.pc t with
    | .acquiring m =>
      (Synch.step s.semaphore (.acquire t .writeToken .forever)).map fun k => s.afterToken k t m
    | _ => none
  | .wake t result =>
    match s.pc t with
    | .waiting m => (Synch.step s.semaphore (.wake t result)).map fun k => s.afterToken k t m
    | _ => none

/-- A lock set constructed by a thread, which then has the token.
mirrors CC_LockSet.cpp:47-60 -/
def start (creator : Thread) : State Thread where
  locks := ⟨fun _ => 0, []⟩
  semaphore := Synch.sharedAcquire (Synch.start .fifo) creator .writeToken .forever
  mlock := none
  underway := none
  pc := fun _ => .idle
  queued := []
  granted := []
  held := []
  strays := []

end State
end Atcd.Concurrency
