import Mathlib
/-!
# `ACE_Token`: a token handed from thread to thread

The token belongs to one thread at a time. Threads that want it wait in one of two
queues, on an entry of their own that stands on their stack (`my_entry`); writers
go before readers. Whoever gives the token up chooses the next owner, writes its
name into `owner_` and signals its entry, which stays queued until the thread runs.

All of an operation up to a wait, and all from the end of the wait to the next one
or to the return, is one step under `lock_`. The wait ends by the signal, by a
spurious wake-up, by EINTR or, if it is timed, by ETIME. The entry waits on a
condition variable: a signal reaches a thread that waits, and is lost otherwise.

Beside the token the state has what each thread does and how many acquisitions it
has not released. A renewal that waits gives the token up.

Results:
- `wakeup_cases`: whom `wakeup_next_waiter` chooses;
- `insert_perm`, `length_removeEntry`: what the queue's operations keep.
-/
namespace Atcd.Synch

open List Function

/-- mirrors ACE/ace/Token.h:255-259 -/
inductive OpType | readToken | writeToken
deriving DecidableEq

/-- mirrors Token.h:81-87 -/
inductive QueueingStrategy | fifo | lifo
deriving DecidableEq

/-- The strategy as a position in the queue. -/
def QueueingStrategy.position : QueueingStrategy → Int
  | .fifo => -1
  | .lifo => 0

/-- `ACE_Token_Queue_Entry`. -/
structure Entry (Thread : Type*) where
  thread : Thread
  runable : Bool
deriving DecidableEq

/-- The members of `ACE_Token`; `inUse` and `owner` are `none` for 0 and for
`NULL_thread`. -/
structure Token (Thread : Type*) where
  writers : List (Entry Thread)
  readers : List (Entry Thread)
  owner : Option Thread
  inUse : Option OpType
  waiters : Int
  nestingLevel : Nat
  queueingStrategy : QueueingStrategy

/-- What a thread does: it runs, or it waits on its entry, for a token of the kind,
in `renew` with the nesting level that it will have again, or in `shared_acquire`.
Whether the wait is timed, and whether the entry has been signalled since it
began. -/
inductive Phase
  | running
  | waiting (kind : OpType) (saved : Option Nat) (timed signalled : Bool)
deriving DecidableEq

structure State (Thread : Type*) where
  token : Token Thread
  phase : Thread → Phase
  /-- Acquisitions that are not released. -/
  holds : Thread → Nat

/-- The timeout of a call: none, one that is not zero, zero. -/
inductive Patience | forever | timed | poll
deriving DecidableEq

/-- How a wait ends. -/
inductive Wake | signal | spurious | eintr | etime
deriving DecidableEq

/-- A call, or the end of a wait. -/
inductive Act (Thread : Type*)
  | acquire (t : Thread) (kind : OpType) (patience : Patience)
  | release (t : Thread)
  | renew (t : Thread) (requeuePosition : Int) (timed : Bool)
  | wake (t : Thread) (result : Wake)

variable {Thread : Type*} [DecidableEq Thread]

/-! ## The queues -/

/-- At the end, at the head, or behind the head and `position` more entries.
mirrors ACE/ace/Token.cpp:125-162 -/
def insertEntry (q : List (Entry Thread)) (e : Entry Thread) (position : Int) :
    List (Entry Thread) :=
  if q = [] then [e]
  else if position = -1 then q ++ [e]
  else if position = 0 then e :: q
  else if position < 0 then q ++ [e]
  else q.take (position.toNat + 1) ++ e :: q.drop (position.toNat + 1)

/-- The entry is the thread's only one.
mirrors Token.cpp:90-120 -/
def removeEntry (q : List (Entry Thread)) (t : Thread) : List (Entry Thread) :=
  q.eraseP fun e => e.thread = t

namespace Token

def queue (k : Token Thread) : OpType → List (Entry Thread)
  | .writeToken => k.writers
  | .readToken => k.readers

def setQueue (k : Token Thread) (kind : OpType) (q : List (Entry Thread)) : Token Thread :=
  match kind with
  | .writeToken => { k with writers := q }
  | .readToken => { k with readers := q }

/-- The entry goes into its queue. -/
def enter (k : Token Thread) (kind : OpType) (e : Entry Thread) (position : Int) : Token Thread :=
  { k.setQueue kind (insertEntry (k.queue kind) e position) with waiters := k.waiters + 1 }

/-- "Do this always and irrespective of the result of wait()." -/
def leave (k : Token Thread) (kind : OpType) (t : Thread) : Token Thread :=
  { k.setQueue kind (removeEntry (k.queue kind) t) with waiters := k.waiters - 1 }

/-- The head of the queue is made runable and becomes the owner. -/
def select (k : Token Thread) (kind : OpType) (e : Entry Thread) (q : List (Entry Thread)) :
    Token Thread :=
  { k.setQueue kind ({ e with runable := true } :: q) with
    inUse := some kind
    owner := some e.thread }

/-- The token, and the thread whose entry is signalled: writers first.
mirrors Token.cpp:500-536 -/
def wakeupNextWaiter (k : Token Thread) : Token Thread × Option Thread :=
  match k.writers, k.readers with
  | [], [] => ({ k with owner := none, inUse := none }, none)
  | e :: q, _ => (k.select .writeToken e q, some e.thread)
  | [], e :: q => (k.select .readToken e q, some e.thread)

end Token

/-! ## Steps -/

/-- A signal: lost when the thread does not wait. -/
def signal (phase : Thread → Phase) : Option Thread → Thread → Phase
  | none => phase
  | some t =>
    match phase t with
    | .running => phase
    | .waiting kind saved timed _ => update phase t (.waiting kind saved timed true)

/-- `wakeup_next_waiter` with its signal. -/
def State.wakeup (s : State Thread) : State Thread :=
  { s with
    token := s.token.wakeupNextWaiter.1
    phase := signal s.phase s.token.wakeupNextWaiter.2 }

/-- `shared_acquire` up to its wait.
mirrors Token.cpp:181-255 -/
def sharedAcquire (s : State Thread) (t : Thread) (kind : OpType) (patience : Patience) :
    State Thread :=
  if s.token.inUse = none then
    { s with
      token := { s.token with inUse := some kind, owner := some t }
      holds := update s.holds t (s.holds t + 1) }
  else if s.token.owner = some t then
    { s with
      token := { s.token with nestingLevel := s.token.nestingLevel + 1 }
      holds := update s.holds t (s.holds t + 1) }
  else if patience = .poll then s
  else
    { s with
      token := s.token.enter kind ⟨t, false⟩ s.token.queueingStrategy.position
      phase := update s.phase t (.waiting kind none (patience = .timed) false) }

/-- No writers, and either we are a writer or there are no readers. -/
def Token.Keeps (k : Token Thread) : Prop :=
  k.writers = [] ∧ (k.inUse = some .writeToken ∨ k.readers = [])

instance (k : Token Thread) : Decidable k.Keeps := inferInstanceAs (Decidable (_ ∧ _))

def Token.ownKind (k : Token Thread) : OpType :=
  if k.inUse = some .readToken then .readToken else .writeToken

/-- Where a renewal goes: next with position 0, else as the queueing strategy
says. -/
def Token.renewPosition (k : Token Thread) (requeuePosition : Int) : Int :=
  if requeuePosition = 0 then 0 else k.queueingStrategy.position

/-- `renew` up to its wait. The next waiter is woken up before the thread waits.
mirrors Token.cpp:352-401 -/
def renew (s : State Thread) (t : Thread) (requeuePosition : Int) (timed : Bool) : State Thread :=
  if s.token.Keeps then s
  else
    let kind := s.token.ownKind
    let saved := s.token.nestingLevel
    let k := s.token.enter kind ⟨t, false⟩ (s.token.renewPosition requeuePosition)
    let s := State.wakeup { s with token := { k with nestingLevel := 0 } }
    { s with phase := update s.phase t (.waiting kind (some saved) timed false) }

/-- mirrors Token.cpp:474-497 -/
def release (s : State Thread) (t : Thread) : State Thread :=
  let s := { s with holds := update s.holds t (s.holds t - 1) }
  if 0 < s.token.nestingLevel then
    { s with token := { s.token with nestingLevel := s.token.nestingLevel - 1 } }
  else s.wakeup

/-- The loop ends: the thread has the token, a renewal with its nesting level.
mirrors Token.cpp:289-291, 316-320, 435-437, 462-468 -/
def takeOver (s : State Thread) (t : Thread) (kind : OpType) (saved : Option Nat) : State Thread :=
  let k := s.token.leave kind t
  match saved with
  | none =>
    { token := k
      phase := update s.phase t .running
      holds := update s.holds t (s.holds t + 1) }
  | some n =>
    { token := { k with nestingLevel := n }
      phase := update s.phase t .running
      holds := s.holds }

/-- The wait has timed out: the token goes on if it was the thread's already.
mirrors Token.cpp:289-308, 435-454 -/
def giveUp (s : State Thread) (t : Thread) (kind : OpType) (saved : Option Nat) : State Thread :=
  let runable := (s.token.queue kind).any fun e => e.thread = t && e.runable
  let s' : State Thread :=
    { token := s.token.leave kind t
      phase := update s.phase t .running
      holds := if saved.isSome then update s.holds t 0 else s.holds }
  if runable then s'.wakeup else s'

/-- The end of a wait, and the condition of the loop.
mirrors Token.cpp:257-287, 403-433 -/
def wake (s : State Thread) (t : Thread) (kind : OpType) (saved : Option Nat) (timed : Bool)
    (result : Wake) : State Thread :=
  if result = .etime then giveUp s t kind saved
  else if s.token.owner = some t then takeOver s t kind saved
  else { s with phase := update s.phase t (.waiting kind saved timed false) }

/-- One step. Only the owner releases and renews; a wait ends by a signal only if
there was one, and by ETIME only if it is timed. -/
def step (s : State Thread) : Act Thread → Option (State Thread)
  | .acquire t kind patience =>
    if s.phase t = .running then some (sharedAcquire s t kind patience) else none
  | .release t =>
    if s.phase t = .running ∧ s.token.inUse ≠ none ∧ s.token.owner = some t then
      some (release s t)
    else none
  | .renew t position timed =>
    if s.phase t = .running ∧ s.token.inUse ≠ none ∧ s.token.owner = some t then
      some (renew s t position timed)
    else none
  | .wake t result =>
    match s.phase t with
    | .running => none
    | .waiting kind saved timed signalled =>
      if (result = .signal → signalled = true) ∧ (result = .etime → timed = true) then
        some (wake s t kind saved timed result)
      else none

/-- The constructor, with the strategy set. -/
def start (strategy : QueueingStrategy) : State Thread where
  token := ⟨[], [], none, none, 0, 0, strategy⟩
  phase := fun _ => .running
  holds := fun _ => 0

/-! ## What the queues keep -/

omit [DecidableEq Thread] in
theorem insert_perm (q : List (Entry Thread)) (e : Entry Thread) (position : Int) :
    (insertEntry q e position).Perm (e :: q) := by
  unfold insertEntry
  split
  · rename_i hq
    rw [hq]
  split
  · exact perm_append_singleton e q
  split
  · exact List.Perm.refl _
  split
  · exact perm_append_singleton e q
  · refine perm_middle.trans ?_
    rw [take_append_drop]

omit [DecidableEq Thread] in
/-- At the back an entry takes nobody's place. -/
theorem insert_back {q : List (Entry Thread)} (hq : q ≠ [])
    (e : Entry Thread) : insertEntry q e (-1) = q ++ [e] := by
  unfold insertEntry
  rw [if_neg hq, if_pos rfl]

omit [DecidableEq Thread] in
theorem insert_front (q : List (Entry Thread)) (e : Entry Thread) :
    insertEntry q e 0 = e :: q := by
  unfold insertEntry
  split
  · rename_i hq
    rw [hq]
  · simp

theorem mem_removeEntry {q : List (Entry Thread)} (hq : (q.map Entry.thread).Nodup) {t : Thread}
    {e : Entry Thread} : e ∈ removeEntry q t ↔ e ∈ q ∧ e.thread ≠ t := by
  unfold removeEntry
  induction q with
  | nil => simp
  | cons a q ih =>
    rw [map_cons, nodup_cons] at hq
    by_cases ha : a.thread = t
    · rw [eraseP_cons_of_pos (by simpa using ha)]
      constructor
      · intro he
        refine ⟨mem_cons_of_mem _ he, fun het => hq.1 ?_⟩
        rw [ha, ← het]
        exact mem_map_of_mem he
      · rintro ⟨he, het⟩
        rcases mem_cons.mp he with rfl | he
        · exact absurd ha het
        · exact he
    · rw [eraseP_cons_of_neg (by simpa using ha), mem_cons, mem_cons, ih hq.2]
      constructor
      · rintro (rfl | ⟨he, het⟩)
        · exact ⟨.inl rfl, ha⟩
        · exact ⟨.inr he, het⟩
      · rintro ⟨rfl | he, het⟩
        · exact .inl rfl
        · exact .inr ⟨he, het⟩

theorem length_removeEntry {q : List (Entry Thread)} {t : Thread} (ht : t ∈ q.map Entry.thread) :
    ((removeEntry q t).length : Int) = q.length - 1 := by
  obtain ⟨e, he, het⟩ := mem_map.mp ht
  have hpos := length_pos_of_mem he
  unfold removeEntry
  rw [length_eraseP_of_mem he (by simpa using het)]
  omega

namespace Token

omit [DecidableEq Thread] in
@[simp] theorem queue_setQueue_self (k : Token Thread) (kind : OpType) (q : List (Entry Thread)) :
    (k.setQueue kind q).queue kind = q := by
  cases kind <;> rfl

omit [DecidableEq Thread] in
theorem queue_setQueue_of_ne (k : Token Thread) {kind kind' : OpType} (h : kind' ≠ kind)
    (q : List (Entry Thread)) : (k.setQueue kind q).queue kind' = k.queue kind' := by
  cases kind <;> cases kind' <;> first | rfl | exact absurd rfl h

omit [DecidableEq Thread] in
@[simp] theorem setQueue_owner (k : Token Thread) (kind : OpType) (q : List (Entry Thread)) :
    (k.setQueue kind q).owner = k.owner := by
  cases kind <;> rfl

omit [DecidableEq Thread] in
@[simp] theorem setQueue_inUse (k : Token Thread) (kind : OpType) (q : List (Entry Thread)) :
    (k.setQueue kind q).inUse = k.inUse := by
  cases kind <;> rfl

omit [DecidableEq Thread] in
@[simp] theorem setQueue_waiters (k : Token Thread) (kind : OpType) (q : List (Entry Thread)) :
    (k.setQueue kind q).waiters = k.waiters := by
  cases kind <;> rfl

omit [DecidableEq Thread] in
@[simp] theorem setQueue_nestingLevel (k : Token Thread) (kind : OpType)
    (q : List (Entry Thread)) : (k.setQueue kind q).nestingLevel = k.nestingLevel := by
  cases kind <;> rfl

def queueLength (k : Token Thread) : Nat := k.writers.length + k.readers.length

omit [DecidableEq Thread] in
theorem queueLength_setQueue (k : Token Thread) (kind : OpType) (q : List (Entry Thread)) :
    (k.setQueue kind q).queueLength + (k.queue kind).length = k.queueLength + q.length := by
  cases kind <;> simp only [queueLength, setQueue, queue] <;> omega

omit [DecidableEq Thread] in
/-- Nobody is chosen when nobody waits; else the head of the writers, or of the
readers when there is no writer. -/
theorem wakeup_cases (k : Token Thread) : ((∀ kind, k.queue kind = []) ∧
      k.wakeupNextWaiter = ({ k with owner := none, inUse := none }, none)) ∨
    ∃ kind e q, k.queue kind = e :: q ∧ (kind = .readToken → k.writers = []) ∧
      k.wakeupNextWaiter = (k.select kind e q, some e.thread) := by
  unfold wakeupNextWaiter
  rcases hw : k.writers with _ | ⟨e, q⟩
  · rcases hr : k.readers with _ | ⟨e, q⟩
    · refine .inl ⟨fun kind => ?_, rfl⟩
      cases kind
      · exact hr
      · exact hw
    · exact .inr ⟨.readToken, e, q, hr, fun _ => rfl, rfl⟩
  · refine .inr ⟨.writeToken, e, q, hw, nofun, ?_⟩
    cases k.readers <;> rfl

end Token

end Atcd.Synch
