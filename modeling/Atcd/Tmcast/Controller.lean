import Atcd.Core.Run
/-!
# `TransactionController`: one member of a transactional multicast group

A member goes through numbered transactions: from `TS_BEGIN` (the member starts one,
`api`) or from a join, through a voting frame, to `TS_COMMITED` or `TS_ABORTED` and a
separation frame. `outsync` is the member's pulse, which tells the other members its
transaction and its vote; `current_transaction` reads another member's pulse. The
outcome of the voting is pushed to `send_out_` if the member is the initiator,
`initiated_`, and the sending thread waits there for it.

The identifier is an `unsigned short`. The code increments it as such and compares it
with `id + 1` and `t.id - 1` as an `int`.

Results:
- `joined_of_follows`, `onStatus_of_not_follows`: what a stable member does on each status
  turns on whether it finds the identifier to be its successor;
- `joins_iff`: a stable member joins the successor's transaction if and only if its
  identifier is not 65535.
-/
namespace Atcd.Tmcast

/-- mirrors ACE/protocols/ace/TMCast/Protocol.hpp:23-29 -/
inductive TransactionStatus | begin | commit | abort | commited | aborted
deriving DecidableEq

/-- `Transaction`: an identifier and its status.
mirrors ACE/protocols/ace/TMCast/Protocol.hpp:31-35 -/
structure Transaction where
  id : UInt16
  status : TransactionStatus
deriving DecidableEq

/-- `VOTING_FRAME`, in pulses. -/
def votingFrame : Nat := 4

/-- `SEPARATION_FRAME`, in pulses. -/
def separationFrame : Nat := 5

/-- What is pushed to `send_out_`. -/
inductive Outcome | commited | aborted
deriving DecidableEq

/-- `TransactionController::Failure`. -/
inductive Failure | failure
deriving DecidableEq

/-- The members of `TransactionController` and the queues it pushes to, oldest first. -/
structure Controller (P : Type*) where
  current : Transaction
  initiated : Bool
  votingDuration : Nat
  separationDuration : Nat
  send : Option P
  recv : Option P
  sendOut : List Outcome
  recvOut : List (Option P)
deriving DecidableEq

namespace Controller
variable {P : Type*}

/-- The constructor, which leaves `initiated_` with whatever its memory holds.
mirrors ACE/protocols/ace/TMCast/TransactionController.hpp:91-103 -/
def new (garbage : Bool) : Controller P where
  current := ⟨0, .commited⟩
  initiated := garbage
  votingDuration := 0
  separationDuration := 0
  send := none
  recv := none
  sendOut := []
  recvOut := []

/-- The test for TS_COMMITED or TS_ABORTED. -/
def stable (c : Controller P) : Bool :=
  c.current.status = .commited ∨ c.current.status = .aborted

/-- The end of the voting frame: the outcome goes to the sender or the payload to the
receiver, and the separation frame starts. -/
def endVoting (c : Controller P) : Controller P :=
  if c.current.status = .commit then
    { c with
      current := ⟨c.current.id, .commited⟩
      separationDuration := separationFrame + 1
      sendOut := if c.initiated then c.sendOut ++ [.commited] else c.sendOut
      recvOut := if c.initiated then c.recvOut else c.recvOut ++ [c.recv]
      recv := if c.initiated then c.recv else none }
  else
    { c with
      current := ⟨c.current.id, .aborted⟩
      separationDuration := separationFrame + 1
      sendOut := if c.initiated then c.sendOut ++ [.aborted] else c.sendOut
      recv := if c.initiated then c.recv else none }

/-- The voting frame counts up on each pulse. -/
def vote (c : Controller P) : Controller P :=
  if c.current.status = .commit ∨ c.current.status = .abort then
    if c.votingDuration + 1 ≥ votingFrame then
      { c with votingDuration := c.votingDuration + 1 }.endVoting
    else { c with votingDuration := c.votingDuration + 1 }
  else c

/-- The pulse of the member, with the payload of a transaction that begins. `none` is
the dereference of a null `send_`.
mirrors ACE/protocols/ace/TMCast/TransactionController.hpp:109-198 -/
def outsync (c : Controller P) : Option (Controller P × Transaction × Option P) :=
  let c := c.vote
  match c.current.status with
  | .commited | .aborted =>
    some ({ c with separationDuration := c.separationDuration - 1 }, c.current, none)
  | .begin => c.send.map fun payload =>
    ({ c with send := none, current := ⟨c.current.id, .commit⟩, votingDuration := 0 },
      c.current, some payload)
  | .commit | .abort => some (c, c.current, none)

/-- A member with the identifier 0 takes over the identifier that it hears of. -/
def catchUp (c : Controller P) (t : Transaction) : Controller P :=
  if c.current.id = 0 ∧ t.id ≠ 0 then
    match t.status with
    | .begin | .commit | .abort => { c with current := ⟨t.id - 1, .commited⟩ }
    | .aborted | .commited => { c with current := t }
  else c

/-- `id == t.id - 1`, which is computed in `int`. -/
def Follows (c : Controller P) (t : Transaction) : Prop :=
  (c.current.id.toNat : Int) = (t.id.toNat : Int) - 1

instance (c : Controller P) (t : Transaction) : Decidable (c.Follows t) :=
  inferInstanceAs (Decidable (_ = _))

/-- The branch of TS_BEGIN; `t.id != id + 1` is computed in `int` as well. -/
def onBegin (c : Controller P) (t : Transaction) (payload : P) :
    Controller P × Except Failure Unit :=
  if c.stable = false ∨ (t.id.toNat : Int) ≠ (c.current.id.toNat : Int) + 1 then
    if t.id = c.current.id then
      if c.stable = false ∧ c.current.status ≠ .abort then
        ({ c with current := ⟨c.current.id, .abort⟩, votingDuration := 0 }, .ok ())
      else (c, .ok ())
    else (c, .error .failure)
  else
    ({ c with
        initiated := false
        recv := some payload
        current := ⟨t.id, .commit⟩
        votingDuration := 0 }, .ok ())

/-- The branch of TS_COMMIT. -/
def onCommit (c : Controller P) (t : Transaction) : Controller P :=
  if c.stable = true ∧ c.Follows t then
    { c with initiated := false, current := ⟨t.id, .abort⟩, votingDuration := 0 }
  else c

/-- The branch of TS_ABORT, which leaves `initiated_` alone. -/
def onAbort (c : Controller P) (t : Transaction) : Controller P :=
  if (c.stable = false ∧ c.current.id = t.id ∧ c.current.status = .commit) ∨
      (c.stable = true ∧ c.Follows t) then
    { c with current := ⟨t.id, .abort⟩, votingDuration := 0 }
  else c

/-- The second `switch` on the status received. -/
def onStatus (c : Controller P) (t : Transaction) (payload : P) :
    Controller P × Except Failure Unit :=
  match t.status with
  | .begin => c.onBegin t payload
  | .commit => (c.onCommit t, .ok ())
  | .abort => (c.onAbort t, .ok ())
  | .aborted | .commited => (c, .ok ())

/-- The pulse of another member.
mirrors ACE/protocols/ace/TMCast/TransactionController.hpp:200-329 -/
def currentTransaction (c : Controller P) (t : Transaction) (payload : P) :
    Controller P × Except Failure Unit :=
  (c.catchUp t).onStatus t payload

def free (c : Controller P) : Bool :=
  c.stable ∧ c.separationDuration = 0

/-- The start of a transaction with the message `m` at the front of `in_`, which the
Scheduler found not to be empty.
mirrors ACE/protocols/ace/TMCast/TransactionController.hpp:331-365 -/
def api (c : Controller P) (m : P) : Controller P :=
  if c.free then
    { c with send := some m, current := ⟨c.current.id + 1, .begin⟩, initiated := true }
  else c

/-! ## Joining the successor -/

/-- What a member has joined for a status: commit for TS_BEGIN, whose payload it has
taken, and abort for a status that shows that it missed the payload. -/
def JoinedFor (c : Controller P) (status : TransactionStatus) (id : UInt16) (payload : P) : Prop :=
  c.current.id = id ∧ c.votingDuration = 0 ∧
    if status = .begin then c.current.status = .commit ∧ c.recv = some payload
    else c.current.status = .abort

theorem toNat_succ {id : UInt16} (h : id ≠ 65535) : (id + 1).toNat = id.toNat + 1 := by
  have hlt := id.toNat_lt
  have hne : id.toNat ≠ 65535 := fun he => h (UInt16.toNat_inj.mp he)
  rw [UInt16.toNat_add, UInt16.toNat_one]
  omega

/-- The successor is one that a member with the identifier 0 may catch up with, but
then it catches up with the identifier it has. -/
theorem catchUp_succ {c : Controller P} {status : TransactionStatus} (hs : c.stable = true)
    (hstatus : status = .begin ∨ status = .commit ∨ status = .abort) :
    (c.catchUp ⟨c.current.id + 1, status⟩).stable = true ∧
      (c.catchUp ⟨c.current.id + 1, status⟩).current.id = c.current.id := by
  unfold catchUp
  split
  · rcases hstatus with rfl | rfl | rfl <;> simp [stable]
  · exact ⟨hs, rfl⟩

/-- The branches of a stable member for the successor, which all turn on one
comparison. -/
theorem joined_of_follows {c : Controller P} {t : Transaction} {payload : P}
    (hs : c.stable = true) (hid : c.Follows t)
    (hstatus : t.status = .begin ∨ t.status = .commit ∨ t.status = .abort) :
    (c.onStatus t payload).2 = .ok () ∧
      (c.onStatus t payload).1.JoinedFor t.status t.id payload := by
  unfold onStatus
  rcases hstatus with h | h | h
  · have hno : ¬(c.stable = false ∨ (t.id.toNat : Int) ≠ (c.current.id.toNat : Int) + 1) := by
      simp only [Follows] at hid
      simp only [hs, Bool.true_eq_false, false_or, not_not]
      omega
    simp only [h, onBegin, if_neg hno]
    exact ⟨trivial, rfl, rfl, rfl, rfl⟩
  · simp only [h, onCommit, if_pos (And.intro hs hid)]
    exact ⟨trivial, rfl, rfl, rfl⟩
  · simp only [h, onAbort, if_pos (Or.inr (And.intro hs hid))]
    exact ⟨trivial, rfl, rfl, rfl⟩

/-- A stable member that does not find the identifier to be its successor keeps its
own, whatever the call returns. -/
theorem onStatus_of_not_follows {c : Controller P} {t : Transaction} (payload : P)
    (hs : c.stable = true) (hid : ¬c.Follows t) : (c.onStatus t payload).1 = c := by
  have hno : c.stable = false ∨ (t.id.toNat : Int) ≠ (c.current.id.toNat : Int) + 1 := by
    simp only [Follows] at hid
    omega
  unfold onStatus
  split
  · unfold onBegin
    rw [if_pos hno]
    split
    · rw [if_neg (by simp [hs])]
    · rfl
  · simp only [onCommit, hs, hid, and_false, if_false]
  · simp [onAbort, hs, hid]
  · rfl
  · rfl

/-- The comparisons find the successor except at the end of the range, where it is 0. -/
theorem follows_succ (c : Controller P) (status : TransactionStatus) :
    c.Follows ⟨c.current.id + 1, status⟩ ↔ c.current.id ≠ 65535 := by
  constructor
  · intro h he
    simp only [Follows, he] at h
    revert h
    decide
  · intro h
    simp only [Follows, toNat_succ h]
    omega

/-- **Joining.** A stable member joins the transaction that another member in step has
started, for commit on TS_BEGIN and for abort on TS_COMMIT and TS_ABORT, if and only if
its identifier is not 65535. -/
theorem joins_iff (c a : Controller P) (m payload : P) (status : TransactionStatus)
    (hc : c.stable = true) (ha : a.free = true) (hid : a.current.id = c.current.id)
    (hstatus : status = .begin ∨ status = .commit ∨ status = .abort) :
    ((c.currentTransaction ⟨(a.api m).current.id, status⟩ payload).2 = .ok () ∧
      (c.currentTransaction ⟨(a.api m).current.id, status⟩ payload).1.JoinedFor status
        (a.api m).current.id payload) ↔ c.current.id ≠ 65535 := by
  have hsucc : (a.api m).current.id = c.current.id + 1 := by
    rw [api, if_pos ha, hid]
  rw [hsucc]
  obtain ⟨hstable, hcaught⟩ := catchUp_succ hc hstatus
  have hfollows : (c.catchUp ⟨c.current.id + 1, status⟩).Follows ⟨c.current.id + 1, status⟩ ↔
      c.current.id ≠ 65535 := by
    rw [← follows_succ c status, Follows, Follows, hcaught]
  constructor
  · intro hjoin
    by_contra hlast
    have hsame := onStatus_of_not_follows payload hstable
      fun h => (hfollows.mp h) hlast
    have hjoined := hjoin.2.1
    rw [currentTransaction, hsame, hcaught] at hjoined
    rw [hlast] at hjoined
    exact absurd hjoined (by decide)
  · intro h
    exact joined_of_follows hstable (hfollows.mpr h) hstatus

theorem joins_iff_one :
    ((Controller.new (P := Nat) false).currentTransaction
        ⟨((Controller.new false).api 7).current.id, .begin⟩ 7).2 = .ok () ∧
      ((Controller.new false).currentTransaction
        ⟨((Controller.new false).api 7).current.id, .begin⟩ 7).1.JoinedFor .begin
          ((Controller.new false).api 7).current.id 7 :=
  (joins_iff (Controller.new false) (Controller.new false) 7 7 .begin rfl rfl rfl
    (.inl rfl)).mpr (by decide)

/-- A member with the identifier 65535, which it has caught up with. -/
def last : Controller Nat :=
  ((Controller.new false).currentTransaction ⟨65535, .commited⟩ 0).1

/-- The TS_BEGIN of the transaction 0 is a `Failure` there. -/
theorem last_not_joins :
    ¬∀ (c a : Controller Nat) (m payload : Nat) (status : TransactionStatus),
      c.stable = true → a.free = true → a.current.id = c.current.id →
      (status = .begin ∨ status = .commit ∨ status = .abort) →
      (c.currentTransaction ⟨(a.api m).current.id, status⟩ payload).2 = .ok () ∧
        (c.currentTransaction ⟨(a.api m).current.id, status⟩ payload).1.JoinedFor status
          (a.api m).current.id payload := by
  intro h
  have hok := (h last last 7 7 .begin rfl rfl rfl (.inl rfl)).1
  cases hok

end Controller
end Atcd.Tmcast
