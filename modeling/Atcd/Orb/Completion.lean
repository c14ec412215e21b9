import Atcd.Orb.LeaderFollower
import Atcd.Orb.OutgoingRuns
/-!
# Completion of queued messages

`TAO_Transport::cleanup_queue` with the states of the messages, which are invocation events:
`bytes_transferred` of both classes makes a message active, and reports its success when all of
it is sent. The asynchronous class returns before it does so when bytes are left behind the
message.

`successes` is a ghost: how often the message came into `LFS_SUCCESS`. The signal to a follower
that waits for the event is left out.

**Results.**
* `cleanupQueue_erase`: without the states this is the queue of `Outgoing`.
* `completes_iff`: every message is removed with its last byte, and has been moved to
  `LFS_SUCCESS` once by then, exactly when the last byte of every asynchronous message is the
  last one of a batch; two splits of the bytes leave the same states exactly when they agree
  for which asynchronous messages that is so.
-/
namespace Atcd.Orb

open List QueuedMessage

variable {n : Nat}

/-- A queued message with its event. -/
structure LfMessage (n : Nat) where
  message : QueuedMessage
  event : InvocationEvent n
  successes : Nat
  deriving DecidableEq, Repr

namespace LfMessage

/-- mirrors TAO/tao/LF_Invocation_Event.cpp:15-62 -/
def stateChangedI (i : LfMessage n) (newState : LfState) : LfMessage n :=
  let event := i.event.stateChangedI newState
  let moved := i.event.state ≠ .success ∧ event.state = .success
  { i with event := event, successes := if moved then i.successes + 1 else i.successes }

/-- mirrors TAO/tao/LF_Event.cpp:22-36 -/
def stateChanged (i : LfMessage n) (newState : LfState) : LfMessage n :=
  if i.event.state = .timeout ∨ i.event.state = .failure then i else i.stateChangedI newState

/-- The end of `bytes_transferred`. -/
def report (i : LfMessage n) (finished : Bool) : LfMessage n :=
  if finished then i.stateChanged .success else i

/-- The asynchronous class returns before the check when it takes all bytes and some are left;
the synchronous one when its current block is not sent.
mirrors TAO/tao/Asynch_Queued_Message.cpp:91-109
mirrors TAO/tao/Synch_Queued_Message.cpp:80-110 -/
def checks (m : QueuedMessage) (byteCount : Nat) : Bool :=
  match m with
  | .synch _ => true
  | .asynch m => byteCount ≤ m.buffer.length - m.offset

/-- mirrors Asynch_Queued_Message.cpp:91-109
mirrors Synch_Queued_Message.cpp:80-110 -/
def bytesTransferred (i : LfMessage n) (outStream : List (List UInt8)) (byteCount : Nat) :
    LfMessage n × List (List UInt8) × Nat :=
  let i := i.stateChangedI .active
  let (message, outStream, left) := i.message.bytesTransferred outStream byteCount
  let moved := { i with message := message }
  (moved.report (checks i.message byteCount && message.allDataSent outStream), outStream, left)

def copyIfNecessary (i : LfMessage n) (outStream : List (List UInt8)) : LfMessage n :=
  { i with message := i.message.copyIfNecessary outStream }

end LfMessage

/-- The queue, and the messages that were removed, in that order. -/
structure LfQueue (n : Nat) where
  outStream : List (List UInt8)
  queue : List (LfMessage n)
  removed : List (LfMessage n)
  deriving DecidableEq, Repr

/-- mirrors TAO/tao/Transport.cpp:1256-1301 -/
def cleanupLoop : List (LfMessage n) → List (List UInt8) → List (LfMessage n) → Nat → LfQueue n
  | [], outStream, removed, _ => ⟨outStream, [], removed⟩
  | i :: rest, outStream, removed, byteCount =>
    if byteCount = 0 then ⟨outStream, i :: rest, removed⟩
    else
      let (i, outStream, byteCount) := i.bytesTransferred outStream byteCount
      if i.message.allDataSent outStream then
        cleanupLoop rest outStream (removed ++ [i]) byteCount
      else ⟨outStream, i.copyIfNecessary outStream :: rest, removed⟩

namespace LfQueue

/-- mirrors Transport.cpp:1256-1301 -/
def cleanupQueue (s : LfQueue n) (byteCount : Nat) : LfQueue n :=
  cleanupLoop s.queue s.outStream s.removed byteCount

/-- A batch for each call of `send` that accepted bytes. -/
def cleanupAll (s : LfQueue n) (counts : List Nat) : LfQueue n := counts.foldl cleanupQueue s

end LfQueue

namespace LfMessage

@[simp] theorem stateChangedI_message (i : LfMessage n) (newState : LfState) :
    (i.stateChangedI newState).message = i.message := rfl

@[simp] theorem stateChanged_message (i : LfMessage n) (newState : LfState) :
    (i.stateChanged newState).message = i.message := by
  unfold stateChanged
  split <;> rfl

@[simp] theorem report_message (i : LfMessage n) (finished : Bool) :
    (i.report finished).message = i.message := by
  cases finished with
  | false => rfl
  | true => exact stateChanged_message i .success

theorem bytesTransferred_erase (i : LfMessage n) (outStream : List (List UInt8))
    (byteCount : Nat) : ((i.bytesTransferred outStream byteCount).1.message,
      (i.bytesTransferred outStream byteCount).2) = i.message.bytesTransferred outStream byteCount := by
  simp only [bytesTransferred, report_message, stateChangedI_message]

end LfMessage

theorem cleanupLoop_erase (queue removed : List (LfMessage n)) (outStream : List (List UInt8))
    (byteCount : Nat) :
    (((cleanupLoop queue outStream removed byteCount).queue.map LfMessage.message,
      (cleanupLoop queue outStream removed byteCount).outStream)) =
      cleanupMessages (queue.map LfMessage.message) outStream byteCount := by
  induction queue generalizing outStream removed byteCount with
  | nil => rfl
  | cons i rest ih =>
    simp only [cleanupLoop, map_cons, cleanupMessages]
    split
    · rfl
    · have he := i.bytesTransferred_erase outStream byteCount
      rw [← he]
      split
      · exact ih _ _ _
      · rfl

/-- Without the states, `cleanup_queue` is that of `Outgoing`. -/
theorem LfQueue.cleanupQueue_erase (s : LfQueue n) (byteCount : Nat) :
    ((s.cleanupQueue byteCount).queue.map LfMessage.message, (s.cleanupQueue byteCount).outStream) =
      cleanupMessages (s.queue.map LfMessage.message) s.outStream byteCount :=
  cleanupLoop_erase s.queue s.removed s.outStream byteCount

/-! ## One message -/

theorem transferBlocks_all (skip : Bool) (blocks : List (List UInt8)) (byteCount : Nat)
    (hle : blocks.flatten.length ≤ byteCount) (hpos : skip = true ∨ 0 < byteCount) :
    (transferBlocks skip blocks byteCount).2.1 = blocks.length := by
  induction blocks generalizing skip byteCount with
  | nil => rfl
  | cons block rest ih =>
    rw [flatten_cons, length_append] at hle
    simp only [transferBlocks]
    split
    · dsimp only
      rw [ih true byteCount (by omega) (.inl rfl), length_cons]
    · rename_i hskip
      split
      · rename_i hzero
        rcases hpos with hs | hpos
        · exact absurd ⟨hs, by omega⟩ hskip
        · omega
      · rw [if_neg (by omega)]
        rw [ih true _ (by omega) (.inl rfl), length_cons]

theorem QueuedMessage.allDataSent_of_le (m : QueuedMessage) (outStream : List (List UInt8))
    (byteCount : Nat) (hle : (m.pending outStream).length ≤ byteCount) (hpos : 0 < byteCount) :
    (m.bytesTransferred outStream byteCount).1.allDataSent
      (m.bytesTransferred outStream byteCount).2.1 = true := by
  cases m with
  | synch m =>
    obtain ⟨blocks, passed, left, hb⟩ : ∃ b p l, transferBlocks false
      ((m.chain outStream).drop m.currentBlock) byteCount = (b, p, l) := ⟨_, _, _, rfl⟩
    have hlen := (transferBlocks_spec _ _ _ _ _ _ hb).2.2.2.1
    have hpass := transferBlocks_all false _ byteCount hle (.inr hpos)
    rw [hb] at hpass
    dsimp only at hpass
    have hall : ((m.chain outStream).take m.currentBlock ++ blocks).length ≤
        m.currentBlock + passed := by
      rw [length_append, length_take, hlen, hpass]
      omega
    cases hc : m.contents with
    | none =>
      simp only [bytesTransferred, SynchQueuedMessage.bytesTransferred, hb, hc]
      exact decide_eq_true hall
    | some contents =>
      simp only [bytesTransferred, SynchQueuedMessage.bytesTransferred, hb, hc]
      exact decide_eq_true hall
  | asynch m =>
    simp only [pending, length_drop] at hle
    simp only [bytesTransferred, AsynchQueuedMessage.bytesTransferred]
    split
    · simp [allDataSent]
    · simp only [allDataSent, decide_eq_true_eq]
      omega

namespace LfMessage

/-- The message has bytes left, and has not been finished. -/
structure Waiting (i : LfMessage n) (outStream : List (List UInt8)) : Prop where
  state : i.event.state = .idle ∨ i.event.state = .active
  successes : i.successes = 0
  pending : i.message.pending outStream ≠ []

def length (i : LfMessage n) (outStream : List (List UInt8)) : Nat :=
  (i.message.pending outStream).length

theorem Waiting.length_pos {i : LfMessage n} {outStream : List (List UInt8)}
    (h : i.Waiting outStream) : 0 < i.length outStream := length_pos_iff.mpr h.pending

def outcome (i : LfMessage n) : LfState × Nat := (i.event.state, i.successes)

/-- The outcome of a message whose success is reported, or not. -/
def expected (reported : Bool) : LfState × Nat := if reported then (.success, 1) else (.active, 0)

theorem outcome_active {i : LfMessage n} {outStream : List (List UInt8)}
    (h : i.Waiting outStream) : (i.stateChangedI .active).outcome = (.active, 0) := by
  rcases h.state with hs | hs <;>
    simp [outcome, stateChangedI, InvocationEvent.stateChangedI, hs, h.successes]

theorem outcome_report {i : LfMessage n} (h : i.outcome = (.active, 0)) (finished : Bool) :
    (i.report finished).outcome = expected finished := by
  obtain ⟨hs, hn⟩ := Prod.mk.inj h
  cases finished with
  | false => exact h
  | true =>
    simp [outcome, report, stateChanged, stateChangedI, InvocationEvent.stateChangedI, expected,
      hs, hn]

/-- A batch for a waiting message ends inside it, or takes the rest. -/
structure Moved (i : LfMessage n) (outStream : List (List UInt8)) (byteCount : Nat)
    (i' : LfMessage n) (outStream' : List (List UInt8)) (left : Nat) : Prop where
  advanced : QueuedMessage.Advanced i.message outStream byteCount i'.message outStream' left
  inside : byteCount < i.length outStream →
    i'.message.allDataSent outStream' = false ∧ i'.outcome = (.active, 0)
  rest : i.length outStream ≤ byteCount → i'.message.allDataSent outStream' = true ∧
    i'.outcome = expected (i.message.isSynch || i.length outStream = byteCount)

theorem moved_bytesTransferred {i : LfMessage n} {outStream : List (List UInt8)} {byteCount : Nat}
    (h : i.Waiting outStream) (hpos : 0 < byteCount) :
    i.Moved outStream byteCount (i.bytesTransferred outStream byteCount).1
      (i.bytesTransferred outStream byteCount).2.1
      (i.bytesTransferred outStream byteCount).2.2 := by
  have herase := i.bytesTransferred_erase outStream byteCount
  have hadv := advanced_bytesTransferred herase.symm
  have hact := outcome_active h
  have hout : (i.bytesTransferred outStream byteCount).1.outcome =
      expected (checks i.message byteCount &&
        (i.message.bytesTransferred outStream byteCount).1.allDataSent
          (i.message.bytesTransferred outStream byteCount).2.1) := by
    apply outcome_report
    exact hact
  rw [← herase] at hout
  refine ⟨hadv, fun hlt => ?_, fun hle => ?_⟩
  · have hnot : (i.bytesTransferred outStream byteCount).1.message.allDataSent
        (i.bytesTransferred outStream byteCount).2.1 = false := by
      rw [← Bool.not_eq_true]
      intro hall
      have hnil := hadv.pending_eq.symm.trans (hadv.sent hall)
      have := congrArg List.length hnil
      rw [length_drop, length_nil] at this
      unfold LfMessage.length at hlt
      omega
    rw [hnot, Bool.and_false] at hout
    exact ⟨hnot, hout⟩
  · have hall := i.message.allDataSent_of_le outStream byteCount hle hpos
    rw [← herase] at hall
    rw [hall, Bool.and_true] at hout
    refine ⟨hall, hout.trans ?_⟩
    congr 1
    cases hm : i.message with
    | synch m => rfl
    | asynch m =>
      simp only [LfMessage.length, hm, pending, length_drop] at hle ⊢
      simp only [checks, isSynch, Bool.false_or, decide_eq_decide]
      omega

end LfMessage

open LfMessage

/-! ## One batch -/

/-- The messages of the queue wait, and all but the last do not depend on the stream. -/
def Waits (outStream : List (List UInt8)) : List (LfMessage n) → Prop
  | [] => True
  | i :: rest => i.Waiting outStream ∧ (rest = [] ∨ i.message.owned = true) ∧ Waits outStream rest

/-- Where each message ends, when the queue starts at `start`, and whether it is synchronous. -/
def ends (outStream : List (List UInt8)) : Nat → List (LfMessage n) → List (Nat × Bool)
  | _, [] => []
  | start, i :: rest => (start + i.length outStream, i.message.isSynch) ::
      ends outStream (start + i.length outStream) rest

variable {outStream outStream' : List (List UInt8)} {i i' : LfMessage n}
  {queue rest : List (LfMessage n)}

theorem lt_of_mem_ends (hw : Waits outStream queue) (start : Nat) :
    ∀ x ∈ ends outStream start queue, start < x.1 := by
  induction queue generalizing start with
  | nil => nofun
  | cons i rest ih =>
    intro x hx
    have hpos := hw.1.length_pos
    rcases mem_cons.mp hx with rfl | hx
    · dsimp only
      omega
    · have := ih hw.2.2 _ x hx
      omega

/-- The messages behind one that moves do not see the stream move. -/
theorem behind (ho : rest = [] ∨ i.message.owned = true)
    (hs : i.message.owned = true → outStream' = outStream) (hw : Waits outStream rest)
    (start : Nat) :
    Waits outStream' rest ∧ ends outStream' start rest = ends outStream start rest := by
  rcases ho with rfl | ho
  · exact ⟨trivial, rfl⟩
  · rw [hs ho]
    exact ⟨hw, rfl⟩

/-- A batch of `byteCount` bytes for a queue that starts at `start`: the messages that end in it
are removed, and report as they should, or only when they end with the batch. -/
structure Cleaned (start byteCount : Nat) (outStream : List (List UInt8))
    (queue removed : List (LfMessage n)) (s : LfQueue n) (gone : List (LfMessage n))
    (goneEnds : List (Nat × Bool)) : Prop where
  removed_eq : s.removed = removed ++ gone
  ends_eq : ends outStream start queue = goneEnds ++ ends s.outStream (start + byteCount) s.queue
  outcomes : gone.map outcome =
    goneEnds.map fun x => expected (x.2 || x.1 = start + byteCount)
  le : ∀ x ∈ goneEnds, x.1 ≤ start + byteCount
  waits : Waits s.outStream s.queue

theorem waiting_inside {byteCount left : Nat}
    (hm : i.Moved outStream byteCount i' outStream' left) (hlt : byteCount < i.length outStream) :
    (i'.copyIfNecessary outStream').Waiting outStream' := by
  obtain ⟨hs, hn⟩ := Prod.mk.inj (hm.inside hlt).2
  refine ⟨.inr hs, hn, ?_⟩
  have hcopy := (pending_copyIfNecessary i'.message outStream').1
  intro hnil
  have hdrop := hm.advanced.pending_eq.symm.trans (hcopy.symm.trans hnil)
  have := congrArg List.length hdrop
  rw [length_drop, length_nil] at this
  unfold LfMessage.length at hlt
  omega

theorem length_inside {byteCount left : Nat} (hm : i.Moved outStream byteCount i' outStream' left) :
    (i'.copyIfNecessary outStream').length outStream' = i.length outStream - byteCount := by
  have hcopy := (pending_copyIfNecessary i'.message outStream').1
  have : (i'.copyIfNecessary outStream').message.pending outStream' = _ :=
    hcopy.trans hm.advanced.pending_eq
  unfold LfMessage.length
  rw [this, length_drop]

theorem cleaned_cleanupLoop (queue : List (LfMessage n)) :
    ∀ (outStream : List (List UInt8)) (removed : List (LfMessage n)) (start byteCount : Nat),
      Waits outStream queue → ∃ gone goneEnds, Cleaned start byteCount outStream queue removed
        (cleanupLoop queue outStream removed byteCount) gone goneEnds := by
  induction queue with
  | nil =>
    intro outStream removed start byteCount _
    exact ⟨[], [], by simp [cleanupLoop], rfl, rfl, nofun, trivial⟩
  | cons i rest ih =>
    intro outStream removed start byteCount hw
    by_cases hzero : byteCount = 0
    · subst hzero
      refine ⟨[], [], ?_⟩
      exact ⟨(append_nil _).symm, rfl, rfl, nofun, hw⟩
    · obtain ⟨i', outStream', left, hi⟩ : ∃ i' o l,
        i.bytesTransferred outStream byteCount = (i', o, l) := ⟨_, _, _, rfl⟩
      have hm := moved_bytesTransferred hw.1 (Nat.pos_of_ne_zero hzero)
      simp only [hi] at hm
      simp only [cleanupLoop, if_neg hzero, hi]
      by_cases hlt : byteCount < i.length outStream
      · -- the batch ends inside the message
        obtain ⟨hnot, -⟩ := hm.inside hlt
        rw [hnot, if_neg Bool.false_ne_true]
        obtain ⟨hrest, hends⟩ := behind hw.2.1 hm.advanced.stream hw.2.2
          (start + i.length outStream)
        have hlen := length_inside hm
        have hkind := hm.advanced.isSynch_eq
        have hcopy := (pending_copyIfNecessary i'.message outStream').2.2
        refine ⟨[], [], (append_nil _).symm, ?_, rfl, nofun, waiting_inside hm hlt, ?_, hrest⟩
        · simp only [ends, hlen, nil_append]
          rw [show start + byteCount + (i.length outStream - byteCount) =
            start + i.length outStream from by omega, hends]
          congr 2
          exact (hcopy.1.trans hkind).symm
        · exact hw.2.1.imp_right fun ho => hcopy.2 (hm.advanced.owned_eq.trans ho)
      · -- the message is removed
        have hle := Nat.le_of_not_lt hlt
        obtain ⟨hall, hout⟩ := hm.rest hle
        rw [hall, if_pos rfl]
        obtain ⟨hrest, hends⟩ := behind hw.2.1 hm.advanced.stream hw.2.2
          (start + i.length outStream)
        have hleft : start + i.length outStream + left = start + byteCount := by
          have := hm.advanced.left_eq
          unfold LfMessage.length at hle ⊢
          omega
        obtain ⟨gone, goneEnds, hc⟩ := ih outStream' (removed ++ [i'])
          (start + i.length outStream) left hrest
        have hce := hc.ends_eq
        have hco := hc.outcomes
        have hcl := hc.le
        rw [hleft] at hce hco hcl
        refine ⟨i' :: gone, (start + i.length outStream, i.message.isSynch) :: goneEnds,
          ?_, ?_, ?_, ?_, hc.waits⟩
        · rw [hc.removed_eq, append_assoc, singleton_append]
        · rw [ends, ← hends, hce, cons_append]
        · rw [map_cons, map_cons, hco, hout]
          simp only [Nat.add_left_cancel_iff]
        · intro x hx
          rcases mem_cons.mp hx with rfl | hx
          · dsimp only
            omega
          · exact hcl x hx

/-! ## Runs of batches -/

/-- The positions between the batches, from `start` on. -/
def marks : Nat → List Nat → List Nat
  | start, [] => [start]
  | start, count :: counts => start :: marks (start + count) counts

theorem mem_marks (start : Nat) (counts : List Nat) (x : Nat) :
    x ∈ marks start counts ↔ ∃ k, start + (counts.take k).sum = x := by
  induction counts generalizing start with
  | nil => simp [marks, eq_comm]
  | cons count counts ih =>
    rw [marks, mem_cons, ih]
    constructor
    · rintro (rfl | ⟨k, hk⟩)
      · exact ⟨0, rfl⟩
      · refine ⟨k + 1, ?_⟩
        rw [take_succ_cons, sum_cons]
        omega
    · rintro ⟨k, hk⟩
      cases k with
      | zero => exact .inl hk.symm
      | succ k =>
        refine .inr ⟨k, ?_⟩
        rw [take_succ_cons, sum_cons] at hk
        omega

theorem le_of_mem_marks {start x : Nat} {counts : List Nat} (h : x ∈ marks start counts) :
    start ≤ x := by
  obtain ⟨k, rfl⟩ := (mem_marks start counts x).mp h
  exact Nat.le_add_right _ _

/-- What the batches do to a queue that starts at `start`. -/
structure CleanedAll (start : Nat) (counts : List Nat) (s t : LfQueue n)
    (gone : List (LfMessage n)) (goneEnds : List (Nat × Bool)) : Prop where
  removed_eq : t.removed = s.removed ++ gone
  ends_eq : ends s.outStream start s.queue =
    goneEnds ++ ends t.outStream (start + counts.sum) t.queue
  outcomes : gone.map outcome =
    goneEnds.map fun x => expected (x.2 || x.1 ∈ marks start counts)
  le : ∀ x ∈ goneEnds, x.1 ≤ start + counts.sum
  waits : Waits t.outStream t.queue

theorem LfQueue.cleanedAll (counts : List Nat) : ∀ (s : LfQueue n) (start : Nat),
    Waits s.outStream s.queue →
      ∃ gone goneEnds, CleanedAll start counts s (s.cleanupAll counts) gone goneEnds := by
  induction counts with
  | nil =>
    intro s start hw
    exact ⟨[], [], (append_nil _).symm, rfl, rfl, nofun, hw⟩
  | cons count counts ih =>
    intro s start hw
    obtain ⟨gone, goneEnds, hc⟩ :=
      cleaned_cleanupLoop s.queue s.outStream s.removed start count hw
    change Cleaned start count s.outStream s.queue s.removed (s.cleanupQueue count) gone
      goneEnds at hc
    obtain ⟨gone', goneEnds', hc'⟩ := ih (s.cleanupQueue count) (start + count) hc.waits
    have hsum : start + count + counts.sum = start + (count :: counts).sum := by
      rw [sum_cons, Nat.add_assoc]
    have hgt : ∀ x ∈ goneEnds ++ ends (s.cleanupQueue count).outStream (start + count)
        (s.cleanupQueue count).queue, start < x.1 := by
      rw [← hc.ends_eq]
      exact lt_of_mem_ends hw start
    have hgt' : ∀ x ∈ goneEnds', start + count < x.1 := by
      intro x hx
      apply lt_of_mem_ends hc.waits
      rw [hc'.ends_eq]
      exact mem_append_left _ hx
    have hle' := hc'.le
    rw [hsum] at hle'
    refine ⟨gone ++ gone', goneEnds ++ goneEnds', ?_, ?_, ?_, ?_, hc'.waits⟩
    · rw [← append_assoc, ← hc.removed_eq]
      exact hc'.removed_eq
    · rw [hc.ends_eq, hc'.ends_eq, hsum, append_assoc]
      rfl
    · rw [map_append, map_append, hc.outcomes, hc'.outcomes]
      congr 1
      · -- a message that ends in the first batch: no later mark is as early
        apply map_congr_left
        intro x hx
        have h1 := hc.le x hx
        have h2 := hgt x (mem_append_left _ hx)
        have hiff : x.1 = start + count ↔ x.1 ∈ marks start (count :: counts) := by
          rw [marks, mem_cons]
          constructor
          · intro he
            refine .inr ?_
            rw [he]
            exact (mem_marks _ _ _).mpr ⟨0, rfl⟩
          · rintro (he | hm)
            · omega
            · have := le_of_mem_marks hm
              omega
        simp only [hiff]
      · apply map_congr_left
        intro x hx
        have h2 := hgt' x hx
        have hiff : x.1 ∈ marks (start + count) counts ↔ x.1 ∈ marks start (count :: counts) := by
          rw [marks, mem_cons]
          constructor
          · exact .inr
          · rintro (he | hm)
            · omega
            · exact hm
        simp only [hiff]
    · intro x hx
      rcases mem_append.mp hx with hx | hx
      · have := hc.le x hx
        omega
      · exact hle' x hx

namespace LfQueue

def lastByte (s : LfQueue n) (i : Nat) : Nat :=
  (pendingMessages s.outStream ((s.queue.take (i + 1)).map LfMessage.message)).length

/-- After every batch the messages that were removed are those with their last byte accounted
for, and each of them has been moved to `LFS_SUCCESS` once. -/
def Completes (s : LfQueue n) (counts : List Nat) : Prop :=
  ∀ k, (∀ i, i < s.queue.length → (i < (s.cleanupAll (counts.take k)).removed.length ↔
      s.lastByte i ≤ (counts.take k).sum)) ∧
    ∀ m ∈ (s.cleanupAll (counts.take k)).removed, m.event.state = .success ∧ m.successes = 1

/-- The states that the batches leave the messages in. -/
def finalStates (s : LfQueue n) (counts : List Nat) : List LfState :=
  (s.cleanupAll counts).removed.map fun m => m.event.state

/-- A batch ends with the last byte of the message. -/
def EndsBatch (s : LfQueue n) (counts : List Nat) (i : Nat) : Prop :=
  ∃ k, (counts.take k).sum = s.lastByte i

def Covers (s : LfQueue n) (counts : List Nat) : Prop :=
  (pendingMessages s.outStream (s.queue.map LfMessage.message)).length ≤ counts.sum

/-- A queue of waiting messages, before the first batch. -/
structure Fresh (s : LfQueue n) : Prop where
  waits : Waits s.outStream s.queue
  removed : s.removed = []

end LfQueue

theorem ends_getElem? (outStream : List (List UInt8)) (queue : List (LfMessage n))
    (start i : Nat) : (ends outStream start queue)[i]? = queue[i]?.map fun m =>
      (start + (pendingMessages outStream ((queue.take (i + 1)).map LfMessage.message)).length,
        m.message.isSynch) := by
  induction queue generalizing start i with
  | nil => rfl
  | cons m rest ih =>
    cases i with
    | zero => simp [ends, pendingMessages, LfMessage.length]
    | succ i =>
      simp only [ends, getElem?_cons_succ, ih, take_succ_cons, map_cons,
        pendingMessages, flatMap_cons, length_append, LfMessage.length, Nat.add_assoc]

theorem le_of_mem_ends (outStream : List (List UInt8)) (queue : List (LfMessage n)) (start : Nat) :
    ∀ x ∈ ends outStream start queue,
      x.1 ≤ start + (pendingMessages outStream (queue.map LfMessage.message)).length := by
  induction queue generalizing start with
  | nil => nofun
  | cons m rest ih =>
    intro x hx
    rw [map_cons, pendingMessages, flatMap_cons, length_append]
    rcases mem_cons.mp hx with rfl | hx
    · simp only [LfMessage.length]
      omega
    · have := ih _ x hx
      unfold LfMessage.length pendingMessages at this
      omega

namespace LfMessage

@[simp] theorem expected_eq_success (b : Bool) : expected b = (.success, 1) ↔ b = true := by
  cases b <;> simp [expected]

@[simp] theorem expected_fst (b b' : Bool) : (expected b).1 = (expected b').1 ↔ b = b' := by
  cases b <;> cases b' <;> simp [expected]

end LfMessage

/-- All messages that are gone have reported when those that end in a batch are synchronous. -/
theorem CleanedAll.reported_iff {start : Nat} {counts : List Nat} {s t : LfQueue n}
    {gone : List (LfMessage n)} {goneEnds : List (Nat × Bool)}
    (h : CleanedAll start counts s t gone goneEnds) :
    (∀ m ∈ gone, m.event.state = .success ∧ m.successes = 1) ↔
      ∀ x ∈ goneEnds, x.2 = true ∨ x.1 ∈ marks start counts := by
  have hmap : (∀ m ∈ gone, m.event.state = .success ∧ m.successes = 1) ↔
      ∀ y ∈ gone.map outcome, y = (.success, 1) := by
    simp [outcome]
  rw [hmap, h.outcomes, forall_mem_map]
  simp only [expected_eq_success, Bool.or_eq_true, decide_eq_true_eq]

theorem CleanedAll.length_eq {start : Nat} {counts : List Nat} {s t : LfQueue n}
    {gone : List (LfMessage n)} {goneEnds : List (Nat × Bool)}
    (h : CleanedAll start counts s t gone goneEnds) : gone.length = goneEnds.length := by
  have := congrArg List.length h.outcomes
  rwa [length_map, length_map] at this

namespace LfQueue

variable {s : LfQueue n}

theorem ends_lastByte (s : LfQueue n) (i : Nat) : (ends s.outStream 0 s.queue)[i]? =
    s.queue[i]?.map fun m => (s.lastByte i, m.message.isSynch) := by
  rw [ends_getElem?]
  simp only [Nat.zero_add]
  rfl

theorem removed_iff (hf : s.Fresh) (counts : List Nat) (i : Nat) (hi : i < s.queue.length) :
    i < (s.cleanupAll counts).removed.length ↔ s.lastByte i ≤ counts.sum := by
  obtain ⟨gone, goneEnds, hc⟩ := s.cleanedAll counts 0 hf.waits
  have hlen := hc.length_eq
  have hends := ends_lastByte s i
  rw [getElem?_eq_getElem hi, Option.map_some, hc.ends_eq] at hends
  rw [hc.removed_eq, hf.removed, nil_append, hlen]
  by_cases hlt : i < goneEnds.length
  · rw [getElem?_append_left hlt] at hends
    have := hc.le _ (mem_of_getElem? hends)
    simp only [Nat.zero_add] at this
    simp [hlt, this]
  · rw [getElem?_append_right (Nat.le_of_not_lt hlt)] at hends
    have := lt_of_mem_ends hc.waits _ _ (mem_of_getElem? hends)
    omega

theorem all_gone {counts : List Nat} (hcov : s.Covers counts) {t : LfQueue n}
    {gone : List (LfMessage n)} {goneEnds : List (Nat × Bool)}
    (hc : CleanedAll 0 counts s t gone goneEnds) : ends s.outStream 0 s.queue = goneEnds := by
  have hends := hc.ends_eq
  suffices ends t.outStream (0 + counts.sum) t.queue = [] by
    rw [hends, this, append_nil]
  rw [eq_nil_iff_forall_not_mem]
  intro x hx
  have hgt := lt_of_mem_ends hc.waits _ x hx
  have hle := le_of_mem_ends s.outStream s.queue 0 x
    (hends ▸ mem_append_right _ hx)
  unfold Covers at hcov
  omega

/-- A condition on the ends of the messages is one on their numbers. -/
theorem forall_ends (p : Nat × Bool → Prop) : (∀ x ∈ ends s.outStream 0 s.queue, p x) ↔
    ∀ i m, s.queue[i]? = some m → p (s.lastByte i, m.message.isSynch) := by
  constructor
  · intro h i m hi
    apply h
    apply mem_of_getElem?
    rw [ends_lastByte, hi]
    rfl
  · intro h x hx
    obtain ⟨i, hi⟩ := getElem?_of_mem hx
    rw [ends_lastByte] at hi
    obtain ⟨m, hm, rfl⟩ := Option.map_eq_some_iff.mp hi
    exact h i m hm

theorem mem_marks_iff (s : LfQueue n) (counts : List Nat) (i : Nat) :
    s.lastByte i ∈ marks 0 counts ↔ s.EndsBatch counts i := by
  rw [mem_marks]
  simp only [Nat.zero_add]
  rfl

theorem mem_marks_take {counts : List Nat} {x k : Nat} (hx : x ∈ marks 0 counts)
    (hle : x ≤ (counts.take k).sum) : x ∈ marks 0 (counts.take k) := by
  obtain ⟨j, hj⟩ := (mem_marks 0 counts x).mp hx
  rw [mem_marks]
  rcases Nat.le_total j k with h | h
  · refine ⟨j, ?_⟩
    rw [take_take, Nat.min_eq_left h]
    exact hj
  · refine ⟨k, ?_⟩
    have hsplit : (counts.take j).sum = (counts.take k).sum + ((counts.take j).drop k).sum := by
      have htake : counts.take k = (counts.take j).take k := by
        rw [take_take, Nat.min_eq_left h]
      rw [htake, ← sum_append, take_append_drop]
    rw [take_take, Nat.min_self]
    omega

theorem completes_iff_ends (hf : s.Fresh) (counts : List Nat) (hcov : s.Covers counts) :
    s.Completes counts ↔
      ∀ i m, s.queue[i]? = some m → m.message.isSynch = false → s.EndsBatch counts i := by
  have hcond := forall_ends (s := s) fun x => x.2 = true ∨ x.1 ∈ marks 0 counts
  simp only [mem_marks_iff] at hcond
  have hswap : (∀ i m, s.queue[i]? = some m → m.message.isSynch = false → s.EndsBatch counts i) ↔
      ∀ i m, s.queue[i]? = some m → m.message.isSynch = true ∨ s.EndsBatch counts i := by
    simp only [← Bool.not_eq_true, or_iff_not_imp_left]
  rw [hswap, ← hcond]
  constructor
  · intro h
    obtain ⟨gone, goneEnds, hc⟩ := s.cleanedAll counts 0 hf.waits
    have hall := (h counts.length).2
    rw [take_length, hc.removed_eq, hf.removed, nil_append] at hall
    rw [all_gone hcov hc]
    exact hc.reported_iff.mp hall
  · intro h k
    refine ⟨fun i hi => removed_iff hf (counts.take k) i hi, ?_⟩
    obtain ⟨gone, goneEnds, hc⟩ := s.cleanedAll (counts.take k) 0 hf.waits
    rw [hc.removed_eq, hf.removed, nil_append]
    apply hc.reported_iff.mpr
    intro x hx
    have hmem : x ∈ ends s.outStream 0 s.queue := by
      rw [hc.ends_eq]
      exact mem_append_left _ hx
    apply (h x hmem).imp_right
    intro hm
    have hle := hc.le x hx
    rw [Nat.zero_add] at hle
    exact mem_marks_take hm hle

theorem finalStates_eq (hf : s.Fresh) (counts : List Nat) (hcov : s.Covers counts) :
    s.finalStates counts = (ends s.outStream 0 s.queue).map fun x =>
      (expected (x.2 || x.1 ∈ marks 0 counts)).1 := by
  obtain ⟨gone, goneEnds, hc⟩ := s.cleanedAll counts 0 hf.waits
  have hstates : gone.map (fun m => m.event.state) = (gone.map outcome).map Prod.fst := by
    rw [map_map]
    rfl
  rw [finalStates, hc.removed_eq, hf.removed, nil_append, hstates, hc.outcomes,
    all_gone hcov hc, map_map]
  rfl

/-- Two splits of the bytes leave the same states when they agree about the asynchronous
messages. -/
theorem finalStates_iff_ends (hf : s.Fresh) (counts counts' : List Nat) (hcov : s.Covers counts)
    (hcov' : s.Covers counts') : s.finalStates counts = s.finalStates counts' ↔
      ∀ i m, s.queue[i]? = some m → m.message.isSynch = false →
        (s.EndsBatch counts i ↔ s.EndsBatch counts' i) := by
  rw [finalStates_eq hf counts hcov, finalStates_eq hf counts' hcov', map_inj_left, forall_ends]
  refine forall₃_congr fun i m _ => ?_
  rw [expected_fst]
  cases m.message.isSynch with
  | true => simp
  | false =>
    simp only [Bool.false_or, decide_eq_decide, mem_marks_iff, true_imp_iff]

/-- Completion is reported however the bytes are batched, as far as the batches end with the
asynchronous messages. -/
theorem completes_iff (s : LfQueue n) (hf : s.Fresh) :
    (∀ counts : List Nat, s.Covers counts → (s.Completes counts ↔
      ∀ i m, s.queue[i]? = some m → m.message.isSynch = false → s.EndsBatch counts i)) ∧
    ∀ counts counts' : List Nat, s.Covers counts → s.Covers counts' →
      (s.finalStates counts = s.finalStates counts' ↔
        ∀ i m, s.queue[i]? = some m → m.message.isSynch = false →
          (s.EndsBatch counts i ↔ s.EndsBatch counts' i)) :=
  ⟨completes_iff_ends hf, finalStates_iff_ends hf⟩

/-- Two asynchronous messages of a byte. -/
def sampleLfQueue : LfQueue 1 :=
  ⟨[], [⟨.asynch ⟨[1], 0⟩, ⟨.idle, none⟩, 0⟩, ⟨.asynch ⟨[2], 0⟩, ⟨.idle, none⟩, 0⟩], []⟩

theorem fresh_sampleLfQueue : sampleLfQueue.Fresh where
  waits := ⟨⟨.inl rfl, rfl, by decide⟩, .inr rfl, ⟨.inl rfl, rfl, by decide⟩, .inl rfl, trivial⟩
  removed := rfl

theorem completes_iff_sample :
    (∀ counts : List Nat, sampleLfQueue.Covers counts → (sampleLfQueue.Completes counts ↔
      ∀ i m, sampleLfQueue.queue[i]? = some m → m.message.isSynch = false →
        sampleLfQueue.EndsBatch counts i)) ∧
    ∀ counts counts' : List Nat, sampleLfQueue.Covers counts → sampleLfQueue.Covers counts' →
      (sampleLfQueue.finalStates counts = sampleLfQueue.finalStates counts' ↔
        ∀ i m, sampleLfQueue.queue[i]? = some m → m.message.isSynch = false →
          (sampleLfQueue.EndsBatch counts i ↔ sampleLfQueue.EndsBatch counts' i)) :=
  completes_iff sampleLfQueue fresh_sampleLfQueue

/-- Two bytes in one batch leave the first message active, in two batches not. -/
theorem batch_beyond_message :
    ¬ ∀ (n : Nat) (s : LfQueue n) (counts counts' : List Nat), s.Fresh → s.Covers counts →
      s.Covers counts' → s.Completes counts ∧ s.finalStates counts = s.finalStates counts' := by
  intro hall
  have h := (hall 1 sampleLfQueue [2] [1, 1] fresh_sampleLfQueue (by unfold Covers; decide)
    (by unfold Covers; decide)).2
  revert h
  decide

end LfQueue

end Atcd.Orb
