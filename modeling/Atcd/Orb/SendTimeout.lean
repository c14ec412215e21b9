import Atcd.Orb.Outgoing
/-!
# Oneway messages that time out

`TAO_Transport::send_asynchronous_message_i` with `send` calls that can fail. A message that
timed out is reported as unsent when the byte count of the attempt, or the change of
`sent_byte_count_` over a flush, is 0. Both are counters of a single `drain_queue_i`:
`send_message_block_chain_i` does not report the rounds before a failure, and every drain of a
flush starts to count anew.

The messages and the queue are those of `Outgoing`. What the flushing strategy does is in the
labels: drains of the queue, until one fails or the time is up. Other threads do not use the
transport meanwhile, and messages can be queued.

**Results.**
* `drainLoop_toResult`: where no `send` fails, the drains are those of `Outgoing`.
* `unsent_iff`: a message that is reported as unsent was not partly sent, exactly when no round
  was accepted before the failed one, and no flush that times out repeats a count after it
  sent some of the message.
-/
namespace Atcd.Orb

open List Option

/-- `EWOULDBLOCK`, `ETIME`, or another failure. -/
inductive SendErrno where
  | wouldBlock | timedOut | failed
  deriving DecidableEq, Repr

/-- What a call of `send` does. -/
inductive SendOutcome where
  | accept (count : Nat)
  | error (errno : SendErrno)
  deriving DecidableEq, Repr

/-- `DR_WOULDBLOCK` is the error of `EWOULDBLOCK`; the others are `DR_ERROR`. -/
inductive DrainOutcome where
  | ok | queueEmpty
  | error (errno : SendErrno)
  deriving DecidableEq, Repr

/-- A transport with its counter. `deadline`: the message that was queued last has one. -/
structure Sender where
  transport : Transport
  sentByteCount : Nat
  deadline : Bool
  deriving DecidableEq, Repr

namespace Sender

/-- The vector of the next `send`. -/
def vector (iovMax : Nat) (s : Sender) : List (List UInt8) :=
  fillMessages iovMax s.transport.outStream s.transport.queue []

/-- mirrors TAO/tao/Transport.cpp:1075-1098 -/
def accepted (s : Sender) (iov : List (List UInt8)) (count : Nat) : Sender :=
  { s with transport := s.transport.accepted iov count, sentByteCount := s.sentByteCount + count }

/-- The end of `drain_queue_i`. -/
def drained (s : Sender) : DrainOutcome := if s.transport.queue = [] then .queueEmpty else .ok

/-- mirrors TAO/tao/Asynch_Queued_Message.cpp:192-204 -/
def isExpired (s : Sender) : QueuedMessage → Bool
  | .synch _ => false
  | .asynch m => s.deadline && m.offset = 0

/-- mirrors Transport.cpp:1128-1143 -/
def discardExpired (s : Sender) : Sender :=
  { s with transport :=
      { s.transport with queue := s.transport.queue.filter fun m => !s.isExpired m } }

/-- With an outcome for each call of `send`; `none` when there are too few, or too many.
mirrors Transport.cpp:1016-1099,1126-1211 -/
def drainLoop (iovMax : Nat) : List SendOutcome → Sender → Option (Sender × DrainOutcome)
  | [], s => if s.vector iovMax = [] then some (s, s.drained) else none
  | .error errno :: sends, s =>
    if s.vector iovMax ≠ [] ∧ sends = [] then some (s, .error errno) else none
  | .accept count :: sends, s =>
    if 0 < count ∧ count ≤ (s.vector iovMax).flatten.length then
      let t := s.accepted (s.vector iovMax) count
      if (s.vector iovMax).length = iovMax then drainLoop iovMax sends t
      else if sends = [] then some (t, t.drained)
      else none
    else none

/-- `expired`: the deadline of the queued message has passed.
mirrors Transport.cpp:1101-1211 -/
def drainQueueI (iovMax : Nat) (expired : Bool) (sends : List SendOutcome) (s : Sender) :
    Option (Sender × DrainOutcome) :=
  let s := { s with sentByteCount := 0 }
  drainLoop iovMax sends (if expired then s.discardExpired else s)

/-- `synch_message.push_back (head_, tail_)` -/
def pushSynch (s : Sender) : Sender := { s with transport := s.transport.pushSynch }

/-- `synch_message.remove_from_list (head_, tail_)` -/
def removeSynch (s : Sender) : Sender :=
  { s with transport := { s.transport with queue := s.transport.queue.dropLast } }

/-- The length of what is left of the message of this call. -/
def synchLength (s : Sender) : Nat :=
  match s.transport.queue.getLast? with
  | some (.synch synchMessage) => synchMessage.messageLength s.transport.outStream
  | _ => 0

/-- The error of a return value -1, and `bytes_transferred`, which is 0 before the call and
stays so in that case.
mirrors Transport.cpp:664-696 -/
def sendMessageBlockChainI (iovMax : Nat) (s : Sender) (sends : List SendOutcome) :
    Option (Sender × Option SendErrno × Nat) :=
  let totalLength := s.transport.outStream.flatten.length
  (drainQueueI iovMax false sends s.pushSynch).map fun (s, n) =>
    match n with
    | .error .timedOut => (s.removeSynch, some .timedOut, 0)
    | .error .failed => (s.removeSynch, some .failed, 0)
    | .queueEmpty => (s, none, totalLength)
    | .ok => (s.removeSynch, none, totalLength - s.synchLength)
    | .error .wouldBlock => (s.removeSynch, none, totalLength - s.synchLength)

/-- What happens in a flush: the queue is drained, or the strategy gives up, since its time is
up or for another reason. -/
inductive FlushStep where
  | drain (expired : Bool) (sends : List SendOutcome)
  | giveUp (errno : SendErrno)
  deriving DecidableEq, Repr

/-- The error of a return value -1.
mirrors TAO/tao/Block_Flushing_Strategy.cpp:21-70
mirrors TAO/tao/Reactive_Flushing_Strategy.cpp:52-79
mirrors TAO/tao/Leader_Follower_Flushing_Strategy.cpp:34-78 -/
def flushTransport (iovMax : Nat) : List FlushStep → Sender → Option (Sender × Option SendErrno)
  | [], s => if s.transport.queue = [] then some (s, none) else none
  | .giveUp errno :: steps, s => if steps = [] then some (s, some errno) else none
  | .drain expired sends :: steps, s =>
    if s.transport.queue ≠ [] then
      (drainQueueI iovMax expired sends s).bind fun (s, n) =>
        match n with
        | .error .timedOut => if steps = [] then some (s, some .timedOut) else none
        | .error .failed => if steps = [] then some (s, some .failed) else none
        | _ => flushTransport iovMax steps s
    else none

end Sender

/-- A call, with the answers of the queueing strategy and of `schedule_output`. -/
structure AsyncCall where
  mustQueue : Bool
  maxWaitTime : Bool
  sends : List SendOutcome
  constraintsReached : Bool
  mustFlush : Bool
  scheduleMustFlush : Bool
  flush : List Sender.FlushStep
  deriving DecidableEq, Repr

/-- The return values 0 and -1, where the caller closes the transport, and the exception, where
it stays open. -/
inductive AsyncResult where
  | sent | error | timeout
  deriving DecidableEq, Repr

namespace Sender

def ended (s : Sender) (c : AsyncCall) (r : AsyncResult) : Option (Sender × AsyncResult) :=
  if c.flush = [] then some (s, r) else none

/-- mirrors Transport.cpp:1608-1631 -/
def mustFlush (c : AsyncCall) (trySendingFirst : Bool) : Bool :=
  c.mustFlush || ((c.constraintsReached || trySendingFirst) && c.scheduleMustFlush)

/-- mirrors Transport.cpp:1633-1679 -/
def flushMessage (iovMax : Nat) (s : Sender) (c : AsyncCall) : Option (Sender × AsyncResult) :=
  (flushTransport iovMax c.flush s).map fun (t, errno) =>
    match errno with
    | none => (t, .sent)
    | some .timedOut => if s.sentByteCount = t.sentByteCount then (t, .timeout) else (t, .error)
    | some _ => (t, .error)

/-- mirrors Transport.cpp:1556-1682 -/
def queueMessage (iovMax : Nat) (s : Sender) (c : AsyncCall) (messageBlock : List (List UInt8))
    (trySendingFirst partiallySent timeoutEncountered : Bool) : Option (Sender × AsyncResult) :=
  let s : Sender := ⟨s.transport.queueMessageI messageBlock (!partiallySent), s.sentByteCount,
    !partiallySent && c.maxWaitTime⟩
  if timeoutEncountered ∧ partiallySent then s.ended c .error
  else if timeoutEncountered = false ∧ mustFlush c trySendingFirst then s.flushMessage iovMax c
  else s.ended c .sent

/-- The message is the stream of the transport.
mirrors Transport.cpp:1433-1682 -/
def sendAsynchronousMessageI (iovMax : Nat) (s : Sender) (c : AsyncCall) :
    Option (Sender × AsyncResult) :=
  if s.transport.queue = [] ∧ c.mustQueue = false then
    let totalLength := s.transport.outStream.flatten.length
    (s.sendMessageBlockChainI iovMax c.sends).bind fun (s, n, byteCount) =>
      if n = some .failed then s.ended c .error
      else if totalLength = byteCount then s.ended c .sent
      else if n = some .timedOut ∧ byteCount = 0 then s.ended c .timeout
      else
        let messageBlock := s.transport.outStream.dropWhile fun block => block.length = 0
        s.queueMessage iovMax c messageBlock true (0 < byteCount) (n = some .timedOut)
  else if c.sends = [] then
    s.queueMessage iovMax c s.transport.outStream false false false
  else none

end Sender

/-! ## The drains of `Outgoing` -/

def SendResult.toOutcome : SendResult → SendOutcome
  | .accept count => .accept count
  | .wouldBlock => .error .wouldBlock

def DrainResult.toOutcome : DrainResult → DrainOutcome
  | .ok => .ok
  | .queueEmpty => .queueEmpty
  | .wouldBlock => .error .wouldBlock

namespace Sender

theorem drained_toOutcome (s : Sender) : s.drained = s.transport.drained.toOutcome := by
  unfold drained Transport.drained
  split <;> rfl

/-- Where no call fails, the drain is the one without errors. -/
theorem drainLoop_toResult (iovMax : Nat) (sends : List SendResult) (s : Sender) :
    ((drainLoop iovMax (sends.map SendResult.toOutcome) s).map fun (s, n) => (s.transport, n)) =
      (Transport.drainQueueI iovMax sends s.transport).map fun (t, n) => (t, n.toOutcome) := by
  induction sends generalizing s with
  | nil =>
    simp only [map_nil, drainLoop, Transport.drainQueueI, vector]
    split <;> rename_i hv <;> simp [hv, drained_toOutcome]
  | cons send sends ih =>
    cases send with
    | wouldBlock =>
      simp only [map_cons, SendResult.toOutcome, drainLoop, Transport.drainQueueI, vector,
        map_eq_nil_iff]
      split <;> simp [DrainResult.toOutcome]
    | accept count =>
      simp only [map_cons, SendResult.toOutcome, drainLoop, Transport.drainQueueI, vector,
        map_eq_nil_iff]
      split
      · split
        · exact ih _
        · split <;> simp [drained_toOutcome, accepted]
      · rfl

end Sender

/-! ## What the counters count -/

/-- The bytes that the calls of `send` accept. -/
def accepts : List SendOutcome → Nat
  | [] => 0
  | .accept count :: sends => count + accepts sends
  | .error _ :: sends => accepts sends

/-- The failure that ends a drain. -/
def lastErrno : List SendOutcome → Option SendErrno
  | [] => none
  | .accept _ :: sends => lastErrno sends
  | .error errno :: sends => if sends = [] then some errno else lastErrno sends

def DrainOutcome.errno : DrainOutcome → Option SendErrno
  | .error errno => some errno
  | _ => none

namespace Sender

@[simp] theorem drained_errno (s : Sender) : s.drained.errno = none := by
  unfold drained
  split <;> rfl

def Extends (s t : Sender) (count : Nat) : Prop :=
  ∃ bytes, t.transport.sent = s.transport.sent ++ bytes ∧ bytes.length = count

theorem Extends.of_eq {s t : Sender} (h : t.transport.sent = s.transport.sent) : Extends s t 0 :=
  ⟨[], by simp [h], rfl⟩

theorem Extends.trans {s t u : Sender} {m n : Nat} (h : Extends s t m) (h' : Extends t u n) :
    Extends s u (m + n) := by
  obtain ⟨a, ha, rfl⟩ := h
  obtain ⟨b, hb, rfl⟩ := h'
  exact ⟨a ++ b, by rw [hb, ha, append_assoc], length_append⟩

theorem Extends.same_iff {s t : Sender} {n : Nat} (h : Extends s t n) :
    t.transport.sent = s.transport.sent ↔ n = 0 := by
  obtain ⟨bytes, hb, rfl⟩ := h
  rw [hb]
  simp

theorem accepted_extends (s : Sender) (iov : List (List UInt8)) (count : Nat)
    (h : count ≤ iov.flatten.length) : Extends s (s.accepted iov count) count :=
  ⟨iov.flatten.take count, rfl, by rw [length_take]; omega⟩

/-- A drain counts the bytes that it sends, and ends as the last call of `send` did. -/
theorem drainLoop_spec (iovMax : Nat) (sends : List SendOutcome) (s t : Sender) (n : DrainOutcome)
    (h : drainLoop iovMax sends s = some (t, n)) :
    Extends s t (accepts sends) ∧ t.sentByteCount = s.sentByteCount + accepts sends ∧
      n.errno = lastErrno sends := by
  induction sends generalizing s with
  | nil =>
    simp only [drainLoop] at h
    split at h
    · cases h
      exact ⟨.of_eq rfl, rfl, drained_errno t⟩
    · cases h
  | cons send sends ih =>
    cases send with
    | error errno =>
      simp only [drainLoop] at h
      split at h
      · rename_i hc
        obtain ⟨-, rfl⟩ := hc
        cases h
        exact ⟨.of_eq rfl, rfl, rfl⟩
      · cases h
    | accept count =>
      simp only [drainLoop] at h
      split at h
      · rename_i hc
        have ha := accepted_extends s (s.vector iovMax) count hc.2
        split at h
        · obtain ⟨he, hn, hr⟩ := ih _ h
          refine ⟨ha.trans he, ?_, hr⟩
          rw [hn]
          simp only [accepted, accepts]
          omega
        · split at h
          · rename_i hs
            cases h
            subst hs
            exact ⟨ha, rfl, drained_errno _⟩
          · cases h
      · cases h

theorem drainQueueI_spec (iovMax : Nat) (expired : Bool) (sends : List SendOutcome)
    (s t : Sender) (n : DrainOutcome) (h : drainQueueI iovMax expired sends s = some (t, n)) :
    Extends s t (accepts sends) ∧ t.sentByteCount = accepts sends ∧ n.errno = lastErrno sends := by
  have h' := drainLoop_spec iovMax sends _ t n h
  cases expired with
  | false => simpa [Extends] using h'
  | true => simpa [Extends, discardExpired] using h'

theorem drainLoop_nil (iovMax : Nat) (sends : List SendOutcome) (s : Sender)
    (hv : s.vector iovMax = []) (h : (drainLoop iovMax sends s).isSome) : sends = [] := by
  cases sends with
  | nil => rfl
  | cons send sends =>
    cases send with
    | error errno => simp [drainLoop, hv] at h
    | accept count =>
      simp only [drainLoop, hv, flatten_nil, length_nil] at h
      rw [if_neg (by omega)] at h
      cases h

theorem fillIovSynch_empty (iovMax : Nat) (blocks : List (List UInt8))
    (h : blocks.flatten.length = 0) : fillIovSynch iovMax blocks [] = [] := by
  induction blocks with
  | nil => rfl
  | cons block rest ih =>
    simp only [flatten_cons, length_append] at h
    simp only [fillIovSynch]
    split
    · rw [if_neg (by omega)]
      exact ih (by omega)
    · rfl

theorem vector_pushSynch (iovMax : Nat) (s : Sender) (hq : s.transport.queue = [])
    (h : s.transport.outStream.flatten.length = 0) : s.pushSynch.vector iovMax = [] := by
  simp only [vector, pushSynch, Transport.pushSynch, hq, nil_append, fillMessages,
    QueuedMessage.fillIov, SynchQueuedMessage.chain, getD_none, drop_zero,
    fillIovSynch_empty iovMax _ h, ite_self]

open DrainOutcome

/-- An attempt reports 0 bytes when it fails, and counts what it sent otherwise. -/
theorem sendMessageBlockChainI_spec (iovMax : Nat) (s t : Sender) (sends : List SendOutcome)
    (errno : Option SendErrno) (byteCount : Nat) (hq : s.transport.queue = [])
    (h : s.sendMessageBlockChainI iovMax sends = some (t, errno, byteCount)) :
    Extends s t (accepts sends) ∧ t.sentByteCount = accepts sends ∧
      (errno = some .timedOut ↔ lastErrno sends = some .timedOut) ∧
      (errno = some .timedOut → byteCount = 0 ∧ s.transport.outStream.flatten.length ≠ 0) := by
  obtain ⟨⟨u, n⟩, hu, h⟩ := map_eq_some_iff.mp h
  obtain ⟨he, hn, hr⟩ := drainQueueI_spec iovMax false sends s.pushSynch u n hu
  have hne : lastErrno sends = some .timedOut → s.transport.outStream.flatten.length ≠ 0 := by
    intro hl h0
    have hv := vector_pushSynch iovMax s hq h0
    have := drainLoop_nil iovMax sends { s.pushSynch with sentByteCount := 0 } hv
      (isSome_iff_exists.mpr ⟨_, hu⟩)
    rw [this] at hl
    cases hl
  have hes : Extends s u (accepts sends) := he
  cases n with
  | queueEmpty =>
    cases h
    rw [← hr]
    exact ⟨hes, hn, by simp [errno], nofun⟩
  | ok =>
    cases h
    rw [← hr]
    exact ⟨hes, hn, by simp [errno], nofun⟩
  | error e =>
    cases e with
    | wouldBlock =>
      cases h
      rw [← hr]
      exact ⟨hes, hn, by simp [errno], nofun⟩
    | failed =>
      cases h
      rw [← hr]
      exact ⟨hes, hn, by simp [errno], nofun⟩
    | timedOut =>
      cases h
      refine ⟨hes, hn, ?_, fun _ => ⟨rfl, hne hr.symm⟩⟩
      rw [← hr]
      simp [errno]

/-! ## Flushes -/

/-- The error that a step ends a flush with. -/
def FlushStep.errno : FlushStep → Option SendErrno
  | .giveUp errno => some errno
  | .drain _ sends => if lastErrno sends = some .wouldBlock then none else lastErrno sends

def flushErrno : List FlushStep → Option SendErrno
  | [] => none
  | step :: steps => if steps = [] then step.errno else flushErrno steps

/-- The bytes that a flush sends. -/
def flushed : List FlushStep → Nat
  | [] => 0
  | .drain _ sends :: steps => accepts sends + flushed steps
  | .giveUp _ :: steps => flushed steps

/-- The bytes that its last drain sends; `count` when there is none. -/
def lastCount (count : Nat) : List FlushStep → Nat
  | [] => count
  | .drain _ sends :: steps => lastCount (accepts sends) steps
  | .giveUp _ :: steps => lastCount count steps

theorem flushTransport_spec (iovMax : Nat) (steps : List FlushStep) (s t : Sender)
    (errno : Option SendErrno) (h : flushTransport iovMax steps s = some (t, errno)) :
    Extends s t (flushed steps) ∧ t.sentByteCount = lastCount s.sentByteCount steps ∧
      errno = flushErrno steps := by
  induction steps generalizing s with
  | nil =>
    simp only [flushTransport] at h
    split at h
    · cases h
      exact ⟨.of_eq rfl, rfl, rfl⟩
    · cases h
  | cons step steps ih =>
    cases step with
    | giveUp e =>
      simp only [flushTransport] at h
      split at h
      · rename_i hs
        cases h
        subst hs
        exact ⟨.of_eq rfl, rfl, rfl⟩
      · cases h
    | drain expired sends =>
      simp only [flushTransport] at h
      split at h
      · obtain ⟨⟨u, n⟩, hu, h⟩ := bind_eq_some_iff.mp h
        obtain ⟨he, hn, hr⟩ := drainQueueI_spec iovMax expired sends s u n hu
        -- a drain that does not fail: the flush goes on
        have hgo : lastErrno sends = none ∨ lastErrno sends = some .wouldBlock →
            flushTransport iovMax steps u = some (t, errno) →
            Extends s t (flushed (.drain expired sends :: steps)) ∧
              t.sentByteCount = lastCount s.sentByteCount (.drain expired sends :: steps) ∧
              errno = flushErrno (.drain expired sends :: steps) := by
          intro hl hf
          obtain ⟨he', hn', hr'⟩ := ih u hf
          refine ⟨he.trans he', by rw [hn', hn]; rfl, ?_⟩
          rw [hr', flushErrno]
          split
          · rename_i hs
            subst hs
            rcases hl with hl | hl <;> simp [FlushStep.errno, hl, flushErrno]
          · rfl
        -- a drain that fails: the flush ends with its error
        have hend : ∀ e : SendErrno, e ≠ .wouldBlock → lastErrno sends = some e →
            (if steps = [] then some (u, some e) else none) = some (t, errno) →
            Extends s t (flushed (.drain expired sends :: steps)) ∧
              t.sentByteCount = lastCount s.sentByteCount (.drain expired sends :: steps) ∧
              errno = flushErrno (.drain expired sends :: steps) := by
          intro e hne hl hf
          split at hf
          · rename_i hs
            cases hf
            subst hs
            exact ⟨he, hn, by simp [flushErrno, FlushStep.errno, hl, hne]⟩
          · cases hf
        cases n with
        | ok => exact hgo (.inl hr.symm) h
        | queueEmpty => exact hgo (.inl hr.symm) h
        | error e =>
          cases e with
          | wouldBlock => exact hgo (.inr hr.symm) h
          | timedOut => exact hend .timedOut nofun hr.symm h
          | failed => exact hend .failed nofun hr.symm h
      · cases h

/-- The flush times out, and its last drain leaves the counter at `before`. -/
def TimesOutAt (before : Nat) (flush : List FlushStep) : Prop :=
  flushErrno flush = some .timedOut ∧ lastCount before flush = before

instance (before : Nat) (flush : List FlushStep) : Decidable (TimesOutAt before flush) :=
  inferInstanceAs (Decidable (_ ∧ _))

theorem not_timesOutAt_nil (before : Nat) : ¬ TimesOutAt before [] := by
  rintro ⟨h, -⟩
  cases h

theorem ended_spec (s t : Sender) (c : AsyncCall) (r r' : AsyncResult)
    (h : s.ended c r = some (t, r')) : t = s ∧ r' = r ∧ c.flush = [] := by
  unfold ended at h
  split at h
  · cases h
    exact ⟨rfl, rfl, ‹_›⟩
  · cases h

theorem flushMessage_spec (iovMax : Nat) (s t : Sender) (c : AsyncCall) (r : AsyncResult)
    (h : s.flushMessage iovMax c = some (t, r)) :
    Extends s t (flushed c.flush) ∧ (r = .timeout ↔ TimesOutAt s.sentByteCount c.flush) := by
  obtain ⟨⟨u, errno⟩, hu, h⟩ := map_eq_some_iff.mp h
  obtain ⟨he, hn, hr⟩ := flushTransport_spec iovMax c.flush s u errno hu
  unfold TimesOutAt
  rw [← hr, ← hn]
  cases errno with
  | none =>
    cases h
    exact ⟨he, by simp⟩
  | some e =>
    cases e with
    | wouldBlock =>
      cases h
      exact ⟨he, by simp⟩
    | failed =>
      cases h
      exact ⟨he, by simp⟩
    | timedOut =>
      dsimp only at h
      split at h
      · rename_i hc
        cases h
        exact ⟨he, by simp [hc]⟩
      · rename_i hc
        cases h
        exact ⟨he, by simp [Ne.symm hc]⟩

theorem queueMessage_spec (iovMax : Nat) (s t : Sender) (c : AsyncCall)
    (messageBlock : List (List UInt8)) (trySendingFirst partiallySent : Bool) (r : AsyncResult)
    (h : s.queueMessage iovMax c messageBlock trySendingFirst partiallySent false = some (t, r)) :
    Extends s t (flushed c.flush) ∧ (r = .timeout ↔ TimesOutAt s.sentByteCount c.flush) := by
  unfold queueMessage at h
  rw [if_neg (by simp)] at h
  split at h
  · have h' := flushMessage_spec iovMax _ t c r h
    exact h'
  · obtain ⟨rfl, rfl, hf⟩ := ended_spec _ t c _ r h
    rw [hf]
    exact ⟨.of_eq rfl, by simp [not_timesOutAt_nil]⟩

/-- Some of the message is sent, and the counts do not show it: a round of the attempt was
accepted before the one that times out, or a flush that times out comes back to the count from
before it. -/
def PartlySent (s : Sender) (c : AsyncCall) : Prop :=
  if c.mustQueue = false then
    (lastErrno c.sends = some .timedOut ∧ accepts c.sends ≠ 0) ∨
      (lastErrno c.sends ≠ some .timedOut ∧ TimesOutAt (accepts c.sends) c.flush ∧
        accepts c.sends + flushed c.flush ≠ 0)
  else TimesOutAt s.sentByteCount c.flush ∧ flushed c.flush ≠ 0

instance (s : Sender) (c : AsyncCall) : Decidable (s.PartlySent c) := by
  unfold PartlySent
  infer_instance

/-- The attempt, and the flush behind it. -/
theorem tried_spec (iovMax : Nat) (s t : Sender) (c : AsyncCall) (r : AsyncResult)
    (hq : s.transport.queue = []) (hm : c.mustQueue = false)
    (h : s.sendAsynchronousMessageI iovMax c = some (t, r)) :
    (r = .timeout ↔ lastErrno c.sends = some .timedOut ∨ TimesOutAt (accepts c.sends) c.flush) ∧
    (lastErrno c.sends = some .timedOut → c.flush = []) ∧
    Extends s t (accepts c.sends + flushed c.flush) := by
  unfold sendAsynchronousMessageI at h
  rw [if_pos ⟨hq, hm⟩] at h
  obtain ⟨⟨u, n, byteCount⟩, hu, h⟩ := bind_eq_some_iff.mp h
  obtain ⟨he, hc, hn, h0⟩ := sendMessageBlockChainI_spec iovMax s u c.sends n byteCount hq hu
  -- the call ends without a flush
  have hend : ∀ r' : AsyncResult, (r' = .timeout ↔ lastErrno c.sends = some .timedOut) →
      u.ended c r' = some (t, r) → (r = .timeout ↔ lastErrno c.sends = some .timedOut ∨
        TimesOutAt (accepts c.sends) c.flush) ∧
      (lastErrno c.sends = some .timedOut → c.flush = []) ∧
      Extends s t (accepts c.sends + flushed c.flush) := by
    intro r' hr' h'
    obtain ⟨rfl, rfl, hf⟩ := ended_spec u t c r' r h'
    rw [hf]
    exact ⟨by simp [hr', not_timesOutAt_nil], fun _ => rfl, he⟩
  dsimp only at h
  split at h
  · rename_i hn'
    refine hend .error ?_ h
    simp [← hn, hn']
  · split at h
    · rename_i htotal
      refine hend .sent ?_ h
      rw [← hn]
      have : n ≠ some .timedOut := fun hn' => (h0 hn').2 (htotal.trans (h0 hn').1)
      simp [this]
    · split at h
      · rename_i hn'
        refine hend .timeout ?_ h
        simp [← hn, hn'.1]
      · rename_i hn'
        have hne : n ≠ some .timedOut := fun hn'' => hn' ⟨hn'', (h0 hn'').1⟩
        rw [decide_eq_false hne] at h
        obtain ⟨he', hr'⟩ := queueMessage_spec iovMax u t c _ true _ r h
        rw [hc] at hr'
        have hl : lastErrno c.sends ≠ some .timedOut := fun hl => hne (hn.mpr hl)
        exact ⟨by simp [hr', hl], fun hl' => absurd hl' hl, he.trans he'⟩

/-- A message that is reported as unsent was not partly sent, exactly when the counts show what
the calls of `send` accept. -/
theorem unsent_iff (iovMax : Nat) (s t : Sender) (c : AsyncCall) (r : AsyncResult)
    (hq : s.transport.queue = []) (h : s.sendAsynchronousMessageI iovMax c = some (t, r)) :
    (r = .timeout → t.transport.sent = s.transport.sent) ↔ ¬ s.PartlySent c := by
  unfold PartlySent
  by_cases hm : c.mustQueue = false
  · rw [if_pos hm]
    obtain ⟨hr, hf, he⟩ := tried_spec iovMax s t c r hq hm h
    rw [hr, he.same_iff]
    by_cases hl : lastErrno c.sends = some .timedOut
    · simp [hl, hf hl, not_timesOutAt_nil, flushed]
    · simp only [hl, false_or, false_and, ne_eq, not_false_eq_true, true_and]
      tauto
  · rw [if_neg hm]
    unfold sendAsynchronousMessageI at h
    rw [if_neg (by simp [hm])] at h
    split at h
    · obtain ⟨he, hr⟩ := queueMessage_spec iovMax s t c _ false false r h
      rw [hr, he.same_iff]
      tauto
    · cases h

/-- A call that tries to send first, and does not flush. -/
def tryCall (sends : List SendOutcome) : AsyncCall :=
  ⟨false, true, sends, false, false, false, []⟩

/-- An idle transport with a message of `blocks` blocks of one byte. -/
def sampleSender (blocks : Nat) : Sender := ⟨⟨List.replicate blocks [7], [], []⟩, 0, false⟩

theorem unsent_iff_sample : ∃ (t : Sender) (r : AsyncResult),
    (sampleSender 2).sendAsynchronousMessageI 16 (tryCall [.error .timedOut]) = some (t, r) ∧
      ((r = .timeout → t.transport.sent = (sampleSender 2).transport.sent) ↔
        ¬ (sampleSender 2).PartlySent (tryCall [.error .timedOut])) := by
  obtain ⟨⟨t, r⟩, h⟩ := isSome_iff_exists.mp (show ((sampleSender 2).sendAsynchronousMessageI
    16 (tryCall [.error .timedOut])).isSome from by decide)
  exact ⟨t, r, h, unsent_iff 16 _ t _ r rfl h⟩

/-- A message of 17 blocks, in two rounds of `send`: the first one is accepted. -/
theorem second_round_times_out :
    ¬ ∀ (iovMax : Nat) (s t : Sender) (c : AsyncCall), s.transport.queue = [] →
      s.sendAsynchronousMessageI iovMax c = some (t, .timeout) →
        t.transport.sent = s.transport.sent := by
  intro hall
  have h : ((sampleSender 17).sendAsynchronousMessageI 16
      (tryCall [.accept 16, .error .timedOut])).map (fun x => (x.1.transport.sent.length, x.2)) =
        some (16, .timeout) := by decide
  obtain ⟨⟨t, r⟩, ht, hr⟩ := map_eq_some_iff.mp h
  obtain ⟨hlen, rfl⟩ := Prod.mk.inj hr
  have hs := hall 16 (sampleSender 17) t _ rfl ht
  rw [hs] at hlen
  cases hlen

end Sender

end Atcd.Orb
