import Atcd.Core.Run
import Atcd.Orb.Outgoing
/-!
# Outgoing bytes over runs

Results:
* `prefix_of_keeps`: the bytes that `send` has accepted, and those still queued behind them,
  are the bytes of the messages in the order of their submission. This holds as long as an
  asynchronous message that is not sent completely at once has at most one `send` accept
  bytes of it, and no reply that has to be queued is given up for a failed `schedule_output`.
* `copied_message_sent_twice`: a run in which bytes are sent twice.
-/
namespace Atcd.Orb

open Atcd.Core List Option SynchQueuedMessage

/-! ## Progress of a message -/

/-- The loop of `bytes_transferred` takes the first bytes of the blocks; the current block is
behind blocks without data, and behind all when bytes are left. -/
theorem transferBlocks_spec (skip : Bool) (blocks : List (List UInt8)) (byteCount : Nat) :
    ∀ blocks' passed left, transferBlocks skip blocks byteCount = (blocks', passed, left) →
      blocks'.flatten = blocks.flatten.drop byteCount ∧ (blocks'.drop passed).flatten = blocks'.flatten ∧
      left = byteCount - blocks.flatten.length ∧ blocks'.length = blocks.length ∧
      (left ≠ 0 → passed = blocks.length) := by
  induction blocks generalizing skip byteCount with
  | nil =>
    intro blocks' passed left h
    obtain ⟨rfl, rfl, rfl⟩ := by simpa [transferBlocks] using h
    simp
  | cons block rest ih =>
    intro blocks' passed left h
    obtain ⟨rest', passed', left', hrest⟩ : ∃ r p l, transferBlocks true rest byteCount = (r, p, l) := ⟨_, _, _, rfl⟩
    obtain ⟨rest₁, passed₁, left₁, hrest₁⟩ :
      ∃ r p l, transferBlocks true rest (byteCount - block.length) = (r, p, l) := ⟨_, _, _, rfl⟩
    simp only [transferBlocks, hrest, hrest₁] at h
    split at h
    · next hskip =>
      obtain ⟨rfl, rfl, rfl⟩ := by simpa using h
      obtain ⟨hflat, hcur, hleft, hlen, hall⟩ := ih _ _ _ _ _ hrest
      obtain rfl := length_eq_zero_iff.mp hskip.2
      refine ⟨by simpa using hflat, by simpa using hcur, by simpa using hleft, by simp [hlen], fun hne => ?_⟩
      simp [hall hne]
    · split at h
      · next hzero =>
        obtain ⟨rfl, rfl, rfl⟩ := by simpa using h
        simp [hzero]
      · split at h
        · next hlt =>
          obtain ⟨rfl, rfl, rfl⟩ := by simpa using h
          simp only [flatten_cons, drop_zero, length_cons, length_append, true_and]
          refine ⟨?_, by omega, fun h0 => absurd rfl h0⟩
          rw [drop_append_of_le_length (Nat.le_of_lt hlt)]
        · next hge =>
          obtain ⟨rfl, rfl, rfl⟩ := by simpa using h
          obtain ⟨hflat, hcur, hleft, hlen, hall⟩ := ih _ _ _ _ _ hrest₁
          simp only [flatten_cons, nil_append, drop_succ_cons, length_cons, length_append]
          refine ⟨?_, hcur, by omega, by omega, fun hne => by rw [hall hne]⟩
          have hnil : block.drop byteCount = [] := drop_eq_nil_of_le (by omega)
          rw [hflat, drop_append, hnil, nil_append]

namespace QueuedMessage

/-- The bytes of a message that are still to be sent. -/
def pending (outStream : List (List UInt8)) : QueuedMessage → List UInt8
  | .synch m => ((m.chain outStream).drop m.currentBlock).flatten
  | .asynch m => m.buffer.drop m.offset

/-- The message does not depend on the stream. -/
def owned : QueuedMessage → Bool
  | .synch m => m.contents.isSome
  | .asynch _ => true

def isSynch : QueuedMessage → Bool
  | .synch _ => true
  | .asynch _ => false

variable {m m' : QueuedMessage} {outStream outStream' : List (List UInt8)} {byteCount left : Nat}

theorem pending_owned (h : m.owned = true) : m.pending outStream = m.pending outStream' := by
  cases m with
  | synch m =>
    obtain ⟨contents, hc⟩ := isSome_iff_exists.mp h
    simp [pending, chain, hc]
  | asynch m => rfl

theorem allDataSent_owned (h : m.owned = true) : m.allDataSent outStream = m.allDataSent outStream' := by
  cases m with
  | synch m =>
    obtain ⟨contents, hc⟩ := isSome_iff_exists.mp h
    simp [allDataSent, SynchQueuedMessage.allDataSent, SynchQueuedMessage.chain, hc]
  | asynch m => rfl

/-- What `bytes_transferred` does: it takes the first bytes of the message, and all of them
before any is left. -/
structure Advanced (m : QueuedMessage) (outStream : List (List UInt8)) (byteCount : Nat) (m' : QueuedMessage)
    (outStream' : List (List UInt8)) (left : Nat) : Prop where
  pending_eq : m'.pending outStream' = (m.pending outStream).drop byteCount
  left_eq : left = byteCount - (m.pending outStream).length
  all : left ≠ 0 → m'.allDataSent outStream' = true
  sent : m'.allDataSent outStream' = true → m'.pending outStream' = []
  owned_eq : m'.owned = m.owned
  isSynch_eq : m'.isSynch = m.isSynch
  stream : m.owned = true → outStream' = outStream

/-- The chain of a message behind its current block, when that moves. -/
theorem drop_take_append {chain blocks : List (List UInt8)} {current passed : Nat}
    (hlen : blocks.length = (chain.drop current).length) :
    (chain.take current ++ blocks).drop (current + passed) = blocks.drop passed := by
  have htaken : (chain.take current).drop (current + passed) = [] := by
    refine drop_eq_nil_of_le ?_
    rw [length_take]
    omega
  rw [length_drop] at hlen
  rw [drop_append, length_take, htaken, nil_append]
  by_cases hle : current ≤ chain.length
  · rw [Nat.min_eq_left hle, Nat.add_sub_cancel_left]
  · have hnil : blocks = [] := length_eq_zero_iff.mp (by omega)
    rw [hnil, drop_nil, drop_nil]

theorem advanced_bytesTransferred
    (h : m.bytesTransferred outStream byteCount = (m', outStream', left)) :
    Advanced m outStream byteCount m' outStream' left := by
  cases m with
  | synch m =>
    obtain ⟨blocks, passed, left₁, hblocks⟩ :
      ∃ b p l, transferBlocks false ((m.chain outStream).drop m.currentBlock) byteCount = (b, p, l) := ⟨_, _, _, rfl⟩
    obtain ⟨hflat, hcur, hleft, hlen, hall⟩ := transferBlocks_spec _ _ _ _ _ _ hblocks
    have hpending : (((m.chain outStream).take m.currentBlock ++ blocks).drop (m.currentBlock + passed)).flatten =
        ((m.chain outStream).drop m.currentBlock).flatten.drop byteCount := by
      rw [drop_take_append hlen, hcur, hflat]
    have hallsent : left₁ ≠ 0 →
        ((m.chain outStream).take m.currentBlock ++ blocks).length ≤ m.currentBlock + passed := by
      rw [length_append, length_take, hlen]
      omega
    have hnone : ((m.chain outStream).take m.currentBlock ++ blocks).length ≤ m.currentBlock + passed →
        (((m.chain outStream).take m.currentBlock ++ blocks).drop (m.currentBlock + passed)).flatten = [] := by
      intro hle
      rw [drop_eq_nil_of_le hle, flatten_nil]
    simp only [bytesTransferred, SynchQueuedMessage.bytesTransferred, hblocks] at h
    cases hc : m.contents with
    | none =>
      simp only [hc, Prod.mk.injEq] at h
      obtain ⟨rfl, rfl, rfl⟩ := h
      refine ⟨hpending, hleft, fun hne => ?_, fun hsent => hnone ?_, ?_, rfl, fun ho => ?_⟩
      · exact decide_eq_true (hallsent hne)
      · exact of_decide_eq_true hsent
      · simp [owned, hc]
      · simp [owned, hc] at ho
    | some contents =>
      simp only [hc, Prod.mk.injEq] at h
      obtain ⟨rfl, rfl, rfl⟩ := h
      refine ⟨hpending, hleft, fun hne => ?_, fun hsent => hnone ?_, ?_, rfl, fun _ => rfl⟩
      · exact decide_eq_true (hallsent hne)
      · exact of_decide_eq_true hsent
      · simp [owned, hc]
  | asynch m =>
    simp only [bytesTransferred, AsynchQueuedMessage.bytesTransferred] at h
    have hlen : (m.buffer.drop m.offset).length = m.buffer.length - m.offset := length_drop
    split at h
    · next hlt =>
      obtain ⟨rfl, rfl, rfl⟩ := h
      refine ⟨?_, ?_, fun _ => by simp [allDataSent], fun _ => by simp [pending], rfl, rfl, fun _ => rfl⟩
      · simp only [pending, drop_length, drop_drop]
        exact (drop_eq_nil_of_le (by omega)).symm
      · simp only [pending, hlen]
    · next hge =>
      obtain ⟨rfl, rfl, rfl⟩ := h
      refine ⟨?_, ?_, fun hne => absurd rfl hne, fun hsent => ?_, rfl, rfl, fun _ => rfl⟩
      · simp only [pending, drop_drop]
      · simp only [pending, hlen]
        omega
      · simp only [allDataSent, decide_eq_true_eq] at hsent
        simp only [pending, ← hsent, drop_length]

theorem pending_copyIfNecessary (m : QueuedMessage) (outStream : List (List UInt8)) :
    (m.copyIfNecessary outStream).pending outStream = m.pending outStream ∧
      (m.copyIfNecessary outStream).allDataSent outStream = m.allDataSent outStream ∧
      (m.copyIfNecessary outStream).isSynch = m.isSynch ∧
      (m.owned = true → (m.copyIfNecessary outStream).owned = true) := by
  cases m with
  | synch m =>
    simp only [copyIfNecessary, SynchQueuedMessage.copyIfNecessary]
    cases hc : m.contents with
    | some contents => simp [owned, hc]
    | none =>
      simp only
      split
      · next hlt =>
        refine ⟨?_, ?_, rfl, fun _ => rfl⟩
        · simp [pending, SynchQueuedMessage.clone, SynchQueuedMessage.chain, hc]
        · simp [allDataSent, SynchQueuedMessage.allDataSent, SynchQueuedMessage.clone, SynchQueuedMessage.chain, hc]
          omega
      · simp [owned, hc]
  | asynch m => exact ⟨rfl, rfl, rfl, fun h => h⟩

end QueuedMessage

/-! ## The queue -/

open QueuedMessage

/-- The messages of the queue are not sent, all but the last do not depend on the stream, and
the last is one that `last` allows. -/
def Lined (last : QueuedMessage → Bool) (outStream : List (List UInt8)) : List QueuedMessage → Prop
  | [] => True
  | [m] => m.allDataSent outStream = false ∧ last m = true
  | m :: rest => m.allDataSent outStream = false ∧ m.owned = true ∧ Lined last outStream rest

def pendingMessages (outStream : List (List UInt8)) (queue : List QueuedMessage) : List UInt8 :=
  queue.flatMap (·.pending outStream)

/-- A message of this kind stays one as it is sent. -/
structure Kind (last : QueuedMessage → Bool) : Prop where
  advanced : ∀ {m outStream byteCount m' outStream' left}, Advanced m outStream byteCount m' outStream' left →
    last m = true → last m' = true
  copied : ∀ m outStream, last m = true → last (m.copyIfNecessary outStream) = true

theorem kind_owned : Kind owned where
  advanced h hm := h.owned_eq.trans hm
  copied m outStream := (pending_copyIfNecessary m outStream).2.2.2

theorem kind_isSynch : Kind isSynch where
  advanced h hm := h.isSynch_eq.trans hm
  copied m outStream hm := (pending_copyIfNecessary m outStream).2.2.1.trans hm

variable {last : QueuedMessage → Bool} {outStream outStream' : List (List UInt8)} {m m' : QueuedMessage}
  {queue rest : List QueuedMessage} {byteCount left iovMax : Nat}

/-- The messages behind the first one, when that moves on in the stream. -/
theorem Lined.stream (h : Lined last outStream (m :: rest)) (hs : m.owned = true → outStream' = outStream) :
    Lined last outStream' rest ∧ pendingMessages outStream' rest = pendingMessages outStream rest := by
  cases rest with
  | nil => exact ⟨trivial, rfl⟩
  | cons m' rest =>
    rw [hs h.2.1]
    exact ⟨h.2.2, rfl⟩

theorem Lined.cons (h : Lined last outStream (m :: rest)) (hm : m'.allDataSent outStream' = false)
    (howned : m.owned = true → m'.owned = true) (hlast : last m = true → last m' = true)
    (hrest : Lined last outStream' rest) : Lined last outStream' (m' :: rest) := by
  cases rest with
  | nil => exact ⟨hm, hlast h.2⟩
  | cons m'' rest => exact ⟨hm, howned h.2.1, hrest⟩

theorem cleanupMessages_spec (hk : Kind last) :
    ∀ {queue : List QueuedMessage} {outStream : List (List UInt8)} {byteCount : Nat},
    Lined last outStream queue → byteCount ≤ (pendingMessages outStream queue).length →
    ∀ queue' outStream', cleanupMessages queue outStream byteCount = (queue', outStream') →
      Lined last outStream' queue' ∧
        pendingMessages outStream' queue' = (pendingMessages outStream queue).drop byteCount := by
  intro queue
  induction queue with
  | nil =>
    intro outStream byteCount _ _ queue' outStream' h
    obtain ⟨rfl, rfl⟩ := by simpa [cleanupMessages] using h
    exact ⟨trivial, by simp [pendingMessages]⟩
  | cons m rest ih =>
    intro outStream byteCount hlined hle queue' outStream' h
    by_cases hzero : byteCount = 0
    · rw [cleanupMessages, if_pos hzero] at h
      obtain ⟨rfl, rfl⟩ := by simpa using h
      rw [hzero, drop_zero]
      exact ⟨hlined, rfl⟩
    · obtain ⟨m', stream, left, hm⟩ : ∃ m' s l, m.bytesTransferred outStream byteCount = (m', s, l) := ⟨_, _, _, rfl⟩
      have ha := advanced_bytesTransferred hm
      obtain ⟨hrest, hpending⟩ := hlined.stream ha.stream
      have hcons : pendingMessages outStream (m :: rest) = m.pending outStream ++ pendingMessages outStream rest :=
        flatMap_cons
      rw [hcons, length_append] at hle
      simp only [cleanupMessages, if_neg hzero, hm] at h
      by_cases hall : m'.allDataSent stream = true
      · rw [if_pos hall] at h
        have hleft := ha.left_eq
        have hnone := ha.pending_eq.symm.trans (ha.sent hall)
        obtain ⟨hlined', hpending'⟩ := ih hrest (by rw [hpending]; omega) _ _ h
        refine ⟨hlined', ?_⟩
        rw [hpending', hpending, hcons, drop_append, hnone, nil_append, hleft]
      · rw [if_neg hall] at h
        simp only [Prod.mk.injEq] at h
        obtain ⟨rfl, rfl⟩ := h
        obtain ⟨hpend, hsent, -, howned⟩ := pending_copyIfNecessary m' stream
        have hleft : left = 0 := Classical.byContradiction fun hne => hall (ha.all hne)
        have hno : byteCount - (m.pending outStream).length = 0 := by
          rw [← ha.left_eq, hleft]
        refine ⟨hlined.cons ?_ (fun ho => howned (ha.owned_eq.trans ho))
            (fun hl => hk.copied _ _ (hk.advanced ha hl)) hrest, ?_⟩
        · rw [hsent]
          exact Bool.eq_false_iff.mpr hall
        · rw [hcons, drop_append, hno, drop_zero, ← hpending, ← ha.pending_eq, ← hpend]
          exact flatMap_cons

/-! ## The vector -/

/-- A message fills the vector with its first bytes, with all of them unless the vector is
full. -/
theorem fillIovSynch_spec {blocks iov : List (List UInt8)} (hle : iov.length ≤ iovMax) :
    (fillIovSynch iovMax blocks iov).length ≤ iovMax ∧
      ∃ x, (fillIovSynch iovMax blocks iov).flatten = iov.flatten ++ x ∧ x <+: blocks.flatten ∧
        (x = blocks.flatten ∨ (fillIovSynch iovMax blocks iov).length = iovMax) := by
  induction blocks generalizing iov with
  | nil => exact ⟨hle, [], by simp [fillIovSynch]⟩
  | cons block rest ih =>
    rw [fillIovSynch]
    by_cases hlt : iov.length < iovMax
    · rw [if_pos hlt]
      by_cases hpos : 0 < block.length
      · rw [if_pos hpos]
        have hle' : (iov ++ [block]).length ≤ iovMax := by
          rw [length_append, length_singleton]
          omega
        obtain ⟨hlen, x, hflat, hprefix, hx⟩ := ih hle'
        refine ⟨hlen, block ++ x, ?_, ?_, hx.imp_left fun hx => ?_⟩
        · rw [hflat, flatten_append, flatten_singleton, append_assoc]
        · rw [flatten_cons]
          exact prefix_append_right_inj block |>.mpr hprefix
        · rw [hx, flatten_cons]
      · rw [if_neg hpos]
        have hnil : block = [] := length_eq_zero_iff.mp (by omega)
        rw [hnil, flatten_cons, nil_append]
        exact ih hle
    · rw [if_neg hlt]
      exact ⟨hle, [], by simp, nil_prefix, .inr (by omega)⟩

theorem fillIov_spec {iov : List (List UInt8)} (outStream : List (List UInt8)) (m : QueuedMessage)
    (hlt : iov.length < iovMax) :
    (m.fillIov iovMax outStream iov).length ≤ iovMax ∧
      ∃ x, (m.fillIov iovMax outStream iov).flatten = iov.flatten ++ x ∧ x <+: m.pending outStream ∧
        (x = m.pending outStream ∨ (m.fillIov iovMax outStream iov).length = iovMax) := by
  cases m with
  | synch m => exact fillIovSynch_spec (Nat.le_of_lt hlt)
  | asynch m =>
    refine ⟨?_, m.buffer.drop m.offset, ?_, prefix_refl _, .inl rfl⟩
    · simp only [fillIov, AsynchQueuedMessage.fillIov, length_append, length_singleton]
      omega
    · simp [fillIov, AsynchQueuedMessage.fillIov]

theorem fillMessages_spec {iov : List (List UInt8)} (outStream : List (List UInt8)) (queue : List QueuedMessage)
    (hlt : iov.length < iovMax) :
    ∃ x, (fillMessages iovMax outStream queue iov).flatten = iov.flatten ++ x ∧
        x <+: pendingMessages outStream queue := by
  induction queue generalizing iov with
  | nil => exact ⟨[], by simp [fillMessages], nil_prefix⟩
  | cons m rest ih =>
    obtain ⟨hlen, x, hflat, hprefix, hx⟩ := fillIov_spec outStream m hlt
    have hcons : pendingMessages outStream (m :: rest) = m.pending outStream ++ pendingMessages outStream rest :=
      flatMap_cons
    simp only [fillMessages, hcons]
    by_cases hfull : (m.fillIov iovMax outStream iov).length = iovMax
    · rw [if_pos hfull]
      exact ⟨x, hflat, hprefix.trans (prefix_append _ _)⟩
    · rw [if_neg hfull]
      have hroom : (m.fillIov iovMax outStream iov).length < iovMax := by omega
      obtain ⟨y, hrest, hy⟩ := ih hroom
      refine ⟨x ++ y, ?_, ?_⟩
      · rw [hrest, hflat, append_assoc]
      · rw [hx.resolve_right hfull]
        exact (prefix_append_right_inj _).mpr hy

/-! ## Draining the queue -/

/-- The bytes that `send` accepts. -/
def SendResult.count : SendResult → Nat
  | .accept count => count
  | .wouldBlock => 0

def SendResult.accepts : SendResult → Bool
  | .accept _ => true
  | .wouldBlock => false

def bytesAccepted (sends : List SendResult) : Nat := (sends.map SendResult.count).sum

namespace Transport

variable {t t' : Transport} {sends : List SendResult} {n : DrainResult}

def pending (t : Transport) : List UInt8 := pendingMessages t.outStream t.queue

/-- A call of `send` moves bytes from the front of the queue to the wire. -/
theorem accepted_spec (hk : Kind last) (hpos : 0 < iovMax) (hl : Lined last t.outStream t.queue)
    (hle : byteCount ≤ (fillMessages iovMax t.outStream t.queue []).flatten.length) :
    Lined last (t.accepted (fillMessages iovMax t.outStream t.queue []) byteCount).outStream
        (t.accepted (fillMessages iovMax t.outStream t.queue []) byteCount).queue ∧
      (t.accepted (fillMessages iovMax t.outStream t.queue []) byteCount).pending = t.pending.drop byteCount ∧
      (t.accepted (fillMessages iovMax t.outStream t.queue []) byteCount).sent = t.sent ++ t.pending.take byteCount ∧
      byteCount ≤ t.pending.length := by
  have hroom : ([] : List (List UInt8)).length < iovMax := hpos
  obtain ⟨x, hflat, hprefix⟩ := fillMessages_spec t.outStream t.queue hroom
  rw [flatten_nil, nil_append] at hflat
  rw [hflat] at hle
  have hbound : byteCount ≤ t.pending.length := Nat.le_trans hle hprefix.length_le
  obtain ⟨queue, outStream, hclean⟩ : ∃ q o, cleanupMessages t.queue t.outStream byteCount = (q, o) := ⟨_, _, rfl⟩
  obtain ⟨hlined, hpending⟩ := cleanupMessages_spec hk hl hbound _ _ hclean
  simp only [accepted, hclean, hflat]
  refine ⟨hlined, hpending, ?_, hbound⟩
  obtain ⟨y, hy⟩ := hprefix
  have hy' : t.pending = x ++ y := hy.symm
  rw [hy', take_append_of_le_length hle]

theorem drainQueueI_spec (hk : Kind last) (hpos : 0 < iovMax) (hl : Lined last t.outStream t.queue)
    (h : drainQueueI iovMax sends t = some (t', n)) :
    Lined last t'.outStream t'.queue ∧ t'.sent ++ t'.pending = t.sent ++ t.pending ∧
      t'.pending.length + bytesAccepted sends = t.pending.length ∧ (n = .queueEmpty → t'.queue = []) := by
  have hdrained : ∀ t : Transport, t.drained = .queueEmpty → t.queue = [] := by
    intro t hd
    unfold drained at hd
    split at hd
    · assumption
    · cases hd
  induction sends generalizing t with
  | nil =>
    simp only [drainQueueI] at h
    split at h
    · simp only [some.injEq, Prod.mk.injEq] at h
      obtain ⟨rfl, rfl⟩ := h
      exact ⟨hl, rfl, rfl, hdrained t⟩
    · cases h
  | cons result sends ih =>
    cases result with
    | wouldBlock =>
      simp only [drainQueueI] at h
      split at h
      · next hlast =>
        obtain ⟨rfl, rfl⟩ := h
        rw [hlast.2]
        exact ⟨hl, rfl, rfl, fun h0 => by cases h0⟩
      · cases h
    | accept count =>
      simp only [drainQueueI] at h
      split at h
      · next hcount =>
        obtain ⟨hlined, hpending, hsent, hbound⟩ := accepted_spec hk hpos hl hcount.2
        have hsame : (t.accepted (fillMessages iovMax t.outStream t.queue []) count).sent ++
            (t.accepted (fillMessages iovMax t.outStream t.queue []) count).pending = t.sent ++ t.pending := by
          rw [hsent, hpending, append_assoc, take_append_drop]
        have hlen : (t.accepted (fillMessages iovMax t.outStream t.queue []) count).pending.length + count =
            t.pending.length := by
          rw [hpending, length_drop]
          omega
        have hsum : bytesAccepted (.accept count :: sends) = count + bytesAccepted sends := rfl
        split at h
        · obtain ⟨hlined', hsame', hlen', hempty⟩ := ih hlined h
          exact ⟨hlined', hsame'.trans hsame, by omega, hempty⟩
        · split at h
          · next hnil =>
            obtain ⟨rfl, rfl⟩ := h
            rw [hnil] at hsum ⊢
            have hzero : bytesAccepted [] = 0 := rfl
            exact ⟨hlined, hsame, by omega, hdrained _⟩
          · cases h
      · cases h

theorem drainQueueI_wouldBlock (h : drainQueueI iovMax (.wouldBlock :: sends) t = some (t', n)) : t' = t := by
  simp only [drainQueueI] at h
  split at h
  · simp only [some.injEq, Prod.mk.injEq] at h
    exact h.1.symm
  · cases h

theorem drainQueueI_idle (hno : ∀ result ∈ sends, SendResult.accepts result = false)
    (h : drainQueueI iovMax sends t = some (t', n)) : t' = t := by
  cases sends with
  | nil =>
    simp only [drainQueueI] at h
    split at h
    · simp only [some.injEq, Prod.mk.injEq] at h
      exact h.1.symm
    · cases h
  | cons result sends =>
    cases result with
    | wouldBlock => exact drainQueueI_wouldBlock h
    | accept count => cases hno _ mem_cons_self

/-! ## The calls -/

theorem lined_concat {init : List QueuedMessage} : Lined last outStream (init ++ [m]) ↔
    (∀ x ∈ init, x.allDataSent outStream = false ∧ x.owned = true) ∧ m.allDataSent outStream = false ∧
        last m = true := by
  induction init with
  | nil => simp [Lined]
  | cons x init ih =>
    have hcons : Lined last outStream (x :: init ++ [m]) ↔
        x.allDataSent outStream = false ∧ x.owned = true ∧ Lined last outStream (init ++ [m]) := by
      cases init <;> exact Iff.rfl
    rw [hcons, ih]
    simp only [mem_cons, forall_eq_or_imp]
    constructor
    · rintro ⟨h1, h2, h3, h4⟩
      exact ⟨⟨⟨h1, h2⟩, h3⟩, h4⟩
    · rintro ⟨⟨⟨h1, h2⟩, h3⟩, h4⟩
      exact ⟨h1, h2, h3, h4⟩

theorem lined_owned : Lined owned outStream queue ↔ ∀ x ∈ queue, x.allDataSent outStream = false ∧ x.owned = true := by
  rcases eq_nil_or_concat queue with rfl | ⟨init, m, rfl⟩
  · simp [Lined]
  · rw [concat_eq_append, lined_concat]
    simp only [mem_append, mem_singleton]
    constructor
    · rintro ⟨hinit, hm⟩ x (hx | rfl)
      · exact hinit x hx
      · exact hm
    · intro h
      exact ⟨fun x hx => h x (.inl hx), h m (.inr rfl)⟩

/-- Between the calls the queue does not depend on the stream. -/
theorem lined_format (h : Lined owned outStream queue) (outStream' : List (List UInt8)) :
    Lined owned outStream' queue ∧ pendingMessages outStream' queue = pendingMessages outStream queue := by
  rw [lined_owned] at h
  refine ⟨lined_owned.mpr fun x hx => ?_, flatMap_congr fun x hx => pending_owned (h x hx).2⟩
  have hsame : x.allDataSent outStream' = x.allDataSent outStream := allDataSent_owned (h x hx).2
  rw [hsame]
  exact h x hx

theorem pendingMessages_append (queue rest : List QueuedMessage) :
    pendingMessages outStream (queue ++ rest) = pendingMessages outStream queue ++ pendingMessages outStream rest :=
  flatMap_append

/-- The message of a call behind the queue. -/
theorem lined_pushSynch (h : Lined owned t.outStream t.queue) (hne : t.outStream ≠ []) :
    Lined isSynch t.pushSynch.outStream t.pushSynch.queue ∧
        t.pushSynch.pending = t.pending ++ t.outStream.flatten := by
  refine ⟨lined_concat.mpr ⟨lined_owned.mp h, ?_, rfl⟩, ?_⟩
  · have hpos := length_pos_iff.mpr hne
    exact decide_eq_false (Nat.not_le.mpr hpos)
  · rw [pending, pushSynch, pendingMessages_append]
    simp [pendingMessages, QueuedMessage.pending, chain, Transport.pending]

/-- The first `send` moves the stream on with the message. -/
theorem accepted_stream (hq : t.queue = [.synch ⟨none, 0⟩]) (iov : List (List UInt8))
    (hne : (t.accepted iov byteCount).queue ≠ []) :
    (t.accepted iov byteCount).pending = (t.accepted iov byteCount).outStream.flatten := by
  obtain ⟨blocks, passed, left, hblocks⟩ :
    ∃ b p l, transferBlocks false t.outStream byteCount = (b, p, l) := ⟨_, _, _, rfl⟩
  obtain ⟨-, hcur, -⟩ := transferBlocks_spec _ _ _ _ _ _ hblocks
  by_cases hzero : byteCount = 0
  · have hsame : (t.accepted iov byteCount).queue = t.queue ∧ (t.accepted iov byteCount).outStream = t.outStream := by
      simp [accepted, hq, cleanupMessages, hzero]
    rw [pending, hsame.1, hsame.2, hq]
    simp [pendingMessages, QueuedMessage.pending, SynchQueuedMessage.chain]
  · have hm : (QueuedMessage.synch ⟨none, 0⟩).bytesTransferred t.outStream byteCount =
      (.synch ⟨none, passed⟩, blocks, left) := by
      simp [QueuedMessage.bytesTransferred, SynchQueuedMessage.bytesTransferred, SynchQueuedMessage.chain, hblocks]
    by_cases hall : (QueuedMessage.synch ⟨none, passed⟩).allDataSent blocks = true
    · have hnil : (t.accepted iov byteCount).queue = [] := by
        simp [accepted, hq, cleanupMessages, hzero, hm, hall]
      exact absurd hnil hne
    · have hclean : (t.accepted iov byteCount).queue = [(QueuedMessage.synch ⟨none, passed⟩).copyIfNecessary blocks] ∧
          (t.accepted iov byteCount).outStream = blocks := by
        simp [accepted, hq, cleanupMessages, hzero, hm, hall]
      rw [pending, hclean.1, hclean.2, pendingMessages, flatMap_singleton, (pending_copyIfNecessary _ _).1]
      exact hcur

theorem drainQueueI_stream (hq : t.queue = [.synch ⟨none, 0⟩]) (hone : sends.countP SendResult.accepts ≤ 1)
    (h : drainQueueI iovMax sends t = some (t', n)) (hne : t'.queue ≠ []) : t'.pending = t'.outStream.flatten := by
  have hstart : t.pending = t.outStream.flatten := by
    rw [pending, hq]
    simp [pendingMessages, QueuedMessage.pending, chain]
  cases sends with
  | nil =>
    rw [drainQueueI_idle (by simp) h]
    exact hstart
  | cons result sends =>
    cases result with
    | wouldBlock =>
      rw [drainQueueI_wouldBlock h]
      exact hstart
    | accept count =>
      have hno : ∀ result ∈ sends, SendResult.accepts result = false := by
        rw [countP_cons_of_pos rfl] at hone
        have hzero : sends.countP SendResult.accepts = 0 := by omega
        intro result hr
        exact Bool.eq_false_iff.mpr (countP_eq_zero.mp hzero result hr)
      have ht' : t' = t.accepted (fillMessages iovMax t.outStream t.queue []) count := by
        simp only [drainQueueI] at h
        split at h
        · split at h
          · exact drainQueueI_idle hno h
          · split at h
            · simp only [some.injEq, Prod.mk.injEq] at h
              exact h.1.symm
            · cases h
        · cases h
      rw [ht'] at hne ⊢
      exact accepted_stream hq _ hne

theorem cleanupMessages_length {queue' : List QueuedMessage} :
    ∀ {queue : List QueuedMessage} {outStream : List (List UInt8)} {byteCount : Nat},
      cleanupMessages queue outStream byteCount = (queue', outStream') → queue'.length ≤ queue.length := by
  intro queue
  induction queue with
  | nil =>
    intro outStream byteCount h
    simp only [cleanupMessages, Prod.mk.injEq] at h
    rw [← h.1]
  | cons m rest ih =>
    intro outStream byteCount h
    simp only [cleanupMessages] at h
    split at h
    · simp only [Prod.mk.injEq] at h
      rw [← h.1]
    · split at h
      · exact Nat.le_succ_of_le (ih h)
      · simp only [Prod.mk.injEq] at h
        rw [← h.1]
        simp

theorem drainQueueI_length (h : drainQueueI iovMax sends t = some (t', n)) : t'.queue.length ≤ t.queue.length := by
  induction sends generalizing t with
  | nil =>
    rw [drainQueueI_idle (by simp) h]
  | cons result sends ih =>
    cases result with
    | wouldBlock => rw [drainQueueI_wouldBlock h]
    | accept count =>
      have hlen : (t.accepted (fillMessages iovMax t.outStream t.queue []) count).queue.length ≤ t.queue.length := by
        obtain ⟨queue, outStream, hclean⟩ : ∃ q o, cleanupMessages t.queue t.outStream count = (q, o) := ⟨_, _, rfl⟩
        simp only [accepted, hclean]
        exact cleanupMessages_length hclean
      simp only [drainQueueI] at h
      split at h
      · split at h
        · exact Nat.le_trans (ih h) hlen
        · split at h
          · simp only [some.injEq, Prod.mk.injEq] at h
            rwa [← h.1]
          · cases h
      · cases h

/-! ## Runs -/

/-- The steps that lose and repeat nothing. -/
def Keeps (t : Transport) : TransportOp → Prop
  | .sendAsynchronous message mustQueue sends =>
    t.queue = [] → mustQueue = false →
      sends.countP SendResult.accepts ≤ 1 ∨ bytesAccepted sends = message.flatten.length
  | .sendReply message sends scheduled =>
    scheduled = true ∨ bytesAccepted sends = t.pending.length + message.flatten.length
  | .drainQueue _ => True

instance (t : Transport) : ∀ op, Decidable (Keeps t op)
  | .sendAsynchronous _ _ _ => inferInstanceAs (Decidable (_ → _ → _ ∨ _))
  | .sendReply _ _ _ => inferInstanceAs (Decidable (_ ∨ _))
  | .drainQueue _ => inferInstanceAs (Decidable True)

/-- What a call does to the bytes: with `message` behind the queue, none is lost or repeated. -/
structure Conserves (t t' : Transport) (message : List UInt8) : Prop where
  lined : Lined owned t'.outStream t'.queue
  bytes : t'.sent ++ t'.pending = t.sent ++ t.pending ++ message

theorem conserves_queueMessageI (h : Lined owned t.outStream t.queue) {messageBlock : List (List UInt8)}
    (hne : messageBlock.flatten ≠ []) : Conserves t (t.queueMessageI messageBlock true) messageBlock.flatten where
  lined := by
    rw [lined_owned] at h ⊢
    intro x hx
    rcases mem_append.mp hx with hx | hx
    · exact h x hx
    · obtain rfl := mem_singleton.mp hx
      refine ⟨decide_eq_false fun h0 => hne ?_, rfl⟩
      exact length_eq_zero_iff.mp h0
  bytes := by
    have hpending : (t.queueMessageI messageBlock true).pending = t.pending ++ messageBlock.flatten := by
      rw [pending, queueMessageI, if_pos rfl, pendingMessages_append]
      simp [pendingMessages, QueuedMessage.pending, Transport.pending]
    rw [hpending]
    exact (append_assoc _ _ _).symm

theorem conserves_sendReply (hpos : 0 < iovMax) (h : Lined owned t.outStream t.queue) (hne : t.outStream ≠ [])
    {scheduled : Bool} (hk : scheduled = true ∨ bytesAccepted sends = t.pending.length + t.outStream.flatten.length)
    (hs : t.sendReplyMessageI iovMax sends scheduled = some t') : Conserves t t' t.outStream.flatten := by
  obtain ⟨hlined, hpending⟩ := lined_pushSynch h hne
  obtain ⟨⟨t₁, n⟩, hdrain, ht'⟩ := map_eq_some_iff.mp hs
  obtain ⟨hlined₁, hbytes, hlen, hempty⟩ := drainQueueI_spec kind_isSynch hpos hlined hdrain
  have hsame : t₁.sent ++ t₁.pending = t.sent ++ t.pending ++ t.outStream.flatten := by
    rw [hbytes, hpending, append_assoc]
    rfl
  simp only at ht'
  by_cases hn : n = .queueEmpty
  · rw [if_pos hn] at ht'
    subst ht'
    refine ⟨?_, hsame⟩
    rw [hempty hn]
    trivial
  · rw [if_neg hn] at ht'
    rcases eq_nil_or_concat t₁.queue with hnil | ⟨init, m, hqueue⟩
    · simp only [hnil, getLast?_nil] at ht'
      subst ht'
      refine ⟨?_, hsame⟩
      rw [hnil]
      trivial
    · rw [concat_eq_append] at hqueue
      rw [hqueue, lined_concat] at hlined₁
      obtain ⟨hinit, hsent, hsynch⟩ := hlined₁
      cases m with
      | asynch m => cases hsynch
      | synch m =>
        have hall : m.allDataSent t₁.outStream = false := hsent
        have hpend : t₁.pending = pendingMessages t₁.outStream init ++
            ((m.chain t₁.outStream).drop m.currentBlock).flatten := by
          rw [pending, hqueue, pendingMessages_append]
          simp [pendingMessages, QueuedMessage.pending]
        simp only [hqueue, getLast?_concat, hall, Bool.false_eq_true, if_false, dropLast_concat] at ht'
        subst ht'
        cases scheduled with
        | true =>
          refine ⟨lined_concat.mpr ⟨hinit, ?_, rfl⟩, ?_⟩
          · have hlt : m.currentBlock < (m.chain t₁.outStream).length := Nat.not_le.mp (of_decide_eq_false hall)
            refine decide_eq_false ?_
            simp only [clone, chain, getD_some, length_drop]
            simp only [chain] at hlt
            omega
          · rw [← hsame, hpend, pending, pendingMessages_append]
            simp [pendingMessages, QueuedMessage.pending, clone, chain]
        | false =>
          have hzero : t₁.pending.length = 0 := by
            have hall := hk.resolve_left (by simp)
            rw [hpending, length_append] at hlen
            omega
          have hnil := length_eq_zero_iff.mp hzero
          rw [hpend, append_eq_nil_iff] at hnil
          simp only [Bool.false_eq_true, if_false, append_nil]
          refine ⟨lined_owned.mpr hinit, ?_⟩
          rw [← hsame, hpend, hnil.2, append_nil]
          rfl

theorem queueMessageI_nil (hq : t.queue = []) {messageBlock : List (List UInt8)} (hne : messageBlock.flatten ≠ [])
    (back : Bool) :
      Lined owned (t.queueMessageI messageBlock back).outStream (t.queueMessageI messageBlock back).queue ∧
      (t.queueMessageI messageBlock back).pending = messageBlock.flatten := by
  have hqueue : (t.queueMessageI messageBlock back).queue = [.asynch ⟨messageBlock.flatten, 0⟩] := by
    simp only [queueMessageI, hq]
    split <;> rfl
  rw [pending, hqueue]
  refine ⟨⟨decide_eq_false fun h0 => hne (length_eq_zero_iff.mp h0), rfl⟩, ?_⟩
  simp [pendingMessages, QueuedMessage.pending]

theorem flatten_dropWhile_empty (blocks : List (List UInt8)) :
    (blocks.dropWhile fun block => block.length = 0).flatten = blocks.flatten := by
  induction blocks with
  | nil => rfl
  | cons block rest ih =>
    rw [dropWhile_cons]
    split
    · next hzero =>
      have hnil := length_eq_zero_iff.mp (of_decide_eq_true hzero)
      rw [ih, hnil]
      rfl
    · rfl

theorem conserves_sendAsynchronous (hpos : 0 < iovMax) (h : Lined owned t.outStream t.queue)
    (hne : t.outStream.flatten ≠ [])
    {mustQueue : Bool} (hk : t.queue = [] → mustQueue = false →
      sends.countP SendResult.accepts ≤ 1 ∨ bytesAccepted sends = t.outStream.flatten.length)
    (hs : t.sendAsynchronousMessageI iovMax mustQueue sends = some t') : Conserves t t' t.outStream.flatten := by
  have hstream : t.outStream ≠ [] := fun h0 => hne (by rw [h0, List.flatten_nil])
  unfold sendAsynchronousMessageI at hs
  split at hs
  · next htry =>
    have hkeeps := hk htry.1 htry.2
    obtain ⟨hlined, hpending⟩ := lined_pushSynch h hstream
    have hqueue : t.pushSynch.queue = [.synch ⟨none, 0⟩] := by
      rw [pushSynch, htry.1, List.nil_append]
    have hnone : t.pending = [] := by
      rw [pending, htry.1]
      rfl
    rw [hnone, List.nil_append] at hpending
    simp only [sendMessageBlockChainI, Option.map_map] at hs
    obtain ⟨⟨t₁, n⟩, hdrain, ht'⟩ := Option.map_eq_some_iff.mp hs
    obtain ⟨hlined₁, hbytes, hlen, hempty⟩ := drainQueueI_spec kind_isSynch hpos hlined hdrain
    have hsame : t₁.sent ++ t₁.pending = t.sent ++ t.pending ++ t.outStream.flatten := by
      rw [hbytes, hpending, hnone, List.append_nil]
      rfl
    have hsize := drainQueueI_length hdrain
    rw [hqueue] at hsize
    have htotal : t.pushSynch.outStream.flatten.length = t.pushSynch.pending.length := by
      rw [hpending]
      rfl
    simp only [Function.comp_apply] at ht'
    by_cases hn : n = .queueEmpty
    · simp only [hn, if_true] at ht'
      subst ht'
      refine ⟨?_, hsame⟩
      rw [hempty hn]
      trivial
    · simp only [hn, if_false] at ht'
      rcases List.eq_nil_or_concat t₁.queue with hnil | ⟨init, m, hm⟩
      · simp only [hnil, List.getLast?_nil, List.dropLast_nil, if_true] at ht'
        subst ht'
        refine ⟨trivial, ?_⟩
        have hp : t₁.pending = [] := by
          rw [pending, hnil]
          rfl
        rw [← hsame, hp]
        rfl
      · rw [List.concat_eq_append] at hm
        have hinit : init = [] := by
          rw [hm, List.length_append] at hsize
          exact List.length_eq_zero_iff.mp (Nat.le_zero.mp (Nat.le_of_succ_le_succ hsize))
        rw [hinit, List.nil_append] at hm
        rw [hm] at hlined₁
        cases m with
        | asynch m => cases hlined₁.2
        | synch m =>
          have hpend : t₁.pending = ((m.chain t₁.outStream).drop m.currentBlock).flatten := by
            rw [pending, hm]
            simp [pendingMessages, QueuedMessage.pending]
          have hmessage : m.messageLength t₁.outStream = t₁.pending.length := by
            rw [hpend]
            rfl
          have hflat : t.outStream.flatten.length = t.pushSynch.pending.length := htotal
          simp only [hm, List.getLast?_singleton, hmessage, List.dropLast_singleton] at ht'
          by_cases hdone : t.outStream.flatten.length = t.outStream.flatten.length - t₁.pending.length
          · -- all of it is sent
            rw [if_pos hdone] at ht'
            subst ht'
            have hp : t₁.pending = [] := List.length_eq_zero_iff.mp (by omega)
            refine ⟨trivial, ?_⟩
            rw [← hsame, hp]
            rfl
          · rw [if_neg hdone] at ht'
            subst ht'
            have hone : sends.countP SendResult.accepts ≤ 1 := by
              refine hkeeps.resolve_right fun hsum => ?_
              omega
            have hrest : t₁.pending = t₁.outStream.flatten :=
              drainQueueI_stream hqueue hone hdrain (by rw [hm]; exact List.cons_ne_nil _ _)
            have hnonempty : (t₁.outStream.dropWhile fun block => block.length = 0).flatten ≠ [] := by
              rw [flatten_dropWhile_empty, ← hrest]
              intro h0
              rw [h0] at hdone
              exact hdone rfl
            obtain ⟨hlast, hnew⟩ := queueMessageI_nil (t := { t₁ with queue := [] }) rfl hnonempty
              (t.outStream.flatten.length - t₁.pending.length = 0)
            refine ⟨hlast, ?_⟩
            rw [← hsame, hnew, flatten_dropWhile_empty, hrest]
            rfl
  · split at hs
    · obtain rfl := Option.some.inj hs
      exact conserves_queueMessageI h hne
    · cases hs

theorem conserves_step (hpos : 0 < iovMax) (op : TransportOp) (h : Lined owned t.outStream t.queue) (hk : Keeps t op)
    (hs : step iovMax t op = some t') : Conserves t t' op.message.flatten := by
  -- the new message takes the place of the one in the stream
  have hformat : ∀ message : List (List UInt8), Lined owned (t.format message).outStream (t.format message).queue ∧
      (t.format message).pending = t.pending := fun message => lined_format h message
  have hback : ∀ {message : List (List UInt8)}, Conserves (t.format message) t' message.flatten →
      Conserves t t' message.flatten := by
    intro message hc
    refine ⟨hc.lined, ?_⟩
    rw [hc.bytes, (hformat message).2]
    rfl
  cases op with
  | sendAsynchronous message mustQueue sends =>
    simp only [step] at hs
    split at hs
    · next hmessage =>
      have hne : message.flatten ≠ [] := by
        obtain ⟨block, rest, rfl⟩ := exists_cons_of_ne_nil hmessage.1
        have hblock := hmessage.2 block mem_cons_self
        simp [hblock]
      exact hback (conserves_sendAsynchronous hpos (hformat message).1 hne hk hs)
    · cases hs
  | sendReply message sends scheduled =>
    simp only [step] at hs
    split at hs
    · next hmessage =>
      have hscheduled : scheduled = true ∨
          bytesAccepted sends = (t.format message).pending.length + message.flatten.length := by
        rw [(hformat message).2]
        exact hk
      exact hback (conserves_sendReply hpos (hformat message).1 hmessage.1 hscheduled hs)
    · cases hs
  | drainQueue sends =>
    obtain ⟨⟨t₁, n⟩, hdrain, rfl⟩ := map_eq_some_iff.mp hs
    obtain ⟨hlined, hbytes, -⟩ := drainQueueI_spec kind_owned hpos h hdrain
    exact ⟨hlined, hbytes.trans (append_nil _).symm⟩

/-- **Outgoing bytes.** What is on the wire and what is still queued are the messages, in the
order of their submission. -/
theorem prefix_of_keeps (hpos : 0 < iovMax) {ops : List TransportOp} (hk : AllSteps (step iovMax) Keeps fresh ops)
    (h : run (step iovMax) fresh ops = some t) :
    t.sent ++ t.pending = (ops.flatMap TransportOp.message).flatten ∧
      t.sent <+: (ops.flatMap TransportOp.message).flatten := by
  have hrun : ∀ t₀ : Transport, Lined owned t₀.outStream t₀.queue → AllSteps (step iovMax) Keeps t₀ ops →
      run (step iovMax) t₀ ops = some t →
      t.sent ++ t.pending = t₀.sent ++ t₀.pending ++ (ops.flatMap TransportOp.message).flatten := by
    clear hk h
    intro t₀ hl hk h
    induction ops generalizing t₀ with
    | nil =>
      cases h
      simp
    | cons op ops ih =>
      obtain ⟨t₁, hstep, hrest⟩ := run_cons_some h
      have hc := conserves_step hpos op hl hk.1 hstep
      rw [ih t₁ hc.lined (hk.2 t₁ hstep) hrest, hc.bytes, flatMap_cons, flatten_append, append_assoc]
  have hbytes := hrun fresh trivial hk h
  have hstart : fresh.sent ++ fresh.pending = [] := rfl
  rw [hstart, nil_append] at hbytes
  exact ⟨hbytes, hbytes ▸ prefix_append _ _⟩

/-- A reply in three parts behind a queued message, an asynchronous message that is sent in
two rounds, and one of which the rest is queued. -/
def sampleOutgoing : List TransportOp :=
  [.sendAsynchronous [[1], [2]] true [], .sendReply [[3], [4, 5], [6]] [.accept 3, .accept 1, .wouldBlock] true,
    .drainQueue [.accept 1, .wouldBlock], .drainQueue [.accept 1],
    .sendAsynchronous [[7], [8], [9]] false [.accept 2, .accept 1],
    .sendAsynchronous [[10], [11, 12], [13]] false [.accept 2, .wouldBlock], .drainQueue [.accept 1]]

theorem prefix_of_keeps_sample : ∃ t, run (step 2) fresh sampleOutgoing = some t ∧
    t.sent = [1, 2, 3, 4, 5, 6, 7, 8, 9, 10, 11, 12] ∧ t.pending = [13] ∧
    t.sent <+: (sampleOutgoing.flatMap TransportOp.message).flatten := by
  have hkeeps : AllSteps (step 2) Keeps fresh sampleOutgoing := by decide
  exact ⟨_, rfl, by decide, by decide, (prefix_of_keeps (by decide) hkeeps rfl).2⟩

/-- An asynchronous message of 17 blocks with vectors of 16: one byte of it is sent, and one
more from the copy, whose rest is queued from the stream. And a reply that cannot be
scheduled is dropped behind the byte that was sent. -/
theorem copied_message_sent_twice :
    (∃ t, run (step 16) fresh
        [.sendAsynchronous ((List.range 17).map fun i => [i.toUInt8]) false [.accept 1, .accept 1, .wouldBlock],
          .drainQueue [.accept 16]] = some t ∧
      t.sent = 0 :: 1 :: (List.range 16).map (fun i => (i + 1).toUInt8) ∧
      ¬ t.sent <+: ((List.range 17).map fun i => [i.toUInt8]).flatten) ∧
    (∃ t, run (step 16) fresh
        [.sendReply [[1], [2]] [.accept 1] false, .sendAsynchronous [[3]] false [.accept 1]] = some t ∧
      t.sent = [1, 3] ∧ ¬ t.sent <+: [[1], [2], [3]].flatten) :=
  ⟨⟨_, rfl, by decide⟩, ⟨_, rfl, by decide⟩⟩

end Transport

end Atcd.Orb
