import Mathlib
/-!
# Outgoing messages of a transport

The queue of `TAO_Transport` and its two kinds of messages. A block of a message is the list
of its bytes between `rd_ptr` and `wr_ptr`. A message of `send_message_block_chain_i` or
`send_reply_message_i` moves the read pointers of the caller's chain, which is the transport's
`out_stream`, until `copy_if_necessary` gives it a chain of its own.

`IOV_MAX` is a parameter. There are no timeouts, so no message expires, and memory can be
allocated. What `send` does is in the labels, one result for each call.
-/
namespace Atcd.Orb

/-- What a call of `send` does: it accepts bytes, or would block. -/
inductive SendResult where
  | accept (count : Nat)
  | wouldBlock
  deriving DecidableEq, Repr

inductive DrainResult where
  | ok | queueEmpty | wouldBlock
  deriving DecidableEq, Repr

/-- `TAO_Synch_Queued_Message`. `contents` is its own chain, if it has one; `currentBlock`
points into that, or into the chain of the stream (behind the last block: null). -/
structure SynchQueuedMessage where
  contents : Option (List (List UInt8))
  currentBlock : Nat
  deriving DecidableEq, Repr

/-- `TAO_Asynch_Queued_Message`; `size_` is the length of the buffer. -/
structure AsynchQueuedMessage where
  buffer : List UInt8
  offset : Nat
  deriving DecidableEq, Repr

inductive QueuedMessage where
  | synch (m : SynchQueuedMessage)
  | asynch (m : AsynchQueuedMessage)
  deriving DecidableEq, Repr

/-! ## Filling vectors -/

/-- mirrors TAO/tao/Synch_Queued_Message.cpp:54-78 -/
def fillIovSynch (iovMax : Nat) : List (List UInt8) → List (List UInt8) → List (List UInt8)
  | [], iov => iov
  | block :: rest, iov =>
    if iov.length < iovMax then fillIovSynch iovMax rest (if 0 < block.length then iov ++ [block] else iov) else iov

/-- mirrors TAO/tao/Asynch_Queued_Message.cpp:78-89 -/
def AsynchQueuedMessage.fillIov (m : AsynchQueuedMessage) (iov : List (List UInt8)) : List (List UInt8) :=
  iov ++ [m.buffer.drop m.offset]

/-! ## Progress -/

/-- The loop of `bytes_transferred` from the current block on: the blocks with their read
pointers moved, how many of them are behind the current block, and the bytes left. `skip` is
the inner loop over blocks without data.
mirrors Synch_Queued_Message.cpp:85-105 -/
def transferBlocks (skip : Bool) : List (List UInt8) → Nat → List (List UInt8) × Nat × Nat
  | [], byteCount => ([], 0, byteCount)
  | block :: rest, byteCount =>
    if skip = true ∧ block.length = 0 then
      let (rest, passed, byteCount) := transferBlocks true rest byteCount
      (block :: rest, passed + 1, byteCount)
    else if byteCount = 0 then (block :: rest, 0, 0)
    else if byteCount < block.length then (block.drop byteCount :: rest, 0, 0)
    else
      let (rest, passed, byteCount) := transferBlocks true rest (byteCount - block.length)
      (block.drop block.length :: rest, passed + 1, byteCount)

namespace SynchQueuedMessage

def chain (m : SynchQueuedMessage) (outStream : List (List UInt8)) : List (List UInt8) := m.contents.getD outStream

/-- mirrors Synch_Queued_Message.cpp:37-46 -/
def messageLength (m : SynchQueuedMessage) (outStream : List (List UInt8)) : Nat :=
  ((m.chain outStream).drop m.currentBlock).flatten.length

/-- mirrors Synch_Queued_Message.cpp:48-52 -/
def allDataSent (m : SynchQueuedMessage) (outStream : List (List UInt8)) : Bool :=
  (m.chain outStream).length ≤ m.currentBlock

/-- Also the stream, whose read pointers move with a message that has no chain of its own.
mirrors Synch_Queued_Message.cpp:80-110 -/
def bytesTransferred (m : SynchQueuedMessage) (outStream : List (List UInt8)) (byteCount : Nat) :
    SynchQueuedMessage × List (List UInt8) × Nat :=
  let (blocks, passed, byteCount) := transferBlocks false ((m.chain outStream).drop m.currentBlock) byteCount
  let chain := (m.chain outStream).take m.currentBlock ++ blocks
  match m.contents with
  | some _ => (⟨some chain, m.currentBlock + passed⟩, outStream, byteCount)
  | none => (⟨none, m.currentBlock + passed⟩, chain, byteCount)

/-- mirrors Synch_Queued_Message.cpp:112-143 -/
def clone (m : SynchQueuedMessage) (outStream : List (List UInt8)) : SynchQueuedMessage :=
  ⟨some ((m.chain outStream).drop m.currentBlock), 0⟩

/-- The message looks for its current block in the chain of the stream.
mirrors Synch_Queued_Message.cpp:173-196 -/
def copyIfNecessary (m : SynchQueuedMessage) (outStream : List (List UInt8)) : SynchQueuedMessage :=
  match m.contents with
  | some _ => m
  | none => if m.currentBlock < outStream.length then m.clone outStream else m

end SynchQueuedMessage

/-- mirrors Asynch_Queued_Message.cpp:91-109 -/
def AsynchQueuedMessage.bytesTransferred (m : AsynchQueuedMessage) (byteCount : Nat) : AsynchQueuedMessage × Nat :=
  let remainingBytes := m.buffer.length - m.offset
  if remainingBytes < byteCount then ({ m with offset := m.buffer.length }, byteCount - remainingBytes)
  else ({ m with offset := m.offset + byteCount }, 0)

namespace QueuedMessage

def fillIov (iovMax : Nat) (outStream : List (List UInt8)) (m : QueuedMessage) (iov : List (List UInt8)) :
    List (List UInt8) :=
  match m with
  | .synch m => fillIovSynch iovMax ((m.chain outStream).drop m.currentBlock) iov
  | .asynch m => m.fillIov iov

def allDataSent (m : QueuedMessage) (outStream : List (List UInt8)) : Bool :=
  match m with
  | .synch m => m.allDataSent outStream
  | .asynch m => m.buffer.length = m.offset

def bytesTransferred (m : QueuedMessage) (outStream : List (List UInt8)) (byteCount : Nat) :
    QueuedMessage × List (List UInt8) × Nat :=
  match m with
  | .synch m =>
    let (m, outStream, byteCount) := m.bytesTransferred outStream byteCount
    (.synch m, outStream, byteCount)
  | .asynch m =>
    let (m, byteCount) := m.bytesTransferred byteCount
    (.asynch m, outStream, byteCount)

def copyIfNecessary (m : QueuedMessage) (outStream : List (List UInt8)) : QueuedMessage :=
  match m with
  | .synch m => .synch (m.copyIfNecessary outStream)
  | .asynch m => .asynch m

end QueuedMessage

/-! ## The transport -/

/-- A transport; `sent` are the bytes that `send` has accepted. -/
structure Transport where
  outStream : List (List UInt8)
  queue : List QueuedMessage
  sent : List UInt8
  deriving DecidableEq, Repr

/-- mirrors TAO/tao/Transport.cpp:1256-1301 -/
def cleanupMessages : List QueuedMessage → List (List UInt8) → Nat → List QueuedMessage × List (List UInt8)
  | [], outStream, _ => ([], outStream)
  | i :: rest, outStream, byteCount =>
    if byteCount = 0 then (i :: rest, outStream)
    else
      let (i, outStream, byteCount) := i.bytesTransferred outStream byteCount
      if i.allDataSent outStream then cleanupMessages rest outStream byteCount
      -- bytes are left only behind a message that was sent
      else (i.copyIfNecessary outStream :: rest, outStream)

/-- The vector that the elements fill, until it is full.
mirrors Transport.cpp:1126-1146,1176 -/
def fillMessages (iovMax : Nat) (outStream : List (List UInt8)) :
    List QueuedMessage → List (List UInt8) → List (List UInt8)
  | [], iov => iov
  | i :: rest, iov =>
    let iov := i.fillIov iovMax outStream iov
    if iov.length = iovMax then iov else fillMessages iovMax outStream rest iov

namespace Transport

def fresh : Transport := ⟨[], [], []⟩

/-- The end of `drain_queue_i`. -/
def drained (t : Transport) : DrainResult := if t.queue = [] then .queueEmpty else .ok

/-- `send` takes the first bytes of the vector, and the queue is cleaned up.
mirrors Transport.cpp:1016-1099 -/
def accepted (t : Transport) (iov : List (List UInt8)) (count : Nat) : Transport :=
  let (queue, outStream) := cleanupMessages t.queue t.outStream count
  ⟨outStream, queue, t.sent ++ iov.flatten.take count⟩

/-- With a result for each call of `send`, which accepts no more than it is offered; `none`
when there are too few results, or too many.
mirrors Transport.cpp:1101-1211 -/
def drainQueueI (iovMax : Nat) : List SendResult → Transport → Option (Transport × DrainResult)
  | [], t => if fillMessages iovMax t.outStream t.queue [] = [] then some (t, t.drained) else none
  | .wouldBlock :: sends, t =>
    if fillMessages iovMax t.outStream t.queue [] ≠ [] ∧ sends = [] then some (t, .wouldBlock) else none
  | .accept count :: sends, t =>
    let iov := fillMessages iovMax t.outStream t.queue []
    if 0 < count ∧ count ≤ iov.flatten.length then
      let t := t.accepted iov count
      if iov.length = iovMax then drainQueueI iovMax sends t
      else if sends = [] then some (t, t.drained)
      else none
    else none

/-- mirrors Transport.cpp:1684-1704 -/
def queueMessageI (t : Transport) (messageBlock : List (List UInt8)) (back : Bool) : Transport :=
  let queuedMessage := .asynch ⟨messageBlock.flatten, 0⟩
  { t with queue := if back then t.queue ++ [queuedMessage] else queuedMessage :: t.queue }

/-- A message is put into the stream. -/
def format (t : Transport) (message : List (List UInt8)) : Transport := { t with outStream := message }

/-- `synch_message.push_back (head_, tail_)` -/
def pushSynch (t : Transport) : Transport := { t with queue := t.queue ++ [.synch ⟨none, 0⟩] }

/-- The message of this call is the last of the queue, as long as it is there. The result is
the number of its bytes that were sent.
mirrors Transport.cpp:664-696 -/
def sendMessageBlockChainI (iovMax : Nat) (t : Transport) (sends : List SendResult) : Option (Transport × Nat) :=
  let totalLength := t.outStream.flatten.length
  (drainQueueI iovMax sends t.pushSynch).map fun (t, n) =>
    if n = .queueEmpty then (t, totalLength)
    else
      let bytesTransferred :=
        match t.queue.getLast? with
        | some (.synch synchMessage) => totalLength - synchMessage.messageLength t.outStream
        | _ => totalLength
      ({ t with queue := t.queue.dropLast }, bytesTransferred)

/-- `mustQueue` is the answer of the queueing strategy.
mirrors Transport.cpp:1433-1585 -/
def sendAsynchronousMessageI (iovMax : Nat) (t : Transport) (mustQueue : Bool) (sends : List SendResult) :
    Option Transport :=
  if t.queue = [] ∧ mustQueue = false then
    let totalLength := t.outStream.flatten.length
    (t.sendMessageBlockChainI iovMax sends).map fun (t, byteCount) =>
      if totalLength = byteCount then t
      else
        let messageBlock := t.outStream.dropWhile fun block => block.length = 0
        t.queueMessageI messageBlock (byteCount = 0)
  else if sends = [] then some (t.queueMessageI t.outStream true)
  else none

/-- `scheduled` is false when `schedule_output` fails.
mirrors Transport.cpp:793-882 -/
def sendReplyMessageI (iovMax : Nat) (t : Transport) (sends : List SendResult) (scheduled : Bool) : Option Transport :=
  (drainQueueI iovMax sends t.pushSynch).map fun (t, n) =>
    if n = .queueEmpty then t
    else
      match t.queue.getLast? with
      | some (.synch synchMessage) =>
        if synchMessage.allDataSent t.outStream then t
        else
          let msg := .synch (synchMessage.clone t.outStream)
          { t with queue := t.queue.dropLast ++ if scheduled then [msg] else [] }
      | _ => t

end Transport

/-! ## Runs -/

/-- The calls. A message has a block, and its blocks are not empty. -/
inductive TransportOp where
  | sendAsynchronous (message : List (List UInt8)) (mustQueue : Bool) (sends : List SendResult)
  | sendReply (message : List (List UInt8)) (sends : List SendResult) (scheduled : Bool)
  | drainQueue (sends : List SendResult)
  deriving DecidableEq, Repr

/-- The message that a call submits. -/
def TransportOp.message : TransportOp → List (List UInt8)
  | .sendAsynchronous message _ _ => message
  | .sendReply message _ _ => message
  | .drainQueue _ => []

namespace Transport

def NonEmptyBlocks (message : List (List UInt8)) : Prop := message ≠ [] ∧ ∀ block ∈ message, block ≠ []

instance (message : List (List UInt8)) : Decidable (NonEmptyBlocks message) :=
  inferInstanceAs (Decidable (_ ∧ _))

def step (iovMax : Nat) (t : Transport) : TransportOp → Option Transport
  | .sendAsynchronous message mustQueue sends =>
    if NonEmptyBlocks message then (t.format message).sendAsynchronousMessageI iovMax mustQueue sends else none
  | .sendReply message sends scheduled =>
    if NonEmptyBlocks message then (t.format message).sendReplyMessageI iovMax sends scheduled else none
  | .drainQueue sends => (drainQueueI iovMax sends t).map Prod.fst

end Transport

end Atcd.Orb
