import Atcd.Giop.Framing
/-!
# Incoming messages of a transport

`TAO_Transport::handle_input`, in one thread. What `recv` does in a call is in its label: the
number of bytes that it takes from the connection, or none when it would block (or is not
called). `notify_reactor` does not fail, and requests and replies are processed without an
error. What the messaging object does with fragments is a parameter.
-/
namespace Atcd.Orb

open Atcd.Core Atcd.Giop.Framing
open Atcd.Giop (messageHeaderLen)
open Atcd.Cdr (maxAlignment)

/-- What `consolidate_fragmented_message` says: -1, 0 with a message, or 1. -/
inductive FragmentResult where
  | error
  | consolidated (qd : Option QueuedData)
  | stored

/-- mirrors TAO/tao/orbconf.h:171 -/
def taoMaxBufSize : Nat := 1024

/-- The parameters: among them the bytes of the buffer that `mb_align` leaves out, and the part
of the messaging object that keeps fragments. -/
structure InputParams (σ : Type) where
  host : Endian
  singleReadOptimization : Bool
  skipped : Fin maxAlignment
  consolidateFragmentedMessage : σ → QueuedData → σ × FragmentResult
  discardFragmentedMessage : σ → QueuedData → σ

/-- `space ()` of the buffer on the stack. -/
def InputParams.space {σ : Type} (P : InputParams σ) : Nat := taoMaxBufSize + maxAlignment - P.skipped.val

/-- A transport; `input` are the bytes of the connection that were not received yet,
`processed` the messages that `process_parsed_messages` was called with. -/
structure Incoming (σ : Type) where
  partialMessage : List UInt8
  incomingMessageStack : List QueuedData
  incomingMessageQueue : List QueuedData
  fragments : σ
  input : List UInt8
  processed : List QueuedData

namespace Incoming

variable {σ : Type} (P : InputParams σ)

/-- The bytes that `recv` returns, if it can. -/
def recv (t : Incoming σ) (recvSize : Nat) : Option Nat → Option (List UInt8 × Incoming σ)
  | none => some ([], t)
  | some n =>
    if 0 < n ∧ n ≤ recvSize ∧ n ≤ t.input.length then some (t.input.take n, { t with input := t.input.drop n })
    else none

/-- `none` for -1.
mirrors TAO/tao/Transport.cpp:2486-2603 -/
def processParsedMessages (t : Incoming σ) (qd : QueuedData) : Option (Incoming σ) :=
  match qd.state.messageType with
  | .closeConnection | .messageError => none
  | .cancelRequest =>
    some { t with
      fragments := P.discardFragmentedMessage t.fragments qd
      processed := t.processed ++ [qd] }
  | _ => some { t with processed := t.processed ++ [qd] }

/-- `none` for -1; true when a message was processed.
mirrors Transport.cpp:2605-2670 -/
def processQueueHead (t : Incoming σ) : Option (Bool × Incoming σ) :=
  match t.incomingMessageQueue with
  | qd :: rest => (processParsedMessages P { t with incomingMessageQueue := rest } qd).map fun t => (true, t)
  | [] => some (false, t)

/-- mirrors Transport.cpp:1784-1869 -/
def consolidateProcessMessage (t : Incoming σ) (qd : QueuedData) : Option (Incoming σ) :=
  if qd.missingData ≠ some 0 then none
  else if qd.state.moreFragments ∨ qd.state.messageType = .fragment then
    let (fragments, result) := P.consolidateFragmentedMessage t.fragments qd
    match result with
    | .error => none
    | .consolidated newQd => newQd.bind (processParsedMessages P { t with fragments })
    | .stored => some { t with fragments }
  else processParsedMessages P t qd

/-- mirrors Transport.cpp:1871-1926 -/
def consolidateEnqueueMessage (t : Incoming σ) (qd : QueuedData) : Option (Incoming σ) :=
  if qd.missingData ≠ some 0 then none
  else if qd.state.moreFragments ∨ qd.state.messageType = .fragment then
    let (fragments, result) := P.consolidateFragmentedMessage t.fragments qd
    match result with
    | .error => none
    | .consolidated newQd =>
      newQd.map fun newQd => { t with
        fragments
        incomingMessageQueue := t.incomingMessageQueue ++ [newQd] }
    | .stored => some { t with fragments }
  else some { t with incomingMessageQueue := t.incomingMessageQueue ++ [qd] }

/-- For the message on top of the stack.
mirrors Transport.cpp:1928-2003 -/
def handleInputMissingData (t : Incoming σ) (qData : QueuedData) (rest : List QueuedData) (missing : Nat)
    (received : Option Nat) : Option (Option (Incoming σ)) :=
  (t.recv missing received).map fun (bytes, t) =>
    if bytes = [] then some t
    else
      let qData := { qData with
        msgBlock := qData.msgBlock ++ bytes
        missingData := some (missing - bytes.length) }
      if missing - bytes.length = 0 then consolidateProcessMessage P { t with incomingMessageStack := rest } qData
      else some { t with incomingMessageStack := qData :: rest }

/-- Every turn takes bytes from the block, unless a message has a size of 0; the first
argument bounds the turns.
mirrors Transport.cpp:2006-2047 -/
def handleInputParseExtraMessages : Nat → Incoming σ → List UInt8 → Option (Incoming σ × List UInt8)
  | 0, t, messageBlock => if messageBlock = [] then some (t, []) else none
  | turns + 1, t, messageBlock =>
    if messageBlock = [] then some (t, [])
    else
      match extractNextMessage P.host messageBlock with
      | none => none
      | some (none, messageBlock) => some (t, messageBlock)
      | some (some qData, messageBlock) =>
        let t :=
          if qData.missingData = some 0 then consolidateEnqueueMessage P t qData
          else some { t with incomingMessageStack := qData :: t.incomingMessageStack }
        t.bind fun t => handleInputParseExtraMessages turns t messageBlock

/-- How much of the next message may be read, in front of what is kept of it.
mirrors Transport.cpp:2104-2131 -/
def recvSize (t : Incoming σ) : Nat :=
  if P.singleReadOptimization then P.space
  else
    match t.incomingMessageStack with
    | ⟨msgBlock, none, _⟩ :: _ => messageHeaderLen - msgBlock.length
    | _ => messageHeaderLen

/-- What is left in the buffer is kept for the next call.
mirrors Transport.cpp:2461-2482 -/
def keepPartialMessage (t : Incoming σ) (messageBlock : List UInt8) : Option (Incoming σ) :=
  if messageBlock = [] then some t
  else if messageBlock.length ≤ messageHeaderLen then some { t with partialMessage := messageBlock }
  else none

/-- The header of the message on top of the stack is completed first.
mirrors Transport.cpp:2229-2280 -/
def consolidateTop (t : Incoming σ) (qData : QueuedData) (rest : List QueuedData) (messageBlock : List UInt8) :
    Option (Incoming σ) :=
  (consolidateNode P.host qData messageBlock).bind fun (qData, messageBlock) =>
    let t :=
      if qData.missingData = some 0 then consolidateEnqueueMessage P { t with incomingMessageStack := rest } qData
      else some { t with incomingMessageStack := qData :: rest }
    t.bind fun t =>
      (handleInputParseExtraMessages P messageBlock.length t messageBlock).bind fun (t, messageBlock) =>
        (processQueueHead P t).bind fun (_, t) => t.keepPartialMessage messageBlock

/-- The first message of the buffer is processed where it is.
mirrors Transport.cpp:2281-2459 -/
def processOnStack (t : Incoming σ) (messageBlock : List UInt8) : Option (Incoming σ) :=
  (parseNextMessage P.host ⟨messageBlock, some 0, freshState⟩).bind fun (qd, mesgLength) =>
    if qd.missingData = some 0 ∧ messageBlock.length < mesgLength then none
    else if qd.missingData = some 0 then
      let first := { qd with msgBlock := messageBlock.take mesgLength }
      if qd.state.moreFragments ∨ qd.state.messageType = .fragment then
        (consolidateEnqueueMessage P t first).bind fun t =>
          (handleInputParseExtraMessages P messageBlock.length t (messageBlock.drop mesgLength)).bind
            fun (t, messageBlock) =>
            (processQueueHead P t).bind fun (_, t) => t.keepPartialMessage messageBlock
      else
        (handleInputParseExtraMessages P messageBlock.length t (messageBlock.drop mesgLength)).bind fun (t, _) =>
          processParsedMessages P t first
    else if qd.missingData ≠ none then some { t with incomingMessageStack := qd :: t.incomingMessageStack }
    else t.keepPartialMessage messageBlock

/-- mirrors Transport.cpp:2049-2483 -/
def handleInputParseData (t : Incoming σ) (received : Option Nat) : Option (Option (Incoming σ)) :=
  if P.space < messageHeaderLen ∨ t.recvSize P < t.partialMessage.length ∨
      t.recvSize P - t.partialMessage.length = 0 then some none
  else
    (t.recv (t.recvSize P - t.partialMessage.length) received).map fun (bytes, received) =>
      if bytes = [] then some t
      else
        let t := { received with partialMessage := [] }
        let messageBlock := received.partialMessage ++ bytes
        match t.incomingMessageStack with
        | ⟨msgBlock, none, state⟩ :: rest => t.consolidateTop P ⟨msgBlock, none, state⟩ rest messageBlock
        | _ => t.processOnStack P messageBlock

/-- `none` when `recv` cannot do what the label says, `some none` for -1.
mirrors Transport.cpp:1710-1782 -/
def handleInput (t : Incoming σ) (received : Option Nat) : Option (Option (Incoming σ)) :=
  match processQueueHead P t with
  | none => some none
  | some (true, t) => if received = none then some (some t) else none
  | some (false, t) =>
    match t.incomingMessageStack with
    | ⟨msgBlock, some missing, state⟩ :: rest =>
      t.handleInputMissingData P ⟨msgBlock, some missing, state⟩ rest missing received
    | _ => t.handleInputParseData P received

/-- A call that does not return -1. -/
def step (t : Incoming σ) (received : Option Nat) : Option (Incoming σ) := (t.handleInput P received).join

def start (fragments : σ) (input : List UInt8) : Incoming σ := ⟨[], [], [], fragments, input, []⟩

end Incoming

end Atcd.Orb
