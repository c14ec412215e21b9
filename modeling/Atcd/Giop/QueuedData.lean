import Atcd.Cdr.Input
/-!
# GIOP messages

`TAO_GIOP_Message_State` and `TAO_Queued_Data`, the request id in a message, and
the consolidation of a chain of fragments. A message has a first block, and
behind it those of `cont ()`.
-/
namespace Atcd.Giop

open Atcd.Core Atcd.Cdr

def messageHeaderLen : Nat := 12
def messageFragmentHeader : Nat := 4

/-- mirrors TAO/tao/GIOP.pidl:41-50; any other octet is none of them -/
inductive MsgType where
  | request | reply | cancelRequest | locateRequest | locateReply | closeConnection
  | messageError | fragment
  | other (octet : UInt8)
  deriving DecidableEq, Repr

/-- mirrors TAO/tao/GIOP_Message_Version.h:37-66 -/
structure MessageVersion where
  major : UInt8
  minor : UInt8
  deriving DecidableEq, Repr

/-- mirrors TAO/tao/GIOP_Message_State.h:101-123 -/
structure MessageState where
  giopVersion : MessageVersion
  byteOrder : UInt8
  messageType : MsgType
  payloadSize : UInt32
  moreFragments : Bool
  deriving DecidableEq, Repr

/-- A message, whole or in part.
mirrors TAO/tao/Queued_Data.h:149-170 -/
structure QueuedData where
  msgBlock : MessageBlock
  cont : List MessageBlock
  state : MessageState
  deriving DecidableEq, Repr

namespace QueuedData

def blocks (qd : QueuedData) : List MessageBlock := qd.msgBlock :: qd.cont

def bytes (qd : QueuedData) : List UInt8 := qd.blocks.flatMap MessageBlock.contents

/-- `total_length ()` of the chain. -/
def totalLength (qd : QueuedData) : Nat := (qd.blocks.map MessageBlock.length).sum

variable (P : Platform)

/-- A stream on the message behind its header.
mirrors TAO/tao/GIOP_Message_Base.cpp:1719-1757, ACE/ace/CDR_Stream.cpp:1147-1178 -/
def inputCdr (qd : QueuedData) : InputCDR where
  start := { qd.msgBlock with
    rdPtr := qd.msgBlock.rdPtr + messageHeaderLen
    wrPtr := if qd.msgBlock.wrPtr ≤ qd.msgBlock.size then qd.msgBlock.wrPtr else 0 }
  doByteSwap := qd.state.byteOrder.toNat ≠ P.byteOrder
  goodBit := true
  majorVersion := qd.state.giopVersion.major
  minorVersion := qd.state.giopVersion.minor

end QueuedData

/-! ## The request id -/

section RequestId

variable (P : Platform)

/-- mirrors TAO/tao/Unbounded_Sequence_CDR_T.h:133-150 -/
def readOctetSeq (r : InputCDR) : Bool × InputCDR :=
  match r.readUlong P with
  | (none, r) => (false, r)
  | (some newLength, r) =>
    if newLength.toNat > r.length then (false, r)
    else
      let (x, r) := r.readTypedArray P .octet newLength
      (x.isSome, r)

/-- The loop over the service contexts: an id and its data each. -/
def readServiceContexts : Nat → InputCDR → Bool × InputCDR
  | 0, r => (true, r)
  | n + 1, r =>
    match r.readUlong P with
    | (none, r) => (false, r)
    | (some _, r) =>
      match readOctetSeq P r with
      | (false, r) => (false, r)
      | (true, r) => readServiceContexts n r

/-- mirrors Unbounded_Sequence_CDR_T.h:316-336 -/
def readServiceContextList (r : InputCDR) : Bool × InputCDR :=
  match r.readUlong P with
  | (none, r) => (false, r)
  | (some newLength, r) =>
    if newLength.toNat > r.length then (false, r) else readServiceContexts P newLength.toNat r

/-- mirrors GIOP_Message_Base.cpp:1715-1819 -/
def QueuedData.parseRequestId (qd : QueuedData) : Option UInt32 :=
  let inputCdr := qd.inputCdr P
  let version := qd.state.giopVersion
  if version.major = 1 ∧ (version.minor = 0 ∨ version.minor = 1) then
    match qd.state.messageType with
    | .request | .reply =>
      match readServiceContextList P inputCdr with
      | (false, _) => none
      | (true, inputCdr) => (inputCdr.readUlong P).1
    | .cancelRequest | .locateRequest | .locateReply => (inputCdr.readUlong P).1
    | _ => none
  else
    match qd.state.messageType with
    | .request | .reply | .fragment | .cancelRequest | .locateRequest | .locateReply =>
      (inputCdr.readUlong P).1
    | _ => none

end RequestId

/-! ## Consolidation -/

/-- mirrors ACE/ace/Message_Block.cpp:209-237 -/
def resize (P : Platform) (k : Nat) (mb : MessageBlock) (length : Nat) : MessageBlock :=
  if length ≤ mb.size then { mb with buf := mb.buf.take length }
  else { mb with base := P.base k, buf := mb.buf ++ (P.alloc k length).buf.drop mb.size }

/-- The block the data goes to, in the `k`-th buffer.
mirrors TAO/tao/Queued_Data.cpp:30-69 -/
def cloneMbNocopySize (P : Platform) (k spanSize : Nat) : MessageBlock :=
  (P.alloc k (firstSize (spanSize + maxAlignment))).mbAlign

/-- The buffers are different, so that the data is always copied.
mirrors ACE/ace/CDR_Base.cpp:548-588 -/
def consolidateInto (P : Platform) (k : Nat) (dst : MessageBlock) (src : List MessageBlock) :
    MessageBlock :=
  match src with
  | [] => dst
  | first :: _ =>
    let dst := resize P k dst (firstSize ((src.map MessageBlock.length).sum + maxAlignment))
    let srcalign := (first.base + first.rdPtr) % maxAlignment
    let dstalign := (dst.base + dst.rdPtr) % maxAlignment
    let offset := if srcalign < dstalign then srcalign + maxAlignment - dstalign else srcalign - dstalign
    let dst := { dst with rdPtr := dst.rdPtr + offset, wrPtr := dst.rdPtr + offset }
    src.foldl (fun dst i => dst.copy i.contents) dst

/-- mirrors Queued_Data.cpp:203-237 -/
def QueuedData.consolidate (P : Platform) (k : Nat) (qd : QueuedData) : QueuedData :=
  if qd.state.moreFragments = true ∧ qd.cont ≠ [] then
    let dest := cloneMbNocopySize P k qd.totalLength
    { msgBlock := consolidateInto P k dest qd.blocks
      cont := []
      state := { qd.state with moreFragments := false } }
  else qd

end Atcd.Giop
