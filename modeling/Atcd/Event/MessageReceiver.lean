import Atcd.Core.WordSet
import Atcd.Event.MessageSender
/-!
# `TAO_ECG_CDR_Message_Receiver`: datagrams back to messages

A datagram is read into a buffer for the header and one of `ACE_MAX_DGRAM_SIZE` bytes on
the stack; the header is checked, and the fragment is copied into the buffer of its
request, which notes in a bit vector what has come. When all bits are set the request is
decoded and its place is marked, so that duplicates are dropped. The places are an array
over a window of identifiers.

The memory on the stack and on the heap is not initialised: what it holds is a parameter.
-/
namespace Atcd.Event
open Atcd.Core (Endian store load overwrite)

/-- `Mcast_Header`. -/
structure McastHeader where
  order : Endian
  requestId : Nat
  requestSize : Nat
  fragmentSize : Nat
  fragmentOffset : Nat
  fragmentId : Nat
  fragmentCount : Nat
  crc : Nat
deriving DecidableEq

/-- `ECG_HEADER_SIZE`. -/
def headerSize : Nat := 32

def ulong (e : Endian) (header : List UInt8) (k : Nat) : Nat :=
  load e ((header.drop (4 * k)).take 4)

/-- The byte order of a header.
mirrors TAO/orbsvcs/orbsvcs/Event/ECG_CDR_Message_Receiver.cpp:529-539 -/
def byteOrder : UInt8 → Option Endian
  | 0 => some .big
  | 1 => some .little
  | _ => none

/-- The fields of a header are inconsistent. -/
def McastHeader.Invalid (h : McastHeader) (bytesReceived : Nat) : Prop :=
  h.requestSize < h.fragmentSize ∨ h.fragmentOffset ≥ h.requestSize ∨
    h.fragmentId ≥ h.fragmentCount ∨
    (h.fragmentCount = 1 ∧
      (h.fragmentSize ≠ h.requestSize ∨ h.requestSize ≠ bytesReceived - headerSize))

instance (h : McastHeader) (n : Nat) : Decidable (h.Invalid n) :=
  inferInstanceAs (Decidable (_ ∨ _))

/-- `Mcast_Header::read`; the checksum is read in network order.
mirrors ECG_CDR_Message_Receiver.cpp:524-600 -/
def McastHeader.read (header : List UInt8) (bytesReceived : Nat) : Option McastHeader :=
  (byteOrder (header.getD 0 0)).bind fun e =>
    if (header.drop 1).take 3 = [65, 66, 67] then
      let h : McastHeader :=
        { order := e
          requestId := ulong e header 1
          requestSize := ulong e header 2
          fragmentSize := ulong e header 3
          fragmentOffset := ulong e header 4
          fragmentId := ulong e header 5
          fragmentCount := ulong e header 6
          crc := ulong .big header 7 }
      if h.Invalid bytesReceived then none else some h
    else none

/-! ## A request -/

/-- `TAO_ECG_UDP_Request_Entry`. -/
structure RequestEntry where
  order : Endian
  requestId : Nat
  requestSize : Nat
  fragmentCount : Nat
  payload : List UInt8
  receivedFragments : List (BitVec 32)

namespace RequestEntry

/-- The constructor, with what the new payload holds.
mirrors ECG_CDR_Message_Receiver.cpp:31-61 -/
def new (h : McastHeader) (heap : Nat → UInt8) : RequestEntry where
  order := h.order
  requestId := h.requestId
  requestSize := h.requestSize
  fragmentCount := h.fragmentCount
  payload := (List.range h.requestSize).map heap
  receivedFragments := Core.WordSet.new 32 h.fragmentCount

/-- mirrors ECG_CDR_Message_Receiver.cpp:63-81 -/
def validateFragment (r : RequestEntry) (h : McastHeader) : Bool :=
  !(h.order ≠ r.order ∨ h.requestSize ≠ r.requestSize ∨ h.fragmentCount ≠ r.fragmentCount ∨
    h.fragmentOffset ≥ h.requestSize ∨
    (h.fragmentOffset + h.fragmentSize) % 2 ^ 32 > h.requestSize)

/-- mirrors ECG_CDR_Message_Receiver.cpp:83-94 -/
def testReceived (r : RequestEntry) (fragmentId : Nat) : Bool :=
  if fragmentId > r.fragmentCount then true
  else Core.WordSet.test r.receivedFragments fragmentId

/-- mirrors ECG_CDR_Message_Receiver.cpp:96-107 -/
def markReceived (r : RequestEntry) (fragmentId : Nat) : RequestEntry :=
  if fragmentId > r.fragmentCount then r
  else { r with receivedFragments := Core.WordSet.mark r.receivedFragments fragmentId }

/-- mirrors ECG_CDR_Message_Receiver.cpp:109-120 -/
def complete (r : RequestEntry) : Bool := Core.WordSet.full r.receivedFragments

end RequestEntry

/-! ## The requests of a source -/

/-- A place in the array: null, `Request_Completed_`, or a request. -/
inductive Slot
  | empty
  | completed
  | entry (r : RequestEntry)

/-- `Requests`. -/
structure Requests where
  size : Nat
  idRangeLow : Nat
  idRangeHigh : Nat
  minPurgeCount : Nat
  fragmentedRequests : Nat → Slot

namespace Requests

/-- mirrors ECG_CDR_Message_Receiver.cpp:129-152 -/
def init (size minPurgeCount : Nat) : Requests where
  size := size
  idRangeLow := 0
  idRangeHigh := size - 1
  minPurgeCount := minPurgeCount
  fragmentedRequests := fun _ => .empty

/-- mirrors ECG_CDR_Message_Receiver.cpp:213-228 -/
def purge (q : Requests) (first last : Nat) : Requests :=
  { q with
    fragmentedRequests := (List.range' first (last + 1 - first)).foldl
      (fun slots i => Function.update slots (i % q.size) .empty) q.fragmentedRequests }

/-- The window moved up to an identifier above it. -/
def shift (q : Requests) (requestId : Nat) : Requests :=
  let newSlotsNeeded := max (requestId - q.idRangeHigh) q.minPurgeCount
  if newSlotsNeeded > q.size then
    { q.purge q.idRangeLow q.idRangeHigh with
      idRangeHigh := requestId
      idRangeLow := requestId - q.size + 1 }
  else
    { q.purge q.idRangeLow (q.idRangeLow + newSlotsNeeded - 1) with
      idRangeHigh := (q.idRangeHigh + newSlotsNeeded) % 2 ^ 32
      idRangeLow := (q.idRangeLow + newSlotsNeeded) % 2 ^ 32 }

/-- The place of a request, unless it is below the window.
mirrors ECG_CDR_Message_Receiver.cpp:173-210 -/
def getRequest (q : Requests) (requestId : Nat) : Option (Requests × Nat) :=
  if requestId < q.idRangeLow then none
  else
    let q := if requestId > q.idRangeHigh then q.shift requestId else q
    some (q, requestId % q.size)

def put (q : Requests) (index : Nat) (slot : Slot) : Requests :=
  { q with fragmentedRequests := Function.update q.fragmentedRequests index slot }

end Requests

/-! ## The receiver -/

/-- `ECG_DEFAULT_MAX_FRAGMENTED_REQUESTS`. -/
def maxRequests : Nat := 1024

/-- `ECG_DEFAULT_FRAGMENTED_REQUESTS_MIN_PURGE_COUNT`. -/
def minPurgeCount : Nat := 32

/-- `ACE_MAX_DGRAM_SIZE`, and whether checksums are checked. -/
structure Limits where
  maxDgramSize : Nat
  checkCrc : Bool

/-- The receiver for one source: its entry in `request_map_`, once it is there, and what
`decode` has been called with. -/
structure Receiver where
  requests : Option Requests
  decoded : List (Endian × List UInt8)

/-- A datagram that arrives, and what the stack and the heap hold then. -/
structure Arrival where
  datagram : List UInt8
  stack : Nat → UInt8
  heap : Nat → UInt8

namespace Receiver

/-- mirrors ECG_CDR_Message_Receiver.cpp:478-504 -/
def getSourceEntry (s : Receiver) : Requests :=
  s.requests.getD (.init maxRequests minPurgeCount)

/-- The first bytes of `data_buf`, of which `data` has been received. -/
def dataBuf (data : List UInt8) (stack : Nat → UInt8) (n : Nat) : List UInt8 :=
  (List.range n).map fun i => data.getD i (stack i)

/-- The branch for a message in one fragment: `mark_received`, then `decode`.
mirrors ECG_CDR_Message_Receiver.cpp:340-353, 358-392 -/
def whole (s : Receiver) (h : McastHeader) (a : Arrival) (data : List UInt8) : Receiver :=
  match s.getSourceEntry.getRequest h.requestId with
  | none => { s with requests := some s.getSourceEntry }
  | some (q, index) =>
    match q.fragmentedRequests index with
    | .empty =>
      { requests := some (q.put index .completed)
        decoded := s.decoded ++ [(h.order, dataBuf data a.stack h.requestSize)] }
    | _ => { s with requests := some q }

/-- The fragment copied into its request, which is decoded when it is complete. -/
def addFragment (s : Receiver) (q : Requests) (index : Nat) (r : RequestEntry) (h : McastHeader)
    (a : Arrival) (data : List UInt8) : Receiver :=
  if !r.validateFragment h then { s with requests := some (q.put index (.entry r)) }
  else if r.testReceived h.fragmentId then { s with requests := some (q.put index (.entry r)) }
  else
    let r := r.markReceived h.fragmentId
    let r := { r with
      payload := overwrite r.payload h.fragmentOffset (dataBuf data a.stack h.fragmentSize) }
    if !r.complete then { s with requests := some (q.put index (.entry r)) }
    else
      { requests := some (q.put index .completed)
        decoded := s.decoded ++ [(h.order, r.payload.take h.requestSize)] }

/-- mirrors ECG_CDR_Message_Receiver.cpp:394-476 -/
def processFragment (s : Receiver) (h : McastHeader) (a : Arrival) (data : List UInt8) :
    Receiver :=
  match s.getSourceEntry.getRequest h.requestId with
  | none => { s with requests := some s.getSourceEntry }
  | some (q, index) =>
    match q.fragmentedRequests index with
    | .completed => { s with requests := some q }
    | .empty => s.addFragment q index (.new h a.heap) h a data
    | .entry r => s.addFragment q index r h a data

/-- The checksum is over the header without it, and the bytes received.
mirrors ECG_CDR_Message_Receiver.cpp:235-356 -/
def handleInput (s : Receiver) (c : Config) (l : Limits) (a : Arrival) : Receiver :=
  let header := a.datagram.take headerSize
  let data := (a.datagram.drop headerSize).take l.maxDgramSize
  let n := header.length + data.length
  if n < headerSize then s
  else
    match McastHeader.read header n with
    | none => s
    | some h =>
      if l.checkCrc = true ∧ h.crc ≠ (c.crc32 (header.take 28 ++ data)).toNat then s
      else if h.fragmentCount = 1 then s.whole h a data
      else s.processFragment h a data

def handleAll (c : Config) (l : Limits) (arrivals : List Arrival) : Receiver :=
  arrivals.foldl (fun s a => s.handleInput c l a) ⟨none, []⟩

end Receiver
end Atcd.Event
