import Atcd.Core.Bytes
import Atcd.Core.Pieces
/-!
# `TAO_ECG_CDR_Message_Sender`: a message in datagrams

The blocks of a message go out in fragments: entries of an `iovec` array that point into
the blocks, behind an entry for the header. A fragment ends when it is as long as
`max_fragment_payload` allows or when the array is full; a block that does not fit is
continued in the next fragment. How many fragments there will be stands in each header,
so the blocks are gone through once before to count them.

Lengths are `CORBA::ULong`; the message has less than 2^32 bytes, and no sum here
exceeds its length, so they do not wrap. The numbers of the fragments may.
-/
namespace Atcd.Event
open Atcd.Core (Endian store load)

/-- What the sender is configured with: the byte order of the host, `max_fragment_payload`,
`TAO_WRITEV_MAX`, `checksum_` and `ACE::crc32`. -/
structure Config where
  order : Endian
  maxFragmentPayload : Nat
  writevMax : Nat
  checksum : Bool
  crc32 : List UInt8 → UInt32

/-- A fragment: the fields of its header, and the bytes behind it. -/
structure Fragment where
  requestId : Nat
  requestSize : Nat
  size : Nat
  offset : Nat
  id : Nat
  count : Nat
  data : List UInt8
deriving DecidableEq

/-- `TAO_ENCAP_BYTE_ORDER`. -/
def flag : Endian → UInt8
  | .little => 1
  | .big => 0

/-- The header up to the padding. -/
def Fragment.fields (f : Fragment) (e : Endian) : List UInt8 :=
  [flag e, 65, 66, 67] ++ store e 4 f.requestId ++ store e 4 f.requestSize ++ store e 4 f.size ++
    store e 4 f.offset ++ store e 4 f.id ++ store e 4 f.count

/-- The padding holds the checksum in network order, if there is one.
mirrors TAO/orbsvcs/orbsvcs/Event/ECG_CDR_Message_Sender.cpp:180-243 -/
def Fragment.datagram (f : Fragment) (c : Config) : List UInt8 :=
  f.fields c.order ++
    (if c.checksum then store .big 4 (c.crc32 (f.fields c.order ++ f.data)).toNat
      else [0, 0, 0, 0]) ++ f.data

/-! ## Counting -/

/-- The variables of `compute_fragment_count`. -/
structure Counting where
  fragmentCount : Nat
  totalLength : Nat
  fragmentSize : Nat
  iovcnt : Nat
deriving DecidableEq

/-- The `while` loop over a block of which `l` bytes are left; it ends within `l` rounds. -/
def countFull (max : Nat) : Nat → Counting → Nat → Counting
  | 0, n, _ => n
  | fuel + 1, n, l =>
    if n.fragmentSize > max then
      let l := l - (max - (n.fragmentSize - l))
      countFull max fuel
        { n with
          fragmentCount := (n.fragmentCount + 1) % 2 ^ 32
          iovcnt := 2
          fragmentSize := l } l
    else n

/-- A fragment more, and an empty one begun. -/
def Counting.flush (n : Counting) : Counting :=
  { n with
    fragmentCount := (n.fragmentCount + 1) % 2 ^ 32
    iovcnt := 1
    fragmentSize := 0 }

def countBlock (max iovSize : Nat) (n : Counting) (l : Nat) : Counting :=
  let n := countFull max l
    { n with
      totalLength := (n.totalLength + l) % 2 ^ 32
      fragmentSize := n.fragmentSize + l
      iovcnt := n.iovcnt + 1 } l
  let n := if n.fragmentSize = max then n.flush else n
  if n.iovcnt ≥ iovSize then n.flush else n

/-- The number of fragments and the length of the message.
mirrors ECG_CDR_Message_Sender.cpp:271-324 -/
def computeFragmentCount (max iovSize : Nat) (lengths : List Nat) : Nat × Nat :=
  let n := lengths.foldl (countBlock max iovSize) ⟨0, 0, 0, 1⟩
  (if n.iovcnt ≠ 1 then (n.fragmentCount + 1) % 2 ^ 32 else n.fragmentCount, n.totalLength)

/-! ## Sending -/

/-- The variables of `send_message`: the entries behind the one for the header, so that
`iovcnt` is one more than their number, and what has been sent. -/
structure Sending where
  iov : List (List UInt8)
  fragmentSize : Nat
  fragmentOffset : Nat
  fragmentId : Nat
  sent : List Fragment
deriving DecidableEq

/-- The fields that all fragments share. -/
structure Request where
  id : Nat
  size : Nat
  count : Nat

namespace Sending

/-- `send_fragment` with a length, and an empty fragment begun. -/
def flush (r : Request) (s : Sending) (size : Nat) : Sending where
  iov := []
  fragmentSize := 0
  fragmentOffset := s.fragmentOffset + size
  fragmentId := (s.fragmentId + 1) % 2 ^ 32
  sent := s.sent ++
    [{ requestId := r.id
       requestSize := r.size
       size := size
       offset := s.fragmentOffset
       id := s.fragmentId
       count := r.count
       data := s.iov.flatten }]

/-- The `while` loop; the last entry points to the rest `b` of the block, and is cut before
the fragment is sent. It ends within as many rounds as `b` has bytes. -/
def sendFull (r : Request) (max : Nat) : Nat → Sending → List UInt8 → Sending
  | 0, s, _ => s
  | fuel + 1, s, b =>
    if s.fragmentSize > max then
      let lastMbLength := max - (s.fragmentSize - b.length)
      let s := flush r { s with iov := s.iov.dropLast ++ [b.take lastMbLength] } max
      sendFull r max fuel
        { s with
          iov := [b.drop lastMbLength]
          fragmentSize := b.length - lastMbLength } (b.drop lastMbLength)
    else s

def sendBlock (r : Request) (max writevMax : Nat) (s : Sending) (b : List UInt8) : Sending :=
  let s := sendFull r max b.length
    { s with
      iov := s.iov ++ [b]
      fragmentSize := s.fragmentSize + b.length } b
  let s := if s.fragmentSize = max then s.flush r max else s
  if s.iov.length + 1 = writevMax then s.flush r s.fragmentSize else s

/-- What is left in the array goes out as well. -/
def finish (r : Request) (s : Sending) : Sending :=
  if s.iov.length + 1 ≠ 1 then s.flush r s.fragmentSize else s

end Sending

/-- The fragments of a message.
mirrors ECG_CDR_Message_Sender.cpp:31-175 -/
def sendMessage (c : Config) (requestId : Nat) (blocks : List (List UInt8)) : List Fragment :=
  let n := computeFragmentCount c.maxFragmentPayload c.writevMax (blocks.map List.length)
  let r : Request := ⟨requestId, n.2, n.1⟩
  ((blocks.foldl (Sending.sendBlock r c.maxFragmentPayload c.writevMax) ⟨[], 0, 0, 0, []⟩).finish
    r).sent

end Atcd.Event
