import Atcd.Cdr.Input
import Atcd.Cdr.Size
import Atcd.Core.Table
import Atcd.Rmcast.Protocol
/-!
# Packets of the reliable multicast

A message goes into one packet: its size, then every profile behind a header with its id and
the size of its body. The size is the length the body would have in a stream of its own, cut to
16 bits; how many numbers a `NAK` and how many members an `NRTM` has is computed back from it.

`Memory` is what variables and arrays hold before they are written, so that the model says what
a read that fails leaves behind.
-/
namespace Atcd.Rmcast

open Atcd.Core Atcd.Cdr

/-- What uninitialised memory holds. -/
structure Memory where
  value : (k : Kind) → k.Val
  bytes : Nat → UInt8

/-! ## Writing -/

/-- `os << x` -/
def put (P : Platform) (k : Kind) (x : k.Val) (os : OutputCDR) : OutputCDR := (os.writeScalar P k x).2

/-- `ss << x` -/
def putSize (k : Kind) (x : k.Val) (ss : SizeCDR) : SizeCDR := (ss.writeScalar k x).2

/-- mirrors ACE/protocols/ace/RMCast/Protocol.h:897-901 -/
def putAddress (P : Platform) (a : Address) (os : OutputCDR) : OutputCDR :=
  put P .ushort a.port (put P .ulong a.ip os)

/-- mirrors Protocol.h:918-922 -/
def putAddressSize (ss : SizeCDR) : SizeCDR := putSize .ushort 0 (putSize .ulong 0 ss)

/-- mirrors Protocol.h:1074-1080 -/
def putMember (P : Platform) (os : OutputCDR) (e : Address × UInt64) : OutputCDR :=
  putAddress P e.1 (put P .ulonglong e.2 os)

/-- mirrors Protocol.h:1090-1096 -/
def putMemberSize (ss : SizeCDR) : SizeCDR := putAddressSize (putSize .ulonglong 0 ss)

namespace Profile

/-- mirrors Protocol.h:426-434,511-519,651-655,724-728,892-911,1069-1083,1158-1161,1243-1249 -/
def serializeBody (P : Platform) (os : OutputCDR) : Profile → OutputCDR
  | fromAddress a => putAddress P a os
  | toAddress a => putAddress P a os
  | data buf => (os.writeCharArray P buf (UInt32.ofNat buf.length)).2
  | sn n => put P .ulonglong n os
  | nak a sns => sns.foldl (fun os sn => put P .ulonglong sn os) (putAddress P a os)
  | nrtm map => map.foldl (putMember P) os
  | noData => os
  | part num of totalSize => put P .ulonglong totalSize (put P .ulong of (put P .ulong num os))

/-- mirrors Protocol.h:436-444,521-529,657-661,730-734,913-931,1085-1098,1163-1166,1251-1257 -/
def serializeBodySize (ss : SizeCDR) : Profile → SizeCDR
  | fromAddress _ => putAddressSize ss
  | toAddress _ => putAddressSize ss
  | data buf => (ss.writeCharArray (UInt32.ofNat buf.length)).2
  | sn n => putSize .ulonglong n ss
  | nak _ sns => sns.foldl (fun ss _ => putSize .ulonglong 0 ss) (putAddressSize ss)
  | nrtm map => map.foldl (fun ss _ => putMemberSize ss) ss
  | noData => ss
  | part num of totalSize => putSize .ulonglong totalSize (putSize .ulong of (putSize .ulong num ss))

def bodySize (p : Profile) : Nat := (p.serializeBodySize (SizeCDR.init 1 2)).totalLength

/-- The size in the header. `NoData` sets 0.
mirrors Protocol.h:163-171,1132-1136 -/
def size (p : Profile) : UInt16 := UInt16.ofNat p.bodySize

/-- mirrors Protocol.h:192-200,212-220 -/
def serialize (P : Platform) (os : OutputCDR) (p : Profile) : OutputCDR :=
  p.serializeBody P (put P .ushort p.size (put P .ushort p.id os))

/-- mirrors Protocol.h:202-210,222-230 -/
def serializeSize (ss : SizeCDR) (p : Profile) : SizeCDR :=
  p.serializeBodySize (putSize .ushort p.size (putSize .ushort p.id ss))

end Profile

namespace Message

/-- mirrors Protocol.h:327-342 -/
def size (m : Message) : Nat :=
  (m.profiles.foldl Profile.serializeSize (putSize .ulong 0 (SizeCDR.init 1 2))).totalLength

/-- mirrors Protocol.h:344-358 -/
def serialize (P : Platform) (os : OutputCDR) (m : Message) : OutputCDR :=
  m.profiles.foldl (Profile.serialize P) (put P .ulong (UInt32.ofNat m.size) os)

end Message

/-- `os.buffer ()` and `os.length ()`: the first block.
mirrors ACE/ace/CDR_Stream.inl:521-531 -/
def buffer (os : OutputCDR) : List UInt8 := (os.before.headD os.current).contents

/-- What `send_` gives to the socket.
mirrors ACE/protocols/ace/RMCast/Link.cpp:150-173 -/
def packet (P : Platform) (m : Message) : List UInt8 := buffer (m.serialize P (OutputCDR.init P m.size 1 1 2))

/-! ## Reading -/

/-- The stream over the bytes of an aligned buffer.
mirrors ACE/ace/CDR_Stream.cpp:1065-1085 -/
def istream (P : Platform) (data : List UInt8) (byteOrder : Nat) : InputCDR where
  start := ⟨P.base 1, data, 0, data.length⟩
  doByteSwap := decide (byteOrder ≠ P.byteOrder)
  goodBit := true
  majorVersion := 1
  minorVersion := 2

/-- The condition `is >> x`, and `x` when it holds.
mirrors CDR_Stream.inl:1246-1280 -/
def take? (P : Platform) (k : Kind) (is : InputCDR) : Option k.Val × InputCDR :=
  let (x, is) := is.readScalar P k
  (if is.goodBit = true then x else none, is)

/-- The statement `is >> x`: when it fails, `x` is what it was. -/
def take (P : Platform) (k : Kind) (x : k.Val) (is : InputCDR) : k.Val × InputCDR :=
  ((is.readScalar P k).1.getD x, (is.readScalar P k).2)

/-- The header says how many bytes there are.
mirrors Protocol.h:557-568 -/
def readData (P : Platform) (mem : Memory) (size : UInt16) (is : InputCDR) : Profile × InputCDR :=
  if size ≠ 0 then
    let (buf, is) := is.readCharArray P size.toUInt32
    (.data (buf.getD ((List.range size.toNat).map mem.bytes)), is)
  else (.data [], is)

/-- mirrors Protocol.h:684-688 -/
def readSn (P : Platform) (mem : Memory) (is : InputCDR) : Profile × InputCDR :=
  let (n, is) := take P .ulonglong (mem.value .ulonglong) is
  (.sn n, is)

/-- The lengths of a number, of an address and of a member of an `NRTM` in a stream of their own.
mirrors Protocol.h:766-776,959-965 -/
def snSize : Nat := (putSize .ulonglong 0 (SizeCDR.init 1 2)).totalLength
def addrSize : Nat := (putAddressSize (SizeCDR.init 1 2)).totalLength
def blockSize : Nat := (putMemberSize (SizeCDR.init 1 2)).totalLength

/-- `(h.size () - addr_size) / sn_size`, for a `size_t` of 64 bits.
mirrors Protocol.h:782-784 -/
def snCount (size : UInt16) : Nat := (2 ^ 64 + size.toNat - addrSize) % 2 ^ 64 / snSize

/-- mirrors Protocol.h:784-788 -/
def readSns (P : Platform) : Nat → UInt64 → InputCDR → List UInt64 × InputCDR
  | 0, _, is => ([], is)
  | n + 1, sn, is =>
    let (sn, is) := take P .ulonglong sn is
    let (sns, is) := readSns P n sn is
    (sn :: sns, is)

/-- mirrors Protocol.h:759-792 -/
def readNak (P : Platform) (size : UInt16) (is : InputCDR) : Profile × InputCDR :=
  let (ip, is) := take P .ulong 0 is
  let (port, is) := take P .ushort 0 is
  let (sns, is) := readSns P (snCount size) 0 is
  (.nak ⟨ip, port⟩ sns, is)

/-- `h.size () / block_size`.
mirrors Protocol.h:968-970 -/
def blockCount (size : UInt16) : Nat := size.toNat / blockSize

/-- The variables of the loop are kept from one member to the next.
mirrors Protocol.h:970-977 -/
def readMembers (P : Platform) :
    Nat → UInt64 → Address → Table Address UInt64 → InputCDR → Table Address UInt64 × InputCDR
  | 0, _, _, map, is => (map, is)
  | n + 1, sn, addr, map, is =>
    let (sn, is) := take P .ulonglong sn is
    let (ip, is) := take P .ulong addr.ip is
    let (port, is) := take P .ushort addr.port is
    readMembers P n sn ⟨ip, port⟩ (map.bind ⟨ip, port⟩ sn) is

/-- mirrors Protocol.h:952-978 -/
def readNrtm (P : Platform) (size : UInt16) (is : InputCDR) : Profile × InputCDR :=
  let (map, is) := readMembers P (blockCount size) 0 ⟨0, 0⟩ [] is
  (.nrtm map, is)

/-- mirrors Protocol.h:1184-1190 -/
def readPart (P : Platform) (mem : Memory) (is : InputCDR) : Profile × InputCDR :=
  let (num, is) := take P .ulong (mem.value .ulong) is
  let (of, is) := take P .ulong (mem.value .ulong) is
  let (totalSize, is) := take P .ulonglong (mem.value .ulonglong) is
  (.part num of totalSize, is)

/-- The profile behind a header; `none` when its id is not known, and `recv` aborts.
mirrors Link.cpp:284-312 -/
def readProfile (P : Platform) (mem : Memory) (id size : UInt16) (is : InputCDR) : Option (Profile × InputCDR) :=
  if id = Profile.snId then some (readSn P mem is)
  else if id = Profile.dataId then some (readData P mem size is)
  else if id = Profile.nakId then some (readNak P size is)
  else if id = Profile.nrtmId then some (readNrtm P size is)
  else if id = Profile.noDataId then some (.noData, is)
  else if id = Profile.partId then some (readPart P mem is)
  else none

/-- Each round takes the four bytes of a header, so the length of the stream is fuel enough.
mirrors Link.cpp:273-313 -/
def recvLoop (P : Platform) (mem : Memory) : Nat → InputCDR → Message → Option (Message × InputCDR)
  | 0, _, _ => none
  | fuel + 1, is, m =>
    match take? P .ushort is with
    | (none, is) => some (m, is)
    | (some id, is) =>
      match take? P .ushort is with
      | (none, is) => some (m, is)
      | (some size, is) =>
        match readProfile P mem id size is with
        | none => none
        | some (p, is) => recvLoop P mem fuel is (m.add p)

/-- The message in a packet from `addr`, and the stream behind it.
mirrors Link.cpp:264-313 -/
def recv (P : Platform) (mem : Memory) (addr self : Address) (data : List UInt8) : Option (Message × InputCDR) :=
  let m := (Message.empty.add (.fromAddress addr)).add (.toAddress self)
  let is := istream P data 1
  let (_, is) := take P .ulong (mem.value .ulong) is
  recvLoop P mem (is.length + 1) is m

/-! ## What a round trip is -/

/-- The order of the members of an `NRTM` is that of the hash table it is in. -/
def Profile.Same : Profile → Profile → Prop
  | .nrtm map, .nrtm map' => map.Perm map'
  | p, q => p = q

def Message.Same (m m' : Message) : Prop :=
  ∀ id, id ≠ Profile.fromId → id ≠ Profile.toId → Option.Rel Profile.Same (m.find id) (m'.find id)

/-- The packet gives the profiles and nothing of it is left, whatever is in memory. -/
def RoundTrips (P : Platform) (m : Message) : Prop :=
  ∀ mem addr self, ∃ m' is, recv P mem addr self (packet P m) = some (m', is) ∧ is.length = 0 ∧ m.Same m'

end Atcd.Rmcast
