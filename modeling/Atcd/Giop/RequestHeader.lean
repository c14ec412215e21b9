import Atcd.Cdr.Base
/-!
# Request headers as they are parsed

`parse_request_header` of the GIOP 1.0 and 1.2 parsers (1.1 inherits the one of
1.0) and `TAO_Tagged_Profile`, over a reader that works on addresses: the
lengths a message carries are added to the read pointer modulo the size of the
address space before they are compared with the end of the message.

The value of a word is read in the byte order of the message; the source copies
it or calls `swap_2`, `swap_4`, which reverse its bytes. A read that fails
clears `good_bit_`, and no read looks at it. The object key, the type id and the
operation name are not copied: the request refers to the message (`Span`).

`Input.moves` records every change of the read pointer and `Header.indexed` the
subscript of the profile sequence; nothing reads them. `process_service_contexts`
is left out, it works on what has been read.
-/
namespace Atcd.Giop.RequestHeader

/-- What is fixed while a message is parsed. -/
structure Machine where
  width : Nat            -- bits of an address and of a size_t
  order : Core.Endian    -- the byte order of the message
  shares : Bool          -- octet sequences share the message block
  width_ge : 32 ≤ width

theorem width64_ge : 32 ≤ 64 := by decide

/-- A 64-bit host and a little endian message. -/
def host64 : Machine where
  width := 64
  order := .little
  shares := false
  width_ge := width64_ge

def Machine.space (m : Machine) : Nat := 2 ^ m.width

/-- A `Long` as a `size_t`: the sign is extended. -/
def Machine.sizeT (m : Machine) (x : Int32) : Nat := (x.toInt % (m.space : Int)).toNat

/-- `ACE_InputCDR` on one block of memory; the pointers are addresses. -/
structure Input where
  memory : Nat → UInt8
  rd : Nat
  wr : Nat
  good : Bool
  moves : List (Nat × Nat)

/-- A reader: the value when the source returns `true`, and the stream it leaves. -/
def Reader (α : Type) := Input → Option α × Input

/-- `a && b`. -/
def Reader.andThen {α β : Type} (f : Reader α) (g : α → Reader β) : Reader β := fun i =>
  match f i with
  | (some a, i) => g a i
  | (none, i) => (none, i)

def Reader.pure {α : Type} (a : α) : Reader α := fun i => (some a, i)

namespace Input

def length (i : Input) : Nat := i.wr - i.rd

def bytes (i : Input) (p n : Nat) : List UInt8 := (List.range n).map fun k => i.memory (p + k)

/-- `this->good_bit_ = false`. -/
def bad (i : Input) : Input := { i with good := false }

def move (i : Input) (p : Nat) : Input := { i with rd := p, moves := (i.rd, p) :: i.moves }

variable (m : Machine)

/-- mirrors ACE/ace/CDR_Stream.inl:1043-1066 -/
def adjust (size align : Nat) : Reader Nat := fun i =>
  let buf := Cdr.alignBinary i.rd align % m.space
  let finish := (buf + size) % m.space
  if finish ≤ i.wr then (some buf, i.move finish) else (none, i.bad)

/-- mirrors ACE/ace/CDR_Stream.cpp:1765-1777 -/
def readOctet : Reader UInt8 := fun i =>
  if i.rd < i.wr then (some (i.memory i.rd), i.move (i.rd + 1)) else (none, i.bad)

/-- mirrors CDR_Stream.cpp:1779-1817 -/
def readWord (size : Nat) : Reader Nat := fun i =>
  match i.adjust m size size with
  | (some buf, i) => (some (Core.load m.order (i.bytes buf size)), i)
  | (none, i) => (none, i.bad)

def readShort : Reader Int16 :=
  Reader.andThen (readWord m Cdr.shortSize) fun v => .pure (UInt16.ofNat v).toInt16

def readUlong : Reader UInt32 :=
  Reader.andThen (readWord m Cdr.longSize) fun v => .pure (UInt32.ofNat v)

def readLong : Reader Int32 :=
  Reader.andThen (readUlong m) fun v => .pure v.toInt32

/-- mirrors CDR_Stream.cpp:1908-1918 -/
def skipBytes (len : Nat) (i : Input) : Bool × Input :=
  let dest := (i.rd + len) % m.space
  if dest ≤ i.wr then (true, i.move dest) else (false, i.bad)

/-- mirrors CDR_Stream.inl:1487-1505 -/
def alignReadPtr (align : Nat) (i : Input) : Input :=
  let buf := Cdr.alignBinary i.rd align % m.space
  if buf ≤ i.wr then i.move buf else i.bad

/-- mirrors CDR_Stream.inl:762-777, CDR_Stream.cpp:1655-1699 -/
def readOctetArray (length : UInt32) : Reader (List UInt8) := fun i =>
  if length.toNat > i.length then (none, i.bad)
  else if length = 0 then (some [], i)
  else match i.adjust m length.toNat 1 with
    | (some buf, i) => (if i.good = true then some (i.bytes buf length.toNat) else none, i)
    | (none, i) => (none, i)

/-- A sequence of octets behind its length. If it shares the message block the
result of the skip is not used.
mirrors TAO/tao/Unbounded_Sequence_CDR_T.h:99-131 -/
def readOctets (newLength : UInt32) : Reader (List UInt8) := fun i =>
  if newLength.toNat > i.length then (none, i)
  else if m.shares = true then
    (some (i.bytes i.rd newLength.toNat), (i.skipBytes m newLength.toNat).2)
  else i.readOctetArray m newLength

def readOctetSeq : Reader (List UInt8) := Reader.andThen (readUlong m) (readOctets m)

end Input

/-- `IOP::ServiceContext` and `IOP::TaggedProfile`: a `ULong` and its octets. -/
structure Tagged where
  id : UInt32
  data : List UInt8
  deriving DecidableEq, Repr

namespace Input

variable (m : Machine)

def readTagged : Reader Tagged :=
  Reader.andThen (readUlong m) fun id =>
  Reader.andThen (readOctetSeq m) fun data => .pure ⟨id, data⟩

/-- The loop of `demarshal_sequence`.
mirrors Unbounded_Sequence_CDR_T.h:329-333 -/
def readElements : Nat → Reader (List Tagged)
  | 0 => .pure []
  | n + 1 =>
    Reader.andThen (readTagged m) fun x =>
    Reader.andThen (readElements n) fun xs => .pure (x :: xs)

/-- The elements behind the length of a sequence.
mirrors Unbounded_Sequence_CDR_T.h:323-335 -/
def readCounted (newLength : UInt32) : Reader (List Tagged) := fun i =>
  if newLength.toNat > i.length then (none, i) else i.readElements m newLength.toNat

/-- mirrors Unbounded_Sequence_CDR_T.h:316-336 -/
def readTaggedSeq : Reader (List Tagged) := Reader.andThen (readUlong m) (readCounted m)

end Input

/-- What a request refers to in the message: a pointer and a length. -/
structure Span where
  ptr : Nat
  len : Nat
  deriving DecidableEq, Repr

/-- `TAO_Tagged_Profile`. The length of `type_id_` is the one in the message,
the source keeps the pointer; `profile_` is `none` where it was copied from
behind the end of the sequence.
mirrors TAO/tao/Tagged_Profile.h:100-141 -/
structure Profile where
  discriminator : Int16
  objectKeyExtracted : Bool
  objectKey : Option Span
  profile : Option Tagged
  profileIndex : UInt32
  typeId : Option Span

/-- mirrors TAO/tao/Tagged_Profile.inl:4-14 -/
def Profile.init : Profile := ⟨0, false, none, some ⟨0, []⟩, 0, none⟩

/-- What the parsers set in a `TAO_ServerRequest`. -/
structure Request where
  requestId : UInt32
  responseExpected : Bool
  syncWithServer : Bool
  profile : Profile
  operation : Option Span
  serviceInfo : List Tagged
  principal : List UInt8

def Request.init : Request := ⟨0, false, false, .init, none, [], []⟩

/-- The locals of a parser: the stream, `hdr_status` and the request. -/
structure Header where
  input : Input
  status : Bool
  request : Request
  indexed : Option (Nat × Nat)

namespace Header

variable (m : Machine)

def start (i : Input) : Header := ⟨i, i.good, .init, none⟩

/-- `hdr_status = hdr_status && input.read (x)`. -/
def read {α : Type} (h : Header) (f : Reader α) : Option α × Header :=
  if h.status = true then
    ((f h.input).1, { h with input := (f h.input).2, status := (f h.input).1.isSome })
  else (none, h)

def skip (h : Header) (len : Nat) : Header := { h with input := (h.input.skipBytes m len).2 }

/-! ## The target -/

/-- mirrors TAO/tao/Tagged_Profile.cpp:86-106 -/
def unmarshallObjectKeyI (h : Header) : Header :=
  let h := { h with status := h.input.good }
  match h.read (Input.readLong m) with
  | (none, h) => h
  | (some keyLength, h) =>
    { h with request.profile.objectKey := some ⟨h.input.rd, keyLength.toUInt32.toNat⟩,
             request.profile.objectKeyExtracted := true }.skip m (m.sizeT keyLength)

/-- mirrors Tagged_Profile.cpp:78-84 -/
def unmarshallObjectKey (h : Header) : Header :=
  { h with request.profile.discriminator := 0 }.unmarshallObjectKeyI m

/-- The `&=` evaluates both sides.
mirrors Tagged_Profile.cpp:109-118 -/
def unmarshallIopProfileI (h : Header) : Header :=
  let h := { h with status := h.input.good }
  match h.input.readTagged m with
  | (some p, i) => { h with input := i, request.profile.profile := some p }
  | (none, i) => { h with input := i, status := false }

/-- The type id: its length, the pointer, and a skip whose result is not used.
mirrors Tagged_Profile.cpp:151-161 -/
def typeId (h : Header) : Header :=
  match h.read (Input.readLong m) with
  | (none, h) => h
  | (some idLength, h) =>
    { h with request.profile.typeId := some ⟨h.input.rd, idLength.toUInt32.toNat⟩ }.skip m
      (m.sizeT idLength)

/-- The profiles, and the one at `prof_index`; the subscript is not checked.
mirrors Tagged_Profile.cpp:163-176 -/
def iorProfiles (h : Header) (profIndex : UInt32) : Header :=
  match h.input.readTaggedSeq m with
  | (none, i) => { h with input := i, status := false }
  | (some ps, i) =>
    if h.status = true then
      { h with input := i, indexed := some (profIndex.toNat, ps.length),
               request.profile.profile := ps[profIndex.toNat]? }
    else { h with input := i }

/-- mirrors Tagged_Profile.cpp:120-177 -/
def unmarshallRefAddrI (h : Header) : Header :=
  let h := { h with status := h.input.good }
  match h.read (Input.readUlong m) with
  | (none, h) => (h.typeId m).iorProfiles m 0
  | (some profIndex, h) =>
    ({ h with request.profile.profileIndex := profIndex }.typeId m).iorProfiles m profIndex

/-- mirrors Tagged_Profile.cpp:47-76 -/
def unmarshallTargetAddress (h : Header) : Header :=
  match h.read (Input.readShort m) with
  | (none, h) => h
  | (some d, h) =>
    let h := { h with request.profile.discriminator := d }
    if d = 0 then h.unmarshallObjectKeyI m
    else if d = 1 then h.unmarshallIopProfileI m
    else if d = 2 then h.unmarshallRefAddrI m
    else { h with status := false }

/-! ## The operation -/

/-- `ACE_OS::strlen`, up to the end of the address space. -/
def strlen (memory : Nat → UInt8) (p : Nat) : Nat → Nat
  | 0 => 0
  | n + 1 => if memory p = 0 then 0 else strlen memory (p + 1) n + 1

/-- The length `TAO_ServerRequest::operation` sets.
mirrors TAO/tao/TAO_Server_Request.inl:62-73 -/
def operationLen (i : Input) (length : Nat) : Nat :=
  if length = 0 then strlen i.memory i.rd (m.space - i.rd) else length

/-- The length, the operation name and the skip over it.
mirrors TAO/tao/GIOP_Message_Generator_Parser_12.cpp:250-266,
GIOP_Message_Generator_Parser_10.cpp:364-379 -/
def operation (h : Header) : Header :=
  match h.read (Input.readUlong m) with
  | (none, h) => h
  | (some length, h) =>
    { h with request.operation := some ⟨h.input.rd, operationLen m h.input (length - 1).toNat⟩,
             status := (h.input.skipBytes m length.toNat).1,
             input := (h.input.skipBytes m length.toNat).2 }

/-! ## GIOP 1.2 -/

/-- The request id and the response flags.
mirrors GIOP_Message_Generator_Parser_12.cpp:228-242 -/
def flags12 (h : Header) : Header :=
  let (reqId, h) := h.read (Input.readUlong m)
  let (flags, h) := { h with request.requestId := reqId.getD 0 }.read Input.readOctet
  { h with request.responseExpected := decide (flags.getD 0 > 0),
           request.syncWithServer := decide (flags.getD 0 = 1) }

/-- Up to the target address: the reserved octets are skipped in any case.
mirrors GIOP_Message_Generator_Parser_12.cpp:225-245 -/
def before12 (i : Input) : Header := ((start i).flags12 m).skip m 3

/-- The service contexts and the alignment of the body.
mirrors GIOP_Message_Generator_Parser_12.cpp:268-304 -/
def finish12 (h : Header) : Int × Header :=
  match h.input.readTaggedSeq m with
  | (none, i) => (-1, { h with input := i })
  | (some serviceInfo, i) =>
    (if h.status = true then 0 else -1,
      { h with input := if i.length > 0 then i.alignReadPtr m 8 else i,
               request.serviceInfo := serviceInfo })

/-! ## GIOP 1.0 -/

/-- mirrors TAO/tao/GIOP_Message_Generator_Parser_10.cpp:333-346 -/
def flags10 (h : Header) : Header :=
  let (reqId, h) := h.read (Input.readUlong m)
  let (flags, h) := { h with request.requestId := reqId.getD 0 }.read Input.readOctet
  { h with request.responseExpected := decide (flags.getD 0 ≠ 0), request.syncWithServer := false }

/-- The service contexts come first.
mirrors GIOP_Message_Generator_Parser_10.cpp:325-346 -/
def before10 (i : Input) (serviceInfo : List Tagged) : Header :=
  { start i with request.serviceInfo := serviceInfo }.flags10 m

/-- `hdr_status && unmarshall_object_key (input)`.
mirrors GIOP_Message_Generator_Parser_10.cpp:348-353 -/
def target10 (h : Header) : Header := if h.status = true then h.unmarshallObjectKey m else h

/-- The principal; the status is the good bit behind it.
mirrors GIOP_Message_Generator_Parser_10.cpp:381-397 -/
def finish10 (h : Header) : Int × Header :=
  if h.status = true then
    let (octSeq, i) := h.input.readOctetSeq m
    (if i.good = true then 0 else -1,
      { h with input := i, status := i.good, request.principal := octSeq.getD [] })
  else (-1, h)

end Header

/-- The GIOP versions with a parser of requests. -/
inductive Version where
  | v10 | v11 | v12
  deriving DecidableEq, Repr

variable (m : Machine)

/-- mirrors GIOP_Message_Generator_Parser_12.cpp:221-304 -/
def parseRequestHeader12 (i : Input) : Int × Header :=
  (((Header.before12 m i).unmarshallTargetAddress m).operation m).finish12 m

/-- mirrors GIOP_Message_Generator_Parser_10.cpp:314-398 -/
def parseRequestHeader10 (i : Input) : Int × Header :=
  match i.readTaggedSeq m with
  | (none, i) => (-1, Header.start i)
  | (some serviceInfo, i) =>
    (((Header.before10 m i serviceInfo).target10 m).operation m).finish10 m

/-- The parser of a version; 1.1 inherits `parse_request_header` from 1.0.
mirrors TAO/tao/GIOP_Message_Generator_Parser_11.h:32-33 -/
def parseRequestHeader : Version → Input → Int × Header
  | .v10, i => parseRequestHeader10 m i
  | .v11, i => parseRequestHeader10 m i
  | .v12, i => parseRequestHeader12 m i

end Atcd.Giop.RequestHeader
