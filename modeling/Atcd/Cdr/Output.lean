import Atcd.Cdr.Types
/-!
# The output stream

`ACE_OutputCDR`: a chain of message blocks, the block being written
(`current_`), and a counter of the bytes written so far
(`current_alignment_`) from which every padding is computed. A write that does
not fit the current block goes on in the next one of the chain, or in a new one
whose start is moved so that its address agrees with the counter modulo
`MAX_ALIGNMENT` (`grow_and_adjust`).

Writers return the source's `Boolean` and the stream they leave. No codeset
translator is set. Of a `WChar` of 2 bytes that `write_wchar` passes to
`write_4` the model writes the value; the source also copies the two bytes
behind it in memory.
-/
namespace Atcd.Cdr

open Atcd.Core

/-- mirrors ACE/ace/CDR_Stream.h:120-520, CDR_Stream.cpp:15-56 -/
structure OutputCDR where
  before : List MessageBlock      -- start_ and the blocks in front of current_
  current : MessageBlock
  after : List MessageBlock       -- the chain behind current_->cont ()
  allocs : Nat                    -- buffers taken from the allocator so far
  currentAlignment : Nat
  currentIsWritable : Bool
  doByteSwap : Bool
  goodBit : Bool
  majorVersion : UInt8
  minorVersion : UInt8
  deriving DecidableEq, Repr

/-- A fresh stream with the given initial buffer size and byte order.
mirrors ACE/ace/CDR_Stream.cpp:16-56 -/
def OutputCDR.init (P : Platform) (size byteOrder : Nat) (major minor : UInt8) : OutputCDR where
  before := []
  current := (P.alloc 0 ((if size = 0 then defaultBufsize else size) + maxAlignment)).mbAlign
  after := []
  allocs := 1
  currentAlignment := 0
  currentIsWritable := true
  doByteSwap := decide (byteOrder ≠ P.byteOrder)
  goodBit := true
  majorVersion := major
  minorVersion := minor

namespace OutputCDR

def blocks (s : OutputCDR) : List MessageBlock := s.before ++ [s.current]

/-- mirrors ACE/ace/CDR_Base.cpp:535-546, CDR_Stream.inl:515-519 -/
def totalLength (s : OutputCDR) : Nat := (s.blocks.map MessageBlock.length).sum

def contents (s : OutputCDR) : List UInt8 := s.blocks.flatMap MessageBlock.contents

def poke (s : OutputCDR) (buf : Nat) (bs : List UInt8) : OutputCDR :=
  { s with current := s.current.poke buf bs }

/-! ## Room for a write -/

/-- The condition under which `grow_and_adjust` allocates.
mirrors CDR_Stream.cpp:179-181 -/
def needsBlock (s : OutputCDR) (size : Nat) : Bool :=
  !s.currentIsWritable ||
    match s.after with
    | [] => true
    | cont :: _ => decide (cont.size < size + maxAlignment)

/-- The size the new block is at least given.
mirrors CDR_Stream.cpp:185-198 -/
def minSize (s : OutputCDR) (size : Nat) : Nat :=
  let cursize := match s.after with
    | [] => s.current.size
    | cont :: _ => cont.size
  let minsize := size + maxAlignment
  if minsize < cursize then cursize else minsize

/-- How far the start of a block is moved to bring it from one alignment to
another.
mirrors CDR_Stream.cpp:232-238 -/
def startOffset (tmpalign curalign : Nat) : Nat :=
  let offset : Int := curalign - tmpalign
  let offset : Int := if offset < 0 then offset + maxAlignment else offset
  offset.toNat

/-- The block `grow_and_adjust` allocates: at least as big as what is asked and
as the block before, its start at the alignment the stream has reached.
mirrors CDR_Stream.cpp:183-241 -/
def newBlock (P : Platform) (s : OutputCDR) (size : Nat) : MessageBlock :=
  let tmp := P.alloc s.allocs (nextSize (s.minSize size))
  let tmpalign := (tmp.base + tmp.rdPtr) % maxAlignment
  let curalign := s.currentAlignment % maxAlignment
  let rd := tmp.rdPtr + startOffset tmpalign curalign
  { tmp with rdPtr := rd, wrPtr := rd }

/-- `current_ = current_->cont ()`, for the chain `cont :: rest`.
mirrors CDR_Stream.cpp:242-247 -/
def advance (s : OutputCDR) (cont : MessageBlock) (rest : List MessageBlock) : OutputCDR :=
  { s with before := s.before ++ [s.current], current := cont, after := rest,
           currentIsWritable := true }

/-- `grow_and_adjust` up to its call of `adjust`. An allocation that succeeds
sets `good_bit_`.
mirrors CDR_Stream.cpp:174-247 -/
def grow (P : Platform) (s : OutputCDR) (size : Nat) : OutputCDR :=
  if s.needsBlock size then
    ({ s with allocs := s.allocs + 1, goodBit := true }).advance (s.newBlock P size) s.after
  else match s.after with
    | [] => s
    | cont :: rest => s.advance cont rest

/-- `adjust` and `grow_and_adjust` call each other until the block at hand has
room; the fuel bounds the calls. The result is the offset of the reserved bytes
in the current block.
mirrors ACE/ace/CDR_Stream.inl:438-474, CDR_Stream.cpp:249 -/
def adjustLoop (P : Platform) (size align : Nat) : Nat → OutputCDR → Option (Nat × OutputCDR)
  | 0, _ => none
  | fuel + 1, s =>
    let offset := alignBinary s.currentAlignment align - s.currentAlignment
    let buf := s.current.wrPtr + offset
    if s.currentIsWritable = true ∧ buf + size ≤ s.current.size then
      some (buf, { s with currentAlignment := s.currentAlignment + (offset + size),
                          current := { s.current with wrPtr := buf + size } })
    else adjustLoop P size align fuel (s.grow P size)

/-- Each block of the chain is tried at most once, then a new one is made. -/
def adjust (P : Platform) (s : OutputCDR) (size align : Nat) : Option (Nat × OutputCDR) :=
  adjustLoop P size align (s.after.length + 2) s

variable (P : Platform)

/-! ## Primitive writers -/

/-- mirrors CDR_Stream.cpp:460-471 -/
def write1 (s : OutputCDR) (x : UInt8) : Bool × OutputCDR :=
  match s.adjust P 1 1 with
  | none => (false, s)
  | some (buf, s) => (true, s.poke buf [x])

/-- The common body of the writers of 2, 4, 8 and 16 bytes: `x` are the bytes
of the value in memory. -/
def writePrim (s : OutputCDR) (size align : Nat) (x : List UInt8) : Bool × OutputCDR :=
  match s.adjust P size align with
  | none => (false, s)
  | some (buf, s) =>
    if P.swapOnWrite = true ∧ s.doByteSwap = true then (true, s.poke buf (swapElem P.endian size x))
    else (true, s.poke buf x)

/-- mirrors CDR_Stream.cpp:473-497 -/
def write2 (s : OutputCDR) (x : UInt16) : Bool × OutputCDR :=
  s.writePrim P shortSize shortSize (store P.endian shortSize x.toNat)

/-- mirrors CDR_Stream.cpp:499-523 -/
def write4 (s : OutputCDR) (x : UInt32) : Bool × OutputCDR :=
  s.writePrim P longSize longSize (store P.endian longSize x.toNat)

/-- mirrors CDR_Stream.cpp:525-550 -/
def write8 (s : OutputCDR) (x : UInt64) : Bool × OutputCDR :=
  s.writePrim P longlongSize longlongSize (store P.endian longlongSize x.toNat)

/-- mirrors CDR_Stream.cpp:552-578 -/
def write16 (s : OutputCDR) (x : LongDouble) : Bool × OutputCDR :=
  s.writePrim P longdoubleSize longdoubleAlign x.bytes

/-- mirrors CDR_Stream.inl:183-187 -/
def writeOctet (s : OutputCDR) (x : UInt8) := s.write1 P x
/-- mirrors CDR_Stream.inl:189-198 -/
def writeBoolean (s : OutputCDR) (x : Bool) := s.writeOctet P (octetOfBool x)
/-- mirrors CDR_Stream.inl:200-209 -/
def writeChar (s : OutputCDR) (x : UInt8) := s.write1 P x
/-- mirrors CDR_Stream.inl:211-216 -/
def writeShort (s : OutputCDR) (x : Int16) := s.write2 P x.toUInt16
/-- mirrors CDR_Stream.inl:218-222 -/
def writeUshort (s : OutputCDR) (x : UInt16) := s.write2 P x
/-- mirrors CDR_Stream.inl:224-229 -/
def writeLong (s : OutputCDR) (x : Int32) := s.write4 P x.toUInt32
/-- mirrors CDR_Stream.inl:231-235 -/
def writeUlong (s : OutputCDR) (x : UInt32) := s.write4 P x
/-- mirrors CDR_Stream.inl:237-242 -/
def writeLonglong (s : OutputCDR) (x : Int64) := s.write8 P x.toUInt64
/-- mirrors CDR_Stream.inl:244-248 -/
def writeUlonglong (s : OutputCDR) (x : UInt64) := s.write8 P x
/-- mirrors CDR_Stream.inl:250-255 -/
def writeFloat (s : OutputCDR) (x : UInt32) := s.write4 P x
/-- mirrors CDR_Stream.inl:257-262 -/
def writeDouble (s : OutputCDR) (x : UInt64) := s.write8 P x
/-- mirrors CDR_Stream.inl:264-268 -/
def writeLongdouble (s : OutputCDR) (x : LongDouble) := s.write16 P x

/-- The writer of a type. -/
def writeScalar (s : OutputCDR) : (k : Kind) → k.Val → Bool × OutputCDR
  | .octet, x => s.writeOctet P x
  | .boolean, x => s.writeBoolean P x
  | .char, x => s.writeChar P x
  | .short, x => s.writeShort P x
  | .ushort, x => s.writeUshort P x
  | .long, x => s.writeLong P x
  | .ulong, x => s.writeUlong P x
  | .longlong, x => s.writeLonglong P x
  | .ulonglong, x => s.writeUlonglong P x
  | .float, x => s.writeFloat P x
  | .double, x => s.writeDouble P x
  | .longdouble, x => s.writeLongdouble P x

/-! ## Arrays -/

/-- `x` is the memory of the array. The unrolled `swap_N_array` is the loop over
its elements.
mirrors CDR_Stream.cpp:620-667 -/
def writeArray (s : OutputCDR) (x : List UInt8) (size align : Nat) (length : UInt32) :
    Bool × OutputCDR :=
  if length = 0 then (true, s)
  else match s.adjust P (size * length.toNat) align with
    | none => (false, { s with goodBit := false })
    | some (buf, s) =>
      if P.swapOnWrite = false ∨ s.doByteSwap = false ∨ size = 1 then
        (true, s.poke buf (x.take (size * length.toNat)))
      else if size = 2 ∨ size = 4 ∨ size = 8 ∨ size = 16 then
        (true, s.poke buf (chunks (swapElem P.endian size) size length.toNat x).flatten)
      else (false, { s with goodBit := false })

/-- The loop of `write_boolean_array`.
mirrors CDR_Stream.cpp:679-684 -/
def writeBooleans : List Bool → OutputCDR → OutputCDR
  | [], s => s
  | x :: xs, s => if s.goodBit = true then writeBooleans xs (s.writeBoolean P x).2 else s

/-- mirrors CDR_Stream.cpp:670-687 -/
def writeBooleanArray (s : OutputCDR) (x : List Bool) (length : UInt32) : Bool × OutputCDR :=
  let s := writeBooleans P (x.take length.toNat) s
  (s.goodBit, s)

def memory (k : Kind) (x : List k.Val) : List UInt8 := x.flatMap (k.toMem P.endian)

/-- mirrors CDR_Stream.inl:296-306 -/
def writeCharArray (s : OutputCDR) (x : List UInt8) (length : UInt32) :=
  s.writeArray P x octetSize octetAlign length
/-- mirrors CDR_Stream.inl:331-339 -/
def writeOctetArray (s : OutputCDR) (x : List UInt8) (length : UInt32) :=
  s.writeArray P x octetSize octetAlign length
/-- mirrors CDR_Stream.inl:341-349 -/
def writeShortArray (s : OutputCDR) (x : List Int16) (length : UInt32) :=
  s.writeArray P (memory P .short x) shortSize shortAlign length
/-- mirrors CDR_Stream.inl:351-359 -/
def writeUshortArray (s : OutputCDR) (x : List UInt16) (length : UInt32) :=
  s.writeArray P (memory P .ushort x) shortSize shortAlign length
/-- mirrors CDR_Stream.inl:361-369 -/
def writeLongArray (s : OutputCDR) (x : List Int32) (length : UInt32) :=
  s.writeArray P (memory P .long x) longSize longAlign length
/-- mirrors CDR_Stream.inl:371-379 -/
def writeUlongArray (s : OutputCDR) (x : List UInt32) (length : UInt32) :=
  s.writeArray P (memory P .ulong x) longSize longAlign length
/-- mirrors CDR_Stream.inl:381-389 -/
def writeLonglongArray (s : OutputCDR) (x : List Int64) (length : UInt32) :=
  s.writeArray P (memory P .longlong x) longlongSize longlongAlign length
/-- mirrors CDR_Stream.inl:391-399 -/
def writeUlonglongArray (s : OutputCDR) (x : List UInt64) (length : UInt32) :=
  s.writeArray P (memory P .ulonglong x) longlongSize longlongAlign length
/-- mirrors CDR_Stream.inl:401-409 -/
def writeFloatArray (s : OutputCDR) (x : List UInt32) (length : UInt32) :=
  s.writeArray P (memory P .float x) longSize longAlign length
/-- mirrors CDR_Stream.inl:412-420 -/
def writeDoubleArray (s : OutputCDR) (x : List UInt64) (length : UInt32) :=
  s.writeArray P (memory P .double x) longlongSize longlongAlign length
/-- mirrors CDR_Stream.inl:422-430 -/
def writeLongdoubleArray (s : OutputCDR) (x : List LongDouble) (length : UInt32) :=
  s.writeArray P (memory P .longdouble x) longdoubleSize longdoubleAlign length

/-- The array writer of a type. -/
def writeTypedArray (s : OutputCDR) : (k : Kind) → List k.Val → UInt32 → Bool × OutputCDR
  | .octet, x, n => s.writeOctetArray P x n
  | .boolean, x, n => s.writeBooleanArray P x n
  | .char, x, n => s.writeCharArray P x n
  | .short, x, n => s.writeShortArray P x n
  | .ushort, x, n => s.writeUshortArray P x n
  | .long, x, n => s.writeLongArray P x n
  | .ulong, x, n => s.writeUlongArray P x n
  | .longlong, x, n => s.writeLonglongArray P x n
  | .ulonglong, x, n => s.writeUlonglongArray P x n
  | .float, x, n => s.writeFloatArray P x n
  | .double, x, n => s.writeDoubleArray P x n
  | .longdouble, x, n => s.writeLongdoubleArray P x n

/-! ## Strings -/

/-- `return (this->good_bit_ = false)`. -/
def fail (s : OutputCDR) : Bool × OutputCDR := (false, { s with goodBit := false })

/-- `x` is the memory of the characters, with the NUL behind them.
mirrors CDR_Stream.cpp:313-339 -/
def writeString (s : OutputCDR) (len : UInt32) (x : List UInt8) : Bool × OutputCDR :=
  if len ≠ 0 then
    match s.writeUlong P (len + 1) with
    | (true, s) => s.writeCharArray P x (len + 1)
    | (false, s) => s.fail
  else
    match s.writeUlong P 1 with
    | (true, s) => s.writeChar P 0
    | (false, s) => s.fail

/-- `write_string (const Char *)`; `none` is the null pointer.
mirrors CDR_Stream.inl:270-281 -/
def writeCString (s : OutputCDR) : Option CString → Bool × OutputCDR
  | some x => s.writeString P (UInt32.ofNat x.val.length) (x.val ++ [0])
  | none => s.writeString P 0 []

/-! ## Wide characters -/

def wcharMem (x : UInt32) : List UInt8 := store P.endian P.wcharSize x.toNat

/-- What `write_wchar` does outside GIOP 1.2.
mirrors CDR_Stream.cpp:298-310 -/
def writeWcharPlain (s : OutputCDR) (x : UInt32) : Bool × OutputCDR :=
  if P.wcharMaxbytes = P.wcharSize then s.write4 P x
  else if P.wcharMaxbytes = 2 then s.write2 P x.toUInt16
  else s.write1 P x.toUInt8

/-- mirrors CDR_Stream.cpp:252-311 -/
def writeWchar (s : OutputCDR) (x : UInt32) : Bool × OutputCDR :=
  if P.wcharMaxbytes = 0 then s.fail
  else if s.majorVersion = 1 ∧ s.minorVersion = 2 then
    let len := UInt8.ofNat P.wcharMaxbytes
    match s.write1 P len with
    | (true, s) =>
      if P.wcharMaxbytes = P.wcharSize then s.writeOctetArray P (wcharMem P x) len.toUInt32
      else if P.wcharMaxbytes = 2 then
        s.writeOctetArray P (store P.endian shortSize x.toUInt16.toNat) len.toUInt32
      else s.writeOctetArray P [x.toUInt8] len.toUInt32
    | (false, s) => s.writeWcharPlain P x
  else if s.minorVersion = 0 then s.fail
  else s.writeWcharPlain P x

/-- mirrors CDR_Stream.cpp:580-617 -/
def writeWcharArrayI (s : OutputCDR) (x : List UInt32) (length : UInt32) : Bool × OutputCDR :=
  if length = 0 then (true, s)
  else
    let align := if P.wcharMaxbytes = 2 then shortAlign else octetAlign
    match s.adjust P (P.wcharMaxbytes * length.toNat) align with
    | none => (false, s)
    | some (buf, s) =>
      let x := x.take length.toNat
      if P.wcharMaxbytes = 2 then
        let sb := x.map fun c => store P.endian shortSize c.toUInt16.toNat
        let s := if P.swapOnWrite = true ∧ s.doByteSwap = true then
            s.poke buf (sb.map (swapElem P.endian shortSize)).flatten
          else s.poke buf sb.flatten
        (s.goodBit, s)
      else
        let s := s.poke buf (x.map UInt32.toUInt8)
        (s.goodBit, s)

/-- mirrors CDR_Stream.inl:308-329 -/
def writeWcharArray (s : OutputCDR) (x : List UInt32) (length : UInt32) : Bool × OutputCDR :=
  if P.wcharMaxbytes = 0 then s.fail
  else if P.wcharMaxbytes = P.wcharSize then
    s.writeArray P (x.flatMap (wcharMem P)) P.wcharSize
      (if P.wcharSize = 2 then shortAlign else longAlign) length
  else s.writeWcharArrayI P x length

/-- `truncate_cast<ULong>`: the largest `ULong` if the value does not fit.
mirrors ACE/ace/Truncate.h:371-463 -/
def truncateCast (v : Nat) : UInt32 := if v < 2 ^ 32 then UInt32.ofNat v else UInt32.ofNat (2 ^ 32 - 1)

/-- `x` is the memory of the characters (`none`: the null pointer).
mirrors CDR_Stream.cpp:350-400 -/
def writeWstring (s : OutputCDR) (len : UInt32) (x : Option (List UInt32)) : Bool × OutputCDR :=
  if P.wcharMaxbytes = 0 then s.fail
  else if s.majorVersion = 1 ∧ s.minorVersion = 2 then
    match x with
    | some x =>
      match s.writeUlong P (truncateCast (P.wcharMaxbytes * len.toNat)) with
      | (true, s) => s.writeWcharArray P x len
      | (false, s) => s.fail
    | none => s.writeUlong P 0
  else
    match x with
    | some x =>
      match s.writeUlong P (len + 1) with
      | (true, s) => s.writeWcharArray P x (len + 1)
      | (false, s) => s.fail
    | none =>
      match s.writeUlong P 1 with
      | (true, s) => s.writeWchar P 0
      | (false, s) => s.fail

end OutputCDR

end Atcd.Cdr
