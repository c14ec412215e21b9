import Atcd.Cdr.Output
/-!
# The input stream

`ACE_InputCDR` on the data of an output stream: the blocks of the chain are
copied into one buffer (`ofOutput`), and every read aligns the address of the
read pointer.

A read returns `some` value when the source returns `true`, and the stream it
leaves; a failed read clears `good_bit_`. Reads swap (`ACE_DISABLE_SWAP_ON_READ`
is not defined), and no codeset translator is set.
-/
namespace Atcd.Cdr

open Atcd.Core

/-- mirrors ACE/ace/CDR_Stream.h:700-1200 -/
structure InputCDR where
  start : MessageBlock
  doByteSwap : Bool
  goodBit : Bool
  majorVersion : UInt8
  minorVersion : UInt8
  deriving DecidableEq, Repr

namespace InputCDR

/-- The stream over the data of an output stream, in the `k`-th buffer.
mirrors ACE/ace/CDR_Stream.cpp:1342-1377 -/
def ofOutput (P : Platform) (k : Nat) (rhs : OutputCDR) : InputCDR where
  start := rhs.blocks.foldl (fun start i => start.copy i.contents)
    (P.alloc k (rhs.totalLength + maxAlignment)).mbAlign
  doByteSwap := rhs.doByteSwap
  goodBit := true
  majorVersion := rhs.majorVersion
  minorVersion := rhs.minorVersion

/-- mirrors ACE/ace/CDR_Stream.inl:712-716 -/
def length (r : InputCDR) : Nat := r.start.length

def peek (r : InputCDR) (off n : Nat) : List UInt8 := (r.start.buf.drop off).take n

/-- `this->good_bit_ = false`. -/
def bad (r : InputCDR) : InputCDR := { r with goodBit := false }

/-- The result is the offset of the bytes in the buffer.
mirrors CDR_Stream.inl:1043-1066 -/
def adjust (r : InputCDR) (size align : Nat) : Option Nat × InputCDR :=
  let buf := alignBinary (r.start.base + r.start.rdPtr) align
  let finish := buf + size
  if finish ≤ r.start.base + r.start.wrPtr then
    (some (buf - r.start.base), { r with start := { r.start with rdPtr := finish - r.start.base } })
  else (none, r.bad)

/-! ## Primitive readers -/

/-- mirrors CDR_Stream.cpp:1765-1777 -/
def read1 (r : InputCDR) : Option UInt8 × InputCDR :=
  if r.start.rdPtr < r.start.wrPtr then
    ((r.peek r.start.rdPtr 1).head?, { r with start := { r.start with rdPtr := r.start.rdPtr + 1 } })
  else (none, r.bad)

variable (P : Platform)

/-- The common body of the readers of 2, 4, 8 and 16 bytes: the bytes of the
value in the host's memory.
mirrors CDR_Stream.cpp:1779-1862 -/
def readPrim (r : InputCDR) (size align : Nat) : Option (List UInt8) × InputCDR :=
  match r.adjust size align with
  | (some buf, r) =>
    if r.doByteSwap = false then (some (r.peek buf size), r)
    else (some (swapElem P.endian size (r.peek buf size)), r)
  | (none, r) => (none, r.bad)

/-- The value in the bytes a read has returned. -/
def asKind (k : Kind) (x : Option (List UInt8) × InputCDR) : Option k.Val × InputCDR :=
  (x.1.map (k.ofMem P.endian), x.2)

/-- mirrors CDR_Stream.cpp:1779-1797, CDR_Stream.inl:650-661 -/
def read2 (r : InputCDR) := r.readPrim P shortSize shortSize
/-- mirrors CDR_Stream.cpp:1799-1817, CDR_Stream.inl:664-676,692-697 -/
def read4 (r : InputCDR) := r.readPrim P longSize longSize
/-- mirrors CDR_Stream.cpp:1819-1839, CDR_Stream.inl:679-690,699-704 -/
def read8 (r : InputCDR) := r.readPrim P longlongSize longlongSize
/-- mirrors CDR_Stream.cpp:1841-1862, CDR_Stream.inl:706-710 -/
def read16 (r : InputCDR) := r.readPrim P longdoubleSize longdoubleAlign

/-- The result is `good_bit_`, whatever the read of the octet says.
mirrors CDR_Stream.inl:629-636 -/
def readBoolean (r : InputCDR) : Option Bool × InputCDR :=
  let (tmp, r) := r.read1
  let x := match tmp with
    | some tmp => decide (tmp ≠ 0)
    | none => false
  (if r.goodBit = true then some x else none, r)

/-- The reader of a type. -/
def readScalar (r : InputCDR) : (k : Kind) → Option k.Val × InputCDR
  | .octet => r.read1
  | .boolean => r.readBoolean
  | .char => r.read1
  | .short => asKind P .short (r.read2 P)
  | .ushort => asKind P .ushort (r.read2 P)
  | .long => asKind P .long (r.read4 P)
  | .ulong => asKind P .ulong (r.read4 P)
  | .longlong => asKind P .longlong (r.read8 P)
  | .ulonglong => asKind P .ulonglong (r.read8 P)
  | .float => asKind P .float (r.read4 P)
  | .double => asKind P .double (r.read8 P)
  | .longdouble => asKind P .longdouble (r.read16 P)

/-- mirrors CDR_Stream.inl:672-676 -/
def readUlong (r : InputCDR) : Option UInt32 × InputCDR := r.readScalar P .ulong

/-! ## Arrays -/

/-- mirrors CDR_Stream.cpp:1655-1699 -/
def readArray (r : InputCDR) (size align : Nat) (length : UInt32) :
    Option (List UInt8) × InputCDR :=
  if length = 0 then (some [], r)
  else match r.adjust (size * length.toNat) align with
    | (some buf, r) =>
      let x := r.peek buf (size * length.toNat)
      if r.doByteSwap = false ∨ size = 1 then (if r.goodBit = true then some x else none, r)
      else if size = 2 ∨ size = 4 ∨ size = 8 ∨ size = 16 then
        let x := (chunks (swapElem P.endian size) size length.toNat x).flatten
        (if r.goodBit = true then some x else none, r)
      else (none, r.bad)
    | (none, r) => (none, r)

/-- The readers of arrays of a fixed size type: the length is compared with the
stream's, the product taken as a `ULong`.
mirrors CDR_Stream.inl:762-940 -/
def readSizedArray (r : InputCDR) (size align : Nat) (length : UInt32) :
    Option (List UInt8) × InputCDR :=
  if (length * UInt32.ofNat size).toNat > r.length then (none, r.bad)
  else r.readArray P size align length

/-- mirrors CDR_Stream.inl:718-735 -/
def readCharArray (r : InputCDR) (length : UInt32) : Option (List UInt8) × InputCDR :=
  if length.toNat > r.length then (none, r.bad)
  else r.readArray P octetSize octetAlign length

/-- The loop of `read_boolean_array`: the elements it stores.
mirrors CDR_Stream.cpp:1759-1760 -/
def readBooleans : Nat → InputCDR → List Bool × InputCDR
  | 0, r => ([], r)
  | n + 1, r =>
    if r.goodBit = true then
      let (x, r) := r.readBoolean
      let (xs, r) := readBooleans n r
      (x.getD false :: xs, r)
    else ([], r)

/-- mirrors CDR_Stream.cpp:1742-1763 -/
def readBooleanArray (r : InputCDR) (length : UInt32) : Option (List Bool) × InputCDR :=
  if length.toNat > r.length then (none, r.bad)
  else
    let (xs, r) := readBooleans length.toNat r
    (if r.goodBit = true then some xs else none, r)

/-- The elements in the memory of an array. -/
def elements (k : Kind) (length : UInt32) (x : Option (List UInt8) × InputCDR) :
    Option (List k.Val) × InputCDR :=
  (x.1.map (chunks (k.ofMem P.endian) k.size length.toNat), x.2)

/-- The array reader of a type. -/
def readTypedArray (r : InputCDR) : (k : Kind) → UInt32 → Option (List k.Val) × InputCDR
  | .octet, n => elements P .octet n (r.readSizedArray P octetSize octetAlign n)
  | .boolean, n => r.readBooleanArray n
  | .char, n => elements P .char n (r.readCharArray P n)
  | .short, n => elements P .short n (r.readSizedArray P shortSize shortAlign n)
  | .ushort, n => elements P .ushort n (r.readSizedArray P shortSize shortAlign n)
  | .long, n => elements P .long n (r.readSizedArray P longSize longAlign n)
  | .ulong, n => elements P .ulong n (r.readSizedArray P longSize longAlign n)
  | .longlong, n => elements P .longlong n (r.readSizedArray P longlongSize longlongAlign n)
  | .ulonglong, n => elements P .ulonglong n (r.readSizedArray P longlongSize longlongAlign n)
  | .float, n => elements P .float n (r.readSizedArray P longSize longAlign n)
  | .double, n => elements P .double n (r.readSizedArray P longlongSize longlongAlign n)
  | .longdouble, n => elements P .longdouble n (r.readSizedArray P longdoubleSize longdoubleAlign n)

/-! ## Strings -/

/-- `read_string (Char *&)`: the array it allocates.
mirrors CDR_Stream.cpp:1501-1548 -/
def readString (r : InputCDR) : Option (List UInt8) × InputCDR :=
  match r.readUlong P with
  | (none, r) => (none, r)
  | (some len, r) =>
    if 0 < len ∧ len.toNat ≤ r.length then
      match r.readCharArray P len with
      | (some x, r) => (some x, r)
      | (none, r) => (none, r.bad)
    else if len = 0 then (some [0], r)
    else (none, r.bad)

/-- `read_string (ACE_CString &)`: the array is copied as a C string, up to its
first NUL.
mirrors CDR_Stream.cpp:1550-1563 -/
def readCString (r : InputCDR) : Option (List UInt8) × InputCDR :=
  match r.readString P with
  | (some data, r) => (some (data.takeWhile (· ≠ 0)), r)
  | (none, r) => (none, r.bad)

end InputCDR

end Atcd.Cdr
