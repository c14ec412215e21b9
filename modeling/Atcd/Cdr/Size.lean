import Atcd.Cdr.Emit
/-!
# The size stream

`ACE_SizeCDR` computes the length an `ACE_OutputCDR` would reach, without
writing: the same writers over one counter. Both streams are run side by side
on the same operations, every GIOP version and every `wchar_maxbytes_`.

An operation both streams support is a `WriteOp`; `results` and `writeOps` run
a sequence of them. Whether the streams agree is `Atcd.Cdr.SizeAgree`.
-/
namespace Atcd.Cdr

open Atcd.Core

/-- mirrors ACE/ace/CDR_Size.h:30-180, CDR_Size.inl:6-15 -/
structure SizeCDR where
  goodBit : Bool
  size : Nat
  majorVersion : UInt8
  minorVersion : UInt8
  deriving DecidableEq, Repr

def SizeCDR.init (major minor : UInt8) : SizeCDR := ⟨true, 0, major, minor⟩

namespace SizeCDR

/-- mirrors ACE/ace/CDR_Size.inl:28-32 -/
def totalLength (z : SizeCDR) : Nat := z.size

/-- mirrors ACE/ace/CDR_Size.cpp:240-249 -/
def adjust (z : SizeCDR) (size align : Nat) : SizeCDR :=
  let offset := alignBinary z.size align - z.size
  { z with size := z.size + offset + size }

/-! ## Writers -/

/-- mirrors CDR_Size.cpp:161-166 -/
def write1 (z : SizeCDR) (_x : UInt8) : Bool × SizeCDR := (true, z.adjust 1 1)
/-- mirrors CDR_Size.cpp:168-173 -/
def write2 (z : SizeCDR) (_x : UInt16) : Bool × SizeCDR := (true, z.adjust shortSize shortSize)
/-- mirrors CDR_Size.cpp:175-180 -/
def write4 (z : SizeCDR) (_x : UInt32) : Bool × SizeCDR := (true, z.adjust longSize longSize)
/-- mirrors CDR_Size.cpp:182-187 -/
def write8 (z : SizeCDR) (_x : UInt64) : Bool × SizeCDR := (true, z.adjust longlongSize longlongSize)
/-- mirrors CDR_Size.cpp:189-195 -/
def write16 (z : SizeCDR) (_x : LongDouble) : Bool × SizeCDR := (true, z.adjust longdoubleSize longdoubleAlign)

/-- mirrors CDR_Size.inl:37-41 -/
def writeOctet (z : SizeCDR) (x : UInt8) := z.write1 x
/-- mirrors CDR_Size.inl:43-47 -/
def writeBoolean (z : SizeCDR) (x : Bool) := z.writeOctet (octetOfBool x)
/-- mirrors CDR_Size.inl:49-55 -/
def writeChar (z : SizeCDR) (x : UInt8) := z.write1 x
/-- mirrors CDR_Size.inl:57-61 -/
def writeShort (z : SizeCDR) (x : Int16) := z.write2 x.toUInt16
/-- mirrors CDR_Size.inl:63-67 -/
def writeUshort (z : SizeCDR) (x : UInt16) := z.write2 x
/-- mirrors CDR_Size.inl:69-73 -/
def writeLong (z : SizeCDR) (x : Int32) := z.write4 x.toUInt32
/-- mirrors CDR_Size.inl:75-79 -/
def writeUlong (z : SizeCDR) (x : UInt32) := z.write4 x
/-- mirrors CDR_Size.inl:81-85 -/
def writeLonglong (z : SizeCDR) (x : Int64) := z.write8 x.toUInt64
/-- mirrors CDR_Size.inl:87-92 -/
def writeUlonglong (z : SizeCDR) (x : UInt64) := z.write8 x
/-- mirrors CDR_Size.inl:94-99 -/
def writeFloat (z : SizeCDR) (x : UInt32) := z.write4 x
/-- mirrors CDR_Size.inl:101-106 -/
def writeDouble (z : SizeCDR) (x : UInt64) := z.write8 x
/-- mirrors CDR_Size.inl:108-113 -/
def writeLongdouble (z : SizeCDR) (x : LongDouble) := z.write16 x

/-- The writer of a type. -/
def writeScalar (z : SizeCDR) : (k : Kind) → k.Val → Bool × SizeCDR
  | .octet, x => z.writeOctet x
  | .boolean, x => z.writeBoolean x
  | .char, x => z.writeChar x
  | .short, x => z.writeShort x
  | .ushort, x => z.writeUshort x
  | .long, x => z.writeLong x
  | .ulong, x => z.writeUlong x
  | .longlong, x => z.writeLonglong x
  | .ulonglong, x => z.writeUlonglong x
  | .float, x => z.writeFloat x
  | .double, x => z.writeDouble x
  | .longdouble, x => z.writeLongdouble x

/-- mirrors CDR_Size.cpp:213-224 -/
def writeArray (z : SizeCDR) (size align : Nat) (length : UInt32) : Bool × SizeCDR :=
  if length = 0 then (true, z) else (true, z.adjust (size * length.toNat) align)

/-- mirrors CDR_Size.cpp:226-232 -/
def writeBooleanArray (z : SizeCDR) (length : UInt32) : Bool × SizeCDR :=
  (true, z.adjust length.toNat 1)

/-- mirrors CDR_Size.inl:172-180 -/
def writeOctetArray (z : SizeCDR) (length : UInt32) := z.writeArray octetSize octetAlign length
/-- mirrors CDR_Size.inl:139-149 -/
def writeCharArray (z : SizeCDR) (length : UInt32) := z.writeArray octetSize octetAlign length
/-- mirrors CDR_Size.inl:182-190 -/
def writeShortArray (z : SizeCDR) (length : UInt32) := z.writeArray shortSize shortAlign length
/-- mirrors CDR_Size.inl:192-200 -/
def writeUshortArray (z : SizeCDR) (length : UInt32) := z.writeArray shortSize shortAlign length
/-- mirrors CDR_Size.inl:202-210 -/
def writeLongArray (z : SizeCDR) (length : UInt32) := z.writeArray longSize longAlign length
/-- mirrors CDR_Size.inl:212-220 -/
def writeUlongArray (z : SizeCDR) (length : UInt32) := z.writeArray longSize longAlign length
/-- mirrors CDR_Size.inl:222-230 -/
def writeLonglongArray (z : SizeCDR) (length : UInt32) := z.writeArray longlongSize longlongAlign length
/-- mirrors CDR_Size.inl:232-240 -/
def writeUlonglongArray (z : SizeCDR) (length : UInt32) := z.writeArray longlongSize longlongAlign length
/-- mirrors CDR_Size.inl:242-250 -/
def writeFloatArray (z : SizeCDR) (length : UInt32) := z.writeArray longSize longAlign length
/-- mirrors CDR_Size.inl:253-261 -/
def writeDoubleArray (z : SizeCDR) (length : UInt32) := z.writeArray longlongSize longlongAlign length
/-- mirrors CDR_Size.inl:263-271 -/
def writeLongdoubleArray (z : SizeCDR) (length : UInt32) := z.writeArray longdoubleSize longdoubleAlign length

/-- The array writer of a type. -/
def writeTypedArray (z : SizeCDR) (n : UInt32) : Kind → Bool × SizeCDR
  | .octet => z.writeOctetArray n
  | .boolean => z.writeBooleanArray n
  | .char => z.writeCharArray n
  | .short => z.writeShortArray n
  | .ushort => z.writeUshortArray n
  | .long => z.writeLongArray n
  | .ulong => z.writeUlongArray n
  | .longlong => z.writeLonglongArray n
  | .ulonglong => z.writeUlonglongArray n
  | .float => z.writeFloatArray n
  | .double => z.writeDoubleArray n
  | .longdouble => z.writeLongdoubleArray n

/-- `return (this->good_bit_ = false)`. -/
def fail (z : SizeCDR) : Bool × SizeCDR := (false, { z with goodBit := false })

/-- mirrors CDR_Size.cpp:80-102 -/
def writeString (z : SizeCDR) (len : UInt32) : Bool × SizeCDR :=
  if len ≠ 0 then
    match z.writeUlong (len + 1) with
    | (true, z) => z.writeCharArray (len + 1)
    | (false, z) => z.fail
  else
    match z.writeUlong 1 with
    | (true, z) => z.writeChar 0
    | (false, z) => z.fail

/-- mirrors CDR_Size.inl:115-125 -/
def writeCString (z : SizeCDR) : Option CString → Bool × SizeCDR
  | some x => z.writeString (UInt32.ofNat x.val.length)
  | none => z.writeString 0

variable (P : Platform)

/-- What `write_wchar` does outside GIOP 1.2.
mirrors CDR_Size.cpp:65-77 -/
def writeWcharPlain (z : SizeCDR) (x : UInt32) : Bool × SizeCDR :=
  if P.wcharMaxbytes = P.wcharSize then z.write4 x
  else if P.wcharMaxbytes = 2 then z.write2 x.toUInt16
  else z.write1 x.toUInt8

/-- mirrors CDR_Size.cpp:12-78 -/
def writeWchar (z : SizeCDR) (x : UInt32) : Bool × SizeCDR :=
  if P.wcharMaxbytes = 0 then z.fail
  else if z.majorVersion = 1 ∧ z.minorVersion = 2 then
    let len := UInt8.ofNat P.wcharMaxbytes
    match z.write1 len with
    | (true, z) => z.writeOctetArray len.toUInt32
    | (false, z) => z.writeWcharPlain P x
  else if z.minorVersion = 0 then z.fail
  else z.writeWcharPlain P x

/-- mirrors CDR_Size.cpp:197-210 -/
def writeWcharArrayI (z : SizeCDR) (length : UInt32) : Bool × SizeCDR :=
  if length = 0 then (true, z)
  else
    let align := if P.wcharMaxbytes = 2 then shortAlign else octetAlign
    (true, z.adjust (P.wcharMaxbytes * length.toNat) align)

/-- mirrors CDR_Size.inl:151-170 -/
def writeWcharArray (z : SizeCDR) (length : UInt32) : Bool × SizeCDR :=
  if P.wcharMaxbytes = 0 then z.fail
  else if P.wcharMaxbytes = P.wcharSize then
    z.writeArray P.wcharSize (if P.wcharSize = 2 then shortAlign else longAlign) length
  else z.writeWcharArrayI P length

/-- `x` is only compared with the null pointer.
mirrors CDR_Size.cpp:113-159 -/
def writeWstring (z : SizeCDR) (len : UInt32) (x : Option (List UInt32)) : Bool × SizeCDR :=
  if P.wcharMaxbytes = 0 then z.fail
  else if z.majorVersion = 1 ∧ z.minorVersion = 2 then
    match x with
    | some _ =>
      match z.writeUlong (OutputCDR.truncateCast (P.wcharMaxbytes * len.toNat)) with
      | (true, z) => z.writeWcharArray P len
      | (false, z) => z.fail
    | none => z.writeUlong 0
  else
    match x with
    | some _ =>
      match z.writeUlong (len + 1) with
      | (true, z) => z.writeWcharArray P (len + 1)
      | (false, z) => z.fail
    | none =>
      match z.writeUlong 1 with
      | (true, z) => z.writeWchar P 0
      | (false, z) => z.fail

end SizeCDR

/-! ## Operations -/

/-- The operations both streams support. -/
inductive WriteOp where
  | scalar (k : Kind) (x : k.Val)
  | array (k : Kind) (x : Arr k.Val)
  | string (len : UInt32) (x : List UInt8)
  | cstring (x : Option CString)
  | wchar (x : UInt32)
  | wcharArray (x : List UInt32) (length : UInt32)
  | wstring (len : UInt32) (x : Option (List UInt32))

def OutputCDR.writeOp (P : Platform) (s : OutputCDR) : WriteOp → Bool × OutputCDR
  | .scalar k x => s.writeScalar P k x
  | .array k x => s.writeTypedArray P k x.val x.ulen
  | .string len x => s.writeString P len x
  | .cstring x => s.writeCString P x
  | .wchar x => s.writeWchar P x
  | .wcharArray x n => s.writeWcharArray P x n
  | .wstring len x => s.writeWstring P len x

def SizeCDR.writeOp (P : Platform) (z : SizeCDR) : WriteOp → Bool × SizeCDR
  | .scalar k x => z.writeScalar k x
  | .array k x => z.writeTypedArray x.ulen k
  | .string len _ => z.writeString len
  | .cstring x => z.writeCString x
  | .wchar x => z.writeWchar P x
  | .wcharArray _ n => z.writeWcharArray P n
  | .wstring len x => z.writeWstring P len x

/-- `write_wchar_array` writes with `write_wchar_array_i`, and at least one
character. -/
def wcharArrayReports (P : Platform) (length : UInt32) : Bool :=
  P.wcharMaxbytes ≠ 0 ∧ P.wcharMaxbytes ≠ P.wcharSize ∧ length ≠ 0

/-- The operations whose result in the output stream of this version is
`good_bit_`: boolean arrays, and wide characters that `write_wchar_array_i`
writes. -/
def WriteOp.reports (P : Platform) (major minor : UInt8) : WriteOp → Bool
  | .array .boolean _ => true
  | .wcharArray _ length => wcharArrayReports P length
  | .wstring len (some _) =>
    wcharArrayReports P (if major = 1 ∧ minor = 2 then len else len + 1)
  | _ => false

/-- The results of a sequence of operations. -/
def OutputCDR.results (P : Platform) : List WriteOp → OutputCDR → List Bool
  | [], _ => []
  | op :: ops, s => (s.writeOp P op).1 :: results P ops (s.writeOp P op).2

def SizeCDR.results (P : Platform) : List WriteOp → SizeCDR → List Bool
  | [], _ => []
  | op :: ops, z => (z.writeOp P op).1 :: results P ops (z.writeOp P op).2

def OutputCDR.writeOps (P : Platform) (ops : List WriteOp) (s : OutputCDR) : OutputCDR :=
  ops.foldl (fun s op => (s.writeOp P op).2) s

def SizeCDR.writeOps (P : Platform) (ops : List WriteOp) (z : SizeCDR) : SizeCDR :=
  ops.foldl (fun z op => (z.writeOp P op).2) z

end Atcd.Cdr
