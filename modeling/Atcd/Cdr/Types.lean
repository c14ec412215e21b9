import Atcd.Cdr.Base
/-!
# The CDR types

The primitive types of the CDR streams (`Kind`), the C++ values of each
(`Kind.Val`) and how such a value lies in memory (`toMem`, `ofMem`). Floating
point values are taken as the words that hold them: the streams move their
bytes and never look at the number.

Results:
* `ofMem_toMem`: a value is read back from its memory.
* `length_toMem`, `isSize`, `isAlign`: the bytes of a value are as many as its
  size says, and both constants are among the ones the streams handle.
-/
namespace Atcd.Cdr

open Atcd.Core

/-- The primitive types of CDR.
mirrors ACE/ace/CDR_Base.h:60-110,150-330 -/
inductive Kind where
  | octet | boolean | char
  | short | ushort | long | ulong | longlong | ulonglong
  | float | double | longdouble
  deriving DecidableEq, Repr

/-- A 16-byte long double, as it lies in memory. -/
structure LongDouble where
  bytes : List UInt8
  length_bytes : bytes.length = longdoubleSize
  deriving DecidableEq

/-- The long double that occupies these bytes. -/
def LongDouble.ofBytes (bs : List UInt8) : LongDouble :=
  if h : bs.length = longdoubleSize then ⟨bs, h⟩ else ⟨List.replicate longdoubleSize 0, by simp⟩

theorem LongDouble.ofBytes_bytes (x : LongDouble) : LongDouble.ofBytes x.bytes = x :=
  dif_pos x.length_bytes

/-- The octet that stands for a boolean.
mirrors ACE/ace/CDR_Stream.inl:183-191 -/
def octetOfBool (x : Bool) : UInt8 := if x then 1 else 0

/-- The values of a type. `float` and `double` are the words that hold them. -/
@[reducible] def Kind.Val : Kind → Type
  | .octet => UInt8
  | .boolean => Bool
  | .char => UInt8
  | .short => Int16
  | .ushort => UInt16
  | .long => Int32
  | .ulong => UInt32
  | .longlong => Int64
  | .ulonglong => UInt64
  | .float => UInt32
  | .double => UInt64
  | .longdouble => LongDouble

namespace Kind

def size : Kind → Nat
  | .octet | .boolean | .char => octetSize
  | .short | .ushort => shortSize
  | .long | .ulong | .float => longSize
  | .longlong | .ulonglong | .double => longlongSize
  | .longdouble => longdoubleSize

def align : Kind → Nat
  | .octet | .boolean | .char => octetAlign
  | .short | .ushort => shortAlign
  | .long | .ulong | .float => longAlign
  | .longlong | .ulonglong | .double => longlongAlign
  | .longdouble => longdoubleAlign

/-- The bytes of a value in the host's memory. -/
def toMem (e : Endian) : (k : Kind) → k.Val → List UInt8
  | .octet, x => [x]
  | .boolean, x => [octetOfBool x]
  | .char, x => [x]
  | .short, x => store e shortSize (Int16.toUInt16 x).toNat
  | .ushort, x => store e shortSize (UInt16.toNat x)
  | .long, x => store e longSize (Int32.toUInt32 x).toNat
  | .ulong, x => store e longSize (UInt32.toNat x)
  | .longlong, x => store e longlongSize (Int64.toUInt64 x).toNat
  | .ulonglong, x => store e longlongSize (UInt64.toNat x)
  | .float, x => store e longSize (UInt32.toNat x)
  | .double, x => store e longlongSize (UInt64.toNat x)
  | .longdouble, x => LongDouble.bytes x

/-- The value the host finds in these bytes. -/
def ofMem (e : Endian) : (k : Kind) → List UInt8 → k.Val
  | .octet, bs => UInt8.ofNat (load e bs)
  | .boolean, bs => decide (UInt8.ofNat (load e bs) ≠ 0)
  | .char, bs => UInt8.ofNat (load e bs)
  | .short, bs => (UInt16.ofNat (load e bs)).toInt16
  | .ushort, bs => UInt16.ofNat (load e bs)
  | .long, bs => (UInt32.ofNat (load e bs)).toInt32
  | .ulong, bs => UInt32.ofNat (load e bs)
  | .longlong, bs => (UInt64.ofNat (load e bs)).toInt64
  | .ulonglong, bs => UInt64.ofNat (load e bs)
  | .float, bs => UInt32.ofNat (load e bs)
  | .double, bs => UInt64.ofNat (load e bs)
  | .longdouble, bs => LongDouble.ofBytes bs

theorem isAlign (k : Kind) : IsAlign k.align := by
  cases k <;> simp [IsAlign, align, octetAlign, shortAlign, longAlign, longlongAlign, longdoubleAlign]

theorem isSize (k : Kind) : IsSize k.size := by
  cases k <;> simp [IsSize, size, octetSize, shortSize, longSize, longlongSize, longdoubleSize]

theorem size_pos (k : Kind) : 0 < k.size := by
  rcases k.isSize with h | h | h | h | h <;> omega

theorem length_toMem (e : Endian) (k : Kind) (x : k.Val) : (k.toMem e x).length = k.size := by
  cases k with
  | octet => rfl
  | boolean => rfl
  | char => rfl
  | short => exact length_store e _ _
  | ushort => exact length_store e _ _
  | long => exact length_store e _ _
  | ulong => exact length_store e _ _
  | longlong => exact length_store e _ _
  | ulonglong => exact length_store e _ _
  | float => exact length_store e _ _
  | double => exact length_store e _ _
  | longdouble => exact LongDouble.length_bytes x

theorem load_octet (e : Endian) (b : UInt8) : UInt8.ofNat (load e [b]) = b := by
  cases e <;> simp [load, leNat]

/-- **Round trip of one value through memory.** -/
theorem ofMem_toMem (e : Endian) (k : Kind) (x : k.Val) : k.ofMem e (k.toMem e x) = x := by
  cases k with
  | octet => exact load_octet e x
  | boolean =>
    show decide (UInt8.ofNat (load e [octetOfBool x]) ≠ 0) = x
    rw [load_octet]
    cases x <;> rfl
  | char => exact load_octet e x
  | short =>
    simp only [ofMem, toMem]
    rw [load_store e (UInt16.toNat_lt _), UInt16.ofNat_toNat]
    exact Int16.toInt16_toUInt16 x
  | ushort =>
    simp only [ofMem, toMem]
    rw [load_store e (UInt16.toNat_lt _)]
    exact UInt16.ofNat_toNat
  | long =>
    simp only [ofMem, toMem]
    rw [load_store e (UInt32.toNat_lt _), UInt32.ofNat_toNat]
    exact Int32.toInt32_toUInt32 x
  | ulong =>
    simp only [ofMem, toMem]
    rw [load_store e (UInt32.toNat_lt _)]
    exact UInt32.ofNat_toNat
  | longlong =>
    simp only [ofMem, toMem]
    rw [load_store e (UInt64.toNat_lt _), UInt64.ofNat_toNat]
    exact Int64.toInt64_toUInt64 x
  | ulonglong =>
    simp only [ofMem, toMem]
    rw [load_store e (UInt64.toNat_lt _)]
    exact UInt64.ofNat_toNat
  | float =>
    simp only [ofMem, toMem]
    rw [load_store e (UInt32.toNat_lt _)]
    exact UInt32.ofNat_toNat
  | double =>
    simp only [ofMem, toMem]
    rw [load_store e (UInt64.toNat_lt _)]
    exact UInt64.ofNat_toNat
  | longdouble => exact LongDouble.ofBytes_bytes x

end Kind

/-- An array argument: its length is passed as a `ULong`. -/
structure Arr (α : Type) where
  val : List α
  length_lt : val.length < 2 ^ 32

/-- A C string: no NUL among its characters. -/
structure CString where
  val : List UInt8
  nonul : (0 : UInt8) ∉ val

def Arr.ulen {α : Type} (x : Arr α) : UInt32 := UInt32.ofNat x.val.length

theorem Arr.toNat_ulen {α : Type} (x : Arr α) : x.ulen.toNat = x.val.length :=
  UInt32.toNat_ofNat_of_lt' x.length_lt

end Atcd.Cdr
