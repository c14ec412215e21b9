import Atcd.Core.Bytes
import Atcd.Core.Layout
/-!
# CDR constants, byte swapping and message blocks

The part of `ACE_CDR` and `ACE_Message_Block` both stream classes rest on.

* The sizes and alignments of the CDR types, `ACE_align_binary`, and the growth
  policy `first_size` / `next_size`.
* `swap_2`, `swap_4`, `swap_8`, `swap_16` in their portable form (shifts and
  masks on the host's word; `swap_8` for a 64-bit `long`).
* A message block: a buffer at an address, with its read and write offset.
* `Platform`: what the build and the caller fix (host byte order,
  `ACE_ENABLE_SWAP_ON_WRITE`, `sizeof (WChar)`, `wchar_maxbytes_`) and the
  buffers the allocator hands out. Their addresses are multiples of
  `MAX_ALIGNMENT`, their first contents are arbitrary, and no allocation fails.

Sizes and addresses are natural numbers: a `size_t` that wraps would need a
stream larger than the address space.

Results:
* `swap2_eq` … `swap16_eq`: a swap reverses the bytes of the element.
* `alignBinary_eq`: `ACE_align_binary` adds the gap to the next multiple.
* `le_firstSize`, `le_nextSize`: the growth policy gives at least the size asked.
-/
namespace Atcd.Cdr

open Atcd.Core List

def octetSize : Nat := 1
def shortSize : Nat := 2
def longSize : Nat := 4
def longlongSize : Nat := 8
def longdoubleSize : Nat := 16
def octetAlign : Nat := 1
def shortAlign : Nat := 2
def longAlign : Nat := 4
def longlongAlign : Nat := 8
def longdoubleAlign : Nat := 8
def maxAlignment : Nat := 8
def defaultBufsize : Nat := 512
def expGrowthMax : Nat := 65536
def linearGrowthChunk : Nat := 65536

/-- `(p + (a - 1)) & ~(a - 1)`: the masked bits are taken off.
mirrors ACE/ace/OS_Memory.h:279-294 -/
def alignBinary (p a : Nat) : Nat :=
  let q := p + (a - 1)
  q - (q &&& (a - 1))

/-- The alignments the CDR streams use. -/
def IsAlign (a : Nat) : Prop := a = 1 ∨ a = 2 ∨ a = 4 ∨ a = 8

theorem IsAlign.pos {a : Nat} (h : IsAlign a) : 0 < a := by
  rcases h with rfl | rfl | rfl | rfl <;> decide

theorem IsAlign.dvd {a : Nat} (h : IsAlign a) : a ∣ maxAlignment := by
  rcases h with rfl | rfl | rfl | rfl <;> decide

theorem alignBinary_eq {a : Nat} (h : IsAlign a) (p : Nat) : alignBinary p a = p + gap p a := by
  obtain ⟨k, rfl⟩ : ∃ k, a = 2 ^ k := by
    rcases h with rfl | rfl | rfl | rfl
    · exact ⟨0, rfl⟩
    · exact ⟨1, rfl⟩
    · exact ⟨2, rfl⟩
    · exact ⟨3, rfl⟩
  unfold alignBinary
  simp only [Nat.and_two_pow_sub_one_eq_mod]
  rcases h with h | h | h | h <;> rw [h] <;> unfold gap <;> omega

/-! ## Growth policy -/

/-- The loop of `first_size`.
mirrors ACE/ace/CDR_Base.inl:207-228 -/
def firstSizeLoop (minsize : Nat) (newsize : { n : Nat // 0 < n }) : Nat :=
  if newsize.1 < minsize then
    if newsize.1 < expGrowthMax then
      firstSizeLoop minsize ⟨newsize.1 * 2, by have := newsize.2; omega⟩
    else
      firstSizeLoop minsize ⟨newsize.1 + linearGrowthChunk, by have := newsize.2; omega⟩
  else newsize.1
termination_by minsize - newsize.1
decreasing_by
  · have := newsize.2; omega
  · have : 0 < linearGrowthChunk := by decide
    omega

/-- mirrors CDR_Base.inl:201-229 -/
def firstSize (minsize : Nat) : Nat :=
  if minsize = 0 then defaultBufsize else firstSizeLoop minsize ⟨defaultBufsize, by decide⟩

/-- mirrors CDR_Base.inl:231-249 -/
def nextSize (minsize : Nat) : Nat :=
  let newsize := firstSize minsize
  if newsize = minsize then
    if newsize < expGrowthMax then newsize * 2 else newsize + linearGrowthChunk
  else newsize

theorem le_firstSizeLoop (minsize : Nat) (newsize : { n : Nat // 0 < n }) :
    minsize ≤ firstSizeLoop minsize newsize := by
  induction newsize using firstSizeLoop.induct minsize with
  | case1 newsize hlt hexp ih => rw [firstSizeLoop, if_pos hlt, if_pos hexp]; exact ih
  | case2 newsize hlt hexp ih => rw [firstSizeLoop, if_pos hlt, if_neg hexp]; exact ih
  | case3 newsize hlt => rw [firstSizeLoop, if_neg hlt]; omega

theorem le_firstSize (minsize : Nat) : minsize ≤ firstSize minsize := by
  unfold firstSize
  split
  · omega
  · exact le_firstSizeLoop _ _

theorem le_nextSize (minsize : Nat) : minsize ≤ nextSize minsize := by
  have := le_firstSize minsize
  unfold nextSize
  simp only
  split
  · split <;> omega
  · exact this

/-! ## Byte swapping -/

/-- mirrors CDR_Base.inl:89-92 -/
def swapUShort (usrc : UInt16) : UInt16 := (usrc <<< 8) ||| (usrc >>> 8)

/-- mirrors CDR_Base.inl:127-130 -/
def swapULong (x : UInt32) : UInt32 :=
  (x <<< 24) ||| ((x &&& 0xff00) <<< 8) ||| ((x &&& 0xff0000) >>> 8) ||| (x >>> 24)

/-- mirrors CDR_Base.inl:172-182 -/
def swapULongLong (x : UInt64) : UInt64 :=
  let x84 := (x &&& 0x000000ff000000ff) <<< 24
  let x73 := (x &&& 0x0000ff000000ff00) <<< 8
  let x62 := (x &&& 0x00ff000000ff0000) >>> 8
  let x51 := (x &&& 0xff000000ff000000) >>> 24
  let x := x84 ||| x73 ||| x62 ||| x51
  (x <<< 32) ||| (x >>> 32)

/-- mirrors CDR_Base.inl:60-94 -/
def swap2 (e : Endian) (orig : List UInt8) : List UInt8 :=
  store e 2 (swapUShort (UInt16.ofNat (load e orig))).toNat

/-- mirrors CDR_Base.inl:96-131 -/
def swap4 (e : Endian) (orig : List UInt8) : List UInt8 :=
  store e 4 (swapULong (UInt32.ofNat (load e orig))).toNat

/-- mirrors CDR_Base.inl:133-193 -/
def swap8 (e : Endian) (orig : List UInt8) : List UInt8 :=
  store e 8 (swapULongLong (UInt64.ofNat (load e orig))).toNat

/-- mirrors CDR_Base.inl:195-200 -/
def swap16 (e : Endian) (orig : List UInt8) : List UInt8 :=
  swap8 e (orig.drop 8) ++ swap8 e (orig.take 8)

theorem swapUShort_bit (x : UInt16) : ∀ i < 16, (swapUShort x).toNat.testBit i =
    x.toNat.testBit (8 * (1 - i / 8) + i % 8) := by
  suffices ∀ i < 16, (swapUShort x).toBitVec.getLsbD i =
      x.toBitVec.getLsbD (8 * (1 - i / 8) + i % 8) from this
  intro i hi
  unfold swapUShort
  interval_cases i <;> simp

theorem swapULong_bit (x : UInt32) : ∀ i < 32, (swapULong x).toNat.testBit i =
    x.toNat.testBit (8 * (3 - i / 8) + i % 8) := by
  suffices ∀ i < 32, (swapULong x).toBitVec.getLsbD i =
      x.toBitVec.getLsbD (8 * (3 - i / 8) + i % 8) from this
  intro i hi
  unfold swapULong
  interval_cases i <;> simp

theorem swapULongLong_bit (x : UInt64) : ∀ i < 64, (swapULongLong x).toNat.testBit i =
    x.toNat.testBit (8 * (7 - i / 8) + i % 8) := by
  suffices ∀ i < 64, (swapULongLong x).toBitVec.getLsbD i =
      x.toBitVec.getLsbD (8 * (7 - i / 8) + i % 8) from this
  intro i hi
  unfold swapULongLong
  interval_cases i <;> simp

variable {bs : List UInt8}

theorem swap2_eq (e : Endian) (h : bs.length = 2) : swap2 e bs = bs.reverse := by
  have hlt := load_lt e bs
  rw [h] at hlt
  rw [swap2, store_reverse e (swapUShort_bit _), UInt16.toNat_ofNat_of_lt' hlt, store_load e h]

theorem swap4_eq (e : Endian) (h : bs.length = 4) : swap4 e bs = bs.reverse := by
  have hlt := load_lt e bs
  rw [h] at hlt
  rw [swap4, store_reverse e (swapULong_bit _), UInt32.toNat_ofNat_of_lt' hlt, store_load e h]

theorem swap8_eq (e : Endian) (h : bs.length = 8) : swap8 e bs = bs.reverse := by
  have hlt := load_lt e bs
  rw [h] at hlt
  rw [swap8, store_reverse e (swapULongLong_bit _), UInt64.toNat_ofNat_of_lt' hlt, store_load e h]

theorem swap16_eq (e : Endian) (h : bs.length = 16) : swap16 e bs = bs.reverse := by
  rw [swap16, swap8_eq e (by simp [h]), swap8_eq e (by simp [h]), ← reverse_append,
    take_append_drop]

/-- The swap of one element of the given size; an element of one byte stays.
mirrors ACE/ace/CDR_Stream.cpp:646-660 -/
def swapElem (e : Endian) (size : Nat) (orig : List UInt8) : List UInt8 :=
  if size = 2 then swap2 e orig
  else if size = 4 then swap4 e orig
  else if size = 8 then swap8 e orig
  else if size = 16 then swap16 e orig
  else orig

def IsSize (size : Nat) : Prop := size = 1 ∨ size = 2 ∨ size = 4 ∨ size = 8 ∨ size = 16

theorem swapElem_eq (e : Endian) {size : Nat} (hs : IsSize size) (h : bs.length = size) :
    swapElem e size bs = bs.reverse := by
  rcases hs with rfl | rfl | rfl | rfl | rfl
  · obtain ⟨b, rfl⟩ := length_eq_one_iff.mp h
    rfl
  · exact swap2_eq e h
  · exact swap4_eq e h
  · exact swap8_eq e h
  · exact swap16_eq e h

/-! ## Platform and message blocks -/

/-- The build, the caller's settings and the buffers the allocator hands out. -/
structure Platform where
  endian : Endian                 -- ACE_LITTLE_ENDIAN
  swapOnWrite : Bool              -- ACE_ENABLE_SWAP_ON_WRITE
  wcharSize : Nat                 -- sizeof (ACE_CDR::WChar)
  wcharMaxbytes : Nat             -- ACE_OutputCDR::wchar_maxbytes_
  base : Nat → Nat                -- address of the k-th buffer
  fill : Nat → Nat → UInt8        -- bytes of the k-th buffer when it is handed out
  wcharSize_eq : wcharSize = 2 ∨ wcharSize = 4
  base_aligned : ∀ k, base k % maxAlignment = 0

/-- `ACE_CDR_BYTE_ORDER`: 1 on a little endian host.
mirrors ACE/ace/CDR_Base.h:44-50 -/
def Platform.byteOrder (P : Platform) : Nat :=
  match P.endian with
  | .little => 1
  | .big => 0

/-- A little endian host with 4-byte wide characters and zeroed buffers. -/
def Platform.plain : Platform where
  endian := .little
  swapOnWrite := false
  wcharSize := 4
  wcharMaxbytes := 4
  base := fun _ => 0
  fill := fun _ _ => 0
  wcharSize_eq := .inr rfl
  base_aligned := fun _ => rfl

/-- A message block with a data block of its own: `base ()`, the buffer and the
offsets `rd_ptr_`, `wr_ptr_` from the base.
mirrors ACE/ace/Message_Block.h, Message_Block.inl:120-130,280-385 -/
structure MessageBlock where
  base : Nat
  buf : List UInt8
  rdPtr : Nat
  wrPtr : Nat
  deriving DecidableEq, Repr

namespace MessageBlock

def size (mb : MessageBlock) : Nat := mb.buf.length

def length (mb : MessageBlock) : Nat := mb.wrPtr - mb.rdPtr

def contents (mb : MessageBlock) : List UInt8 := (mb.buf.drop mb.rdPtr).take mb.length

/-- `mark () - wr_ptr ()`. -/
def space (mb : MessageBlock) : Nat := mb.size - mb.wrPtr

def poke (mb : MessageBlock) (off : Nat) (bs : List UInt8) : MessageBlock :=
  { mb with buf := mb.buf.take off ++ bs ++ mb.buf.drop (off + bs.length) }

/-- mirrors ACE/ace/Message_Block.cpp:73-95 -/
def copy (mb : MessageBlock) (bs : List UInt8) : MessageBlock :=
  if mb.space < bs.length then mb
  else { mb.poke mb.wrPtr bs with wrPtr := mb.wrPtr + bs.length }

/-- mirrors ACE/ace/CDR_Base.cpp:485-497 -/
def mbAlign (mb : MessageBlock) : MessageBlock :=
  let start := alignBinary mb.base maxAlignment - mb.base
  { mb with rdPtr := start, wrPtr := start }

/-- The pointers are ordered and inside the buffer. -/
structure Wf (mb : MessageBlock) : Prop where
  rd_le : mb.rdPtr ≤ mb.wrPtr
  wr_le : mb.wrPtr ≤ mb.size

end MessageBlock

def Platform.alloc (P : Platform) (k n : Nat) : MessageBlock :=
  ⟨P.base k, (List.range n).map (P.fill k), 0, 0⟩

namespace MessageBlock

@[simp] theorem size_alloc (P : Platform) (k n : Nat) : (P.alloc k n).size = n := by
  simp [Platform.alloc, size]

theorem wf_alloc (P : Platform) (k n : Nat) : (P.alloc k n).Wf := ⟨Nat.le_refl 0, Nat.zero_le _⟩

/-- On an aligned buffer `mb_align` leaves both pointers at the base. -/
theorem mbAlign_alloc (P : Platform) (k n : Nat) : (P.alloc k n).mbAlign = P.alloc k n := by
  have ha : IsAlign maxAlignment := .inr (.inr (.inr rfl))
  have hb : (P.alloc k n).base % maxAlignment = 0 := P.base_aligned k
  unfold mbAlign
  rw [alignBinary_eq ha, gap_of_aligned _ _ hb, Nat.add_zero, Nat.sub_self]
  rfl

theorem length_contents {mb : MessageBlock} (h : mb.Wf) : mb.contents.length = mb.length := by
  have h1 := h.rd_le
  have h2 := h.wr_le
  unfold size at h2
  rw [contents, length_take, length_drop]
  unfold length
  omega

theorem size_poke {mb : MessageBlock} {off : Nat} {bs : List UInt8} (h : off + bs.length ≤ mb.size) :
    (mb.poke off bs).size = mb.size := by
  unfold size at h ⊢
  simp only [poke, length_append, length_take, length_drop]
  omega

/-- Bytes written behind the write pointer, up to the new write pointer, come
after the old contents; what lies between is whatever the buffer held. -/
theorem contents_append {mb : MessageBlock} (h : mb.Wf) {off : Nat} {bs : List UInt8}
    (hoff : mb.wrPtr ≤ off) (hsize : off + bs.length ≤ mb.size) :
    ∃ fill, fill.length = off - mb.wrPtr ∧
      ({ mb.poke off bs with wrPtr := off + bs.length } : MessageBlock).contents =
        mb.contents ++ (fill ++ bs) := by
  have h1 := h.rd_le
  unfold size at hsize
  refine ⟨(mb.buf.drop mb.wrPtr).take (off - mb.wrPtr), ?_, ?_⟩
  · rw [length_take, length_drop]; omega
  · -- the buffer up to `off` is skipped part, old contents and filler
    have hsplit : mb.buf.take off = mb.buf.take mb.rdPtr ++ ((mb.buf.drop mb.rdPtr).take mb.length ++
        (mb.buf.drop mb.wrPtr).take (off - mb.wrPtr)) := by
      have e1 : mb.rdPtr + mb.length = mb.wrPtr := by unfold length; omega
      have e2 : mb.wrPtr + (off - mb.wrPtr) = off := by omega
      rw [← append_assoc, ← take_add, e1, ← take_add, e2]
    have hrd : (mb.buf.take mb.rdPtr).length = mb.rdPtr := by rw [length_take]; omega
    have hlen : ((mb.buf.drop mb.rdPtr).take mb.length ++
        (mb.buf.drop mb.wrPtr).take (off - mb.wrPtr) ++ bs).length = off + bs.length - mb.rdPtr := by
      simp only [length_append, length_take, length_drop]
      unfold length
      omega
    simp only [contents, poke, length] at hlen ⊢
    rw [hsplit]
    simp only [length, append_assoc] at hlen ⊢
    rw [drop_left' hrd, ← append_assoc, ← append_assoc, take_left']
    · simp only [append_assoc]
    · simpa only [append_assoc] using hlen

theorem wf_append {mb : MessageBlock} (h : mb.Wf) {off : Nat} {bs : List UInt8}
    (hoff : mb.wrPtr ≤ off) (hsize : off + bs.length ≤ mb.size) :
    ({ mb.poke off bs with wrPtr := off + bs.length } : MessageBlock).Wf := by
  have h1 := h.rd_le
  refine ⟨?_, ?_⟩
  · show mb.rdPtr ≤ off + bs.length
    omega
  · show off + bs.length ≤ (mb.poke off bs).size
    rw [size_poke hsize]
    exact hsize

end MessageBlock

end Atcd.Cdr
