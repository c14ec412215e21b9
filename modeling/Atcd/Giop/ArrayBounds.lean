import Atcd.Giop.RequestHeader
/-!
# Arrays read from a stream

The typed array readers on addresses. The length comes from the peer; the guard
multiplies it by the size in 32 bits, `adjust` adds the product to the read
pointer in the size of an address, and a stream whose `good_bit_` is already
cleared is advanced nevertheless.

Results:
* `sizedArray_false`, `sizedArray_moved`: what a reader does in each case.
* `sizedArray_bounded_iff`: when an array read stays inside the stream.
* `product_wraps`: on a 32-bit host 2^30 longs are read from an empty stream.
-/
namespace Atcd.Giop.RequestHeader

namespace Input

variable (m : Machine) (swap : Bool)

/-- What is copied to the array, `size * length` taken as a `size_t` by `memcpy` only. -/
def copied (size buf : Nat) (length : UInt32) (i : Input) : List UInt8 :=
  if swap = false ∨ size = 1 then i.bytes buf (size * length.toNat % m.space)
  else (List.range length.toNat).flatMap fun k => (i.bytes (buf + size * k) size).reverse

/-- `swap` is `do_byte_swap_`.
mirrors ACE/ace/CDR_Stream.cpp:1655-1699 -/
def readArray (size align : Nat) (length : UInt32) : Reader (List UInt8) := fun i =>
  if length = 0 then (some [], i)
  else match i.adjust m (size * length.toNat % m.space) align with
    | (none, i) => (none, i)
    | (some buf, i) =>
      if swap = true ∧ size ∉ [1, 2, 4, 8, 16] then (none, i.bad)
      else (if i.good = true then some (i.copied m swap size buf length) else none, i)

/-- The guard of the typed readers; `ULong` times a constant is a `ULong`. -/
def sizedArray (size align : Nat) (length : UInt32) : Reader (List UInt8) := fun i =>
  if (length * UInt32.ofNat size).toNat > i.length then (none, i.bad)
  else i.readArray m swap size align length

/-! `ACE/ace/CDR_Stream.inl:762-940` -/

def readShortArray := sizedArray m swap Cdr.shortSize Cdr.shortSize
def readUshortArray := sizedArray m swap Cdr.shortSize Cdr.shortSize
def readLongArray := sizedArray m swap Cdr.longSize Cdr.longSize
def readUlongArray := sizedArray m swap Cdr.longSize Cdr.longSize
def readLonglongArray := sizedArray m swap Cdr.longlongSize Cdr.longlongSize
def readUlonglongArray := sizedArray m swap Cdr.longlongSize Cdr.longlongSize
def readFloatArray := sizedArray m swap Cdr.longSize Cdr.longSize
def readDoubleArray := sizedArray m swap Cdr.longlongSize Cdr.longlongSize
def readLongdoubleArray := sizedArray m swap Cdr.longdoubleSize Cdr.longdoubleAlign

variable {m swap} {size align : Nat} {length : UInt32} {i : Input}

/-- The sizes of the elements with their alignments. -/
def arraySizes : List (Nat × Nat) := [(1, 1), (2, 2), (4, 4), (8, 8), (16, 8)]

/-- In front of no elements there is no padding. -/
def padding (align : Nat) (length : UInt32) (i : Input) : Nat :=
  if length = 0 then 0 else Core.gap i.rd align

/-- `true` for an array that fits and has been consumed behind its padding, `false`
with `good_bit_` cleared and the read pointer where it was. -/
structure Bounded (size align : Nat) (length : UInt32) (i : Input)
    (out : Option (List UInt8) × Input) : Prop where
  fits : out.1.isSome = true → i.padding align length + size * length.toNat ≤ i.length ∧
    out.2.rd = i.rd + i.padding align length + size * length.toNat
  refused : out.1 = none → out.2.good = false ∧ out.2.rd = i.rd

/-- Where `adjust` leaves the read pointer. -/
def arrayEnd (m : Machine) (size align : Nat) (length : UInt32) (i : Input) : Nat :=
  (i.rd + Core.gap i.rd align + size * length.toNat) % m.space

/-- No elements, more than the guard or `adjust` lets pass, or elements that fit in a
good stream; a bad one must come back to where it was. -/
def Guarded (m : Machine) (size align : Nat) (length : UInt32) (i : Input) : Prop :=
  length = 0 ∨ i.length < size * length.toNat % 2 ^ 32 ∨ i.wr < i.arrayEnd m size align length ∨
    if i.good = true then Core.gap i.rd align + size * length.toNat ≤ i.length
    else i.arrayEnd m size align length = i.rd

theorem guard_eq (hs : (size, align) ∈ arraySizes) :
    (length * UInt32.ofNat size).toNat = size * length.toNat % 2 ^ 32 := by
  rw [UInt32.toNat_mul, Nat.mul_comm]
  simp only [arraySizes, List.mem_cons, Prod.mk.injEq, List.not_mem_nil, or_false] at hs
  obtain ⟨rfl, -⟩ | ⟨rfl, -⟩ | ⟨rfl, -⟩ | ⟨rfl, -⟩ | ⟨rfl, -⟩ := hs <;> rfl

theorem isAlign_of_mem (hs : (size, align) ∈ arraySizes) : Cdr.IsAlign align := by
  simp only [arraySizes, List.mem_cons, Prod.mk.injEq, List.not_mem_nil, or_false] at hs
  unfold Cdr.IsAlign
  omega

theorem mem_sizes (hs : (size, align) ∈ arraySizes) : size ∈ [1, 2, 4, 8, 16] :=
  List.mem_map_of_mem (f := Prod.fst) hs

theorem adjust_array (hs : (size, align) ∈ arraySizes) :
    i.adjust m (size * length.toNat % m.space) align =
      if i.arrayEnd m size align length ≤ i.wr then
        (some ((i.rd + Core.gap i.rd align) % m.space), i.move (i.arrayEnd m size align length))
      else (none, i.bad) := by
  unfold adjust arrayEnd
  simp only [Cdr.alignBinary_eq (isAlign_of_mem hs), ← Nat.add_mod]

/-- The case in which the stream is not touched but for its `good_bit_`. -/
theorem sizedArray_false (hs : (size, align) ∈ arraySizes) (h0 : length ≠ 0)
    (h : i.length < size * length.toNat % 2 ^ 32 ∨ i.wr < i.arrayEnd m size align length) :
    i.sizedArray m swap size align length = (none, i.bad) := by
  unfold sizedArray readArray
  rw [guard_eq hs, adjust_array hs]
  by_cases hg : size * length.toNat % 2 ^ 32 > i.length
  · rw [if_pos hg]
  · have hend : ¬i.arrayEnd m size align length ≤ i.wr := not_le.mpr (h.resolve_left hg)
    rw [if_neg hg, if_neg h0, if_neg hend]

theorem sizedArray_moved (hs : (size, align) ∈ arraySizes) (h0 : length ≠ 0)
    (hg : size * length.toNat % 2 ^ 32 ≤ i.length) (hend : i.arrayEnd m size align length ≤ i.wr) :
    (i.sizedArray m swap size align length).1.isSome = i.good ∧
      (i.sizedArray m swap size align length).2 = i.move (i.arrayEnd m size align length) := by
  have hsize : ¬(swap = true ∧ size ∉ [1, 2, 4, 8, 16]) := fun hc => hc.2 (mem_sizes hs)
  unfold sizedArray readArray
  rw [guard_eq hs, adjust_array hs, if_neg (not_lt.mpr hg), if_neg h0, if_pos hend]
  simp only [if_neg hsize, and_true]
  cases hgood : i.good <;> simp [move, hgood]

/-- **Array reads.** A read of elements stays inside the stream exactly when it is
guarded. -/
theorem sizedArray_bounded_iff (m : Machine) (swap : Bool) (length : UInt32)
    (hs : (size, align) ∈ arraySizes) (hrd : i.rd ≤ i.wr) (hwr : i.wr < m.space) :
    Bounded size align length i (i.sizedArray m swap size align length) ↔
      Guarded m size align length i := by
  unfold Guarded
  by_cases h0 : length = 0
  · subst h0
    have hread : i.sizedArray m swap size align 0 = (some [], i) := by
      unfold sizedArray readArray
      rw [guard_eq hs, if_neg (by simp), if_pos rfl]
    rw [hread]
    exact iff_of_true ⟨fun _ => by simp [padding], fun h => by simp at h⟩ (.inl rfl)
  by_cases hf : i.length < size * length.toNat % 2 ^ 32 ∨ i.wr < i.arrayEnd m size align length
  · rw [sizedArray_false hs h0 hf]
    exact iff_of_true ⟨fun h => by simp at h, fun _ => ⟨rfl, rfl⟩⟩ (.inr (or_assoc.mp (.inl hf)))
  · obtain ⟨hg, hend⟩ := not_or.mp hf
    obtain ⟨hsome, hstream⟩ : (i.sizedArray m swap size align length).1.isSome = i.good ∧ _ :=
      sizedArray_moved hs h0 (not_lt.mp hg) (not_lt.mp hend)
    have hpad : i.padding align length = Core.gap i.rd align := if_neg h0
    simp only [h0, hg, hend, false_or]
    cases hgood : i.good with
    | true =>
      rw [hgood] at hsome
      rw [if_pos rfl]
      refine ⟨fun h => hpad ▸ (h.fits hsome).1, fun h => ⟨fun _ => ?_, fun hn => ?_⟩⟩
      · -- what fits does not wrap
        rw [hpad, hstream]
        have hlen : i.length = i.wr - i.rd := rfl
        have hlt : i.rd + Core.gap i.rd align + size * length.toNat < m.space := by omega
        exact ⟨h, Nat.mod_eq_of_lt hlt⟩
      · rw [hn] at hsome
        cases hsome
    | false =>
      rw [hgood] at hsome
      have hnone := Option.not_isSome_iff_eq_none.mp (Bool.eq_false_iff.mp hsome)
      refine ⟨fun h => ?_, fun h => ⟨fun hs' => ?_, fun _ => ?_⟩⟩
      · have hrd' := (h.refused hnone).2
        rwa [hstream] at hrd'
      · rw [hsome] at hs'
        cases hs'
      · rw [hstream]
        exact ⟨hgood, h⟩

/-- A 32-bit host. -/
def host32 : Machine := ⟨32, .little, false, by decide⟩

/-- A stream with nothing left. -/
def exhausted : Input := ⟨fun _ => 0, 4096, 4096, true, []⟩

theorem sizedArray_bounded_iff_long :
    Bounded 4 4 0x40000000 exhausted (exhausted.sizedArray host32 false 4 4 0x40000000) ↔
      Guarded host32 4 4 0x40000000 exhausted :=
  sizedArray_bounded_iff host32 false 0x40000000 (by decide) (by decide) (by decide)

/-- The product of 4 and 2^30 is 0, which fits, and the read of 2^30 longs succeeds. -/
theorem product_wraps : ¬ ∀ (m : Machine) (swap : Bool) (size align : Nat) (length : UInt32) (i : Input),
    (size, align) ∈ arraySizes → i.rd ≤ i.wr → i.wr < m.space → i.good = true →
      Bounded size align length i (i.sizedArray m swap size align length) := by
  intro hall
  have h := hall host32 false 4 4 0x40000000 exhausted (by decide) (by decide) (by decide) rfl
  have hread : (exhausted.sizedArray host32 false 4 4 0x40000000).1.isSome = true ∧ _ :=
    sizedArray_moved (by decide) (by decide) (by decide) (by decide)
  exact absurd (h.fits hread.1).1 (by decide)

end Input

end Atcd.Giop.RequestHeader
