import Atcd.Rmcast.LinkLayout
/-!
# Element reads of a packet

How many numbers a `NAK` and how many members an `NRTM` has is computed from the size in its
header, which is whatever the sender wrote, and the loops of their constructors do not look at
the stream. Every read is listed here with the place that it takes in the packet: `none` for one
that the stream refuses, so that there is nothing in the packet for the element.

Results:
* `bounded_iff`: the element reads of a packet are as many as it has bytes at most, and all of
  them inside of it, exactly if every `Data`, `NAK` and `NRTM` fits into it by its size.
* `short_nak`: a `NAK` of size 0 has more than `2 ^ 60` elements.
-/
namespace Atcd.Rmcast

open Atcd.Core Atcd.Cdr Atcd.Cdr.OutputCDR Atcd.Cdr.InputCDR List Option Kind

/-! ## Reads and their places -/

/-- The place that `is >> x` takes: its position and its length. -/
def place (k : Kind) (is : InputCDR) : Option (Nat × Nat) :=
  (is.adjust k.size k.align).1.map fun pos => (pos, k.size)

section Reads

variable (P : Platform)

/-- The stream behind reads of these types. -/
def after : List Kind → InputCDR → InputCDR
  | [], is => is
  | k :: ks, is => after ks (is.readScalar P k).2

def places : List Kind → InputCDR → List (Option (Nat × Nat))
  | [], _ => []
  | k :: ks, is => place k is :: places ks (is.readScalar P k).2

/-- The reads of the constructor of `NAK`.
mirrors ACE/protocols/ace/RMCast/Protocol.h:779-788 -/
def nakKinds (size : UInt16) : List Kind :=
  .ulong :: .ushort :: List.replicate (snCount size) .ulonglong

/-- The reads of the constructor of `NRTM`.
mirrors Protocol.h:970-976 -/
def nrtmKinds (size : UInt16) : List Kind :=
  (List.replicate (blockCount size) [.ulonglong, .ulong, .ushort]).flatten

/-- The bytes of a `Data`, which are taken together.
mirrors Protocol.h:563-567 -/
def dataPlaces (size : UInt16) (is : InputCDR) : List (Option (Nat × Nat)) :=
  if size = 0 then []
  else
    match (is.readCharArray P size.toUInt32).1, (is.adjust size.toNat 1).1 with
    | some _, some pos => (List.range size.toNat).map fun i => some (pos + i, 1)
    | _, _ => [none]

/-- The reads of the constructors of `Data`, `NAK` and `NRTM`. -/
def elementPlaces (id size : UInt16) (is : InputCDR) : List (Option (Nat × Nat)) :=
  if id = Profile.dataId then dataPlaces P size is
  else if id = Profile.nakId then places P (nakKinds size) is
  else if id = Profile.nrtmId then places P (nrtmKinds size) is
  else []

/-- A header in a packet, and the stream behind it. -/
structure Header where
  id : UInt16
  size : UInt16
  body : InputCDR

/-- The headers that the loop of `recv` gets to, with as much fuel as in `recvLoop`.
mirrors ACE/protocols/ace/RMCast/Link.cpp:273-313 -/
def headersFrom (mem : Memory) : Nat → InputCDR → List Header
  | 0, _ => []
  | fuel + 1, is =>
    match take? P .ushort is with
    | (none, _) => []
    | (some id, is) =>
      match take? P .ushort is with
      | (none, _) => []
      | (some size, is) =>
        ⟨id, size, is⟩ ::
          match readProfile P mem id size is with
          | none => []
          | some (_, is) => headersFrom mem fuel is

/-- The stream behind the size of the message. -/
def packetBody (mem : Memory) (data : List UInt8) : InputCDR :=
  (take P .ulong (mem.value .ulong) (istream P data 1)).2

def headers (mem : Memory) (data : List UInt8) : List Header :=
  headersFrom P mem ((packetBody P mem data).length + 1) (packetBody P mem data)

def elementReads (mem : Memory) (data : List UInt8) : List (Option (Nat × Nat)) :=
  (headers P mem data).flatMap fun h => elementPlaces P h.id h.size h.body

end Reads

def Inside (n : Nat) (r : Option (Nat × Nat)) : Prop :=
  ∃ pos size, r = some (pos, size) ∧ pos + size ≤ n

/-- Parsing is bounded by the size of the packet. -/
structure Bounded (P : Platform) (mem : Memory) (data : List UInt8) : Prop where
  count : (elementReads P mem data).length ≤ data.length
  inside : ∀ r ∈ elementReads P mem data, Inside data.length r

/-- The position behind the numbers of a `NAK` that starts at `pos`, or behind the members of an
`NRTM`. -/
def nakEnd (size : UInt16) (pos : Nat) : Nat :=
  let pos := pos + gap pos 4 + 6
  if size.toNat < 14 then pos else pos + gap pos 8 + 8 * ((size.toNat - 6) / 8)

def nrtmEnd (size : UInt16) (pos : Nat) : Nat :=
  if size.toNat < 14 then pos else pos + gap pos 8 + 16 * (size.toNat / 14) - 2

/-- The profile lies in the packet by its size, which for a `NAK` is at least that of its
address. -/
def Header.Fits (n : Nat) (h : Header) : Prop :=
  if h.id = Profile.dataId then h.size = 0 ∨ h.body.start.rdPtr + h.size.toNat ≤ n
  else if h.id = Profile.nakId then 6 ≤ h.size.toNat ∧ nakEnd h.size h.body.start.rdPtr ≤ n
  else if h.id = Profile.nrtmId then h.size.toNat < 14 ∨ nrtmEnd h.size h.body.start.rdPtr ≤ n
  else True

/-! ## Streams over a packet -/

section Streams

variable {P : Platform} {n : Nat} {is : InputCDR}

/-- A stream over `n` aligned bytes that no read has failed in. -/
structure Reader (n : Nat) (is : InputCDR) : Prop where
  base : is.start.base % 8 = 0
  wrPtr : is.start.wrPtr = n
  rdPtr : is.start.rdPtr ≤ n
  good : is.goodBit = true

def seek (is : InputCDR) (pos : Nat) : InputCDR :=
  { is with start := { is.start with rdPtr := pos } }

theorem Reader.seek (h : Reader n is) {pos : Nat} (hpos : pos ≤ n) : Reader n (seek is pos) :=
  ⟨h.base, h.wrPtr, hpos, h.good⟩

theorem Reader.length (h : Reader n is) : is.length = n - is.start.rdPtr := by
  unfold InputCDR.length MessageBlock.length
  rw [h.wrPtr]

theorem adjust_eq (h : Reader n is) (size : Nat) {align : Nat} (ha : IsAlign align)
    (h8 : align ∣ 8) : is.adjust size align =
      if is.start.rdPtr + gap is.start.rdPtr align + size ≤ n then
        (some (is.start.rdPtr + gap is.start.rdPtr align),
          seek is (is.start.rdPtr + gap is.start.rdPtr align + size)) else (none, is.bad) := by
  have hbase := h.base
  have hgap : gap (is.start.base + is.start.rdPtr) align = gap is.start.rdPtr align :=
    gap_of_mod h8 (by omega)
  unfold InputCDR.adjust
  simp only [alignBinary_eq ha, hgap, h.wrPtr]
  by_cases hle : is.start.rdPtr + gap is.start.rdPtr align + size ≤ n
  · rw [if_pos hle, if_pos (by omega)]
    congr 2
    · omega
    · congr 2
      · omega
      · exact h.wrPtr.symm
  · rw [if_neg hle, if_neg (by omega)]

theorem Word.align {k : Kind} (hk : Word k) : IsAlign k.align ∧ k.align ∣ 8 ∧ 2 ≤ k.size := by
  rcases hk with rfl | rfl | rfl
  · exact ⟨isAlign _, by decide, by decide⟩
  · exact ⟨isAlign _, by decide, by decide⟩
  · exact ⟨isAlign _, by decide, by decide⟩

theorem readScalar_next (P : Platform) (is : InputCDR) {k : Kind} (hk : Word k) :
    (is.readScalar P k).2 = (is.adjust k.size k.align).2 ∧
      ((is.readScalar P k).1.isSome ↔ (is.adjust k.size k.align).1.isSome) := by
  have hprim : ∀ size align, (is.readPrim P size align).2 = (is.adjust size align).2 ∧
      ((is.readPrim P size align).1.isSome ↔ (is.adjust size align).1.isSome) := by
    intro size align
    unfold readPrim
    cases hadjust : is.adjust size align with
    | mk buf is' =>
      cases buf with
      | none =>
        have hbad : is' = is.bad := by
          unfold InputCDR.adjust at hadjust
          dsimp only at hadjust
          split at hadjust
          · cases hadjust
          · exact (Prod.mk.inj hadjust).2.symm
        rw [hbad]
        exact ⟨rfl, Iff.rfl⟩
      | some buf =>
        dsimp only
        split <;> simp
  rcases hk with rfl | rfl | rfl
  · have h := hprim ushort.size ushort.align
    exact ⟨h.1, by rw [← h.2]; simp [readScalar, asKind, read2, isSome_map]; rfl⟩
  · have h := hprim ulong.size ulong.align
    exact ⟨h.1, by rw [← h.2]; simp [readScalar, asKind, read4, isSome_map]; rfl⟩
  · have h := hprim ulonglong.size ulonglong.align
    exact ⟨h.1, by rw [← h.2]; simp [readScalar, asKind, read8, isSome_map]; rfl⟩

/-- A stream that has failed goes on failing. -/
theorem adjust_bad (h : is.goodBit = false) (size align : Nat) :
    (is.adjust size align).2.goodBit = false := by
  unfold InputCDR.adjust
  dsimp only
  split
  · exact h
  · rfl

variable {ks : List Kind}

theorem after_bad (h : is.goodBit = false) (hks : ∀ k ∈ ks, Word k) :
    (after P ks is).goodBit = false := by
  induction ks generalizing is with
  | nil => exact h
  | cons k ks ih =>
    obtain ⟨hk, hks⟩ := forall_mem_cons.mp hks
    refine ih ?_ hks
    rw [(readScalar_next P is hk).1]
    exact adjust_bad h _ _

/-- The position behind values of these types. -/
def kindsEnd : List Kind → Nat → Nat
  | [], pos => pos
  | k :: ks, pos => kindsEnd ks (pos + gap pos k.align + k.size)

theorem kindsEnd_append (ks ks' : List Kind) (pos : Nat) :
    kindsEnd (ks ++ ks') pos = kindsEnd ks' (kindsEnd ks pos) := by
  induction ks generalizing pos with
  | nil => rfl
  | cons k ks ih => exact ih _

theorem le_kindsEnd (hks : ∀ k ∈ ks, Word k) (pos : Nat) :
    pos + ks.length ≤ kindsEnd ks pos := by
  induction ks generalizing pos with
  | nil => exact Nat.le_refl _
  | cons k ks ih =>
    obtain ⟨hk, hks⟩ := forall_mem_cons.mp hks
    have hsize := (Word.align hk).2.2
    have hle := ih hks (pos + gap pos k.align + k.size)
    rw [kindsEnd, length_cons]
    omega

theorem length_places (ks : List Kind) (is : InputCDR) : (places P ks is).length = ks.length := by
  induction ks generalizing is with
  | nil => rfl
  | cons k ks ih => exact congrArg Nat.succ (ih _)

/-- **A sequence of reads** takes its places in the packet, or the stream fails at one of them. -/
theorem places_cases (h : Reader n is) (hks : ∀ k ∈ ks, Word k) :
    (kindsEnd ks is.start.rdPtr ≤ n ∧ (∀ r ∈ places P ks is, Inside n r) ∧
      after P ks is = seek is (kindsEnd ks is.start.rdPtr)) ∨
    (n < kindsEnd ks is.start.rdPtr ∧ none ∈ places P ks is ∧ (after P ks is).goodBit = false) := by
  induction ks generalizing is with
  | nil => exact .inl ⟨h.rdPtr, fun r hr => absurd hr not_mem_nil, rfl⟩
  | cons k ks ih =>
    obtain ⟨hk, hks⟩ := forall_mem_cons.mp hks
    obtain ⟨halign, h8, -⟩ := Word.align hk
    have hadjust := adjust_eq h k.size halign h8
    have hnext := (readScalar_next P is hk).1
    rw [kindsEnd, places, after, hnext, place, hadjust]
    generalize hpos : is.start.rdPtr + gap is.start.rdPtr k.align = pos
    by_cases hle : pos + k.size ≤ n
    · rw [if_pos hle]
      rcases ih (h.seek hle) hks with ⟨hend, hinside, hafter⟩ | ⟨hend, hnone, hbad⟩
      · refine .inl ⟨hend, fun r hr => ?_, hafter⟩
        rcases mem_cons.mp hr with rfl | hr
        · exact ⟨pos, k.size, rfl, hle⟩
        · exact hinside r hr
      · exact .inr ⟨hend, mem_cons_of_mem _ hnone, hbad⟩
    · rw [if_neg hle]
      have hend := le_kindsEnd hks (pos + k.size)
      exact .inr ⟨by omega, mem_cons_self, after_bad rfl hks⟩

/-! ## The constructors -/

theorem word_nak (size : UInt16) : ∀ k ∈ nakKinds size, Word k := by
  intro k hk
  rcases mem_cons.mp hk with rfl | hk
  · exact .inr (.inl rfl)
  · rcases mem_cons.mp hk with rfl | hk
    · exact .inl rfl
    · rw [eq_of_mem_replicate hk]
      exact .inr (.inr rfl)

theorem word_nrtm (size : UInt16) : ∀ k ∈ nrtmKinds size, Word k := by
  intro k hk
  obtain ⟨member, hmember, hk⟩ := mem_flatten.mp hk
  rw [eq_of_mem_replicate hmember] at hk
  simp at hk
  rcases hk with rfl | rfl | rfl
  · exact .inr (.inr rfl)
  · exact .inr (.inl rfl)
  · exact .inl rfl

theorem kindsEnd_sns (c : Nat) {pos : Nat} (h : pos % 8 = 0) :
    kindsEnd (replicate c .ulonglong) pos = pos + 8 * c := by
  induction c generalizing pos with
  | zero => rfl
  | succ c ih =>
    have hulonglong : ulonglong.size = 8 ∧ ulonglong.align = 8 := ⟨rfl, rfl⟩
    rw [replicate_succ, kindsEnd, hulonglong.1, hulonglong.2, gap_of_aligned pos 8 h,
      ih (by omega)]
    omega

theorem kindsEnd_nak (size : UInt16) (pos : Nat) : kindsEnd (nakKinds size) pos =
      if snCount size = 0 then pos + gap pos 4 + 6
      else pos + gap pos 4 + 6 + gap (pos + gap pos 4 + 6) 8 + 8 * snCount size := by
  have h4 := add_gap_mod pos 4 (by decide)
  have hushort : ushort.size = 2 ∧ ushort.align = 2 := ⟨rfl, rfl⟩
  have hulong : ulong.size = 4 ∧ ulong.align = 4 := ⟨rfl, rfl⟩
  have hulonglong : ulonglong.size = 8 ∧ ulonglong.align = 8 := ⟨rfl, rfl⟩
  rw [nakKinds, kindsEnd, kindsEnd, hulong.1, hulong.2, hushort.1, hushort.2,
    gap_of_aligned (pos + gap pos 4 + 4) 2 (by omega),
    show pos + gap pos 4 + 4 + 0 + 2 = pos + gap pos 4 + 6 by omega]
  cases hc : snCount size with
  | zero => rfl
  | succ c =>
    have h8 := add_gap_mod (pos + gap pos 4 + 6) 8 (by decide)
    rw [replicate_succ, kindsEnd, hulonglong.1, hulonglong.2, kindsEnd_sns c (by omega),
      if_neg (Nat.succ_ne_zero c)]
    omega

theorem kindsEnd_member (pos : Nat) :
    kindsEnd [.ulonglong, .ulong, .ushort] pos = pos + gap pos 8 + 14 := by
  have h8 := add_gap_mod pos 8 (by decide)
  have hushort : ushort.size = 2 ∧ ushort.align = 2 := ⟨rfl, rfl⟩
  have hulong : ulong.size = 4 ∧ ulong.align = 4 := ⟨rfl, rfl⟩
  have hulonglong : ulonglong.size = 8 ∧ ulonglong.align = 8 := ⟨rfl, rfl⟩
  simp only [kindsEnd]
  rw [hulong.1, hulong.2, hushort.1, hushort.2, hulonglong.1, hulonglong.2,
    gap_of_aligned (pos + gap pos 8 + 8) 4 (by omega),
    gap_of_aligned (pos + gap pos 8 + 8 + 0 + 4) 2 (by omega)]

theorem kindsEnd_members (c : Nat) {pos : Nat} (h : pos % 8 = 6) :
    kindsEnd (replicate c [.ulonglong, .ulong, .ushort]).flatten pos = pos + 16 * c := by
  induction c generalizing pos with
  | zero => rfl
  | succ c ih =>
    have hgap : gap pos 8 = 2 := by
      unfold gap
      omega
    rw [replicate_succ, flatten_cons, kindsEnd_append, kindsEnd_member, hgap, ih (by omega)]
    omega

theorem kindsEnd_nrtm (size : UInt16) (pos : Nat) : kindsEnd (nrtmKinds size) pos =
      if blockCount size = 0 then pos else pos + gap pos 8 + 16 * blockCount size - 2 := by
  rw [nrtmKinds]
  cases hc : blockCount size with
  | zero => rfl
  | succ c =>
    have h8 := add_gap_mod pos 8 (by decide)
    rw [replicate_succ, flatten_cons, kindsEnd_append, kindsEnd_member,
      kindsEnd_members c (by omega), if_neg (Nat.succ_ne_zero c)]
    omega

open Profile

/-- A `NAK` that is shorter than its address has more elements than any packet. -/
theorem short_nak {size : UInt16} (h : size.toNat < 6) : 2 ^ 60 < snCount size := by
  rw [snCount_eq]
  omega

theorem length_nakPlaces (P : Platform) (size : UInt16) (is : InputCDR) :
    (elementPlaces P Profile.nakId size is).length = snCount size + 2 := by
  have hdata : nakId ≠ dataId := by decide
  unfold elementPlaces
  rw [if_neg hdata, if_pos rfl, length_places, nakKinds, length_cons, length_cons,
    length_replicate]

theorem nak_fits_iff (hn : n < 2 ^ 16) (size : UInt16) (pos : Nat) :
    kindsEnd (nakKinds size) pos ≤ n ↔ 6 ≤ size.toNat ∧ nakEnd size pos ≤ n := by
  have hlen := le_kindsEnd (word_nak size) pos
  have hcount : (nakKinds size).length = snCount size + 2 := by
    simp [nakKinds]
  by_cases hshort : size.toNat < 6
  · have hlong := short_nak hshort
    exact iff_of_false (by omega) (by omega)
  · have hsize : snCount size = (size.toNat - 6) / 8 := by
      have hlt := size.toNat_lt
      rw [snCount_eq]
      omega
    rw [kindsEnd_nak, hsize]
    unfold nakEnd
    by_cases hnone : size.toNat < 14
    · rw [if_pos (by omega), if_pos hnone]
      omega
    · rw [if_neg (by omega), if_neg hnone]
      omega

theorem nrtm_fits_iff {size : UInt16} {pos : Nat} (hpos : pos ≤ n) :
    kindsEnd (nrtmKinds size) pos ≤ n ↔ size.toNat < 14 ∨ nrtmEnd size pos ≤ n := by
  rw [kindsEnd_nrtm, blockCount_eq]
  unfold nrtmEnd
  by_cases hnone : size.toNat < 14
  · rw [if_pos (by omega)]
    omega
  · rw [if_neg (by omega), if_neg hnone]
    omega

/-- The bytes of a `Data` are in the packet, or they are refused together. -/
theorem dataPlaces_cases (h : Reader n is) {size : UInt16} (hsize : size ≠ 0) :
    (is.start.rdPtr + size.toNat ≤ n ∧ (∀ r ∈ dataPlaces P size is, Inside n r) ∧
      (dataPlaces P size is).length = size.toNat ∧
      (is.readCharArray P size.toUInt32).2 = seek is (is.start.rdPtr + size.toNat)) ∨
    (n < is.start.rdPtr + size.toNat ∧ none ∈ dataPlaces P size is) := by
  have hlen : size.toUInt32.toNat = size.toNat := UInt16.toNat_toUInt32 size
  have hne : size.toUInt32 ≠ 0 := fun hzero => by
    have hnat := congrArg UInt32.toNat hzero
    exact hsize (UInt16.toNat_inj.mp hnat)
  have hadjust := adjust_eq h size.toNat (.inl rfl : IsAlign 1) (by decide)
  rw [gap_one, Nat.add_zero] at hadjust
  have hread : is.readCharArray P size.toUInt32 =
      if is.start.rdPtr + size.toNat ≤ n then
        (some ((seek is (is.start.rdPtr + size.toNat)).peek is.start.rdPtr size.toNat),
          seek is (is.start.rdPtr + size.toNat))
      else (none, is.bad) := by
    have hoctet : octetSize = 1 ∧ octetAlign = 1 := ⟨rfl, rfl⟩
    have hrd := h.rdPtr
    unfold readCharArray
    rw [h.length, hlen]
    by_cases hle : is.start.rdPtr + size.toNat ≤ n
    · rw [if_pos hle] at hadjust
      rw [if_pos hle, if_neg (by omega), readArray, if_neg hne, hoctet.1, hoctet.2, Nat.one_mul,
        hlen, hadjust]
      have hgood : (seek is (is.start.rdPtr + size.toNat)).goodBit = true := h.good
      simp only [or_true, if_true, hgood]
    · rw [if_neg hle, if_pos (by omega)]
  unfold dataPlaces
  rw [if_neg hsize, hread, hadjust]
  by_cases hle : is.start.rdPtr + size.toNat ≤ n
  · rw [if_pos hle, if_pos hle]
    refine .inl ⟨hle, fun r hr => ?_, by simp, rfl⟩
    obtain ⟨i, hi, rfl⟩ := mem_map.mp hr
    have hlt := mem_range.mp hi
    exact ⟨_, 1, rfl, by omega⟩
  · rw [if_neg hle, if_neg hle]
    exact .inr ⟨by omega, mem_singleton.mpr rfl⟩

/-! ## Profiles -/

theorem readSns_after (c : Nat) (sn : UInt64) (is : InputCDR) :
    (readSns P c sn is).2 = after P (replicate c .ulonglong) is := by
  induction c generalizing sn is with
  | zero => rfl
  | succ c ih => exact ih _ _

theorem readMembers_after (c : Nat) (sn : UInt64) (addr : Address) (map : Table Address UInt64)
    (is : InputCDR) : (readMembers P c sn addr map is).2 =
      after P (replicate c [.ulonglong, .ulong, .ushort]).flatten is := by
  induction c generalizing sn addr map is with
  | zero => rfl
  | succ c ih => exact ih _ _ _ _

/-- The reads of a constructor that takes its values one by one; the bytes of a `Data` are not
among them. -/
def constructorKinds (id size : UInt16) : List Kind :=
  if id = Profile.snId then [.ulonglong]
  else if id = Profile.nakId then nakKinds size
  else if id = Profile.nrtmId then nrtmKinds size
  else if id = Profile.partId then [.ulong, .ulong, .ulonglong]
  else []

theorem word_constructor (id size : UInt16) : ∀ k ∈ constructorKinds id size, Word k := by
  unfold constructorKinds
  split
  · simp [Word]
  split
  · exact word_nak size
  split
  · exact word_nrtm size
  split
  · simp [Word]
  · simp

theorem readProfile_after {mem : Memory} {id size : UInt16} {p : Profile} {is' : InputCDR}
    (hid : id ≠ Profile.dataId) (h : readProfile P mem id size is = some (p, is')) :
    is' = after P (constructorKinds id size) is := by
  unfold readProfile at h
  unfold constructorKinds
  rw [if_neg hid] at h
  by_cases hsn : id = snId
  · rw [if_pos hsn] at h ⊢
    cases h
    rfl
  rw [if_neg hsn] at h ⊢
  by_cases hnak : id = nakId
  · rw [if_pos hnak] at h ⊢
    obtain ⟨-, rfl⟩ := Prod.mk.inj (some.inj h)
    exact readSns_after _ _ _
  rw [if_neg hnak] at h ⊢
  by_cases hnrtm : id = nrtmId
  · rw [if_pos hnrtm] at h ⊢
    obtain ⟨-, rfl⟩ := Prod.mk.inj (some.inj h)
    exact readMembers_after _ _ _ _ _
  rw [if_neg hnrtm] at h ⊢
  by_cases hno : id = noDataId
  · rw [if_pos hno] at h
    cases h
    rw [if_neg (by rw [hno]; decide)]
    rfl
  rw [if_neg hno] at h
  by_cases hpart : id = partId
  · rw [if_pos hpart] at h ⊢
    cases h
    rfl
  · rw [if_neg hpart] at h
    cases h

variable {mem : Memory}

/-- The loop goes on behind a profile with this many elements. -/
structure Goes (n : Nat) (is is' : InputCDR) (count : Nat) : Prop where
  reader : Reader n is'
  taken : is.start.rdPtr + count ≤ is'.start.rdPtr

theorem goes_of_places (h : Reader n is) (hks : ∀ k ∈ ks, Word k) {count : Nat}
    (hcount : count ≤ ks.length) :
    Goes n is (after P ks is) count ∨ (after P ks is).goodBit = false := by
  rcases places_cases (P := P) h hks with ⟨hend, -, hafter⟩ | ⟨-, -, hbad⟩
  · have hle := le_kindsEnd hks is.start.rdPtr
    rw [hafter]
    refine .inl ⟨h.seek hend, ?_⟩
    show _ ≤ kindsEnd ks is.start.rdPtr
    omega
  · exact .inr hbad

theorem elements_cases (h : Reader n is) (hks : ∀ k ∈ ks, Word k) {fits : Prop}
    (hfits : kindsEnd ks is.start.rdPtr ≤ n ↔ fits) :
    (fits ∧ (∀ r ∈ places P ks is, Inside n r) ∧ is.start.rdPtr + (places P ks is).length ≤ n) ∨
    (¬fits ∧ none ∈ places P ks is) := by
  have hle := le_kindsEnd hks is.start.rdPtr
  rw [length_places]
  rcases places_cases (P := P) h hks with ⟨hend, hinside, -⟩ | ⟨hend, hnone, -⟩
  · exact .inl ⟨hfits.mp hend, hinside, by omega⟩
  · exact .inr ⟨fun hc => absurd (hfits.mpr hc) (by omega), hnone⟩

/-- **One profile**: its elements are inside if it fits, and then the loop goes on behind them. -/
theorem profile_cases (mem : Memory) (h : Reader n is) (hn : n < 2 ^ 16) (id size : UInt16) :
    (Header.Fits n ⟨id, size, is⟩ ∧ (∀ r ∈ elementPlaces P id size is, Inside n r) ∧
      is.start.rdPtr + (elementPlaces P id size is).length ≤ n ∧
      ∀ p is', readProfile P mem id size is = some (p, is') →
        Goes n is is' (elementPlaces P id size is).length ∨ is'.goodBit = false) ∨
    (¬Header.Fits n ⟨id, size, is⟩ ∧ none ∈ elementPlaces P id size is) := by
  have hrd := h.rdPtr
  unfold Header.Fits elementPlaces
  dsimp only
  by_cases hdata : id = dataId
  · rw [if_pos hdata, if_pos hdata]
    have hread : readProfile P mem id size is = some (readData P mem size is) := by
      rw [hdata]
      rfl
    rw [hread]
    by_cases hzero : size = 0
    · subst hzero
      refine .inl ⟨.inl rfl, fun r hr => absurd hr not_mem_nil, hrd, fun p is' hp => ?_⟩
      cases hp
      exact .inl ⟨h, Nat.le_refl _⟩
    · rcases dataPlaces_cases (P := P) h hzero with ⟨hle, hinside, hlen, hnext⟩ | ⟨hlt, hnone⟩
      · refine .inl ⟨.inr hle, hinside, by omega, fun p is' hp => ?_⟩
        have hstream : is' = (readData P mem size is).2 :=
          (congrArg Prod.snd (some.inj hp)).symm
        rw [hstream, readData, if_pos hzero]
        rw [hnext, hlen]
        exact .inl ⟨h.seek hle, Nat.le_refl _⟩
      · exact .inr ⟨not_or.mpr ⟨hzero, by omega⟩, hnone⟩
  · rw [if_neg hdata, if_neg hdata]
    have hnext := fun p is' (hp : readProfile P mem id size is = some (p, is')) =>
      readProfile_after hdata hp
    by_cases hnak : id = nakId
    · rw [if_pos hnak, if_pos hnak]
      have hkinds : constructorKinds id size = nakKinds size := by
        rw [hnak]
        rfl
      rcases elements_cases (P := P) h (word_nak size) (nak_fits_iff hn size is.start.rdPtr) with
        ⟨hfits, hinside, hlen⟩ | ⟨hfits, hnone⟩
      · refine .inl ⟨hfits, hinside, hlen, fun p is' hp => ?_⟩
        rw [hnext p is' hp, hkinds, length_places]
        exact goes_of_places h (word_nak size) (Nat.le_refl _)
      · exact .inr ⟨hfits, hnone⟩
    · rw [if_neg hnak, if_neg hnak]
      by_cases hnrtm : id = nrtmId
      · rw [if_pos hnrtm, if_pos hnrtm]
        have hkinds : constructorKinds id size = nrtmKinds size := by
          rw [hnrtm]
          rfl
        rcases elements_cases (P := P) h (word_nrtm size) (nrtm_fits_iff hrd) with
          ⟨hfits, hinside, hlen⟩ | ⟨hfits, hnone⟩
        · refine .inl ⟨hfits, hinside, hlen, fun p is' hp => ?_⟩
          rw [hnext p is' hp, hkinds, length_places]
          exact goes_of_places h (word_nrtm size) (Nat.le_refl _)
        · exact .inr ⟨hfits, hnone⟩
      · rw [if_neg hnrtm, if_neg hnrtm]
        refine .inl ⟨trivial, fun r hr => absurd hr not_mem_nil, hrd, fun p is' hp => ?_⟩
        rw [hnext p is' hp]
        exact goes_of_places h (word_constructor id size) (Nat.zero_le _)

/-! ## Packets -/

theorem headersFrom_bad (h : is.goodBit = false) (fuel : Nat) : headersFrom P mem fuel is = [] := by
  cases fuel with
  | zero => rfl
  | succ fuel =>
    have hbad : (is.readScalar P .ushort).2.goodBit = false := by
      rw [(readScalar_next P is (.inl rfl)).1]
      exact adjust_bad h _ _
    have htake : take? P .ushort is = (none, (is.readScalar P .ushort).2) := by
      unfold take?
      dsimp only
      rw [if_neg (by rw [hbad]; exact Bool.false_ne_true)]
    unfold headersFrom
    rw [htake]

theorem headersFrom_cons {fuel : Nat} {id size : UInt16} {is₁ is₂ : InputCDR}
    (hid : take? P .ushort is = (some id, is₁)) (hsize : take? P .ushort is₁ = (some size, is₂)) :
    ∃ hs, headersFrom P mem (fuel + 1) is = ⟨id, size, is₂⟩ :: hs := by
  unfold headersFrom
  rw [hid]
  dsimp only
  rw [hsize]
  exact ⟨_, rfl⟩

theorem take?_reader (h : Reader n is) {x : UInt16} {is' : InputCDR}
    (htake : take? P .ushort is = (some x, is')) :
    Reader n is' ∧ is.start.rdPtr ≤ is'.start.rdPtr := by
  obtain ⟨halign, h8, -⟩ := Word.align (.inl rfl : Word .ushort)
  have hadjust := adjust_eq h ushort.size halign h8
  have hnext := (readScalar_next P is (.inl rfl : Word .ushort)).1
  unfold take? at htake
  dsimp only at htake
  obtain ⟨hsome, rfl⟩ := Prod.mk.inj htake
  rw [hnext] at hsome ⊢
  rw [hadjust] at hsome ⊢
  split at hsome
  · rename_i hle
    rw [if_pos hle]
    refine ⟨h.seek hle, ?_⟩
    show _ ≤ is.start.rdPtr + gap is.start.rdPtr ushort.align + ushort.size
    omega
  · rename_i hlong
    cases hsome

def readsOf (P : Platform) (hs : List Header) : List (Option (Nat × Nat)) :=
  hs.flatMap fun h => elementPlaces P h.id h.size h.body

/-- **The loop**: all elements are inside if all profiles fit, and then there are no more of them
than bytes. -/
theorem headersFrom_spec (mem : Memory) (h : Reader n is) (hn : n < 2 ^ 16) (fuel : Nat) :
    ((∀ r ∈ readsOf P (headersFrom P mem fuel is), Inside n r) ↔
      ∀ h ∈ headersFrom P mem fuel is, h.Fits n) ∧
    ((∀ r ∈ readsOf P (headersFrom P mem fuel is), Inside n r) →
      is.start.rdPtr + (readsOf P (headersFrom P mem fuel is)).length ≤ n) := by
  have hnil : ∀ is : InputCDR, is.start.rdPtr ≤ n → ((∀ r ∈ readsOf P [], Inside n r) ↔
      ∀ h ∈ ([] : List Header), h.Fits n) ∧
      ((∀ r ∈ readsOf P [], Inside n r) → is.start.rdPtr + (readsOf P []).length ≤ n) := by
    intro is hle
    exact ⟨by simp [readsOf], fun _ => hle⟩
  induction fuel generalizing is with
  | zero => exact hnil is h.rdPtr
  | succ fuel ih =>
    unfold headersFrom
    split
    · exact hnil is h.rdPtr
    · rename_i id is₁ hid
      obtain ⟨h₁, hle₁⟩ := take?_reader h hid
      split
      · exact hnil is h.rdPtr
      · rename_i size is₂ hsize
        obtain ⟨h₂, hle₂⟩ := take?_reader h₁ hsize
        have hcons : ∀ hs, readsOf P (⟨id, size, is₂⟩ :: hs) =
            elementPlaces P id size is₂ ++ readsOf P hs := fun _ => rfl
        rw [hcons, forall_mem_append, forall_mem_cons, length_append]
        rcases profile_cases (P := P) mem h₂ hn id size with
          ⟨hfits, hinside, hlen, hgoes⟩ | ⟨hfits, hnone⟩
        · rw [and_iff_right hinside, and_iff_right hfits]
          split
          · refine ⟨(hnil is h.rdPtr).1, fun _ => ?_⟩
            have hzero : (readsOf P []).length = 0 := rfl
            omega
          · rename_i p is₃ hp
            rcases hgoes p is₃ hp with hgo | hbad
            · obtain ⟨hiff, hcount⟩ := ih hgo.reader
              have htaken := hgo.taken
              exact ⟨hiff, fun hall => by have hle := hcount hall; omega⟩
            · rw [headersFrom_bad hbad]
              refine ⟨(hnil is h.rdPtr).1, fun _ => ?_⟩
              have hzero : (readsOf P []).length = 0 := rfl
              omega
        · have hnot : ¬∀ r ∈ elementPlaces P id size is₂, Inside n r := fun hall => by
            obtain ⟨_, _, hsome, -⟩ := hall _ hnone
            cases hsome
          refine ⟨iff_of_false (fun hc => hnot hc.1) fun hc => hfits hc.1, fun hc => ?_⟩
          exact absurd hc.1 hnot

end Streams

theorem packetBody_reader (P : Platform) (mem : Memory) (data : List UInt8) :
    Reader data.length (packetBody P mem data) ∨ (packetBody P mem data).goodBit = false := by
  have hstart : Reader data.length (istream P data 1) := by
    refine ⟨?_, rfl, Nat.zero_le _, rfl⟩
    have hbase := P.base_aligned 1
    unfold maxAlignment at hbase
    show P.base 1 % 8 = 0
    omega
  have hword : ∀ k ∈ [ulong], Word k := by simp [Word]
  rcases places_cases (P := P) hstart hword with ⟨hend, -, hafter⟩ | ⟨-, -, hbad⟩
  · left
    have hbody : packetBody P mem data = after P [.ulong] (istream P data 1) := rfl
    rw [hbody, hafter]
    exact hstart.seek hend
  · exact .inr hbad

/-- **Parsing is bounded** by the size of the packet exactly if every `Data`, `NAK` and `NRTM` that
is reached lies in the packet by its size. -/
theorem bounded_iff (P : Platform) (mem : Memory) (maxPacketSize : UInt16) {data : List UInt8}
    (h : data.length ≤ maxPacketSize.toNat) :
    Bounded P mem data ↔ ∀ h ∈ headers P mem data, h.Fits data.length := by
  have hn : data.length < 2 ^ 16 := Nat.lt_of_le_of_lt h maxPacketSize.toNat_lt
  unfold headers
  rcases packetBody_reader P mem data with hreader | hbad
  · obtain ⟨hiff, hcount⟩ := headersFrom_spec (P := P) mem hreader hn
      ((packetBody P mem data).length + 1)
    constructor
    · exact fun hb => hiff.mp hb.inside
    · intro hfits
      have hinside := hiff.mpr hfits
      exact ⟨Nat.le_trans (Nat.le_add_left _ _) (hcount hinside), hinside⟩
  · have hnone : elementReads P mem data = [] := by
      unfold elementReads headers
      rw [headersFrom_bad hbad]
      rfl
    rw [headersFrom_bad hbad]
    refine iff_of_true ⟨?_, ?_⟩ fun h hh => absurd hh not_mem_nil
    · rw [hnone]
      exact Nat.zero_le _
    · rw [hnone]
      exact fun r hr => absurd hr not_mem_nil

/-- A packet that says that it is as long as it is, with a `NAK` of size 0. -/
def zeroNak : List UInt8 := [8, 0, 0, 0, 5, 0, 0, 0]

theorem headers_zeroNak (mem : Memory) :
    ∃ body hs, headers .plain mem zeroNak = ⟨Profile.nakId, 0, body⟩ :: hs := by
  have hid : take? .plain .ushort (seek (istream .plain zeroNak 1) 4) =
      (some Profile.nakId, seek (istream .plain zeroNak 1) 6) := Prod.ext (by decide_cbv) rfl
  have hsize : take? .plain .ushort (seek (istream .plain zeroNak 1) 6) =
      (some (0 : UInt16), seek (istream .plain zeroNak 1) 8) := Prod.ext (by decide_cbv) rfl
  exact ⟨_, headersFrom_cons hid hsize⟩

/-- The constructor of `NAK` reads more than `2 ^ 60` numbers out of a packet of 8 bytes. -/
theorem zero_nak_unbounded (mem : Memory) :
    zeroNak.length = 8 ∧ 2 ^ 60 < (elementReads .plain mem zeroNak).length := by
  obtain ⟨body, hs, hheaders⟩ := headers_zeroNak mem
  have hlong : 2 ^ 60 < snCount 0 := short_nak (by decide)
  have hplaces := length_nakPlaces .plain 0 body
  unfold elementReads
  rw [hheaders, flatMap_cons, length_append, hplaces]
  exact ⟨rfl, by omega⟩

/-- Memory of zeros. -/
def zeroed : Memory where
  value k := k.ofMem .little []
  bytes _ := 0

theorem not_bounded_zeroNak : ¬Bounded .plain zeroed zeroNak := by
  intro hbounded
  obtain ⟨hlen, hlong⟩ := zero_nak_unbounded zeroed
  have hcount := hbounded.count
  omega

/-- A number, a `NAK` of one number and three bytes of data. -/
def samplePacket : List UInt8 :=
  [31, 0, 0, 0, 5, 0, 16, 0, 1, 0, 0, 0, 2, 0, 0, 0, 9, 0, 0, 0, 0, 0, 0, 0, 3, 0, 3, 0, 7, 8, 9]

theorem bounded_iff_samplePacket : Bounded .plain zeroed samplePacket ↔
    ∀ h ∈ headers .plain zeroed samplePacket, h.Fits samplePacket.length :=
  bounded_iff .plain zeroed 1470 (by decide)

end Atcd.Rmcast
