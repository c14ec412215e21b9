import Atcd.Cdr.Emit
import Atcd.Cdr.Input
/-!
# Reading back what was written

A sequence of writes to a fresh `ACE_OutputCDR`, and the reads of the same
types from the `ACE_InputCDR` built on it. The writer counts alignment from the
start of the stream over a chain of blocks, the reader aligns addresses in one
buffer; both are layouts of the same segments, because the reader's buffer
starts at a multiple of `MAX_ALIGNMENT` (`At`).

The byte order of the stream is the host's, or the build swaps on write:
otherwise the reader swaps what the writer has not.

Results:
* `adjust_at`: the reader finds a segment's data behind the padding.
* `readScalar_reads`, `readTypedArray_reads`, `readCString_reads`: each reader
  returns the value its writer was given.
* `ofOutput_at`: the copy into one buffer holds the stream's bytes.
* `roundTrip`: reading a written sequence succeeds at every step, returns the
  values and ends at the end of the stream, if no string has 2^32 - 1
  characters or more.
* `roundTrip_long_string`: a string of 2^32 - 1 characters is read as empty.
-/
namespace Atcd.Cdr

open Atcd.Core List Option MessageBlock UInt32

namespace MessageBlock

theorem contents_skip {mb : MessageBlock} (n : Nat) :
    ({ mb with rdPtr := mb.rdPtr + n } : MessageBlock).contents = mb.contents.drop n := by
  have e : mb.wrPtr - (mb.rdPtr + n) = mb.length - n := by unfold length; omega
  simp only [contents, length] at e ⊢
  rw [← drop_drop, drop_take, e]

theorem wf_skip {mb : MessageBlock} (h : mb.Wf) {n : Nat} (hn : n ≤ mb.contents.length) :
    ({ mb with rdPtr := mb.rdPtr + n } : MessageBlock).Wf := by
  have h1 := h.rd_le
  rw [length_contents h, length] at hn
  exact ⟨show mb.rdPtr + n ≤ mb.wrPtr by omega, h.wr_le⟩

theorem copy_spec {mb : MessageBlock} (h : mb.Wf) (bs : List UInt8) (hroom : bs.length ≤ mb.space) :
    (mb.copy bs).Wf ∧ (mb.copy bs).contents = mb.contents ++ bs ∧
      (mb.copy bs).space = mb.space - bs.length ∧ (mb.copy bs).base = mb.base ∧
      (mb.copy bs).rdPtr = mb.rdPtr := by
  have h2 := h.wr_le
  have hsz : mb.wrPtr + bs.length ≤ mb.size := by unfold space at hroom; omega
  obtain ⟨fill, hfill, hc⟩ := contents_append h (Nat.le_refl _) hsz
  have hnil : fill = [] := length_eq_zero_iff.mp (by omega)
  rw [copy, if_neg (by omega)]
  refine ⟨wf_append h (Nat.le_refl _) hsz, by rw [hc, hnil, nil_append], ?_, rfl, rfl⟩
  have := size_poke hsz
  unfold space size at *
  simp only at this ⊢
  omega

end MessageBlock

namespace InputCDR

variable {P : Platform}

/-- The reader stands at position `pos` of the stream, with `bs` unread. -/
structure At (swap : Bool) (r : InputCDR) (pos : Nat) (bs : List UInt8) : Prop where
  wf : r.start.Wf
  good : r.goodBit = true
  swap : r.doByteSwap = swap
  aligned : (r.start.base + r.start.rdPtr) % maxAlignment = pos % maxAlignment
  unread : r.start.contents = bs

/-- The reader `f` takes the segments and returns `v`, wherever they are. -/
def Reads {α : Type} (swap : Bool) (segs : List (Seg UInt8)) (v : α)
    (f : InputCDR → Option α × InputCDR) : Prop :=
  ∀ r pos bs rest, At swap r pos (bs ++ rest) → Laid pos segs bs →
    (f r).1 = some v ∧ At swap (f r).2 (pos + bs.length) rest

variable {swap : Bool} {r : InputCDR} {bs rest : List UInt8}

theorem At.length_eq {pos : Nat} (h : At swap r pos bs) : r.length = bs.length := by
  rw [← h.unread, length_contents h.wf]
  rfl

theorem At.skip {pos : Nat} (h : At swap r pos (bs ++ rest)) :
    At swap { r with start := { r.start with rdPtr := r.start.rdPtr + bs.length } }
      (pos + bs.length) rest := by
  refine ⟨wf_skip h.wf ?_, h.good, h.swap, ?_, ?_⟩
  · rw [h.unread, length_append]; omega
  · have := h.aligned
    rw [← Nat.add_assoc, Nat.add_mod, this, ← Nat.add_mod]
  · rw [contents_skip, h.unread, drop_left]

/-- The bytes at an offset of the unread part. -/
theorem At.peek {pos : Nat} (fill data : List UInt8) {rest : List UInt8}
    (h : At swap r pos (fill ++ (data ++ rest))) :
    r.peek (r.start.rdPtr + fill.length) data.length = data := by
  have hc := h.unread
  have hlen : fill.length + data.length ≤ r.start.length := by
    rw [← length_contents h.wf, hc, length_append, length_append]; omega
  rw [contents] at hc
  have hd := congrArg (fun l => (l.drop fill.length).take data.length) hc
  simp only [drop_left, take_left, drop_take, drop_drop, take_take] at hd
  rw [Nat.min_eq_left (by omega)] at hd
  exact hd

/-- **Alignment.** The gap of the stream position is the one the address needs,
so `adjust` finds the data of the next segment. -/
theorem adjust_at {pos align : Nat} {fill data : List UInt8}
    (h : At swap r pos (fill ++ (data ++ rest))) (hfill : fill.length = gap pos align)
    (ha : IsAlign align) :
    ∃ buf r', r.adjust data.length align = (some buf, r') ∧ r'.peek buf data.length = data ∧
      At swap r' (pos + fill.length + data.length) rest := by
  have hgap : gap (r.start.base + r.start.rdPtr) align = fill.length := by
    rw [hfill]; exact gap_of_mod ha.dvd h.aligned
  have hlen := h.length_eq
  have h1 := h.wf.rd_le
  simp only [length_append, InputCDR.length, MessageBlock.length] at hlen
  let r' := { r with start := { r.start with rdPtr := r.start.rdPtr + fill.length + data.length } }
  have hskip : At swap r' (pos + fill.length + data.length) rest := h.skip.skip
  have hpeek : r'.peek (r.start.rdPtr + fill.length) data.length = data := At.peek fill data h
  refine ⟨r.start.rdPtr + fill.length, r', ?_, hpeek, hskip⟩
  rw [adjust]
  simp only [alignBinary_eq ha, hgap]
  rw [if_pos (by omega)]
  congr 2
  · omega
  · congr 2
    omega

/-! ## Primitive readers -/

theorem read1_reads (swap : Bool) (x : UInt8) : Reads swap [⟨1, [x]⟩] x read1 := by
  intro r pos bs rest hat hlaid
  obtain ⟨fill, rest', rfl, hfill, hnil⟩ := hlaid.cons_inv
  obtain rfl := hnil.nil_inv
  have hf : fill = [] := length_eq_zero_iff.mp (by rw [hfill]; exact gap_one pos)
  subst hf
  have hlen := hat.length_eq
  simp only [length_append, length_singleton, InputCDR.length, MessageBlock.length] at hlen
  have hpeek : r.peek r.start.rdPtr 1 = [x] := At.peek [] [x] hat
  rw [read1, if_pos (by omega), hpeek]
  exact ⟨rfl, hat.skip⟩

theorem readPrim_reads (swap : Bool) {size align : Nat} (hs : IsSize size) (ha : IsAlign align)
    {x : List UInt8} (hx : x.length = size) :
    Reads swap [⟨align, if swap then x.reverse else x⟩] x (·.readPrim P size align) := by
  intro r pos bs rest hat hlaid
  obtain ⟨fill, rest', rfl, hfill, hnil⟩ := hlaid.cons_inv
  obtain rfl := hnil.nil_inv
  have hdata : (if swap then x.reverse else x).length = size := by
    split <;> simp [hx]
  rw [append_assoc, append_assoc] at hat
  obtain ⟨buf, r', hadj, hpeek, hat'⟩ := adjust_at hat hfill ha
  simp only [hdata] at hadj hpeek hat'
  simp only [readPrim, hadj, hpeek, hat'.swap]
  have hpos : pos + (fill ++ ((if swap then x.reverse else x) ++ [])).length =
      pos + fill.length + size := by
    simp only [append_nil, length_append, hdata]; omega
  rw [hpos]
  cases swap with
  | false => exact ⟨rfl, hat'⟩
  | true =>
    refine ⟨?_, hat'⟩
    simp only [if_true, Bool.true_eq_false, if_false]
    rw [swapElem_eq P.endian hs (by simpa using hx), reverse_reverse]

open OutputCDR

/-- **Scalars.** -/
theorem readScalar_reads (swap : Bool) (k : Kind) (x : k.Val) :
    Reads swap [OutputCDR.seg P swap k x] x (·.readScalar P k) := by
  have h1 : ∀ b : UInt8, Reads swap [⟨1, if swap then [b].reverse else [b]⟩] b read1 := fun b => by
    simpa using read1_reads swap b
  -- a value is what its memory holds
  have hp : ∀ (k : Kind) (x : k.Val), Reads swap [seg P swap k x] x
      fun r => asKind P k (r.readPrim P k.size k.align) := by
    intro k x r pos bs rest hat hlaid
    obtain ⟨hv, hat'⟩ := readPrim_reads (P := P) swap k.isSize k.isAlign
      (k.length_toMem P.endian x) r pos bs rest hat hlaid
    refine ⟨?_, hat'⟩
    simp only [asKind, hv, map_some, Kind.ofMem_toMem]
  cases k with
  | octet => exact h1 x
  | boolean =>
    intro r pos bs rest hat hlaid
    obtain ⟨hv, hat'⟩ := h1 (octetOfBool x) r pos bs rest hat hlaid
    simp only [readScalar, readBoolean, hv, hat'.good, if_true]
    refine ⟨?_, hat'⟩
    cases x <;> rfl
  | char => exact h1 x
  | _ => exact hp _ x

/-! ## Arrays -/

theorem Reads.length_le {pos : Nat}
    (hat : At swap r pos (bs ++ rest)) : bs.length ≤ r.length := by
  rw [hat.length_eq, length_append]; omega

theorem readArray_reads (swap : Bool) (k : Kind) (x : List k.Val) (hne : x ≠ []) (length : UInt32)
    (hl : length.toNat = x.length) :
    Reads swap [⟨k.align, x.flatMap (OutputCDR.wire P swap k)⟩] (x.flatMap (k.toMem P.endian))
      (·.readArray P k.size k.align length) := by
  intro r pos bs rest hat hlaid
  obtain ⟨fill, rest', rfl, hfill, hnil⟩ := hlaid.cons_inv
  obtain rfl := hnil.nil_inv
  have hwire : ∀ y ∈ x, (wire P swap k y).length = k.size := fun y _ => length_wire P swap k y
  have hdata := length_flatMap_const _ _ x hwire
  have hne0 : ¬ length = 0 := by
    intro h0
    rw [h0] at hl
    exact hne (length_eq_zero_iff.mp hl.symm)
  rw [append_assoc, append_assoc] at hat
  obtain ⟨buf, r', hadj, hpeek, hat'⟩ := adjust_at hat hfill k.isAlign
  simp only [hdata, ← hl] at hadj hpeek hat'
  have hpos : pos + (fill ++ (x.flatMap (wire P swap k) ++ [])).length =
      pos + fill.length + k.size * length.toNat := by
    simp only [append_nil, length_append, hdata, ← hl]; omega
  simp only [readArray, hne0, if_false, hadj, hpeek, hat'.swap, hat'.good, if_true, hpos]
  cases swap with
  | false => exact ⟨rfl, hat'⟩
  | true =>
    by_cases h1 : k.size = 1
    · rw [if_pos (.inr h1)]
      refine ⟨?_, hat'⟩
      have e : (wire P true k) = k.toMem P.endian := by
        funext y
        obtain ⟨b, hb⟩ := length_eq_one_iff.mp ((k.length_toMem P.endian y).trans h1)
        rw [wire, if_pos rfl, hb]
        rfl
      rw [e]
    · rw [if_neg (by simp [h1]), if_pos (by have := k.isSize; unfold IsSize at this; omega)]
      refine ⟨?_, hat'⟩
      -- each element comes back by the second reversal
      have hc := chunks_flatMap (swapElem P.endian k.size) (wire P true k) k.size x [] hwire
      rw [append_nil, ← hl] at hc
      show some (chunks _ _ _ _).flatten = _
      rw [hc, flatMap_def]
      congr 2
      apply map_congr_left
      intro y hy
      rw [swapElem_eq P.endian k.isSize (hwire y hy), wire, if_pos rfl, reverse_reverse]

theorem readBooleans_at (swap : Bool) (x : List Bool) :
    ∀ r pos bs rest, At swap r pos (bs ++ rest) →
      Laid pos (x.map (OutputCDR.seg P swap .boolean)) bs →
      (readBooleans x.length r).1 = x ∧ At swap (readBooleans x.length r).2 (pos + bs.length) rest := by
  induction x with
  | nil =>
    intro r pos bs rest hat hlaid
    obtain rfl := hlaid.nil_inv
    exact ⟨rfl, hat⟩
  | cons b x ih =>
    intro r pos bs rest hat hlaid
    obtain ⟨cs, ds, rfl, hcs, hds⟩ := Laid.append_inv [_] hlaid
    rw [append_assoc] at hat
    obtain ⟨hv, hat'⟩ := readScalar_reads (P := P) swap .boolean b r pos cs (ds ++ rest) hat hcs
    obtain ⟨hvs, hat''⟩ := ih _ _ ds rest hat' hds
    simp only [readScalar] at hv hvs hat''
    simp only [length_cons, readBooleans, hat.good, if_true, hv, hvs, getD_some, true_and]
    rwa [length_append, ← Nat.add_assoc]

theorem length_arraySegs {k : Kind} (hk : k ≠ .boolean) {x : List k.Val} {pos : Nat}
    {bs : List UInt8} (h : Laid pos (OutputCDR.arraySegs P swap k x) bs) :
    k.size * x.length ≤ bs.length := by
  rw [arraySegs, if_neg hk] at h
  by_cases hne : x = []
  · simp [hne]
  · rw [if_neg hne] at h
    obtain ⟨fill, rest, rfl, -, -⟩ := h.cons_inv
    have := length_flatMap_const _ _ x fun y _ => length_wire P swap k y
    simp only [length_append, this]
    omega

theorem readArray_elements (swap : Bool) (k : Kind) (hk : k ≠ .boolean) (x : Arr k.Val) :
    Reads swap (OutputCDR.arraySegs P swap k x.val) x.val
      fun r => elements P k x.ulen (r.readArray P k.size k.align x.ulen) := by
  have hl := x.toNat_ulen
  intro r pos bs rest hat hlaid
  rw [arraySegs, if_neg hk] at hlaid
  by_cases hne : x.val = []
  · rw [if_pos hne] at hlaid
    obtain rfl := hlaid.nil_inv
    have h0 : x.ulen = 0 := by
      apply UInt32.toNat_inj.mp
      rw [hl, hne]
      rfl
    simp only [readArray, h0, if_true, hne]
    exact ⟨rfl, hat⟩
  · rw [if_neg hne] at hlaid
    obtain ⟨hv, hat'⟩ := readArray_reads (P := P) swap k x.val hne _ hl r pos bs rest hat hlaid
    refine ⟨?_, hat'⟩
    -- the values are what the memory of the array holds
    have hc := chunks_flatMap (k.ofMem P.endian) (k.toMem P.endian) k.size x.val []
      fun y _ => k.length_toMem P.endian y
    rw [List.append_nil, ← hl] at hc
    simp only [elements, hv, Option.map_some, hc, Kind.ofMem_toMem, List.map_id']

/-- The check of the array readers lets every array of the stream pass, also
when the product of length and size wraps. -/
theorem readSizedArray_elements (swap : Bool) (k : Kind) (hk : k ≠ .boolean) (x : Arr k.Val) :
    Reads swap (OutputCDR.arraySegs P swap k x.val) x.val
      fun r => elements P k x.ulen (r.readSizedArray P k.size k.align x.ulen) := by
  intro r pos bs rest hat hlaid
  have h1 := length_arraySegs hk hlaid
  have h2 := Reads.length_le hat
  have hmul : (x.ulen * ofNat k.size).toNat ≤ x.val.length * k.size := by
    rw [UInt32.toNat_mul, x.toNat_ulen, UInt32.toNat_ofNat']
    exact Nat.le_trans (Nat.mod_le _ _) (Nat.mul_le_mul_left _ (Nat.mod_le _ _))
  rw [Nat.mul_comm] at h1
  simp only [readSizedArray]
  rw [if_neg (by omega)]
  exact readArray_elements swap k hk x r pos bs rest hat hlaid

/-- **Arrays.** -/
theorem readTypedArray_reads (swap : Bool) (k : Kind) (x : Arr k.Val) :
    Reads swap (OutputCDR.arraySegs P swap k x.val) x.val (·.readTypedArray P k x.ulen) := by
  cases k with
  | octet => exact readSizedArray_elements swap .octet (by decide) x
  | boolean =>
    intro r pos bs rest hat hlaid
    rw [arraySegs, if_pos rfl] at hlaid
    have hbs := hlaid.length_eq
    rw [extent_ones _ _ _ (fun _ _ => rfl) fun y _ => length_wire P swap .boolean y] at hbs
    have hle := Reads.length_le hat
    obtain ⟨hv, hat'⟩ := readBooleans_at (P := P) swap x.val r pos bs rest hat hlaid
    rw [← x.toNat_ulen] at hv hat'
    simp only [readTypedArray, readBooleanArray]
    rw [if_neg (by rw [x.toNat_ulen]; omega)]
    simp only [hat'.good, if_true, hv]
    exact ⟨trivial, hat'⟩
  | char =>
    intro r pos bs rest hat hlaid
    have h1 := length_arraySegs (by decide) hlaid
    have h2 := Reads.length_le hat
    simp only [readTypedArray, readCharArray]
    rw [if_neg (by rw [x.toNat_ulen]; simp only [Kind.size, octetSize] at h1; omega)]
    exact readArray_elements swap .char (by decide) x r pos bs rest hat hlaid
  | _ => exact readSizedArray_elements swap _ (by decide) x

/-! ## Strings -/

/-- **Strings.** -/
theorem readCString_reads (swap : Bool) (x : CString) (hx : x.val.length + 1 < 2 ^ 32) :
    Reads swap [OutputCDR.seg P swap .ulong (UInt32.ofNat (x.val.length + 1)), ⟨1, x.val ++ [0]⟩]
      x.val (·.readCString P) := by
  intro r pos bs rest hat hlaid
  obtain ⟨cs, ds, rfl, hcs, hds⟩ := Laid.append_inv [_] hlaid
  rw [append_assoc] at hat
  obtain ⟨hv, hat'⟩ := readScalar_reads (P := P) swap .ulong _ r pos cs (ds ++ rest) hat hcs
  have hlen : (ofNat (x.val.length + 1)).toNat = x.val.length + 1 := toNat_ofNat_of_lt' hx
  have hpos : 0 < ofNat (x.val.length + 1) := by
    rw [lt_iff_toNat_lt, hlen]
    exact Nat.succ_pos _
  obtain ⟨fill, rest', rfl, hfill, hnil⟩ := hds.cons_inv
  have hchars := readArray_reads (P := P) swap .char (x.val ++ [0]) (by simp)
    (ofNat (x.val.length + 1)) (by rw [hlen, length_append]; rfl)
  have hmem : (x.val ++ [0]).flatMap (Kind.char.toMem P.endian) = x.val ++ [0] :=
    flatMap_singleton' _
  rw [flatMap_wire_char, hmem] at hchars
  obtain ⟨hv', hat''⟩ := hchars _ _ _ rest hat' hds
  have hroom := Reads.length_le hat'
  simp only [length_append, length_singleton] at hroom
  have e1 : (r.readUlong P) = (some (ofNat (x.val.length + 1)), (r.readScalar P .ulong).2) :=
    Prod.ext hv rfl
  have e2 : (r.readScalar P .ulong).2.readArray P octetSize octetAlign
      (ofNat (x.val.length + 1)) = (some (x.val ++ [0]), ((r.readScalar P .ulong).2.readArray P
        octetSize octetAlign (ofNat (x.val.length + 1))).2) := Prod.ext hv' rfl
  have hread : (r.readString P) = (some (x.val ++ [0]), ((r.readScalar P .ulong).2.readArray P
      octetSize octetAlign (ofNat (x.val.length + 1))).2) := by
    rw [readString, e1]
    simp only
    rw [if_pos ⟨hpos, by omega⟩, readCharArray, if_neg (by omega), e2]
  simp only [readCString, hread]
  refine ⟨?_, ?_⟩
  · have hstop : (x.val ++ [0]).takeWhile (· ≠ 0) = x.val := by
      rw [takeWhile_append_of_pos]
      · simp
      · intro c hc
        have : c ≠ 0 := fun h => x.nonul (h ▸ hc)
        simpa using this
    rw [hstop]
  · rw [length_append, ← Nat.add_assoc]
    exact hat''

theorem readCString_zero (swap : Bool) :
    Reads swap [OutputCDR.seg P swap .ulong 0] [] (·.readCString P) := by
  intro r pos bs rest hat hlaid
  obtain ⟨hv, hat'⟩ := readScalar_reads (P := P) swap .ulong 0 r pos bs rest hat hlaid
  have e1 : (r.readUlong P) = (some 0, (r.readScalar P .ulong).2) := Prod.ext hv rfl
  simp only [readCString, readString, e1]
  exact ⟨rfl, hat'⟩

/-! ## The stream built on the output -/

theorem copyBlocks_spec {mbs : List MessageBlock} (hwf : ∀ mb ∈ mbs, mb.Wf) :
    ∀ start : MessageBlock, start.Wf → (mbs.flatMap MessageBlock.contents).length ≤ start.space →
      (mbs.foldl (fun start i => start.copy i.contents) start).Wf ∧
      (mbs.foldl (fun start i => start.copy i.contents) start).contents =
        start.contents ++ mbs.flatMap MessageBlock.contents ∧
      (mbs.foldl (fun start i => start.copy i.contents) start).base = start.base ∧
      (mbs.foldl (fun start i => start.copy i.contents) start).rdPtr = start.rdPtr := by
  induction mbs with
  | nil => exact fun start h _ => ⟨h, by simp, rfl, rfl⟩
  | cons mb mbs ih =>
    intro start h hroom
    rw [flatMap_cons, length_append] at hroom
    obtain ⟨c1, c2, c3, c4, c5⟩ := copy_spec h mb.contents (by omega)
    obtain ⟨i1, i2, i3, i4⟩ := ih (fun m hm => hwf m (by simp [hm])) (start.copy mb.contents) c1
      (by omega)
    simp only [foldl_cons]
    exact ⟨i1, by rw [i2, c2, flatMap_cons, append_assoc], i3.trans c4, i4.trans c5⟩

/-- **Consolidation.** The reader starts at position 0 with all bytes of the
stream unread. -/
theorem ofOutput_at (P : Platform) (k : Nat) {s : OutputCDR} (h : s.Wf) :
    At s.doByteSwap (ofOutput P k s) 0 s.contents := by
  have hroom : s.contents.length ≤ (P.alloc k (s.totalLength + maxAlignment)).space := by
    rw [space, size_alloc, h.length_contents, h.total]
    exact Nat.le_trans (Nat.le_add_right _ _) (Nat.le_of_eq (Nat.sub_zero _).symm)
  have hwf := wf_alloc P k (s.totalLength + maxAlignment)
  obtain ⟨h1, h2, h3, h4⟩ := copyBlocks_spec h.blocks_wf _ hwf hroom
  have hempty : (P.alloc k (s.totalLength + maxAlignment)).contents = [] :=
    length_eq_zero_iff.mp (by rw [length_contents hwf]; rfl)
  have hstart : (ofOutput P k s).start = s.blocks.foldl (fun start i => start.copy i.contents)
      (P.alloc k (s.totalLength + maxAlignment)) := by
    rw [ofOutput, mbAlign_alloc]
  refine ⟨hstart ▸ h1, rfl, rfl, ?_, ?_⟩
  · rw [hstart, h3, h4]
    exact P.base_aligned k
  · rw [hstart, h2, hempty]
    rfl

end InputCDR

/-! ## Sequences -/

/-- One write of a sequence. -/
inductive Item where
  | scalar (k : Kind) (x : k.Val)
  | array (k : Kind) (x : Arr k.Val)
  | string (x : CString)

/-- One read of a sequence: a type, and for an array its length. -/
inductive Shape where
  | scalar (k : Kind)
  | array (k : Kind) (length : UInt32)
  | string

/-- What a read returns. -/
inductive Value where
  | scalar (k : Kind) (x : k.Val)
  | array (k : Kind) (x : List k.Val)
  | string (x : List UInt8)

namespace Item

def shape : Item → Shape
  | .scalar k _ => .scalar k
  | .array k x => .array k x.ulen
  | .string _ => .string

def value : Item → Value
  | .scalar k x => .scalar k x
  | .array k x => .array k x.val
  | .string x => .string x.val

/-- The segments of a write. -/
def segs (P : Platform) (swap : Bool) : Item → List (Seg UInt8)
  | .scalar k x => [OutputCDR.seg P swap k x]
  | .array k x => OutputCDR.arraySegs P swap k x.val
  | .string x => [OutputCDR.seg P swap .ulong (UInt32.ofNat (x.val.length + 1)), ⟨1, x.val ++ [0]⟩]

/-- The length of a string with its NUL is a `ULong`. -/
def Fits : Item → Prop
  | .string x => x.val.length < 2 ^ 32 - 1
  | _ => True

end Item

/-- The writes of a sequence in order. -/
def OutputCDR.writeItem (P : Platform) (s : OutputCDR) : Item → Bool × OutputCDR
  | .scalar k x => s.writeScalar P k x
  | .array k x => s.writeTypedArray P k x.val x.ulen
  | .string x => s.writeCString P (some x)

def OutputCDR.writeItems (P : Platform) : List Item → OutputCDR → OutputCDR
  | [], s => s
  | i :: is, s => writeItems P is (s.writeItem P i).2

/-- The read of a type; `none` when it fails. -/
def InputCDR.readShape (P : Platform) (r : InputCDR) : Shape → Option Value × InputCDR
  | .scalar k => ((r.readScalar P k).1.map (Value.scalar k), (r.readScalar P k).2)
  | .array k n => ((r.readTypedArray P k n).1.map (Value.array k), (r.readTypedArray P k n).2)
  | .string => ((r.readCString P).1.map Value.string, (r.readCString P).2)

/-- The reads of a sequence of types in order, as long as they succeed. -/
def InputCDR.readShapes (P : Platform) : List Shape → InputCDR → Option (List Value) × InputCDR
  | [], r => (some [], r)
  | t :: ts, r =>
    match r.readShape P t with
    | (none, r) => (none, r)
    | (some v, r) =>
      let (vs, r) := readShapes P ts r
      (vs.map (v :: ·), r)

open OutputCDR InputCDR

theorem writeItem_emits (P : Platform) {s : OutputCDR} (h : s.Wf) (hg : s.goodBit = true) (i : Item)
    (hi : i.Fits) : Emits (i.segs P (s.swaps P)) s (s.writeItem P i).2 := by
  cases i with
  | scalar k x => exact (writeScalar_emits P h k x).2
  | array k x => exact (writeTypedArray_emits P h hg k x).2
  | string x =>
    have hlt : x.val.length < 2 ^ 32 - 1 := hi
    exact (writeCString_emits P h x (by omega)).2

open Item

theorem readShape_reads (P : Platform) (swap : Bool) (i : Item) (hi : i.Fits) :
    Reads swap (i.segs P swap) i.value (·.readShape P i.shape) := by
  intro r pos bs rest hat hlaid
  cases i with
  | scalar k x =>
    obtain ⟨hv, hat'⟩ := readScalar_reads (P := P) swap k x r pos bs rest hat hlaid
    exact ⟨by simp only [shape, readShape, hv, map_some, value], hat'⟩
  | array k x =>
    obtain ⟨hv, hat'⟩ := readTypedArray_reads (P := P) swap k x r pos bs rest hat hlaid
    exact ⟨by simp only [shape, readShape, hv, map_some, value], hat'⟩
  | string x =>
    have hlt : x.val.length < 2 ^ 32 - 1 := hi
    obtain ⟨hv, hat'⟩ := readCString_reads (P := P) swap x (by omega) r pos bs rest hat hlaid
    exact ⟨by simp only [shape, readShape, hv, map_some, value], hat'⟩

theorem writeItems_emits (P : Platform) (is : List Item) (hi : ∀ i ∈ is, i.Fits) :
    ∀ {s : OutputCDR}, s.Wf → s.goodBit = true →
      Emits (is.flatMap (Item.segs P (s.swaps P))) s (writeItems P is s) := by
  induction is with
  | nil => exact fun h _ => .nil h
  | cons i is ih =>
    intro s h hg
    have hfst := writeItem_emits P h hg i (hi i (by simp))
    have hrest := ih (fun j hj => hi j (by simp [hj])) hfst.wf (hfst.keeps.good hg)
    rw [swaps_keeps hfst.keeps] at hrest
    exact hfst.append hrest

theorem readShapes_reads (P : Platform) (swap : Bool) (is : List Item) (hi : ∀ i ∈ is, i.Fits) :
    Reads swap (is.flatMap (Item.segs P swap)) (is.map Item.value)
      (readShapes P (is.map Item.shape)) := by
  induction is with
  | nil =>
    intro r pos bs rest hat hlaid
    obtain rfl := hlaid.nil_inv
    exact ⟨rfl, hat⟩
  | cons i is ih =>
    intro r pos bs rest hat hlaid
    obtain ⟨cs, ds, rfl, hcs, hds⟩ := Laid.append_inv _ hlaid
    rw [append_assoc] at hat
    obtain ⟨hv, hat'⟩ := readShape_reads P swap i (hi i (by simp)) r pos cs (ds ++ rest) hat hcs
    obtain ⟨hvs, hat''⟩ := ih (fun j hj => hi j (by simp [hj])) _ _ ds rest hat' hds
    have e : r.readShape P i.shape = (some i.value, (r.readShape P i.shape).2) := Prod.ext hv rfl
    rw [map_cons, map_cons, readShapes, e]
    simp only [hvs, map_some, length_append, ← Nat.add_assoc]
    exact ⟨trivial, hat''⟩

theorem swaps_init (P : Platform) (size byteOrder : Nat) (major minor : UInt8)
    (horder : P.swapOnWrite = true ∨ byteOrder = P.byteOrder) :
    (init P size byteOrder major minor).swaps P =
      (init P size byteOrder major minor).doByteSwap := by
  rcases horder with h | h
  · simp [swaps, h]
  · simp [swaps, init, h]

/-- **Round trip.** Whatever the initial buffer size and wherever the blocks
end, reading the types of a written sequence succeeds at every step, returns
the values and ends at the end of the stream. The byte order is the host's or
the build swaps on write; the length of every string, with its NUL, is a
`ULong`. -/
theorem roundTrip (P : Platform) (size byteOrder : Nat) (major minor : UInt8) (k : Nat)
    (is : List Item) (horder : P.swapOnWrite = true ∨ byteOrder = P.byteOrder)
    (hfits : ∀ i ∈ is, i.Fits) :
    let out := writeItems P is (init P size byteOrder major minor)
    let res := readShapes P (is.map shape) (ofOutput P k out)
    res.1 = some (is.map value) ∧ res.2.length = 0 := by
  have hem := writeItems_emits P is hfits (init_wf P size byteOrder major minor) rfl
  obtain ⟨bs, hlaid, hcont⟩ := hem.laid
  rw [init_contents, nil_append] at hcont
  rw [init_contents, swaps_init P size byteOrder major minor horder] at hlaid
  have hat := ofOutput_at P k hem.wf
  rw [hem.keeps.swap, hcont, ← append_nil bs] at hat
  obtain ⟨hv, hat'⟩ := readShapes_reads P _ is hfits _ _ bs [] hat hlaid
  exact ⟨hv, hat'.length_eq⟩

/-- An octet, an aligned word, an array and a string through a buffer of one
byte, so that a block boundary falls among them. -/
theorem roundTrip_mixed :
    let is := [.scalar .octet 7, .scalar .ulong 9, .array .short ⟨[-1, 2], by decide⟩,
      .string ⟨[97, 98], by decide⟩]
    let out := writeItems .plain is (init .plain 1 1 1 2)
    let res := readShapes .plain (is.map shape) (ofOutput .plain 9 out)
    res.1 = some (is.map value) ∧ res.2.length = 0 :=
  roundTrip .plain 1 1 1 2 9 _ (.inr rfl) (by
    intro i hi
    simp only [mem_cons, not_mem_nil, or_false] at hi
    rcases hi with rfl | rfl | rfl | rfl
    · trivial
    · trivial
    · trivial
    · show [97, 98].length < 2 ^ 32 - 1
      decide)

theorem roundTrip_long_string (P : Platform) (size byteOrder : Nat) (major minor : UInt8) (k : Nat)
    (x : CString) (hx : x.val.length + 1 = 2 ^ 32)
    (horder : P.swapOnWrite = true ∨ byteOrder = P.byteOrder) : (readShapes P [.string]
      (ofOutput P k (writeItems P [.string x] (init P size byteOrder major minor)))).1 =
      some [.string []] := by
  have hem := (writeCString_wrap P (init_wf P size byteOrder major minor) x hx).2
  obtain ⟨bs, hlaid, hcont⟩ := hem.laid
  rw [init_contents, nil_append] at hcont
  rw [init_contents, swaps_init P size byteOrder major minor horder] at hlaid
  have hat := ofOutput_at P k hem.wf
  rw [hem.keeps.swap, hcont, ← append_nil bs] at hat
  obtain ⟨hv, -⟩ := readCString_zero (P := P) _ _ _ bs [] hat hlaid
  simp only [writeItems, writeItem, readShapes, readShape, hv, map_some]

/-- A string of `n` characters. -/
def longString (n : Nat) : CString where
  val := List.replicate n 65
  nonul := by simp [List.mem_replicate]

/-- Without the bound on strings the round trip fails, already on the host's
byte order: for the string of 2^32 - 1 characters. -/
theorem roundTrip_needs_fits :
    ¬ ∀ is : List Item,
      let out := writeItems .plain is (init .plain 0 1 1 2)
      let res := readShapes .plain (is.map shape) (ofOutput .plain 9 out)
      res.1 = some (is.map value) ∧ res.2.length = 0 := by
  intro hall
  -- the length is kept as a variable: the string itself is never computed
  obtain ⟨n, hn⟩ : ∃ n : Nat, n + 1 = 2 ^ 32 := ⟨4294967295, by norm_num⟩
  have hlen : (longString n).val.length + 1 = 2 ^ 32 := by
    rw [longString, length_replicate, hn]
  have hlost := roundTrip_long_string .plain 0 1 1 2 9 (longString n) hlen (.inr rfl)
  have hread := (hall [.string (longString n)]).1
  simp only [map_cons, map_nil, shape, value, hlost, some.injEq,
    cons.injEq, Value.string.injEq, and_true] at hread
  rw [← hread, length_nil] at hlen
  omega

end Atcd.Cdr
