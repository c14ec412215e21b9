import Atcd.Cdr.Output
/-!
# What the writers emit

Every writer of `ACE_OutputCDR` appends segments to the stream: the value's
bytes, at the next multiple of its alignment counted from the start of the
stream. Where block boundaries fall makes no difference, because a new block
starts with the padding and `current_alignment_` counts every byte.

`Wf` is the invariant of a stream that is only written to. `Emits segs s s'`
says that `s'` is `s` followed by a layout of `segs`. The wire form of a value
(`wire`) is its memory, reversed when the build swaps on write and the stream's
byte order is not the host's.

Results:
* `init_wf`: a fresh stream satisfies the invariant and is empty.
* `adjust_spec`: room for any write is found, with at most one new block.
* `writeScalar_emits`, `writeTypedArray_emits`, `writeCString_emits`: the
  segments of each writer.
-/
namespace Atcd.Cdr

open Atcd.Core List MessageBlock UInt32

namespace OutputCDR

/-- The invariant of a stream under writes: `current_` is writable and the last
block of the chain, and the counter is the length of the stream. -/
structure Wf (s : OutputCDR) : Prop where
  writable : s.currentIsWritable = true
  after_nil : s.after = []
  blocks_wf : ∀ mb ∈ s.blocks, mb.Wf
  total : s.totalLength = s.currentAlignment

/-- The settings of the stream are the same, and `good_bit_` has not been
cleared. -/
structure Keeps (s s' : OutputCDR) : Prop where
  swap : s'.doByteSwap = s.doByteSwap
  major : s'.majorVersion = s.majorVersion
  minor : s'.minorVersion = s.minorVersion
  good : s.goodBit = true → s'.goodBit = true

theorem Keeps.refl (s : OutputCDR) : Keeps s s := ⟨rfl, rfl, rfl, id⟩

variable {s : OutputCDR} {align : Nat}

variable {t u s' : OutputCDR}

theorem Keeps.trans (h : Keeps s t) (g : Keeps t u) : Keeps s u :=
  ⟨g.swap.trans h.swap, g.major.trans h.major, g.minor.trans h.minor, g.good ∘ h.good⟩

/-- `s'` is `s` with the segments laid out behind it. -/
structure Emits (segs : List (Seg UInt8)) (s s' : OutputCDR) : Prop where
  wf : s'.Wf
  keeps : Keeps s s'
  laid : ∃ bs, Laid s.contents.length segs bs ∧ s'.contents = s.contents ++ bs

theorem Wf.length_contents (h : s.Wf) : s.contents.length = s.currentAlignment := by
  have hlen : ∀ mbs : List MessageBlock, (∀ mb ∈ mbs, mb.Wf) →
      (mbs.flatMap MessageBlock.contents).length = (mbs.map MessageBlock.length).sum := by
    intro mbs hwf
    induction mbs with
    | nil => rfl
    | cons mb mbs ih =>
      rw [flatMap_cons, length_append, map_cons, sum_cons,
        MessageBlock.length_contents (hwf mb (by simp)), ih fun m hm => hwf m (by simp [hm])]
  rw [← h.total]
  exact hlen _ h.blocks_wf

theorem Emits.nil (h : s.Wf) : Emits [] s s := ⟨h, .refl s, [], .nil _, by simp⟩

theorem Emits.append {xs ys : List (Seg UInt8)} (h : Emits xs s t)
    (g : Emits ys t u) : Emits (xs ++ ys) s u := by
  obtain ⟨bs, hbs, et⟩ := h.laid
  obtain ⟨cs, hcs, eu⟩ := g.laid
  refine ⟨g.wf, h.keeps.trans g.keeps, bs ++ cs, hbs.append ?_, by rw [eu, et, append_assoc]⟩
  rwa [et, length_append] at hcs

theorem Emits.totalLength_eq {segs : List (Seg UInt8)} (hs : s.Wf)
    (h : Emits segs s s') : s'.totalLength = extent s.totalLength segs := by
  obtain ⟨bs, hbs, e⟩ := h.laid
  have := hbs.length_eq
  rw [h.wf.total, ← h.wf.length_contents, e, length_append, this, hs.length_contents, hs.total]

theorem init_wf (P : Platform) (size byteOrder : Nat) (major minor : UInt8) :
    (init P size byteOrder major minor).Wf := by
  refine ⟨rfl, rfl, ?_, ?_⟩
  · intro mb hmb
    simp only [init, blocks, nil_append, mem_singleton] at hmb
    rw [hmb, mbAlign_alloc]
    exact wf_alloc P _ _
  · simp only [init, totalLength, blocks, nil_append, mbAlign_alloc]
    rfl

theorem init_contents (P : Platform) (size byteOrder : Nat) (major minor : UInt8) :
    (init P size byteOrder major minor).contents = [] := by
  apply length_eq_zero_iff.mp
  rw [(init_wf P size byteOrder major minor).length_contents]
  rfl

/-! ## Room for a write -/

/-- What `adjust` has done: `mid` is the stream with the block that has room,
and `size` bytes behind the padding are reserved in it. -/
structure Reserved (s : OutputCDR) (size align buf : Nat) (s' : OutputCDR) : Prop where
  mid : ∃ mid : OutputCDR, mid.Wf ∧ Keeps s mid ∧ mid.contents = s.contents ∧
    mid.currentAlignment = s.currentAlignment ∧
    buf = mid.current.wrPtr + gap mid.currentAlignment align ∧
    buf + size ≤ mid.current.size ∧
    s' = { mid with currentAlignment := buf + size - mid.current.wrPtr + mid.currentAlignment,
                    current := { mid.current with wrPtr := buf + size } }

theorem startOffset_zero (c : Nat) : startOffset 0 c = c := by
  unfold startOffset
  simp only
  omega

theorem le_minSize (s : OutputCDR) (size : Nat) : size + maxAlignment ≤ s.minSize size := by
  unfold minSize
  simp only
  split <;> split <;> omega

/-- The new block is empty, starts at the remainder of the counter and has room
for the write and any padding. -/
theorem newBlock_spec (P : Platform) (s : OutputCDR) (size : Nat) :
    (s.newBlock P size).rdPtr = s.currentAlignment % maxAlignment ∧
      (s.newBlock P size).wrPtr = s.currentAlignment % maxAlignment ∧
      size + maxAlignment ≤ (s.newBlock P size).size := by
  let tmp := P.alloc s.allocs (nextSize (s.minSize size))
  have hbase : (tmp.base + tmp.rdPtr) % maxAlignment = 0 := P.base_aligned s.allocs
  have hrd : tmp.rdPtr + startOffset ((tmp.base + tmp.rdPtr) % maxAlignment)
      (s.currentAlignment % maxAlignment) = s.currentAlignment % maxAlignment := by
    rw [hbase, startOffset_zero]
    exact Nat.zero_add _
  refine ⟨hrd, hrd, ?_⟩
  show _ ≤ tmp.size
  rw [size_alloc]
  exact Nat.le_trans (le_minSize s size) (le_nextSize _)

/-- `grow_and_adjust` of a stream at the end of its chain appends an empty
block. -/
theorem grow_spec (P : Platform) (size : Nat) (h : s.Wf) :
    (s.grow P size).Wf ∧ Keeps s (s.grow P size) ∧ (s.grow P size).contents = s.contents ∧
      (s.grow P size).currentAlignment = s.currentAlignment ∧
      (s.grow P size).current = s.newBlock P size := by
  have hn : s.needsBlock size = true := by simp [needsBlock, h.after_nil]
  obtain ⟨hrd, hwr, hsize⟩ := newBlock_spec P s size
  have hlen : (s.newBlock P size).length = 0 := by unfold MessageBlock.length; omega
  have hwf : (s.newBlock P size).Wf := by
    refine ⟨by omega, ?_⟩
    have := Nat.mod_lt s.currentAlignment (show 0 < maxAlignment by decide)
    omega
  have hcont : (s.newBlock P size).contents = [] :=
    length_eq_zero_iff.mp (by rw [length_contents hwf, hlen])
  rw [grow, if_pos hn]
  refine ⟨⟨rfl, h.after_nil, ?_, ?_⟩, ⟨rfl, rfl, rfl, fun _ => rfl⟩, ?_, rfl, rfl⟩
  · intro mb hmb
    simp only [advance, blocks, mem_append, mem_singleton] at hmb
    rcases hmb with hmb | rfl
    · exact h.blocks_wf mb (by simpa [blocks] using hmb)
    · exact hwf
  · have := h.total
    simp only [advance, totalLength, blocks, map_append, sum_append, map_cons,
      map_nil, sum_cons, sum_nil] at this ⊢
    omega
  · simp [advance, contents, blocks, hcont]

theorem adjustLoop_fits (P : Platform) (size fuel : Nat) (h : s.Wf) (ha : IsAlign align)
    (hfit : s.current.wrPtr + gap s.currentAlignment align + size ≤ s.current.size) :
    ∃ buf s', adjustLoop P size align (fuel + 1) s = some (buf, s') ∧
      Reserved s size align buf s' := by
  have e : alignBinary s.currentAlignment align - s.currentAlignment =
      gap s.currentAlignment align := by
    rw [alignBinary_eq ha]; omega
  refine ⟨s.current.wrPtr + gap s.currentAlignment align, _, ?_, ⟨s, h, .refl s, rfl, rfl, rfl, hfit, rfl⟩⟩
  rw [adjustLoop]
  simp only [e]
  rw [if_pos ⟨h.writable, hfit⟩]
  congr 3
  omega

/-- **Room.** `adjust` reserves the bytes, in the current block or in one new
block; its calls are bounded by the chain. -/
theorem adjust_spec (P : Platform) (h : s.Wf) (size : Nat) (ha : IsAlign align) :
    ∃ buf s', s.adjust P size align = some (buf, s') ∧ Reserved s size align buf s' := by
  unfold adjust
  by_cases hfit : s.current.wrPtr + gap s.currentAlignment align + size ≤ s.current.size
  · exact adjustLoop_fits P size _ h ha hfit
  · obtain ⟨gwf, gkeeps, gcont, galign, gcur⟩ := grow_spec P size h
    obtain ⟨-, hwr, hsize⟩ := newBlock_spec P s size
    have e : alignBinary s.currentAlignment align - s.currentAlignment =
        gap s.currentAlignment align := by
      rw [alignBinary_eq ha]; omega
    -- the new block starts at the remainder of the counter, so the padding fits its slack
    have hslack := mod_add_gap_le s.currentAlignment (by decide : 0 < maxAlignment) ha.dvd
    obtain ⟨buf, s', hadj, hres⟩ := adjustLoop_fits P size s.after.length gwf ha
      (by rw [gcur, galign, hwr]; omega)
    refine ⟨buf, s', ?_, ?_⟩
    · rw [adjustLoop]
      simp only [e]
      rw [if_neg fun hc => hfit hc.2]
      exact hadj
    · obtain ⟨mid, m1, m2, m3, m4, m5, m6, m7⟩ := hres.mid
      exact ⟨mid, m1, gkeeps.trans m2, m3.trans gcont, m4.trans galign, m5, m6, m7⟩

/-- Storing into the reserved bytes: they follow the old contents behind the
padding, and what is not stored is whatever the buffer held. -/
theorem Reserved.poke {size buf : Nat} (h : Reserved s size align buf s')
    {bs : List UInt8} (hlen : bs.length ≤ size) :
    ∃ tail, (bs ++ tail).length = size ∧ Emits [⟨align, bs ++ tail⟩] s (s'.poke buf bs) := by
  obtain ⟨mid, hwf, hkeeps, hcont, hcur, hbuf, hroom, rfl⟩ := h.mid
  have hcwf : mid.current.Wf := hwf.blocks_wf _ (by simp [blocks])
  -- the bytes of the reserved area that are not stored are already in the buffer
  let tail := (mid.current.buf.drop (buf + bs.length)).take (size - bs.length)
  have hroom' : buf + size ≤ mid.current.buf.length := hroom
  have htail : (bs ++ tail).length = size := by
    simp only [tail, length_append, length_take, length_drop]
    omega
  have hpoke : mid.current.poke buf bs = mid.current.poke buf (bs ++ tail) := by
    have e : mid.current.buf.drop (buf + bs.length) = tail ++ mid.current.buf.drop (buf + size) := by
      have e2 : buf + bs.length + (size - bs.length) = buf + size := by omega
      have e3 := take_append_drop (size - bs.length) (mid.current.buf.drop (buf + bs.length))
      rw [drop_drop, e2] at e3
      exact e3.symm
    simp only [MessageBlock.poke, e, htail, append_assoc]
  have hwr : mid.current.wrPtr ≤ buf := by omega
  have hsz : buf + (bs ++ tail).length ≤ mid.current.size := by rw [htail]; exact hroom
  obtain ⟨fill, hfill, hconts⟩ := contents_append hcwf hwr hsz
  have hwfs := wf_append hcwf hwr hsz
  rw [htail] at hconts hwfs
  -- the current block after the store, written as in `contents_append`
  have hblk : ({ mid.current with wrPtr := buf + size } : MessageBlock).poke buf bs =
      { mid.current.poke buf (bs ++ tail) with wrPtr := buf + size } := by
    rw [← hpoke]
    rfl
  refine ⟨tail, htail, ⟨hwf.writable, hwf.after_nil, ?_, ?_⟩,
    ⟨hkeeps.swap, hkeeps.major, hkeeps.minor, hkeeps.good⟩, fill ++ (bs ++ tail), ?_, ?_⟩
  · intro mb hmb
    simp only [OutputCDR.poke, blocks, mem_append, mem_singleton] at hmb
    rcases hmb with hmb | rfl
    · exact hwf.blocks_wf mb (by simp [blocks, hmb])
    · rw [hblk]; exact hwfs
  · have htot := hwf.total
    have hrd := hcwf.rd_le
    simp only [OutputCDR.poke, totalLength, blocks, map_append, sum_append, map_cons,
      map_nil, sum_cons, sum_nil, MessageBlock.length, MessageBlock.poke] at htot ⊢
    omega
  · refine Laid.single ⟨align, bs ++ tail⟩ ?_
    have hl := hwf.length_contents
    rw [hcont] at hl
    show fill.length = gap s.contents.length align
    rw [hfill, hl]
    omega
  · rw [← hcont]
    simp only [OutputCDR.poke, OutputCDR.contents, blocks, flatMap_append, flatMap_cons,
      flatMap_nil, append_nil, hblk, hconts, append_assoc]

theorem Reserved.poke_exact {size buf : Nat} (h : Reserved s size align buf s')
    {bs : List UInt8} (hlen : bs.length = size) : Emits [⟨align, bs⟩] s (s'.poke buf bs) := by
  obtain ⟨tail, htail, hem⟩ := h.poke (Nat.le_of_eq hlen)
  have : tail = [] := by
    rw [length_append] at htail
    exact length_eq_zero_iff.mp (by omega)
  rwa [this, append_nil] at hem

theorem Reserved.keeps {size buf : Nat} (h : Reserved s size align buf s') : Keeps s s' := by
  obtain ⟨mid, -, hk, -, -, -, -, rfl⟩ := h.mid
  exact ⟨hk.swap, hk.major, hk.minor, hk.good⟩

/-! ## Primitive writers -/

/-- The stream swaps what it writes. -/
def swaps (P : Platform) (s : OutputCDR) : Bool := P.swapOnWrite && s.doByteSwap

/-- The bytes of a value on the wire. -/
def wire (P : Platform) (swap : Bool) (k : Kind) (x : k.Val) : List UInt8 :=
  if swap then (k.toMem P.endian x).reverse else k.toMem P.endian x

/-- The segment of a value. -/
def seg (P : Platform) (swap : Bool) (k : Kind) (x : k.Val) : Seg UInt8 :=
  ⟨k.align, wire P swap k x⟩

theorem length_wire (P : Platform) (swap : Bool) (k : Kind) (x : k.Val) :
    (wire P swap k x).length = k.size := by
  unfold wire
  split <;> simp [Kind.length_toMem]

theorem swaps_keeps {P : Platform} (h : Keeps s s') : s'.swaps P = s.swaps P := by
  rw [swaps, swaps, h.swap]

variable (P : Platform)

theorem write1_emits (h : s.Wf) (x : UInt8) :
    (s.write1 P x).1 = true ∧ Emits [⟨1, [x]⟩] s (s.write1 P x).2 := by
  obtain ⟨buf, s', hadj, hres⟩ := adjust_spec P h 1 (.inl rfl : IsAlign 1)
  rw [write1, hadj]
  exact ⟨rfl, hres.poke_exact rfl⟩

theorem writePrim_emits (h : s.Wf) {size : Nat} (hs : IsSize size) (ha : IsAlign align)
    {x : List UInt8} (hx : x.length = size) : (s.writePrim P size align x).1 = true ∧
      Emits [⟨align, if s.swaps P then x.reverse else x⟩] s (s.writePrim P size align x).2 := by
  obtain ⟨buf, s', hadj, hres⟩ := adjust_spec P h size ha
  have hk : s'.swaps P = s.swaps P := swaps_keeps hres.keeps
  rw [writePrim, hadj]
  by_cases hsw : P.swapOnWrite = true ∧ s'.doByteSwap = true
  · have : s.swaps P = true := by rw [← hk]; simp [swaps, hsw]
    simp only [hsw, and_self, if_true, this]
    rw [swapElem_eq P.endian hs hx]
    exact ⟨trivial, hres.poke_exact (by simpa using hx)⟩
  · have : s.swaps P = false := by
      rw [← hk]
      simpa [swaps] using hsw
    simp only [hsw, if_false, this, Bool.false_eq_true]
    exact ⟨trivial, hres.poke_exact hx⟩

/-- **Scalars.** The writer of a type emits the value at the type's alignment. -/
theorem writeScalar_emits (h : s.Wf) (k : Kind) (x : k.Val) :
    (s.writeScalar P k x).1 = true ∧ Emits [seg P (s.swaps P) k x] s (s.writeScalar P k x).2 := by
  -- one byte reads the same in both directions
  have h1 : ∀ b : UInt8, (s.write1 P b).1 = true ∧
      Emits [⟨1, if s.swaps P then [b].reverse else [b]⟩] s (s.write1 P b).2 := fun b => by
    simpa using write1_emits P h b
  have hp : ∀ (k : Kind) (x : k.Val), (s.writePrim P k.size k.align (k.toMem P.endian x)).1 = true ∧
      Emits [seg P (s.swaps P) k x] s (s.writePrim P k.size k.align (k.toMem P.endian x)).2 :=
    fun k x => writePrim_emits P h k.isSize k.isAlign (k.length_toMem P.endian x)
  cases k with
  | octet => exact h1 x
  | boolean => exact h1 (octetOfBool x)
  | char => exact h1 x
  | _ => exact hp _ x

/-! ## Arrays -/

/-- The segments of an array: the booleans one by one, the other types as one
run; an empty array leaves no trace, not even padding. -/
def arraySegs (P : Platform) (swap : Bool) (k : Kind) (x : List k.Val) : List (Seg UInt8) :=
  if k = .boolean then x.map (seg P swap k)
  else if x = [] then []
  else [⟨k.align, x.flatMap (wire P swap k)⟩]

theorem writeArray_emits (h : s.Wf) (k : Kind) {x : List k.Val} {length : UInt32}
    (hl : length.toNat = x.length) (hne : x ≠ []) :
    (s.writeArray P (memory P k x) k.size k.align length).1 = true ∧
      Emits [⟨k.align, x.flatMap (wire P (s.swaps P) k)⟩] s
        (s.writeArray P (memory P k x) k.size k.align length).2 := by
  have hmem : ∀ y ∈ x, (k.toMem P.endian y).length = k.size := fun y _ => k.length_toMem P.endian y
  have hlen : (memory P k x).length = k.size * length.toNat := by
    rw [hl]; exact length_flatMap_const _ _ _ hmem
  have hne0 : ¬ length = 0 := by
    intro h0
    rw [h0] at hl
    exact hne (length_eq_zero_iff.mp hl.symm)
  obtain ⟨buf, s', hadj, hres⟩ := adjust_spec P h (k.size * length.toNat) k.isAlign
  have hk : s'.swaps P = s.swaps P := swaps_keeps hres.keeps
  rw [writeArray, if_neg hne0, hadj]
  simp only [take_of_length_le (Nat.le_of_eq hlen)]
  by_cases hsw : s.swaps P = true
  · have hb : P.swapOnWrite = true ∧ s'.doByteSwap = true := by
      rw [← hk] at hsw
      simpa [swaps] using hsw
    have hwire : x.flatMap (wire P true k) = x.flatMap fun y => (k.toMem P.endian y).reverse := rfl
    by_cases h1 : k.size = 1
    · -- elements of one byte are copied; reversing one byte changes nothing
      rw [if_pos (by simp [h1])]
      have e : x.flatMap (wire P (s.swaps P) k) = memory P k x := by
        rw [hsw, hwire, memory]
        congr 1
        funext y
        obtain ⟨b, hb⟩ := length_eq_one_iff.mp ((k.length_toMem P.endian y).trans h1)
        rw [hb]
        rfl
      rw [e]
      exact ⟨rfl, hres.poke_exact hlen⟩
    · have h2 : k.size = 2 ∨ k.size = 4 ∨ k.size = 8 ∨ k.size = 16 := by
        rcases k.isSize with h | h | h | h | h
        · exact absurd h h1
        · exact .inl h
        · exact .inr (.inl h)
        · exact .inr (.inr (.inl h))
        · exact .inr (.inr (.inr h))
      rw [if_neg (by simp [hb, h1]), if_pos h2]
      have e : (chunks (swapElem P.endian k.size) k.size length.toNat (memory P k x)).flatten =
          x.flatMap (wire P (s.swaps P) k) := by
        have hc := chunks_flatMap (swapElem P.endian k.size) (k.toMem P.endian) k.size x [] hmem
        rw [append_nil] at hc
        rw [hl, memory, hc, hsw, hwire, flatMap_def]
        congr 1
        apply map_congr_left
        intro y hy
        exact swapElem_eq P.endian k.isSize (hmem y hy)
      rw [e]
      refine ⟨rfl, hres.poke_exact ?_⟩
      rw [length_flatMap_const _ k.size _ fun y _ => length_wire P _ k y, hl]
  · have hf : s.swaps P = false := by simpa using hsw
    have hb : P.swapOnWrite = false ∨ s'.doByteSwap = false ∨ k.size = 1 := by
      rw [← hk] at hf
      simp only [swaps, Bool.and_eq_false_iff] at hf
      rcases hf with hf | hf
      · exact .inl hf
      · exact .inr (.inl hf)
    rw [if_pos hb, hf]
    exact ⟨rfl, hres.poke_exact hlen⟩

theorem writeBooleans_emits (h : s.Wf) (hg : s.goodBit = true) (x : List Bool) :
    Emits (x.map (seg P (s.swaps P) .boolean)) s (writeBooleans P x s) := by
  induction x generalizing s with
  | nil => exact .nil h
  | cons b x ih =>
    have hb := (writeScalar_emits P h .boolean b).2
    have ih := ih hb.wf (hb.keeps.good hg)
    rw [swaps_keeps hb.keeps] at ih
    rw [writeBooleans, if_pos hg]
    exact hb.append ih

theorem writeBooleanArray_emits (h : s.Wf) (hg : s.goodBit = true) (x : Arr Bool) :
    (s.writeBooleanArray P x.val x.ulen).1 = true ∧
      Emits (x.val.map (seg P (s.swaps P) .boolean)) s (s.writeBooleanArray P x.val x.ulen).2 := by
  have hem := writeBooleans_emits P h hg x.val
  have e : x.val.take x.ulen.toNat = x.val := take_of_length_le (Nat.le_of_eq x.toNat_ulen.symm)
  simp only [writeBooleanArray, e]
  exact ⟨hem.keeps.good hg, hem⟩

/-- **Arrays.** -/
theorem writeTypedArray_emits (h : s.Wf) (hg : s.goodBit = true) (k : Kind) (x : Arr k.Val) :
    (s.writeTypedArray P k x.val x.ulen).1 = true ∧
      Emits (arraySegs P (s.swaps P) k x.val) s (s.writeTypedArray P k x.val x.ulen).2 := by
  have hp : ∀ (k : Kind) (x : Arr k.Val), k ≠ .boolean →
      (s.writeArray P (memory P k x.val) k.size k.align x.ulen).1 = true ∧
      Emits (arraySegs P (s.swaps P) k x.val) s
        (s.writeArray P (memory P k x.val) k.size k.align x.ulen).2 := by
    intro k x hk
    have hl := x.toNat_ulen
    by_cases hne : x.val = []
    · have h0 : x.ulen = 0 := by
        apply UInt32.toNat_inj.mp
        rw [hl, hne]
        rfl
      rw [arraySegs, if_neg hk, if_pos hne, writeArray, if_pos h0]
      exact ⟨rfl, .nil h⟩
    · rw [arraySegs, if_neg hk, if_neg hne]
      exact writeArray_emits P h k hl hne
  -- the memory of octets and characters is the array itself
  have hoct : ∀ y : List UInt8, memory P .octet y = y := fun y => by
    exact flatMap_singleton' y
  cases k with
  | octet =>
    have := hp .octet x (by decide)
    rwa [show memory P .octet x.val = x.val from hoct x.val] at this
  | char =>
    have := hp .char x (by decide)
    rwa [show memory P .char x.val = x.val from hoct x.val] at this
  | boolean =>
    exact writeBooleanArray_emits P h hg x
  | _ => exact hp _ x (by decide)

/-! ## Strings -/

theorem flatMap_wire_char (swap : Bool) (x : List UInt8) : x.flatMap (wire P swap .char) = x := by
  have : wire P swap .char = fun c => [c] := by
    funext c
    cases swap <;> rfl
  rw [this]
  exact flatMap_singleton' x

theorem writeCharArray_emits (h : s.Wf) {x : List UInt8} {length : UInt32}
    (hl : length.toNat = x.length) (hne : x ≠ []) :
    (s.writeCharArray P x length).1 = true ∧ Emits [⟨1, x⟩] s (s.writeCharArray P x length).2 := by
  have hw := writeArray_emits P h .char hl hne
  rw [flatMap_wire_char, show memory P .char x = x from flatMap_singleton' x] at hw
  exact hw

/-- **Strings.** The length with the NUL, then the characters with the NUL, as
long as that length is a `ULong`. -/
theorem writeCString_emits (h : s.Wf) (x : CString) (hx : x.val.length + 1 < 2 ^ 32) :
    (s.writeCString P (some x)).1 = true ∧
      Emits [seg P (s.swaps P) .ulong (UInt32.ofNat (x.val.length + 1)), ⟨1, x.val ++ [0]⟩] s
        (s.writeCString P (some x)).2 := by
  have hlen : (ofNat x.val.length).toNat = x.val.length :=
    UInt32.toNat_ofNat_of_lt' (by have : UInt32.size = 2 ^ 32 := rfl; omega)
  by_cases h0 : x.val = []
  · obtain ⟨hu, eu⟩ := writeScalar_emits P h .ulong 1
    obtain ⟨hc, ec⟩ := write1_emits P eu.wf 0
    have hz : ¬ ofNat x.val.length ≠ 0 := by simp [h0]
    have hw : s.writeUlong P 1 = (true, (s.writeUlong P 1).2) := Prod.ext hu rfl
    rw [writeCString, writeString, if_neg hz, hw, h0]
    exact ⟨hc, eu.append ec⟩
  · have hnz : ofNat x.val.length ≠ 0 := by
      intro hz
      rw [hz] at hlen
      exact h0 (length_eq_zero_iff.mp hlen.symm)
    have hsucc : ofNat x.val.length + 1 = ofNat (x.val.length + 1) := (ofNat_add _ _).symm
    have hl : (ofNat (x.val.length + 1)).toNat = (x.val ++ [0]).length := by
      rw [toNat_ofNat_of_lt' hx, length_append]
      rfl
    obtain ⟨hu, eu⟩ := writeScalar_emits P h .ulong (ofNat (x.val.length + 1))
    obtain ⟨hc, ec⟩ := writeCharArray_emits P eu.wf hl (by simp)
    have hw : s.writeUlong P (ofNat (x.val.length + 1)) =
        (true, (s.writeUlong P (ofNat (x.val.length + 1))).2) := Prod.ext hu rfl
    rw [writeCString, writeString, if_pos hnz, hsucc, hw]
    exact ⟨hc, eu.append ec⟩

/-- The length of a string of 2^32 - 1 characters wraps: a zero length is
written, and no character. -/
theorem writeCString_wrap (h : s.Wf) (x : CString) (hx : x.val.length + 1 = 2 ^ 32) :
    (s.writeCString P (some x)).1 = true ∧
      Emits [seg P (s.swaps P) .ulong (0 : UInt32)] s (s.writeCString P (some x)).2 := by
  have hsucc : ofNat x.val.length + 1 = 0 := by
    rw [show ofNat x.val.length + 1 = ofNat (x.val.length + 1) from (ofNat_add _ _).symm, hx]
    rfl
  have hnz : ofNat x.val.length ≠ 0 := by
    intro hz
    rw [hz] at hsucc
    exact absurd hsucc (by decide)
  obtain ⟨hu, eu⟩ := writeScalar_emits P h .ulong 0
  have hw : s.writeUlong P 0 = (true, (s.writeUlong P 0).2) := Prod.ext hu rfl
  rw [writeCString, writeString, if_pos hnz, hsucc, hw]
  exact ⟨rfl, eu⟩

end OutputCDR

end Atcd.Cdr
