import Atcd.Cdr.Size
/-!
# The size stream against the output stream

The two streams run side by side on the same operations, for every GIOP
version, every `wchar_maxbytes_` and wherever the output stream's blocks end.
They agree on success except for one habit of the output stream:
`write_boolean_array` and, for a length other than 0, `write_wchar_array_i`
return `good_bit_`, which an earlier failed operation may have cleared
(`WriteOp.reports`).

`Both` is an operation that succeeds in both streams and adds the same segments;
`Agree` is what any operation guarantees.

Results:
* `writeOp_agree`: the step lemma.
* `runs_agree`: over any sequence, an operation succeeds in one stream exactly
  when it does in the other, as long as it does not report `good_bit_` or no
  operation before it has failed; while all succeed the lengths are equal.
* `boolean_array_refused`: behind a failed operation a boolean array is refused
  by the output stream and accepted by the size stream.
-/
namespace Atcd.Cdr

open Atcd.Core OutputCDR

/-- The output stream is in order and the versions are the same. -/
structure Sync (s : OutputCDR) (z : SizeCDR) : Prop where
  wf : s.Wf
  major : s.majorVersion = z.majorVersion
  minor : s.minorVersion = z.minorVersion

/-- Both streams accept the operation and grow by the same segments. -/
structure Both (s : OutputCDR) (z : SizeCDR) (o : Bool × OutputCDR) (q : Bool × SizeCDR) : Prop where
  outTrue : o.1 = true
  sizeTrue : q.1 = true
  segs : ∃ segs, Emits segs s o.2 ∧ q.2 = { z with size := extent z.size segs }

/-- What an operation guarantees: the results agree unless it reports a
`good_bit_` that was cleared before, and the lengths stay equal as long as
nothing fails. -/
structure Agree (rep : Bool) (s : OutputCDR) (z : SizeCDR) (o : Bool × OutputCDR)
    (q : Bool × SizeCDR) : Prop where
  sync : Sync o.2 q.2
  version : o.2.majorVersion = s.majorVersion ∧ o.2.minorVersion = s.minorVersion
  result : s.goodBit = true ∨ rep = false → o.1 = q.1
  good : s.goodBit = true → o.1 = true → o.2.goodBit = true
  length : s.goodBit = true → o.1 = true → s.totalLength = z.totalLength →
    o.2.totalLength = q.2.totalLength

variable {P : Platform} {s : OutputCDR} {z : SizeCDR}

variable {o : Bool × OutputCDR} {q : Bool × SizeCDR}

theorem Both.sync (h : Both s z o q) (hs : Sync s z) : Sync o.2 q.2 := by
  obtain ⟨segs, he, hq⟩ := h.segs
  rw [hq]
  exact ⟨he.wf, he.keeps.major.trans hs.major, he.keeps.minor.trans hs.minor⟩

theorem Both.keeps (h : Both s z o q) : Keeps s o.2 := by
  obtain ⟨segs, he, -⟩ := h.segs
  exact he.keeps

theorem Both.length (h : Both s z o q) (hs : s.Wf) (he : s.totalLength = z.totalLength) :
    o.2.totalLength = q.2.totalLength := by
  obtain ⟨segs, hem, hq⟩ := h.segs
  rw [hem.totalLength_eq hs, he, hq]
  rfl

theorem Both.agree (h : Both s z o q) (hs : Sync s z) (rep : Bool) : Agree rep s z o q :=
  ⟨h.sync hs, ⟨h.keeps.major, h.keeps.minor⟩, fun _ => h.outTrue.trans h.sizeTrue.symm,
    fun hg _ => h.keeps.good hg, fun _ _ he => h.length hs.wf he⟩

theorem Both.then {o' : Bool × OutputCDR} {q' : Bool × SizeCDR} (h : Both s z o q)
    (g : Both o.2 q.2 o' q') : Both s z o' q' := by
  obtain ⟨segs, he, hq⟩ := h.segs
  obtain ⟨segs', he', hq'⟩ := g.segs
  refine ⟨g.outTrue, g.sizeTrue, segs ++ segs', he.append he', ?_⟩
  rw [hq', hq, extent_append]

/-- An operation behind one both streams have accepted. -/
theorem Both.thenAgree {rep : Bool} {o' : Bool × OutputCDR} {q' : Bool × SizeCDR} (h : Both s z o q)
    (hs : Sync s z) (g : Agree rep o.2 q.2 o' q') : Agree rep s z o' q' :=
  ⟨g.sync, ⟨g.version.1.trans h.keeps.major, g.version.2.trans h.keeps.minor⟩,
    fun hr => g.result (hr.imp h.keeps.good id), fun hg => g.good (h.keeps.good hg),
    fun hg ho he => g.length (h.keeps.good hg) ho (h.length hs.wf he)⟩

theorem fail_agree (hs : Sync s z) (rep : Bool) : Agree rep s z s.fail z.fail :=
  ⟨⟨⟨hs.wf.writable, hs.wf.after_nil, hs.wf.blocks_wf, hs.wf.total⟩, hs.major, hs.minor⟩,
    ⟨rfl, rfl⟩, fun _ => rfl, fun _ h => absurd h (by simp [OutputCDR.fail]),
    fun _ h => absurd h (by simp [OutputCDR.fail])⟩

/-! ## Primitives and arrays -/

theorem adjust_both (ho : o.1 = true) {size align : Nat} (ha : IsAlign align) {data : List UInt8}
    (hdata : data.length = size) (hem : Emits [⟨align, data⟩] s o.2) :
    Both s z o (true, z.adjust size align) := by
  refine ⟨ho, rfl, _, hem, ?_⟩
  rw [SizeCDR.adjust, alignBinary_eq ha]
  simp only [extent_cons, extent_nil, hdata]
  congr 1
  omega

theorem write1_both (hs : Sync s z) (x y : UInt8) : Both s z (s.write1 P x) (z.write1 y) := by
  obtain ⟨ho, hem⟩ := write1_emits P hs.wf x
  exact adjust_both ho (.inl rfl) rfl hem

theorem writePrim_both (hs : Sync s z) {size align : Nat} (hsize : IsSize size) (ha : IsAlign align)
    {x : List UInt8} (hx : x.length = size) :
    Both s z (s.writePrim P size align x) (true, z.adjust size align) := by
  obtain ⟨ho, hem⟩ := writePrim_emits P hs.wf hsize ha hx
  refine adjust_both ho ha ?_ hem
  split <;> simp [hx]

theorem write2_both (hs : Sync s z) (x y : UInt16) : Both s z (s.write2 P x) (z.write2 y) :=
  writePrim_both hs (.inr (.inl rfl)) (.inr (.inl rfl)) (length_store _ _ _)

theorem write4_both (hs : Sync s z) (x y : UInt32) : Both s z (s.write4 P x) (z.write4 y) :=
  writePrim_both hs (.inr (.inr (.inl rfl))) (.inr (.inr (.inl rfl))) (length_store _ _ _)

theorem write8_both (hs : Sync s z) (x y : UInt64) : Both s z (s.write8 P x) (z.write8 y) :=
  writePrim_both hs (.inr (.inr (.inr (.inl rfl)))) (.inr (.inr (.inr rfl))) (length_store _ _ _)

theorem write16_both (hs : Sync s z) (x y : LongDouble) : Both s z (s.write16 P x) (z.write16 y) :=
  writePrim_both hs (.inr (.inr (.inr (.inr rfl)))) (.inr (.inr (.inr rfl))) x.length_bytes

theorem writeScalar_both (hs : Sync s z) (k : Kind) (x : k.Val) :
    Both s z (s.writeScalar P k x) (z.writeScalar k x) := by
  cases k with
  | octet => exact write1_both hs x x
  | boolean => exact write1_both hs (octetOfBool x) (octetOfBool x)
  | char => exact write1_both hs x x
  | short => exact write2_both hs (Int16.toUInt16 x) (Int16.toUInt16 x)
  | ushort => exact write2_both hs x x
  | long => exact write4_both hs (Int32.toUInt32 x) (Int32.toUInt32 x)
  | ulong => exact write4_both hs x x
  | longlong => exact write8_both hs (Int64.toUInt64 x) (Int64.toUInt64 x)
  | ulonglong => exact write8_both hs x x
  | float => exact write4_both hs x x
  | double => exact write8_both hs x x
  | longdouble => exact write16_both hs x x

theorem length_swapElem (e : Endian) {size : Nat} (h : size = 2 ∨ size = 4 ∨ size = 8 ∨ size = 16)
    (bs : List UInt8) : (swapElem e size bs).length = size := by
  rcases h with rfl | rfl | rfl | rfl
  · exact length_store _ _ _
  · exact length_store _ _ _
  · exact length_store _ _ _
  · show (swap8 e _ ++ swap8 e _).length = 16
    rw [List.length_append, swap8, swap8, length_store, length_store]

theorem writeArray_both (hs : Sync s z) (x : List UInt8) {size align : Nat} (hsize : IsSize size)
    (ha : IsAlign align) (length : UInt32) :
    Both s z (s.writeArray P x size align length) (z.writeArray size align length) := by
  rw [OutputCDR.writeArray, SizeCDR.writeArray]
  by_cases h0 : length = 0
  · rw [if_pos h0, if_pos h0]
    exact ⟨rfl, rfl, [], .nil hs.wf, rfl⟩
  · rw [if_neg h0, if_neg h0]
    obtain ⟨buf, s', hadj, hres⟩ := adjust_spec P hs.wf (size * length.toNat) ha
    rw [hadj]
    -- any data that is not longer than the reserved bytes fills one segment
    have hpoke : ∀ bs : List UInt8, bs.length ≤ size * length.toNat →
        Both s z (true, s'.poke buf bs) (true, z.adjust (size * length.toNat) align) := by
      intro bs hbs
      obtain ⟨tail, htail, hem⟩ := hres.poke hbs
      exact adjust_both rfl ha htail hem
    simp only
    split
    · exact hpoke _ (List.length_take_le _ _)
    · next hne =>
      have h2 : size = 2 ∨ size = 4 ∨ size = 8 ∨ size = 16 := by
        unfold IsSize at hsize
        omega
      rw [if_pos h2]
      refine hpoke _ (Nat.le_of_eq ?_)
      have hch : ∀ (n : Nat) (bs : List UInt8),
          (chunks (swapElem P.endian size) size n bs).flatten.length = size * n := by
        intro n
        induction n with
        | zero => exact fun bs => rfl
        | succ n ih =>
          intro bs
          rw [chunks, List.flatten_cons, List.length_append, length_swapElem P.endian h2, ih,
            Nat.mul_succ, Nat.add_comm]
      exact hch _ _

theorem writeBooleanArray_agree (hs : Sync s z) (x : Arr Bool) :
    Agree true s z (s.writeBooleanArray P x.val x.ulen) (z.writeBooleanArray x.ulen) := by
  by_cases hg : s.goodBit = true
  · obtain ⟨ho, hem⟩ := writeBooleanArray_emits P hs.wf hg x
    refine Both.agree ⟨ho, rfl, _, hem, ?_⟩ hs true
    rw [extent_ones _ _ _ (fun _ _ => rfl) fun y _ => length_wire P _ .boolean y,
      SizeCDR.writeBooleanArray, SizeCDR.adjust, alignBinary_eq (.inl rfl), gap_one, x.toNat_ulen]
    simp only [Nat.add_zero, Nat.sub_self]
  · have hstop : ∀ xs : List Bool, writeBooleans P xs s = s := by
      intro xs
      cases xs with
      | nil => rfl
      | cons b xs => rw [writeBooleans, if_neg hg]
    rw [OutputCDR.writeBooleanArray, hstop]
    refine ⟨⟨hs.wf, hs.major, hs.minor⟩, ⟨rfl, rfl⟩, ?_, fun h => absurd h hg, fun h => absurd h hg⟩
    rintro (h | h)
    · exact absurd h hg
    · exact absurd h (by decide)

theorem writeTypedArray_agree (hs : Sync s z) (k : Kind) (x : Arr k.Val) :
    Agree ((WriteOp.array k x).reports P s.majorVersion s.minorVersion) s z (s.writeTypedArray P k x.val x.ulen)
      (z.writeTypedArray x.ulen k) := by
  have hp : ∀ (k : Kind) (mem : List UInt8) (n : UInt32) (rep : Bool),
      Agree rep s z (s.writeArray P mem k.size k.align n) (z.writeArray k.size k.align n) :=
    fun k mem n rep => (writeArray_both hs mem k.isSize k.isAlign n).agree hs rep
  cases k with
  | octet => exact hp .octet _ _ _
  | boolean => exact writeBooleanArray_agree hs x
  | char => exact hp .char _ _ _
  | short => exact hp .short _ _ _
  | ushort => exact hp .ushort _ _ _
  | long => exact hp .long _ _ _
  | ulong => exact hp .ulong _ _ _
  | longlong => exact hp .longlong _ _ _
  | ulonglong => exact hp .ulonglong _ _ _
  | float => exact hp .float _ _ _
  | double => exact hp .double _ _ _
  | longdouble => exact hp .longdouble _ _ _

/-! ## Strings and wide characters -/

theorem writeString_both (hs : Sync s z) (len : UInt32) (x : List UInt8) :
    Both s z (s.writeString P len x) (z.writeString len) := by
  have hu : ∀ n : UInt32, Both s z (s.writeUlong P n) (z.writeUlong n) := fun n => write4_both hs n n
  rw [OutputCDR.writeString, SizeCDR.writeString]
  by_cases h0 : len ≠ 0
  · have h := hu (len + 1)
    rw [if_pos h0, if_pos h0,
      show s.writeUlong P (len + 1) = (true, (s.writeUlong P (len + 1)).2) from Prod.ext h.outTrue rfl,
      show z.writeUlong (len + 1) = (true, (z.writeUlong (len + 1)).2) from Prod.ext h.sizeTrue rfl]
    exact h.then (writeArray_both (h.sync hs) x (.inl rfl) (.inl rfl) (len + 1))
  · have h := hu 1
    rw [if_neg h0, if_neg h0,
      show s.writeUlong P 1 = (true, (s.writeUlong P 1).2) from Prod.ext h.outTrue rfl,
      show z.writeUlong 1 = (true, (z.writeUlong 1).2) from Prod.ext h.sizeTrue rfl]
    exact h.then (write1_both (h.sync hs) 0 0)

theorem writeWcharPlain_both (hs : Sync s z) (x : UInt32) :
    Both s z (s.writeWcharPlain P x) (z.writeWcharPlain P x) := by
  rw [OutputCDR.writeWcharPlain, SizeCDR.writeWcharPlain]
  split
  · exact write4_both hs x x
  · split
    · exact write2_both hs _ _
    · exact write1_both hs _ _

theorem writeWchar_agree (hs : Sync s z) (x : UInt32) :
    Agree false s z (s.writeWchar P x) (z.writeWchar P x) := by
  rw [OutputCDR.writeWchar, SizeCDR.writeWchar, ← hs.major, ← hs.minor]
  split
  · exact fail_agree hs false
  · split
    · have h : Both s z (s.write1 P (UInt8.ofNat P.wcharMaxbytes))
          (z.write1 (UInt8.ofNat P.wcharMaxbytes)) := write1_both hs _ _
      simp only
      rw [show s.write1 P (UInt8.ofNat P.wcharMaxbytes) =
          (true, (s.write1 P (UInt8.ofNat P.wcharMaxbytes)).2) from Prod.ext h.outTrue rfl]
      have hoct : ∀ mem : List UInt8, Agree false s z
          ((s.write1 P (UInt8.ofNat P.wcharMaxbytes)).2.writeOctetArray P mem
            (UInt8.ofNat P.wcharMaxbytes).toUInt32)
          ((z.write1 (UInt8.ofNat P.wcharMaxbytes)).2.writeOctetArray
            (UInt8.ofNat P.wcharMaxbytes).toUInt32) := fun mem =>
        (h.then (writeArray_both (h.sync hs) mem (.inl rfl) (.inl rfl) _)).agree hs false
      simp only
      split
      · exact hoct _
      · split
        · exact hoct _
        · exact hoct _
    · split
      · exact fail_agree hs false
      · exact (writeWcharPlain_both hs x).agree hs false

theorem writeWcharArrayI_agree (hs : Sync s z) (hmb : P.wcharMaxbytes ≠ 0) (x : List UInt32)
    (length : UInt32) :
    Agree (length ≠ 0) s z (s.writeWcharArrayI P x length) (z.writeWcharArrayI P length) := by
  rw [OutputCDR.writeWcharArrayI, SizeCDR.writeWcharArrayI]
  by_cases h0 : length = 0
  · rw [if_pos h0, if_pos h0]
    have hb : Both s z (true, s) (true, z) := ⟨rfl, rfl, [], .nil hs.wf, rfl⟩
    exact hb.agree hs _
  · rw [if_neg h0, if_neg h0, decide_eq_true h0]
    have ha : IsAlign (if P.wcharMaxbytes = 2 then shortAlign else octetAlign) := by
      split
      · exact .inr (.inl rfl)
      · exact .inl rfl
    simp only
    generalize (if P.wcharMaxbytes = 2 then shortAlign else octetAlign) = align at ha ⊢
    obtain ⟨buf, s', hadj, hres⟩ := adjust_spec P hs.wf (P.wcharMaxbytes * length.toNat) ha
    rw [hadj]
    simp only
    -- the stored bytes fit; the result is the bit, which was kept
    have hpoke : ∀ bs : List UInt8, bs.length ≤ P.wcharMaxbytes * length.toNat →
        Agree true s z ((s'.poke buf bs).goodBit, s'.poke buf bs)
          (true, z.adjust (P.wcharMaxbytes * length.toNat) align) := by
      intro bs hbs
      obtain ⟨tail, htail, hem⟩ := hres.poke hbs
      have hb : Both s z (true, s'.poke buf bs)
          (true, z.adjust (P.wcharMaxbytes * length.toNat) align) := adjust_both rfl ha htail hem
      refine ⟨hb.sync hs, ⟨hem.keeps.major, hem.keeps.minor⟩, ?_, fun hg _ => hem.keeps.good hg,
        fun _ _ he => hb.length hs.wf he⟩
      rintro (hg | hg)
      · exact hem.keeps.good hg
      · exact absurd hg (by decide)
    have htake : (x.take length.toNat).length ≤ length.toNat := List.length_take_le _ _
    split
    · next h2 =>
      have hflat : ∀ f : UInt32 → List UInt8, (∀ c, (f c).length = 2) →
          ((x.take length.toNat).map f).flatten.length ≤ P.wcharMaxbytes * length.toNat := by
        intro f hf
        have := length_flatMap_const f 2 (x.take length.toNat) fun c _ => hf c
        rw [List.flatMap_def] at this
        rw [this, h2]
        exact Nat.mul_le_mul_left 2 htake
      split
      · rw [List.map_map]
        refine hpoke _ (hflat _ ?_)
        exact fun c => length_swapElem P.endian (.inl rfl) _
      · refine hpoke _ (hflat _ ?_)
        exact fun c => length_store _ _ _
    · refine hpoke _ ?_
      rw [List.length_map]
      exact Nat.le_trans htake (Nat.le_mul_of_pos_left _ (Nat.pos_of_ne_zero hmb))

theorem writeWcharArray_agree (hs : Sync s z) (x : List UInt32) (length : UInt32) :
    Agree (wcharArrayReports P length) s z (s.writeWcharArray P x length)
      (z.writeWcharArray P length) := by
  rw [OutputCDR.writeWcharArray, SizeCDR.writeWcharArray]
  split
  · exact fail_agree hs _
  · next hmb =>
    split
    · have hsize : IsSize P.wcharSize := by
        rcases P.wcharSize_eq with h | h
        · exact .inr (.inl h)
        · exact .inr (.inr (.inl h))
      have ha : IsAlign (if P.wcharSize = 2 then shortAlign else longAlign) := by
        split
        · exact .inr (.inl rfl)
        · exact .inr (.inr (.inl rfl))
      exact (writeArray_both hs _ hsize ha length).agree hs _
    · next hne =>
      have hrep : wcharArrayReports P length = decide (length ≠ 0) := by
        simp only [wcharArrayReports, ne_eq, hmb, hne, not_false_eq_true, true_and]
      exact hrep ▸ writeWcharArrayI_agree hs hmb x length

theorem writeWstring_agree (hs : Sync s z) (len : UInt32) (x : Option (List UInt32)) :
    Agree ((WriteOp.wstring len x).reports P s.majorVersion s.minorVersion) s z
      (s.writeWstring P len x) (z.writeWstring P len x) := by
  have hu : ∀ n : UInt32, Both s z (s.writeUlong P n) (z.writeUlong n) := fun n => write4_both hs n n
  have eo : ∀ n : UInt32, s.writeUlong P n = (true, (s.writeUlong P n).2) :=
    fun n => Prod.ext (hu n).outTrue rfl
  have ez : ∀ n : UInt32, z.writeUlong n = (true, (z.writeUlong n).2) :=
    fun n => Prod.ext (hu n).sizeTrue rfl
  unfold OutputCDR.writeWstring SizeCDR.writeWstring
  rw [← hs.major, ← hs.minor]
  split
  · exact fail_agree hs _
  · split
    · next hv =>
      cases x with
      | some x =>
        rw [eo, ez, WriteOp.reports, if_pos hv]
        exact (hu _).thenAgree hs (writeWcharArray_agree ((hu _).sync hs) x len)
      | none => exact (hu 0).agree hs _
    · next hv =>
      cases x with
      | some x =>
        rw [eo, ez, WriteOp.reports, if_neg hv]
        exact (hu _).thenAgree hs (writeWcharArray_agree ((hu _).sync hs) x (len + 1))
      | none =>
        simp only
        rw [eo, ez]
        exact (hu 1).thenAgree hs (writeWchar_agree ((hu 1).sync hs) 0)

/-! ## Sequences -/

/-- **Step.** Every operation agrees in the two streams. -/
theorem writeOp_agree (P : Platform) (hs : Sync s z) (op : WriteOp) :
    Agree (op.reports P s.majorVersion s.minorVersion) s z (s.writeOp P op) (z.writeOp P op) := by
  cases op with
  | scalar k x => exact (writeScalar_both hs k x).agree hs _
  | array k x => exact writeTypedArray_agree hs k x
  | string len x => exact (writeString_both hs len x).agree hs _
  | cstring x =>
    cases x with
    | some x => exact (writeString_both hs _ _).agree hs _
    | none => exact (writeString_both hs 0 []).agree hs _
  | wchar x => exact writeWchar_agree hs x
  | wcharArray x n => exact writeWcharArray_agree hs x n
  | wstring len x => exact writeWstring_agree hs len x

/-- **Success.** In any run, an operation that does not report `good_bit_`, or
that no failed operation precedes, has the same result in both streams. -/
theorem results_agree (P : Platform) (ops : List WriteOp) :
    ∀ {s : OutputCDR} {z : SizeCDR}, Sync s z → ∀ (i : Nat) (op : WriteOp), ops[i]? = some op →
      op.reports P s.majorVersion s.minorVersion = false ∨ s.goodBit = true ∧
          (∀ j < i, (s.results P ops)[j]? = some true) →
      (s.results P ops)[i]? = (z.results P ops)[i]? := by
  induction ops with
  | nil => intro s z _ i op hop; simp at hop
  | cons o ops ih =>
    intro s z hs i op hop hcond
    have hstep := writeOp_agree P hs o
    rw [OutputCDR.results, SizeCDR.results]
    cases i with
    | zero =>
      simp only [List.getElem?_cons_zero, Option.some.injEq] at hop ⊢
      rw [hop] at hstep ⊢
      exact hstep.result (hcond.symm.imp And.left id)
    | succ i =>
      refine ih hstep.sync i op hop ?_
      rw [hstep.version.1, hstep.version.2]
      refine hcond.imp id ?_
      rintro ⟨hg, hall⟩
      rw [OutputCDR.results] at hall
      have hfst : (s.writeOp P o).1 = true := by simpa using hall 0 (by omega)
      exact ⟨hstep.good hg hfst, fun j hj => by simpa using hall (j + 1) (by omega)⟩

/-- **Length.** While all operations succeed the streams have one length. -/
theorem lengths_agree (P : Platform) (ops : List WriteOp) :
    ∀ {s : OutputCDR} {z : SizeCDR}, Sync s z → s.goodBit = true →
      s.totalLength = z.totalLength → (∀ r ∈ s.results P ops, r = true) →
      (s.writeOps P ops).totalLength = (z.writeOps P ops).totalLength := by
  induction ops with
  | nil => exact fun _ _ he _ => he
  | cons o ops ih =>
    intro s z hs hg he hall
    have hstep := writeOp_agree P hs o
    rw [OutputCDR.results] at hall
    have hfst : (s.writeOp P o).1 = true := hall _ (by simp)
    exact ih hstep.sync (hstep.good hg hfst) (hstep.length hg hfst he)
      fun r hr => hall r (by simp [hr])

theorem sync_init (P : Platform) (size byteOrder : Nat) (major minor : UInt8) :
    Sync (OutputCDR.init P size byteOrder major minor) (SizeCDR.init major minor) :=
  ⟨init_wf P size byteOrder major minor, rfl, rfl⟩

/-- **The size stream agrees with the encoder.** For every sequence of
operations, GIOP version and `wchar_maxbytes_`, and wherever the blocks of the
output stream end: an operation that does not report `good_bit_`, or that no
failed operation precedes, succeeds in one stream exactly when it succeeds in
the other; and if the operations of a sequence all succeed the two lengths are
equal. -/
theorem runs_agree (P : Platform) (size byteOrder : Nat) (major minor : UInt8)
    (ops : List WriteOp) :
    let s := OutputCDR.init P size byteOrder major minor
    let z := SizeCDR.init major minor
    (∀ (i : Nat) (op : WriteOp), ops[i]? = some op →
      op.reports P major minor = false ∨ (∀ j < i, (s.results P ops)[j]? = some true) →
      (s.results P ops)[i]? = (z.results P ops)[i]?) ∧
    ((∀ r ∈ s.results P ops, r = true) →
      (s.writeOps P ops).totalLength = (z.writeOps P ops).totalLength) := by
  intro s z
  have hs := sync_init P size byteOrder major minor
  have he : s.totalLength = z.totalLength := (init_wf P size byteOrder major minor).total
  exact ⟨fun i op hop hcond => results_agree P ops hs i op hop (hcond.imp id fun h => ⟨rfl, h⟩),
    lengths_agree P ops hs rfl he⟩

/-- An octet, a wide string with its length in bytes and an array of longs in
GIOP 1.2. -/
theorem runs_agree_wide :
    let ops := [.scalar .octet 1, .wstring 2 (some [65, 66]), .array .long ⟨[-1, 7], by decide⟩]
    ((OutputCDR.init .plain 24 1 1 2).results .plain ops)[1]? =
        ((SizeCDR.init 1 2).results .plain ops)[1]? ∧
      ((OutputCDR.init .plain 24 1 1 2).writeOps .plain ops).totalLength =
        ((SizeCDR.init 1 2).writeOps .plain ops).totalLength :=
  ⟨(runs_agree .plain 24 1 1 2 _).1 1 _ rfl (.inr (by decide)),
    (runs_agree .plain 24 1 1 2 _).2 (by decide)⟩

/-- In GIOP 1.0 a wide character is refused by both streams; the boolean array
behind it is refused by the output stream only. -/
theorem boolean_array_refused :
    let ops := [.wchar 65, .array .boolean ⟨[true], by decide⟩]
    (OutputCDR.init .plain 0 1 1 0).results .plain ops = [false, false] ∧
      (SizeCDR.init 1 0).results .plain ops = [false, true] := by
  decide

end Atcd.Cdr
