import Atcd.Giop.Fragmentation
import Atcd.Giop.Framing
/-!
# Fragmented messages are read back

The parts that are sent, joined without the headers behind the first, are a layout of what
has been inserted: at every cut the sender pads to 8, and the receiver aligns to what comes
next, which is the same where `Smooth` holds.

Behind a string, or a wide string, that ran over the bound the next part may start with the
gap of another alignment.

Results:
* `fragment_spec`, `insertAll_spec`: what the sender does to the joined octets;
* `receive_spec`: the message base gives the joined message;
* `fragments_extracted`: the values are read back, if the cuts are smooth;
* `short_behind_string_lost`: they are not, otherwise.

Both sides are hosts of the same kind, and the message arrives in one piece.
-/
namespace Atcd.Giop

open Atcd.Core Atcd.Cdr List Option OutputCDR Framing Insertion MessageBlock

variable {P : Platform} {k : Kind} {n : Nat}

/-! ## What is inserted -/

namespace Insertion

/-- The alignment of the first datum. -/
def align : Insertion n → Nat
  | .scalar k _ => k.align
  | .string _ => longAlign
  | .wstring _ => longAlign

/-- The position behind it, where it is inserted at `pos`. -/
def behind (pos : Nat) : Insertion n → Nat
  | .scalar k _ => pos + gap pos k.align + k.size
  | .string x => pos + gap pos longAlign + longSize + (x.val.length + 1)
  | .wstring x => pos + gap pos longAlign + longSize + n * x.val.length

/-- The length on the wire is a `ULong`. -/
def Fits : Insertion n → Prop
  | .scalar _ _ => True
  | .string x => x.val.length + 1 < 2 ^ 32
  | .wstring x => n * x.val.length < 2 ^ 32

instance : (i : Insertion n) → Decidable i.Fits
  | .scalar _ _ => isTrue trivial
  | .string x => inferInstanceAs (Decidable (x.val.length + 1 < 2 ^ 32))
  | .wstring x => inferInstanceAs (Decidable (n * x.val.length < 2 ^ 32))

def segs (P : Platform) (swap : Bool) (w : WideKind k n) : Insertion n → List (Seg UInt8)
  | .scalar k x => [OutputCDR.seg P swap k x]
  | .string x =>
    [OutputCDR.seg P swap .ulong (UInt32.ofNat (x.val.length + 1)), ⟨1, x.val ++ [0]⟩]
  | .wstring x => OutputCDR.wideSegs P swap w x.val

variable {swap : Bool} {w : WideKind k n}

theorem segs_head (i : Insertion n) :
    ∃ s rest, i.segs P swap w = s :: rest ∧ s.align = i.align := by
  cases i with
  | scalar k x => exact ⟨_, _, rfl, rfl⟩
  | string x => exact ⟨_, _, rfl, rfl⟩
  | wstring x => exact ⟨_, _, rfl, rfl⟩

theorem align_isAlign (i : Insertion n) : IsAlign i.align := by
  cases i with
  | scalar k x => exact k.isAlign
  | string x => exact .inr (.inr (.inl rfl))
  | wstring x => exact .inr (.inr (.inl rfl))

theorem segs_dvd (i : Insertion n) : ∀ s ∈ i.segs P swap w, s.align ∣ maxAlignment := by
  intro s hs
  cases i with
  | scalar k x =>
    obtain rfl := mem_singleton.mp hs
    exact k.isAlign.dvd
  | string x =>
    simp only [segs, mem_cons, not_mem_nil, or_false] at hs
    rcases hs with rfl | rfl
    · exact Kind.ulong.isAlign.dvd
    · exact Nat.one_dvd _
  | wstring x =>
    simp only [segs, wideSegs, mem_cons] at hs
    rcases hs with rfl | hs
    · exact Kind.ulong.isAlign.dvd
    · split at hs
      · simp at hs
      · obtain rfl := mem_singleton.mp hs
        exact k.isAlign.dvd

theorem extent_segs (i : Insertion n) (pos : Nat) :
    extent pos (i.segs P swap w) = i.behind pos := by
  cases i with
  | scalar k x =>
    simp [segs, behind, seg, length_wire]
  | string x =>
    simp [segs, behind, seg, length_wire, Kind.align, Kind.size]
  | wstring x =>
    have hw := length_flatMap_const (wire P swap k) n (x.val.map w.narrow)
      fun y _ => (length_wire P swap k y).trans w.size.1
    have hmod : (pos + gap pos 4 + 4) % 4 = 0 := by
      have := add_gap_mod pos 4 (by decide)
      omega
    -- the characters are aligned behind their number
    have hgap : gap (pos + gap pos 4 + 4) n = 0 := by
      apply gap_of_aligned
      cases w <;> omega
    have ha : Kind.ulong.align = 4 := rfl
    have hs : Kind.ulong.size = 4 := rfl
    by_cases hx : x.val = []
    · simp [segs, behind, wideSegs, seg, length_wire, hx, ha, hs, longAlign, longSize]
    · rw [length_map] at hw
      simp [segs, behind, wideSegs, seg, length_wire, hx, hw, ha, hs,
        w.size.2, longAlign, longSize, hgap]

/-- Every insertion appends its segments. -/
theorem write_emits (hn : P.wcharMaxbytes = n) (hle : n ≤ P.wcharSize) {s : OutputCDR}
    (hwf : s.Wf) (hb : s.Based) (hg : s.goodBit = true)
    (hv : s.majorVersion = 1 ∧ s.minorVersion = 2) (w : WideKind k n) {i : Insertion n}
    (hi : i.Fits) :
    (i.write P s).1 = true ∧ OutputCDR.Emits (i.segs P (s.swaps P) w) s (i.write P s).2 ∧
      (i.write P s).2.Based := by
  cases i with
  | scalar k x =>
    obtain ⟨hok, hem⟩ := writeScalar_emits P hwf k x
    exact ⟨hok, hem, hb.writeScalar k x⟩
  | string x =>
    obtain ⟨hok, hem⟩ := writeCString_emits P hwf x hi
    exact ⟨hok, hem, hb.writeCString x⟩
  | wstring x =>
    obtain ⟨hok, hem⟩ := writeWstring_emits P hwf hg hv w hn hle x hi
    exact ⟨hok, hem, hb.writeWstring hv _ _⟩

end Insertion

/-! ## What is extracted -/

/-- The reader of the type takes the segments, and keeps the version. -/
theorem extract_at (hn : P.wcharMaxbytes = n) (hle : n ≤ P.wcharSize) {swap : Bool}
    (w : WideKind k n) {i : Insertion n} (hi : i.Fits) {r : InputCDR} (hv : r.version = (1, 2))
    {pos : Nat} {bs rest : List UInt8} (hat : InputCDR.At swap r pos (bs ++ rest))
    (hlaid : Laid pos (i.segs P swap w) bs) : (extract P r i.type).1 = some i.value ∧
      InputCDR.At swap (extract P r i.type).2 (pos + bs.length) rest ∧
      (extract P r i.type).2.version = (1, 2) := by
  cases i with
  | scalar k x =>
    obtain ⟨hval, hat'⟩ := InputCDR.readScalar_reads (P := P) swap k x r pos bs rest hat hlaid
    refine ⟨?_, hat', (InputCDR.version_readScalar r k).trans hv⟩
    simp only [type, value, extract, hval, map_some]
  | string x =>
    obtain ⟨hval, hat'⟩ := InputCDR.readCString_reads (P := P) swap x hi r pos bs rest hat hlaid
    refine ⟨?_, hat', (InputCDR.version_readCString r).trans hv⟩
    simp only [type, value, extract, hval, map_some]
  | wstring x =>
    obtain ⟨hval, hat'⟩ := InputCDR.readWstring_at swap w hn hle x hi hv hat hlaid
    refine ⟨?_, hat', (InputCDR.version_readWstring r).trans hv⟩
    have hstop : (x.val ++ [0]).takeWhile (· ≠ 0) = x.val := by
      rw [takeWhile_append_of_pos]
      · simp
      · intro c hc
        have : c ≠ 0 := fun h => x.nonul (h ▸ hc)
        simpa using this
    simp only [type, value, extract, hval, map_some, hstop]

theorem extractAll_at (hn : P.wcharMaxbytes = n) (hle : n ≤ P.wcharSize) {swap : Bool}
    (w : WideKind k n) {is : List (Insertion n)} (hfits : ∀ i ∈ is, i.Fits) {r : InputCDR}
    (hv : r.version = (1, 2)) {pos : Nat} {bs : List UInt8} (hat : InputCDR.At swap r pos bs)
    (hlaid : Laid pos (is.flatMap (Insertion.segs P swap w)) bs) :
    extractAll P (is.map Insertion.type) r = some (is.map Insertion.value) := by
  induction is generalizing r pos bs with
  | nil => rfl
  | cons i is ih =>
    obtain ⟨cs, ds, rfl, hcs, hds⟩ := Laid.append_inv _ hlaid
    obtain ⟨hval, hat', hv'⟩ := extract_at hn hle w (hfits i (by simp)) hv hat hcs
    have hrest := ih (fun j hj => hfits j (by simp [hj])) hv' hat' hds
    have e : extract P r i.type = (some i.value, (extract P r i.type).2) := Prod.ext hval rfl
    rw [map_cons, map_cons, extractAll, e]
    simp only [hrest, map_some]

/-! ## The sender -/

/-- At every cut the padding to 8 is the gap before what comes next. -/
def Smooth (P : Platform) (maxMessageSize : Nat) : Nat → List (Insertion n) → Prop
  | _, [] => True
  | pos, i :: is =>
    if exceeds maxMessageSize pos (i.pending P) then
      gap pos maxAlignment = gap pos i.align ∧ Smooth P maxMessageSize (i.behind 16) is
    else Smooth P maxMessageSize (i.behind pos) is

def Smooth.decide (P : Platform) (maxMessageSize : Nat) :
    (is : List (Insertion n)) → (pos : Nat) → Decidable (Smooth P maxMessageSize pos is)
  | [], _ => isTrue trivial
  | i :: is, pos =>
    have := Smooth.decide P maxMessageSize is (i.behind 16)
    have := Smooth.decide P maxMessageSize is (i.behind pos)
    inferInstanceAs (Decidable (if exceeds maxMessageSize pos (i.pending P) then
      gap pos maxAlignment = gap pos i.align ∧ Smooth P maxMessageSize (i.behind 16) is
      else Smooth P maxMessageSize (i.behind pos) is))

instance (pos : Nat) (is : List (Insertion n)) (maxMessageSize : Nat) :
    Decidable (Smooth P maxMessageSize pos is) := Smooth.decide P maxMessageSize is pos

/-- The octets of a header before it is formatted: its type is `t`. -/
def headerOctets (t : UInt8) : List UInt8 := [0x47, 0x49, 0x4f, 0x50, 1, 2, 0, t]

/-- A GIOP 1.2 message that is being written, with its header and its request id. -/
structure Message12 (P : Platform) (swap : Bool) (requestId : UInt32) (s : OutputCDR) : Prop where
  wf : s.Wf
  based : s.Based
  good : s.goodBit = true
  version : s.majorVersion = 1 ∧ s.minorVersion = 2
  doByteSwap : s.doByteSwap = swap
  order : s.swaps P = swap
  header : ∃ t, s.contents.take 8 = headerOctets t ∧
    Framing.msgTypeOf t ∈ [.request, .reply, .fragment, .locateRequest, .locateReply]
  long : 16 ≤ s.contents.length
  requestId : (s.contents.drop messageHeaderLen).take longSize =
    OutputCDR.wire P swap .ulong requestId

section Sender

variable {swap : Bool} {requestId : UInt32} {s : OutputCDR} {maxMessageSize : Nat}

theorem Message12.append {segs : List (Seg UInt8)} {s' : OutputCDR}
    (h : Message12 P swap requestId s) (hem : OutputCDR.Emits segs s s') (hb : s'.Based) :
    Message12 P swap requestId s' := by
  obtain ⟨bs, -, hcont⟩ := hem.laid
  have hlong := h.long
  obtain ⟨t, ht, htype⟩ := h.header
  have hdrop : (s'.contents.drop messageHeaderLen).take longSize =
      (s.contents.drop messageHeaderLen).take longSize := by
    rw [hcont, drop_append_of_le_length (by simp [messageHeaderLen]; omega),
      take_append_of_le_length]
    rw [length_drop]
    simp only [messageHeaderLen, longSize]
    omega
  refine ⟨hem.wf, hb, hem.keeps.good h.good, ?_, hem.keeps.swap.trans h.doByteSwap,
    (swaps_keeps hem.keeps).trans h.order, ⟨t, ?_, htype⟩, ?_, hdrop.trans h.requestId⟩
  · exact ⟨hem.keeps.major.trans h.version.1, hem.keeps.minor.trans h.version.2⟩
  · rw [hcont, take_append_of_le_length (by omega), ht]
  · rw [hcont, length_append]
    omega

theorem Message12.totalLength (h : Message12 P swap requestId s) :
    s.totalLength = s.contents.length := by rw [h.wf.total, h.wf.length_contents]

theorem formatMessage_drop (P : Platform) (h : 16 ≤ s.contents.length) (more : Bool) :
    (formatMessage P s more).length = s.contents.length ∧
      (formatMessage P s more).drop messageHeaderLen = s.contents.drop messageHeaderLen := by
  have hwire := length_wire P (s.swaps P) .ulong
    (UInt32.ofNat (s.contents.length - messageHeaderLen))
  have hfront : (s.contents.take 6 ++ [(s.contents.getD 6 0) |||
      ((UInt8.ofNat P.byteOrder) ^^^ (octetOfBool s.doByteSwap)) ||| (octetOfBool more <<< 1)] ++
      (s.contents.drop 7).take 1 ++ wire P (s.swaps P) .ulong
        (UInt32.ofNat (s.contents.length - messageHeaderLen))).length = messageHeaderLen := by
    simp only [length_append, length_take, length_drop, length_singleton, hwire]
    simp only [messageHeaderLen, Kind.size, longSize]
    omega
  unfold formatMessage
  refine ⟨?_, drop_left' hfront⟩
  rw [length_append, hfront, length_drop]
  simp only [messageHeaderLen]
  omega

theorem exceeds_requestId (hmax : 24 ≤ maxMessageSize) :
    exceeds maxMessageSize 12 (longAlign, longSize) = false := by
  have h16 : exceeds maxMessageSize 12 (longAlign, longSize) = decide (maxMessageSize < 16) := rfl
  rw [h16]
  simp
  omega

/-- The two insertions that every header begins with. -/
theorem header_written (hwf : s.Wf) (hbased : s.Based) (hempty : s.contents = [])
    (hgood : s.goodBit = true) (hversion : s.majorVersion = 1 ∧ s.minorVersion = 2)
    (hdo : s.doByteSwap = swap) (horder : s.swaps P = swap) {t : UInt8}
    (htype : Framing.msgTypeOf t ∈ [.request, .reply, .fragment, .locateRequest, .locateReply])
    (requestId : UInt32) :
    ∃ s₁ s₂, s.writeOctetArray P (headerOctets t ++ [0, 0, 0, 0]) 12 = (true, s₁) ∧
      s₁.totalLength = 12 ∧ s₁.writeUlong P requestId = (true, s₂) ∧
      Message12 P swap requestId s₂ ∧ s₂.contents.length = 16 := by
  have hcount : (12 : UInt32).toNat = (headerOctets t ++ [0, 0, 0, 0]).length := rfl
  obtain ⟨hok, hem⟩ := writeCharArray_emits P hwf hcount (by simp [headerOctets])
  have hb1 := hbased.writeArray (P := P) (headerOctets t ++ [0, 0, 0, 0]) octetSize octetAlign 12
  unfold writeCharArray at hok hem
  unfold writeOctetArray
  generalize s.writeArray P (headerOctets t ++ [0, 0, 0, 0]) octetSize octetAlign 12 = res
    at hok hem hb1 ⊢
  obtain ⟨ok, s₁⟩ := res
  subst hok
  -- the octets
  obtain ⟨bs, hlaid, hcont⟩ := hem.laid
  obtain ⟨fill, rest, rfl, hfill, hrest⟩ := hlaid.cons_inv
  obtain rfl := hrest.nil_inv
  obtain rfl := length_eq_zero_iff.mp (hfill.trans (gap_one _))
  rw [hempty] at hcont
  have hlen₁ : s₁.contents.length = messageHeaderLen := by rw [hcont]; rfl
  have htotal : s₁.totalLength = 12 := by rw [hem.wf.total, ← hem.wf.length_contents, hlen₁]; rfl
  -- the request id
  have hswap : s₁.swaps P = swap := (swaps_keeps hem.keeps).trans horder
  obtain ⟨hok₂, hem₂⟩ := writeScalar_emits P hem.wf .ulong requestId
  have hb₂ := hb1.writeScalar (P := P) .ulong requestId
  rw [hswap] at hem₂
  obtain ⟨bs₂, hlaid₂, hcont₂⟩ := hem₂.laid
  obtain ⟨fill₂, rest₂, rfl, hfill₂, hrest₂⟩ := hlaid₂.cons_inv
  obtain rfl := hrest₂.nil_inv
  rw [hlen₁] at hfill₂
  obtain rfl := length_eq_zero_iff.mp (hfill₂.trans (rfl : gap 12 4 = 0))
  simp only [nil_append, append_nil, seg] at hcont₂
  have hk := hem.keeps.trans hem₂.keeps
  have hwire := length_wire P swap .ulong requestId
  have hlen₂ : (s₁.writeScalar P .ulong requestId).2.contents.length = 16 := by
    rw [hcont₂, length_append, hlen₁, hwire]
    rfl
  refine ⟨s₁, (s₁.writeScalar P .ulong requestId).2, rfl, htotal, Prod.ext hok₂ rfl, ⟨hem₂.wf, hb₂,
    hk.good hgood, ?_, hk.swap.trans hdo, (swaps_keeps hk).trans horder,
    ⟨t, ?_, htype⟩, Nat.le_of_eq hlen₂.symm, ?_⟩, hlen₂⟩
  · exact ⟨hk.major.trans hversion.1, hk.minor.trans hversion.2⟩
  · rw [hcont₂, hcont]
    rfl
  · rw [hcont₂, drop_left' hlen₁]
    exact take_of_length_le (Nat.le_of_eq hwire)

theorem generateFragmentHeader_spec (hmax : 24 ≤ maxMessageSize)
    (h : Message12 P swap requestId s) :
    ∃ s', generateFragmentHeader P maxMessageSize requestId s = (true, s') ∧
      Message12 P swap requestId s' ∧ s'.contents.length = 16 := by
  obtain ⟨hwf, hbased, hempty, hkeeps⟩ := reset_spec h.based
  have hoctets : [0x47, 0x49, 0x4f, 0x50, s.majorVersion, s.minorVersion, 0, 7, 0, 0, 0, 0] =
      headerOctets 7 ++ [0, 0, 0, 0] := by
    rw [h.version.1, h.version.2]
    rfl
  obtain ⟨s₁, s₂, hfirst, htotal, hsecond, hmsg, hlen⟩ := header_written hwf hbased hempty
    (hkeeps.good h.good) ⟨hkeeps.major.trans h.version.1, hkeeps.minor.trans h.version.2⟩
    (hkeeps.swap.trans h.doByteSwap) ((swaps_keeps hkeeps).trans h.order)
    (t := 7) (by decide) requestId
  refine ⟨s₂, ?_, hmsg, hlen⟩
  unfold generateFragmentHeader writeProtocolHeader
  rw [hoctets, hfirst]
  simp only [htotal, exceeds_requestId hmax]
  exact hsecond

/-- The octets of the parts behind the header of the first, without the others' headers. -/
def bodies : List (List UInt8) → List UInt8
  | [] => []
  | first :: rest =>
    first.drop messageHeaderLen ++
      rest.flatMap (List.drop (messageHeaderLen + messageFragmentHeader))

theorem assembled_drop {first : List UInt8} {rest : List (List UInt8)}
    (h : messageHeaderLen ≤ first.length) :
    (assembled (first :: rest)).drop messageHeaderLen = bodies (first :: rest) := by
  rw [assembled, bodies, drop_append_of_le_length h]

theorem bodies_append (parts : List (List UInt8)) {x : List UInt8} (hx : 16 ≤ x.length)
    (bs : List UInt8) : bodies (parts ++ [x ++ bs]) = bodies (parts ++ [x]) ++ bs := by
  have hlen : messageHeaderLen + messageFragmentHeader = 16 := rfl
  have h12 : messageHeaderLen ≤ x.length := Nat.le_trans (by decide) hx
  cases parts with
  | nil => simp [bodies, drop_append_of_le_length h12]
  | cons first rest => simp [bodies, hlen, drop_append_of_le_length hx]

theorem bodies_congr (parts : List (List UInt8)) {x y : List UInt8}
    (h : x.drop messageHeaderLen = y.drop messageHeaderLen) :
    bodies (parts ++ [x]) = bodies (parts ++ [y]) := by
  have h16 : x.drop (messageHeaderLen + messageFragmentHeader) =
      y.drop (messageHeaderLen + messageFragmentHeader) := by
    rw [← drop_drop, ← drop_drop, h]
  cases parts with
  | nil => simp [bodies, h]
  | cons first rest => simp [bodies, h16]

theorem bodies_header (parts : List (List UInt8)) (y : List UInt8) {x : List UInt8}
    (hx : x.length = 16) : bodies (parts ++ [y] ++ [x]) = bodies (parts ++ [y]) := by
  have hnil : x.drop (messageHeaderLen + messageFragmentHeader) = [] :=
    drop_eq_nil_of_le (Nat.le_of_eq hx)
  cases parts with
  | nil => simp [bodies, hnil]
  | cons first rest => simp [bodies, hnil]

/-- What is sent is of the message that is being written. -/
structure Sending (P : Platform) (swap : Bool) (requestId : UInt32) (o : FragmentingCdr) :
    Prop where
  current : Message12 P swap requestId o.cdr
  sent : ∀ m ∈ o.sent, ∃ s, Message12 P swap requestId s ∧ m = formatMessage P s true

def joined (o : FragmentingCdr) : List UInt8 := bodies (o.sent ++ [o.cdr.contents])

/-- **The cut.** The padding is what is joined behind the part. -/
theorem fragment_spec (hmax : 24 ≤ maxMessageSize) {o : FragmentingCdr}
    (h : Sending P swap requestId o) (pending : Nat × Nat) :
    ∃ o' fill, fragment P maxMessageSize requestId o pending = (true, o') ∧
      Sending P swap requestId o' ∧ joined o' = joined o ++ fill ∧
      if exceeds maxMessageSize o.cdr.contents.length pending then
        fill.length = gap o.cdr.contents.length maxAlignment ∧ o'.cdr.contents.length = 16
      else fill = [] ∧ o' = o := by
  have hversion : ¬(o.cdr.majorVersion = 1 ∧ o.cdr.minorVersion < 2) := by
    simp [h.current.version.2]
  unfold fragment
  rw [if_neg hversion, h.current.totalLength]
  by_cases hex : exceeds maxMessageSize o.cdr.contents.length pending = true
  · rw [if_pos hex]
    have h8 : IsAlign maxAlignment := .inr (.inr (.inr rfl))
    obtain ⟨padded, hpad, hem, hbased⟩ :=
      alignWritePtr_emits (P := P) h.current.wf h.current.based h8
    have hmsg := h.current.append hem hbased
    obtain ⟨s', hgen, hmsg', hlen'⟩ := generateFragmentHeader_spec hmax hmsg
    obtain ⟨bs, hlaid, hcont⟩ := hem.laid
    obtain ⟨fill, rest, rfl, hfill, hrest⟩ := hlaid.cons_inv
    obtain rfl := hrest.nil_inv
    simp only [append_nil] at hcont
    obtain ⟨-, hbody⟩ := formatMessage_drop P hmsg.long true
    refine ⟨⟨s', o.sent ++ [formatMessage P padded true]⟩, fill, ?_, ⟨hmsg', ?_⟩, ?_, ?_⟩
    · simp only [hpad, hgen]
    · intro m hm
      rcases mem_append.mp hm with hm | hm
      · exact h.sent m hm
      · exact ⟨padded, hmsg, mem_singleton.mp hm⟩
    · unfold joined
      rw [bodies_header _ _ hlen', bodies_congr _ hbody, hcont, bodies_append _ h.current.long]
    · rw [if_pos hex]
      exact ⟨hfill, hlen'⟩
  · rw [if_neg hex]
    refine ⟨o, [], rfl, h, by simp, ?_⟩
    rw [if_neg hex]
    exact ⟨rfl, rfl⟩

/-- Where the sender is behind the insertions: the joined octets are their layout. -/
structure Progress (P : Platform) (swap : Bool) (requestId : UInt32) (w : WideKind k n)
    (first : List UInt8) (done : List (Insertion n)) (o : FragmentingCdr) : Prop
    extends Sending P swap requestId o where
  joined : ∃ bs, joined o = first.drop messageHeaderLen ++ bs ∧
    Laid first.length (done.flatMap (Insertion.segs P swap w)) bs ∧
    (first.length + bs.length) % maxAlignment = o.cdr.contents.length % maxAlignment

theorem insert_spec (hn : P.wcharMaxbytes = n) (hle : n ≤ P.wcharSize) {w : WideKind k n}
    (hmax : 24 ≤ maxMessageSize) {first : List UInt8} {done : List (Insertion n)}
    {o : FragmentingCdr} (h : Progress P swap requestId w first done o) {i : Insertion n}
    (hi : i.Fits) (hsmooth : exceeds maxMessageSize o.cdr.contents.length (i.pending P) →
      gap o.cdr.contents.length maxAlignment = gap o.cdr.contents.length i.align) :
    ∃ o', insert P maxMessageSize requestId o i = (true, o') ∧
      Progress P swap requestId w first (done ++ [i]) o' ∧ o'.cdr.contents.length = i.behind
        (if exceeds maxMessageSize o.cdr.contents.length (i.pending P) then 16
          else o.cdr.contents.length) := by
  obtain ⟨o', fill, hfrag, hsend, hjoin, hcut⟩ := fragment_spec hmax h.toSending (i.pending P)
  obtain ⟨hok, hem, hbased⟩ := write_emits hn hle hsend.current.wf hsend.current.based
    hsend.current.good hsend.current.version w hi
  rw [hsend.current.order] at hem
  obtain ⟨ds, hds, hcont⟩ := hem.laid
  obtain ⟨bs, hbs, hlaid, hmod⟩ := h.joined
  obtain ⟨seg, segs, hsegs, halign⟩ :
      ∃ s rest, i.segs P swap w = s :: rest ∧ s.align = i.align := i.segs_head
  -- where the insertion goes, on both sides
  have hpos : (first.length + bs.length + fill.length) % maxAlignment =
      o'.cdr.contents.length % maxAlignment ∧ (fill = [] ∨
      fill.length = gap (first.length + bs.length) i.align) ∧
      o'.cdr.contents.length = if exceeds maxMessageSize o.cdr.contents.length (i.pending P)
        then 16 else o.cdr.contents.length := by
    by_cases hex : exceeds maxMessageSize o.cdr.contents.length (i.pending P) = true
    · rw [if_pos hex] at hcut ⊢
      refine ⟨?_, .inr ?_, hcut.2⟩
      · rw [hcut.2, hcut.1, Nat.add_mod, hmod, ← Nat.add_mod]
        exact add_gap_mod _ _ (by decide)
      · rw [hcut.1, hsmooth hex]
        exact (gap_of_mod i.align_isAlign.dvd hmod).symm
    · rw [if_neg hex] at hcut ⊢
      obtain ⟨rfl, rfl⟩ := hcut
      exact ⟨hmod, .inl rfl, rfl⟩
  obtain ⟨hpos, hfill, hlen⟩ := hpos
  refine ⟨{ o' with cdr := (i.write P o'.cdr).2 }, ?_,
    ⟨⟨hsend.current.append hem hbased, hsend.sent⟩, bs ++ (fill ++ ds), ?_, ?_, ?_⟩, ?_⟩
  · unfold insert
    rw [hfrag]
    simp only [hok]
  · unfold Giop.joined
    rw [hcont, bodies_append _ hsend.current.long]
    change Giop.joined o' ++ ds = _
    rw [hjoin, hbs]
    simp only [append_assoc]
  · rw [flatMap_append, flatMap_singleton]
    apply hlaid.append
    have hds' := hds.of_mod hpos.symm i.segs_dvd
    rcases hfill with rfl | hfill
    · exact hds'
    · rw [hsegs] at hds' ⊢
      rw [← halign] at hfill
      exact hds'.behind_gap (halign ▸ i.align_isAlign.pos) hfill
  · rw [hcont]
    simp only [maxAlignment, length_append] at hpos ⊢
    omega
  · rw [hcont, length_append, hds.length_eq, extent_segs, hlen]

/-- **The sender.** What is sent, and where the values are in it. -/
theorem insertAll_spec (hn : P.wcharMaxbytes = n) (hle : n ≤ P.wcharSize) {w : WideKind k n}
    (hmax : 24 ≤ maxMessageSize) {first : List UInt8} {is done : List (Insertion n)}
    {o : FragmentingCdr} (h : Progress P swap requestId w first done o)
    (hfits : ∀ i ∈ is, i.Fits) (hsmooth : Smooth P maxMessageSize o.cdr.contents.length is) :
    ∃ o', insertAll P maxMessageSize requestId is o = some o' ∧
      Progress P swap requestId w first (done ++ is) o' := by
  induction is generalizing done o with
  | nil => exact ⟨o, rfl, by rwa [append_nil]⟩
  | cons i is ih =>
    have hcut : exceeds maxMessageSize o.cdr.contents.length (i.pending P) →
        gap o.cdr.contents.length maxAlignment = gap o.cdr.contents.length i.align := by
      intro hex
      rw [Smooth, if_pos hex] at hsmooth
      exact hsmooth.1
    obtain ⟨o', hinsert, hprog, hlen⟩ := insert_spec hn hle hmax h (hfits i (by simp)) hcut
    have hrest : Smooth P maxMessageSize o'.cdr.contents.length is := by
      rw [hlen]
      rw [Smooth] at hsmooth
      split at hsmooth
      · rename_i hex
        rw [if_pos hex]
        exact hsmooth.2
      · rename_i hex
        rw [if_neg hex]
        exact hsmooth
    obtain ⟨o'', hall, hprog'⟩ := ih hprog (fun j hj => hfits j (by simp [hj])) hrest
    refine ⟨o'', ?_, by simpa using hprog'⟩
    rw [insertAll, hinsert]
    exact hall

/-! ## The receiver -/

/-- The flags in the header. -/
def flagsOf (P : Platform) (swap more : Bool) : UInt8 :=
  ((UInt8.ofNat P.byteOrder) ^^^ (octetOfBool swap)) ||| (octetOfBool more <<< 1)

theorem formatMessage_header (h : Message12 P swap requestId s) (more : Bool) :
    ∃ t tail, formatMessage P s more =
        [0x47, 0x49, 0x4f, 0x50, 1, 2, flagsOf P swap more, t] ++ tail ∧
      Framing.msgTypeOf t ∈ [.request, .reply, .fragment, .locateRequest, .locateReply] := by
  obtain ⟨t, ht, htype⟩ := h.header
  have hsplit : s.contents = headerOctets t ++ s.contents.drop 8 := by
    rw [← ht, take_append_drop]
  refine ⟨t, wire P (s.swaps P) .ulong
    (UInt32.ofNat (s.contents.length - messageHeaderLen)) ++ s.contents.drop messageHeaderLen, ?_,
    htype⟩
  have hflags : (0 : UInt8) ||| ((UInt8.ofNat P.byteOrder) ^^^ (octetOfBool swap)) |||
      (octetOfBool more <<< 1) = flagsOf P swap more := by simp [flagsOf]
  unfold formatMessage
  simp only [h.doByteSwap]
  rw [← hflags]
  generalize s.contents.length = len
  rw [hsplit]
  simp [headerOctets]

theorem flagsOf_spec (P : Platform) (swap more : Bool) :
    decide ((flagsOf P swap more &&& 1).toNat ≠ P.byteOrder) = swap ∧
      decide (flagsOf P swap more &&& 2 = 2) = more := by
  unfold flagsOf Platform.byteOrder
  cases P.endian <;> cases swap <;> cases more <;> decide

theorem parseMessageHeader_format (h : Message12 P swap requestId s) {more : Bool}
    {state : MessageState}
    (hparse : Framing.parseMessageHeader P.endian Framing.freshState (formatMessage P s more) =
      some state) : state.giopVersion = ⟨1, 2⟩ ∧ state.byteOrder = flagsOf P swap more &&& 1 ∧
      state.moreFragments = more ∧
      state.messageType ∈ [.request, .reply, .fragment, .locateRequest, .locateReply] := by
  obtain ⟨t, tail, hmsg, htype⟩ := formatMessage_header h more
  have hlen : messageHeaderLen ≤ (formatMessage P s more).length := by
    rw [(formatMessage_drop P h.long more).1]
    exact Nat.le_trans (by decide) h.long
  rw [parseMessageHeader, if_pos hlen, hmsg] at hparse
  have hmagic : parseMagicBytes
      ([0x47, 0x49, 0x4f, 0x50, 1, 2, flagsOf P swap more, t] ++ tail) = true := rfl
  have hversion : getVersionInfo freshState
      ([0x47, 0x49, 0x4f, 0x50, 1, 2, flagsOf P swap more, t] ++ tail) =
      some freshState := rfl
  have horder : getByteOrderInfo freshState
      ([0x47, 0x49, 0x4f, 0x50, 1, 2, flagsOf P swap more, t] ++ tail) = some
        { freshState with
          byteOrder := flagsOf P swap more &&& 1
          moreFragments := more } := by
    have hmore := (flagsOf_spec P swap more).2
    unfold getByteOrderInfo
    simp [freshState, messageFlagsOffset, hmore]
  have ht : ([0x47, 0x49, 0x4f, 0x50, 1, 2, flagsOf P swap more, t] ++ tail).getD
      messageTypeOffset 0 = t := rfl
  rw [parseMessageHeaderI, if_pos hmagic, hversion, bind_some, horder, bind_some, ht] at hparse
  simp only at hparse
  split at hparse
  · cases hparse
  · obtain rfl := some.inj hparse
    exact ⟨rfl, rfl, rfl, htype⟩

end Sender

/-- The message arrives in a block at an aligned address, and its header is parsed. -/
structure Arrived (P : Platform) (msg : List UInt8) (qd : QueuedData) : Prop where
  wf : qd.msgBlock.Wf
  single : qd.cont = []
  contents : qd.msgBlock.contents = msg
  aligned : (qd.msgBlock.base + qd.msgBlock.rdPtr) % maxAlignment = 0
  state : Framing.parseMessageHeader P.endian Framing.freshState msg = some qd.state

/-- The message that the parts make, as they are consolidated one after the other. -/
def GiopMessageBase.receive (P : Platform) (b : GiopMessageBase) :
    List QueuedData → Option QueuedData
  | [] => none
  | qd :: qds =>
    match b.consolidateFragmentedMessage P (some qd) with
    | some (0, some msg, _) => some msg
    | some (1, _, b) => receive P b qds
    | _ => none

section Receiver

variable {swap : Bool} {requestId : UInt32} {s : OutputCDR} {qd : QueuedData}

/-- What the message base sees of a part. -/
structure Received (P : Platform) (swap : Bool) (id : UInt32) (more : Bool) (qd : QueuedData) : Prop
    extends Part qd where
  aligned8 : (qd.msgBlock.base + qd.msgBlock.rdPtr) % maxAlignment = 0
  more : qd.state.moreFragments = more
  order : decide (qd.state.byteOrder.toNat ≠ P.byteOrder) = swap
  id : qd.requestId = id

/-- The request id as it is read. -/
def idOf (P : Platform) (swap : Bool) (requestId : UInt32) : UInt32 :=
  UInt32.ofNat (load (if (flagsOf P swap false &&& 1) = 1 then .little else .big)
    (OutputCDR.wire P swap .ulong requestId))

theorem flagsOf_order (P : Platform) (swap more : Bool) :
    flagsOf P swap more &&& 1 = flagsOf P swap false &&& 1 := by
  unfold flagsOf Platform.byteOrder
  cases P.endian <;> cases swap <;> cases more <;> decide

theorem Arrived.received (h : Message12 P swap requestId s) {more : Bool}
    (ha : Arrived P (formatMessage P s more) qd) :
    Received P swap (idOf P swap requestId) more qd := by
  obtain ⟨hversion, horder, hmore, htype⟩ := parseMessageHeader_format h ha.state
  obtain ⟨hlen, hdrop⟩ := formatMessage_drop P h.long more
  have hmb := length_contents ha.wf
  rw [ha.contents, hlen] at hmb
  have hbyte : qd.state.byteOrder = 0 ∨ qd.state.byteOrder = 1 := by
    rw [horder]
    exact Framing.GiopMessage.and_one _
  refine ⟨⟨⟨ha.wf, ha.single, ?_, ?_, hbyte⟩, hversion, htype⟩, ha.aligned, hmore, ?_, ?_⟩
  · rw [← hmb]
    exact h.long
  · have h8 := ha.aligned
    simp only [maxAlignment, longAlign] at h8 ⊢
    omega
  · rw [horder]
    exact (flagsOf_spec P swap more).1
  · unfold QueuedData.requestId idOf
    rw [ha.contents, hdrop, h.requestId, horder, flagsOf_order]

variable {id : UInt32}

theorem gather_bottom {stack : List QueuedData} {first : QueuedData}
    (hstack : ∀ p ∈ stack ++ [first], Received P swap id true p) (tail : QueuedData)
    (reverseStack : List QueuedData) :
    ∃ tail', gather P (messageHeaderLen + messageFragmentHeader) id (stack ++ [first]) tail
      reverseStack = .ok (join (messageHeaderLen + messageFragmentHeader) first tail',
        reverseStack) := by
  induction stack generalizing tail with
  | nil =>
    have hfirst := hstack first (by simp)
    refine ⟨tail, ?_⟩
    rw [nil_append]
    unfold gather
    rw [if_pos (head_eligible hfirst.toPart hfirst.more), hfirst.toPart.parseRequestId]
    simp only [hfirst.id, if_true]
    rfl
  | cons head stack ih =>
    have hhead := hstack head (by simp)
    rw [cons_append]
    unfold gather
    rw [if_pos (head_eligible hhead.toPart hhead.more), hhead.toPart.parseRequestId]
    simp only [hhead.id, if_true]
    exact ih (fun p hp => hstack p (by simp [hp])) _

/-- A message that is whole: one block at an aligned address, its header still in front. -/
structure Whole (P : Platform) (swap : Bool) (bs : List UInt8) (msg : QueuedData) : Prop
    extends Placed msg where
  aligned8 : (msg.msgBlock.base + msg.msgBlock.rdPtr) % maxAlignment = 0
  version : msg.state.giopVersion = ⟨1, 2⟩
  order : decide (msg.state.byteOrder.toNat ≠ P.byteOrder) = swap
  contents : msg.msgBlock.contents = bs

theorem consolidateInto_chain (P : Platform) (buffers : Nat) (h : Chain qd) :
    ∃ dst, consolidateInto P buffers (cloneMbNocopySize P buffers qd.totalLength) qd.blocks = dst ∧
      dst.Wf ∧ dst.contents = qd.bytes ∧ (dst.base + dst.rdPtr) % maxAlignment =
        (qd.msgBlock.base + qd.msgBlock.rdPtr) % maxAlignment :=
  ⟨_, rfl, consolidateInto_spec P buffers h.wf⟩

theorem consolidate_whole {first tail : QueuedData} (h : Received P swap id true first)
    (hchain : Chain (join (messageHeaderLen + messageFragmentHeader) first tail)) (buffers : Nat) :
    Whole P swap (join (messageHeaderLen + messageFragmentHeader) first tail).bytes
      ((join (messageHeaderLen + messageFragmentHeader) first tail).consolidate P buffers) := by
  obtain ⟨dst, hdst, hwf, hcontents, haligned⟩ := consolidateInto_chain P buffers hchain
  have hfirst : (join (messageHeaderLen + messageFragmentHeader) first tail).msgBlock =
      first.msgBlock := rfl
  rw [hfirst, h.aligned8] at haligned
  have hlong : messageHeaderLen + messageFragmentHeader ≤ dst.length := by
    rw [← length_contents hwf, hcontents]
    unfold QueuedData.bytes QueuedData.blocks
    rw [flatMap_cons, length_append, hfirst, length_contents h.wf]
    exact Nat.le_trans h.long (Nat.le_add_right _ _)
  have haligned4 : (dst.base + dst.rdPtr) % longAlign = 0 := by
    simp only [maxAlignment, longAlign] at haligned ⊢
    omega
  have hcond : (join (messageHeaderLen + messageFragmentHeader) first tail).state.moreFragments =
      true ∧ (join (messageHeaderLen + messageFragmentHeader) first tail).cont ≠ [] :=
    ⟨h.more, cons_ne_nil _ _⟩
  unfold QueuedData.consolidate
  rw [if_pos hcond]
  simp only [hdst]
  exact ⟨⟨hwf, rfl, hlong, haligned4, h.byteOrder⟩, haligned, h.version, h.order, hcontents⟩

open GiopMessageBase

theorem receive_more (b : GiopMessageBase) (h : Received P swap id true qd)
    (qds : List QueuedData) : b.receive P (qd :: qds) =
      ({ b with fragmentStack := qd :: b.fragmentStack } : GiopMessageBase).receive P qds := by
  have hversion : qd.state.giopVersion ≠ ⟨1, 0⟩ := by
    rw [h.version]
    decide
  have hmore : b.consolidateFragmentedMessage P (some qd) =
      some (1, none, { b with fragmentStack := qd :: b.fragmentStack }) := by
    simp [consolidateFragmentedMessage, hversion, h.more]
  rw [receive, hmore]
  rfl

theorem receive_firsts {firsts : List QueuedData} (h : ∀ p ∈ firsts, Received P swap id true p)
    (b : GiopMessageBase) (last : QueuedData) : b.receive P (firsts ++ [last]) =
      ({ b with fragmentStack := firsts.reverse ++ b.fragmentStack } : GiopMessageBase).receive P
        [last] := by
  induction firsts generalizing b with
  | nil => rfl
  | cons qd firsts ih =>
    rw [cons_append, receive_more b (h qd (by simp)), ih fun p hp => h p (by simp [hp])]
    simp

theorem receive_last (b : GiopMessageBase) (h : Received P swap id false qd) {tail : QueuedData}
    {reverseStack : List QueuedData}
    (hgather : gather P (messageHeaderLen + messageFragmentHeader) id b.fragmentStack qd [] =
      .ok (tail, reverseStack)) : b.receive P [qd] = some (tail.consolidate P b.buffers) := by
  have hlong : ¬qd.msgBlock.length < messageHeaderLen + messageFragmentHeader :=
    Nat.not_lt.mpr h.long
  have h10 : (⟨1, 2⟩ : MessageVersion) ≠ ⟨1, 0⟩ := by decide
  have h11 : (⟨1, 2⟩ : MessageVersion) ≠ ⟨1, 1⟩ := by decide
  have hheader : fragmentHeaderLength ⟨1, 2⟩ = some messageFragmentHeader := by decide
  have hlast : b.consolidateFragmentedMessage P (some qd) =
      some (b.finishConsolidate P tail reverseStack) := by
    unfold consolidateFragmentedMessage
    simp only [h.version, if_neg h10, if_neg h11, h.more, hheader, h.toPart.parseRequestId,
      if_neg hlong, h.id, hgather]
    rfl
  rw [receive, hlast]
  rfl

/-- **The receiver.** The parts make the joined message. -/
theorem receive_spec {firsts : List QueuedData} {last : QueuedData}
    (hfirsts : ∀ p ∈ firsts, Received P swap id true p) (hlast : Received P swap id false last) :
    ∃ msg, GiopMessageBase.init.receive P (firsts ++ [last]) = some msg ∧
      Whole P swap (assembled ((firsts ++ [last]).map QueuedData.bytes)) msg := by
  rw [receive_firsts hfirsts]
  cases firsts with
  | nil =>
    have hbytes := hlast.bytes_eq
    refine ⟨last.consolidate P 0, receive_last _ hlast rfl, ?_⟩
    have hsame : last.consolidate P 0 = last := by simp [QueuedData.consolidate, hlast.more]
    rw [hsame]
    refine ⟨hlast.toPlaced, hlast.aligned8, hlast.version, hlast.order, ?_⟩
    simp [assembled, hbytes]
  | cons first rest =>
    have hstack : ∀ p ∈ rest.reverse ++ [first], Received P swap id true p := by
      intro p hp
      apply hfirsts
      simpa [or_comm] using hp
    have hid : ∀ p ∈ rest.reverse ++ [first], p.requestId = id := fun p hp => (hstack p hp).id
    obtain ⟨tail, hgather⟩ := gather_bottom hstack last []
    obtain ⟨tail', hgather', hchain, -, hbytes⟩ := gather_spec (P := P) id
      (fun p hp => ⟨(hstack p hp).toPart, (hstack p hp).more⟩) hlast.chain []
    have hsame : tail' = join (messageHeaderLen + messageFragmentHeader) first tail := by
      rw [hgather] at hgather'
      injection hgather' with hpair
      exact (congrArg Prod.fst hpair).symm
    subst hsame
    have hfilter : (rest.reverse ++ [first]).filter (fun p => p.requestId = id) =
        rest.reverse ++ [first] := by
      apply filter_eq_self.mpr
      intro p hp
      simpa using hid p hp
    rw [hfilter] at hbytes
    refine ⟨_, receive_last _ hlast (by simpa [GiopMessageBase.init] using hgather), ?_⟩
    have hwhole := consolidate_whole (hstack first (by simp)) hchain 0
    rw [hbytes] at hwhole
    simpa [GiopMessageBase.init] using hwhole

theorem forall₂_concat {α β : Type} {R : α → β → Prop} {xs : List α} {x : α} {ys : List β}
    (h : List.Forall₂ R (xs ++ [x]) ys) :
    ∃ ys' y, ys = ys' ++ [y] ∧ List.Forall₂ R xs ys' ∧ R x y := by
  induction xs generalizing ys with
  | nil =>
    cases h with
    | @cons _ y _ _ hy hnil =>
      cases hnil
      exact ⟨[], y, rfl, .nil, hy⟩
  | cons a xs ih =>
    cases h with
    | @cons _ b _ _ hb hrest =>
      obtain ⟨ys', y, rfl, hys, hy⟩ := ih hrest
      exact ⟨b :: ys', y, rfl, .cons hb hys, hy⟩

theorem Arrived.bytes_eq {msg : List UInt8} (h : Arrived P msg qd) : qd.bytes = msg := by
  simp [QueuedData.bytes, QueuedData.blocks, h.single, h.contents]

theorem Arrived.map_bytes {msgs : List (List UInt8)} {parts : List QueuedData}
    (h : List.Forall₂ (Arrived P) msgs parts) : parts.map QueuedData.bytes = msgs := by
  induction h with
  | nil => rfl
  | cons hqd _ ih => rw [map_cons, ih, hqd.bytes_eq]

/-- What arrives is one of the messages. -/
theorem forall₂_mem {α β : Type} {R : α → β → Prop} {xs : List α} {ys : List β}
    (h : List.Forall₂ R xs ys) {y : β} (hy : y ∈ ys) : ∃ x ∈ xs, R x y := by
  induction h with
  | nil => simp at hy
  | @cons x y' xs ys hr _ ih =>
    rcases mem_cons.mp hy with rfl | hy
    · exact ⟨x, by simp, hr⟩
    · obtain ⟨x', hx', hr'⟩ := ih hy
      exact ⟨x', by simp [hx'], hr'⟩

/-- What arrives of the sender's messages makes its joined octets, behind a header. -/
theorem messages_received {o : FragmentingCdr} (h : Sending P swap requestId o)
    {parts : List QueuedData} (hparts : List.Forall₂ (Arrived P) (messages P o) parts) :
    ∃ msg bs, GiopMessageBase.init.receive P parts = some msg ∧ Whole P swap bs msg ∧
      bs.drop messageHeaderLen = joined o := by
  have hmap := Arrived.map_bytes hparts
  obtain ⟨firsts, last, rfl, hsent, hlast⟩ := forall₂_concat hparts
  have hfirsts : ∀ p ∈ firsts, Received P swap (idOf P swap requestId) true p := by
    intro p hp
    obtain ⟨m, hm, harr⟩ := forall₂_mem hsent hp
    obtain ⟨s, hs, rfl⟩ := h.sent m hm
    exact harr.received hs
  obtain ⟨msg, hmsg, hwhole⟩ := receive_spec hfirsts (hlast.received h.current)
  refine ⟨msg, _, hmsg, hwhole, ?_⟩
  obtain ⟨-, hbody⟩ := formatMessage_drop P h.current.long false
  have hbodies : bodies (messages P o) = joined o := bodies_congr o.sent hbody
  have hlong : ∀ m ∈ messages P o, messageHeaderLen ≤ m.length := by
    intro m hm
    rcases mem_append.mp hm with hm | hm
    · obtain ⟨s, hs, rfl⟩ := h.sent m hm
      rw [(formatMessage_drop P hs.long true).1]
      exact Nat.le_trans (by decide) hs.long
    · obtain rfl := mem_singleton.mp hm
      rw [(formatMessage_drop P h.current.long false).1]
      exact Nat.le_trans (by decide) h.current.long
  rw [hmap]
  generalize messages P o = msgs at hbodies hlong
  cases msgs with
  | nil => simpa [assembled, bodies] using hbodies
  | cons first rest => rw [assembled_drop (hlong first (by simp)), hbodies]

end Receiver

/-- **Fragmentation is transparent**, where every cut is smooth: what has been inserted is
extracted from the message that the parts make. -/
theorem fragments_extracted {swap : Bool} {requestId : UInt32} (hn : P.wcharMaxbytes = n)
    (hle : n ≤ P.wcharSize) (w : WideKind k n) {maxMessageSize : Nat} (hmax : 24 ≤ maxMessageSize)
    {s : OutputCDR} (hs : Message12 P swap requestId s) {is : List (Insertion n)}
    (hfits : ∀ i ∈ is, i.Fits) (hsmooth : Smooth P maxMessageSize s.contents.length is) :
    ∃ o, insertAll P maxMessageSize requestId is ⟨s, []⟩ = some o ∧
      ∀ parts, List.Forall₂ (Arrived P) (messages P o) parts →
        ∃ msg, GiopMessageBase.init.receive P parts = some msg ∧
          extractAll P (is.map Insertion.type) (msg.bodyCdr P s.contents.length) =
            some (is.map Insertion.value) := by
  have hstart : Progress P swap requestId w s.contents [] ⟨s, []⟩ :=
    ⟨⟨hs, by simp⟩, [], by simp [joined, bodies], .nil _, rfl⟩
  obtain ⟨o, hall, hprog⟩ := insertAll_spec hn hle hmax hstart hfits hsmooth
  refine ⟨o, hall, fun parts hparts => ?_⟩
  obtain ⟨msg, octets, hmsg, hwhole, hdrop⟩ := messages_received hprog.toSending hparts
  obtain ⟨bs, hjoined, hlaid, -⟩ := hprog.joined
  refine ⟨msg, hmsg, ?_⟩
  have hat := inputCdr_at (P := P) hwhole.toPlaced
  rw [hwhole.order, hwhole.contents, hdrop, hjoined] at hat
  have hbody := hat.skip
  have hlen : (s.contents.drop messageHeaderLen).length = s.contents.length - messageHeaderLen :=
    length_drop
  have hlong := hs.long
  have haligned := hwhole.aligned8
  rw [hlen] at hbody
  have hpos : s.contents.length % maxAlignment = (msg.msgBlock.base + (msg.msgBlock.rdPtr +
      messageHeaderLen) + (s.contents.length - messageHeaderLen)) % maxAlignment := by
    simp only [maxAlignment, messageHeaderLen] at haligned ⊢
    omega
  have hversion : (msg.bodyCdr P s.contents.length).version = (1, 2) := by
    change (msg.state.giopVersion.major, msg.state.giopVersion.minor) = _
    rw [hwhole.version]
  apply extractAll_at hn hle w hfits hversion hbody
  apply hlaid.of_mod hpos
  intro seg hseg
  obtain ⟨i, -, hi⟩ := mem_flatMap.mp hseg
  exact i.segs_dvd seg hi

/-- A GIOP 1.2 Request, as far as its request id. -/
def startRequest (P : Platform) (size byteOrder : Nat) (requestId : UInt32) : OutputCDR :=
  let header := (OutputCDR.init P size byteOrder 1 2).writeOctetArray P
    (headerOctets 0 ++ [0, 0, 0, 0]) 12
  (header.2.writeUlong P requestId).2

theorem startRequest_message (P : Platform) (size : Nat) (requestId : UInt32) :
    Message12 P false requestId (startRequest P size P.byteOrder requestId) ∧
      (startRequest P size P.byteOrder requestId).contents.length = 16 := by
  have hdo : (init P size P.byteOrder 1 2).doByteSwap = false := by simp [init]
  have horder : (init P size P.byteOrder 1 2).swaps P = false := by
    simp [swaps, hdo]
  obtain ⟨s₁, s₂, hfirst, -, hsecond, hmsg, hlen⟩ := header_written (t := 0)
    (init_wf P size P.byteOrder 1 2) (init_based size P.byteOrder 1 2)
    (init_contents P size P.byteOrder 1 2) rfl ⟨rfl, rfl⟩ hdo horder (by decide) requestId
  have hstart : startRequest P size P.byteOrder requestId = s₂ := by
    unfold startRequest
    simp only [hfirst, hsecond]
  rw [hstart]
  exact ⟨hmsg, hlen⟩

theorem startRequest_length : (startRequest .plain 64 1 7).contents.length = 16 :=
  (startRequest_message .plain 64 7).2

/-- The message in a block at address 0. -/
def arrive (P : Platform) (msg : List UInt8) : QueuedData where
  msgBlock := ⟨0, msg, 0, msg.length⟩
  cont := []
  state := (Framing.parseMessageHeader P.endian Framing.freshState msg).getD Framing.freshState

theorem arrive_arrived {msgs : List (List UInt8)}
    (h : ∀ m ∈ msgs, (Framing.parseMessageHeader P.endian Framing.freshState m).isSome) :
    List.Forall₂ (Arrived P) msgs (msgs.map (arrive P)) := by
  induction msgs with
  | nil => exact .nil
  | cons m msgs ih =>
    refine .cons ⟨⟨Nat.zero_le _, Nat.le_refl _⟩, rfl, ?_, rfl, ?_⟩
      (ih fun m' hm' => h m' (by simp [hm']))
    · simp [arrive, MessageBlock.contents, MessageBlock.length]
    · obtain ⟨state, hstate⟩ := isSome_iff_exists.mp (h m (by simp))
      simp [arrive, hstate]

/-- An octet, an unsigned long long, and two strings, in parts of 24 octets at most. -/
def mixedInsertions : List (Insertion 4) :=
  [.scalar .octet (1 : UInt8), .scalar .ulonglong (5 : UInt64), .string ⟨[97, 98], by decide⟩,
    .wstring ⟨[120], by decide, by simp⟩]

theorem fragments_extracted_mixed :
    ∃ o, insertAll .plain 24 7 mixedInsertions ⟨startRequest .plain 64 1 7, []⟩ = some o ∧
      ∀ parts, List.Forall₂ (Arrived .plain) (messages .plain o) parts →
        ∃ msg, GiopMessageBase.init.receive .plain parts = some msg ∧
          extractAll .plain (mixedInsertions.map Insertion.type)
            (msg.bodyCdr .plain (startRequest .plain 64 1 7).contents.length) =
            some (mixedInsertions.map Insertion.value) := by
  have hfits : ∀ i ∈ mixedInsertions, i.Fits := by decide
  have hsmooth : Smooth .plain 24 (startRequest .plain 64 1 7).contents.length mixedInsertions := by
    decide
  exact fragments_extracted (P := .plain) rfl (Nat.le_refl 4) .ulong (Nat.le_refl 24)
    (startRequest_message .plain 64 7).1 hfits hsmooth

/-- Of 24 octets at most, with the message up to 24 by the first insertion: the string runs over
the bound, to 26. -/
def lostInsertions : List (Insertion 4) :=
  [.scalar .ulonglong (1 : UInt64), .string ⟨[104, 101, 108, 108, 111], by decide⟩,
    .scalar .short (5 : Int16)]

def shortOf : Extracted → Option Int16
  | .scalar .short x => some x
  | _ => none

theorem lostInsertions_messages :
    (insertAll .plain 24 7 lostInsertions ⟨startRequest .plain 64 1 7, []⟩).map (messages .plain) =
      some [[71, 73, 79, 80, 1, 2, 3, 0, 12, 0, 0, 0, 7, 0, 0, 0, 1, 0, 0, 0, 0, 0, 0, 0],
        [71, 73, 79, 80, 1, 2, 3, 7, 20, 0, 0, 0, 7, 0, 0, 0, 6, 0, 0, 0, 104, 101, 108, 108,
          111, 0, 0, 0, 0, 0, 0, 0],
        [71, 73, 79, 80, 1, 2, 1, 7, 6, 0, 0, 0, 7, 0, 0, 0, 5, 0]] := by
  decide

/-- The short is written behind 6 octets of padding, and read in them. -/
theorem short_behind_string_lost :
    ¬ ∀ is : List (Insertion 4), (∀ i ∈ is, i.Fits) →
      ∃ o, insertAll .plain 24 7 is ⟨startRequest .plain 64 1 7, []⟩ = some o ∧
        ∀ parts, List.Forall₂ (Arrived .plain) (messages .plain o) parts →
          ∃ msg, GiopMessageBase.init.receive .plain parts = some msg ∧
            extractAll .plain (is.map Insertion.type)
              (msg.bodyCdr .plain (startRequest .plain 64 1 7).contents.length) =
              some (is.map Insertion.value) := by
  intro hall
  obtain ⟨o, ho, hparts⟩ := hall lostInsertions (by decide)
  have hmsgs := lostInsertions_messages
  rw [ho, map_some, some.injEq] at hmsgs
  obtain ⟨msg, hmsg, hread⟩ := hparts _ (arrive_arrived (by rw [hmsgs]; decide))
  rw [startRequest_length] at hread
  -- the message is computed from the parts
  have hrun : ((GiopMessageBase.init.receive .plain ((messages .plain o).map (arrive .plain))).bind
      fun msg => (extractAll .plain (lostInsertions.map type)
        (msg.bodyCdr .plain 16)).map (·.map shortOf)) = some [none, none, some 0] := by
    rw [hmsgs]
    decide +kernel
  rw [hmsg, bind_some, hread] at hrun
  revert hrun
  decide

end Atcd.Giop
