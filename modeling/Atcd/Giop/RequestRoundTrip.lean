import Atcd.Cdr.Emit
import Atcd.Giop.RequestHeader
/-!
# Reading back a request header

`write_request_header` of the GIOP 1.0 and 1.2 generators on the output stream,
for an object addressed by its key, and `parse_request_header` on the message
that the header and a body make. The stream has the host's byte order, which is
what `TAO_OutputCDR` opens it with, and the GIOP header is in it already.

Both sides are layouts of the same segments: `Writes` says which segments a
writer appends, `Reads` that a reader takes segments and returns a value.

The two sides decide on the padding of a 1.2 body by different means: the writer
by `in_argument_flag`, the reader by the length that is left. They agree when the
body is empty exactly if the flag is false.

Results:
* `requestHeader_roundTrip`: the parser returns 0, recovers what was written and
  stops on the first byte of the body.
* `unaligned_body`: without the flag the reader skips the first bytes of a body.
-/
namespace Atcd.Giop.RequestHeader

open List Option Cdr.OutputCDR Header Atcd.Core.Laid Input UInt32

/-! ## The generators -/

/-- A service context or a profile as it is written: the octets have a `ULong`
length. -/
structure Context where
  id : UInt32
  data : Cdr.Arr UInt8

/-- What `write_request_header` takes from `TAO_Operation_Details`. -/
structure Details where
  requestId : UInt32
  responseFlags : UInt8
  opname : Cdr.CString
  serviceInfo : Cdr.Arr Context
  hasInArgs : Bool
  numArgs : UInt32

/-- mirrors TAO/tao/operation_details.inl:52-56 -/
def Details.inArgumentFlag (d : Details) : Bool := d.hasInArgs && decide (d.numArgs > 1)

/-- A write to the stream: what the source returns, and the stream it leaves. -/
def Writer := Cdr.OutputCDR → Bool × Cdr.OutputCDR

/-- `if (!f) return false; g`. -/
def Writer.andThen (f g : Writer) : Writer := fun s =>
  match f s with
  | (true, s) => g s
  | (false, s) => (false, s)

/-- `f; g`: the result of `f` is not used. -/
def Writer.seq (f g : Writer) : Writer := fun s => g (f s).2

/-- `return true`. -/
def Writer.done : Writer := fun s => (true, s)

variable (P : Cdr.Platform)

/-- mirrors TAO/tao/Unbounded_Sequence_CDR_T.h:460-471 -/
def writeOctetSeq (x : Cdr.Arr UInt8) : Writer :=
  Writer.andThen (·.writeUlong P x.ulen) (·.writeOctetArray P x.val x.ulen)

def writeContext (x : Context) : Writer :=
  Writer.andThen (·.writeUlong P x.id) (writeOctetSeq P x.data)

/-- mirrors Unbounded_Sequence_CDR_T.h:563-567 -/
def writeContexts : List Context → Writer
  | [] => .done
  | x :: xs => (writeContext P x).andThen (writeContexts xs)

/-- mirrors Unbounded_Sequence_CDR_T.h:557-569 -/
def writeContextSeq (x : Cdr.Arr Context) : Writer :=
  Writer.andThen (·.writeUlong P x.ulen) (writeContexts P x.val)

def writeOpname (x : Cdr.CString) : Writer := fun s =>
  s.writeString P (UInt32.ofNat x.val.length) (x.val ++ [0])

/-- The response flags: 255 is `TAO_TWOWAY_RESPONSE_FLAG`, 254 is
`SYNC_DELAYED_BUFFERING` as an octet, the others are the sync scopes.
mirrors TAO/tao/GIOP_Message_Generator_Parser_12.cpp:48-68 -/
def writeFlags12 (flags : UInt8) : Writer := fun s =>
  if flags = 255 then (true, (s.writeOctet P 3).2)
  else if flags = 0 ∨ flags = 1 ∨ flags = 254 then (true, (s.writeOctet P 0).2)
  else if flags = 2 then (true, (s.writeOctet P 1).2)
  else if flags = 3 then (true, (s.writeOctet P 3).2)
  else (false, s)

/-- The branch for an object key.
mirrors GIOP_Message_Generator_Parser_12.cpp:407-433 -/
def marshallTargetSpec (key : Cdr.Arr UInt8) : Writer :=
  Writer.andThen (·.writeShort P 0) (writeOctetSeq P key)

/-- mirrors ACE/ace/CDR_Stream.inl:574-587 -/
def alignWritePtr (align : Nat) : Writer := fun s =>
  match s.adjust P 0 align with
  | some (_, s) => (true, s)
  | none => (false, s)

/-- mirrors GIOP_Message_Generator_Parser_12.cpp:23-91 -/
def writeRequestHeader12 (d : Details) (key : Cdr.Arr UInt8) : Writer :=
  Writer.andThen (·.writeUlong P d.requestId) <|
  Writer.andThen (writeFlags12 P d.responseFlags) <|
  Writer.seq (·.writeOctetArray P [0, 0, 0] 3) <|
  Writer.andThen (marshallTargetSpec P key) <|
  Writer.seq (writeOpname P d.opname) <|
  Writer.andThen (writeContextSeq P d.serviceInfo)
    (if d.inArgumentFlag = true then alignWritePtr P 8 else .done)

theorem nil_length_lt : ([] : List UInt8).length < 2 ^ 32 := by decide

/-- The principal is an empty sequence.
mirrors TAO/tao/GIOP_Message_Generator_Parser_10.cpp:17-109 -/
def writeRequestHeader10 (d : Details) (key : Cdr.Arr UInt8) : Writer :=
  Writer.andThen (writeContextSeq P d.serviceInfo) <|
  Writer.andThen (·.writeUlong P d.requestId) <|
  Writer.seq (·.writeOctet P (if d.responseFlags = 255 then 1 else 0)) <|
  Writer.seq (writeOctetSeq P key) <|
  Writer.seq (writeOpname P d.opname) <|
  Writer.seq (writeOctetSeq P ⟨[], nil_length_lt⟩) .done

def writeRequestHeader (v : Version) (d : Details) (key : Cdr.Arr UInt8) : Writer :=
  match v with
  | .v10 => writeRequestHeader10 P d key
  | .v11 => writeRequestHeader10 P d key
  | .v12 => writeRequestHeader12 P d key

def Version.minor : Version → UInt8
  | .v10 => 0
  | .v11 => 1
  | .v12 => 2

/-- The stream with the GIOP header in it; the flags and the size are set when
the message is sent.
mirrors TAO/tao/GIOP_Message_Base.cpp:925-960 -/
def writeProtocolHeader (size : Nat) (v : Version) : Cdr.OutputCDR :=
  ((Cdr.OutputCDR.init P size P.byteOrder 1 v.minor).writeOctetArray P
    [0x47, 0x49, 0x4f, 0x50, 1, v.minor, 0, 0, 0, 0, 0, 0] 12).2

/-! ## What the generators append -/

def word (e : Core.Endian) (size v : Nat) : Core.Seg UInt8 := ⟨size, Core.store e size v⟩

def octets (bs : List UInt8) : Core.Seg UInt8 := ⟨1, bs⟩

def octetSeqSegs (e : Core.Endian) (x : List UInt8) : List (Core.Seg UInt8) :=
  [word e 4 x.length, octets x]

def contextSegs (e : Core.Endian) (x : Context) : List (Core.Seg UInt8) :=
  word e 4 x.id.toNat :: octetSeqSegs e x.data.val

def contextSeqSegs (e : Core.Endian) (x : Cdr.Arr Context) : List (Core.Seg UInt8) :=
  word e 4 x.val.length :: x.val.flatMap (contextSegs e)

def opnameSegs (e : Core.Endian) (x : Cdr.CString) : List (Core.Seg UInt8) :=
  [word e 4 (x.val.length + 1), octets (x.val ++ [0])]

/-- The response flags the 1.2 generator accepts. -/
def accepts (flags : UInt8) : Prop :=
  flags = 255 ∨ flags = 3 ∨ flags = 2 ∨ flags = 0 ∨ flags = 1 ∨ flags = 254

/-- The octet a 1.2 header has for the response flags. -/
def octet12 (flags : UInt8) : UInt8 :=
  if flags = 255 ∨ flags = 3 then 3 else if flags = 2 then 1 else 0

def segs12 (e : Core.Endian) (d : Details) (key : Cdr.Arr UInt8) : List (Core.Seg UInt8) :=
  [word e 4 d.requestId.toNat, octets [octet12 d.responseFlags], octets [0, 0, 0]] ++
    (word e 2 0 :: octetSeqSegs e key.val ++ (opnameSegs e d.opname ++
      (contextSeqSegs e d.serviceInfo ++ if d.inArgumentFlag = true then [⟨8, []⟩] else [])))

def segs10 (e : Core.Endian) (d : Details) (key : Cdr.Arr UInt8) : List (Core.Seg UInt8) :=
  contextSeqSegs e d.serviceInfo ++
    ([word e 4 d.requestId.toNat, octets [if d.responseFlags = 255 then 1 else 0]] ++
      (octetSeqSegs e key.val ++ (opnameSegs e d.opname ++ octetSeqSegs e [])))

/-- The writer returns `true` and appends the segments. -/
def Writes (segs : List (Core.Seg UInt8)) (f : Writer) : Prop :=
  ∀ s : Cdr.OutputCDR, s.Wf → s.goodBit = true → s.swaps P = false →
    (f s).1 = true ∧ s.Emits segs (f s).2

variable {P}

theorem Writes.seq {xs ys : List (Core.Seg UInt8)} {f g : Writer} (hf : Writes P xs f)
    (hg : Writes P ys g) : Writes P (xs ++ ys) (f.seq g) := by
  intro s hw hgood hswap
  obtain ⟨-, ef⟩ := hf s hw hgood hswap
  obtain ⟨hv, eg⟩ := hg (f s).2 ef.wf (ef.keeps.good hgood)
    (by rw [swaps_keeps ef.keeps]; exact hswap)
  exact ⟨hv, ef.append eg⟩

theorem Writes.andThen {xs ys : List (Core.Seg UInt8)} {f g : Writer} (hf : Writes P xs f)
    (hg : Writes P ys g) : Writes P (xs ++ ys) (f.andThen g) := by
  intro s hw hgood hswap
  have hv : f s = (true, (f s).2) := Prod.ext (hf s hw hgood hswap).1 rfl
  have e : f.andThen g s = f.seq g s := by rw [Writer.andThen, hv]; rfl
  rw [e]
  exact hf.seq hg s hw hgood hswap

theorem Writes.done : Writes P [] .done := by
  intro s hw _ _
  exact ⟨rfl, .nil hw⟩

theorem writeUlong_writes (x : UInt32) : Writes P [word P.endian 4 x.toNat] (·.writeUlong P x) := by
  intro s hw _ hswap
  have h := writeScalar_emits P hw .ulong x
  rw [hswap] at h
  exact h

theorem writeShort_writes (x : Int16) :
    Writes P [word P.endian 2 x.toUInt16.toNat] (·.writeShort P x) := by
  intro s hw _ hswap
  have h := writeScalar_emits P hw .short x
  rw [hswap] at h
  exact h

theorem writeOctet_writes (x : UInt8) : Writes P [octets [x]] (·.writeOctet P x) := by
  intro s hw _ _
  exact write1_emits P hw x

/-- An array of octets: an empty one leaves no trace, which is how an empty run is
laid out. -/
theorem writeOctetArray_writes (x : List UInt8) (length : UInt32) (hl : length.toNat = x.length) :
    Writes P [octets x] (·.writeOctetArray P x length) := by
  intro s hw _ _
  by_cases hne : x = []
  · subst hne
    have h0 : length = 0 := UInt32.toNat_inj.mp hl
    refine ⟨by simp [writeOctetArray, writeArray, h0], ?_⟩
    simp only [writeOctetArray, writeArray, h0, if_true]
    refine ⟨hw, .refl s, [], ?_, by simp⟩
    have hfill : ([] : List UInt8).length = Core.gap s.contents.length 1 := by simp
    exact single (octets []) hfill
  · exact writeCharArray_emits P hw hl hne

theorem writeOctetSeq_writes (x : Cdr.Arr UInt8) :
    Writes P (octetSeqSegs P.endian x.val) (writeOctetSeq P x) := by
  have hu := writeUlong_writes (P := P) x.ulen
  rw [x.toNat_ulen] at hu
  exact hu.andThen (writeOctetArray_writes _ _ x.toNat_ulen)

theorem writeContext_writes (x : Context) :
    Writes P (contextSegs P.endian x) (writeContext P x) :=
  (writeUlong_writes x.id).andThen (writeOctetSeq_writes x.data)

theorem writeContexts_writes (xs : List Context) :
    Writes P (xs.flatMap (contextSegs P.endian)) (writeContexts P xs) := by
  induction xs with
  | nil => exact .done
  | cons x xs ih => exact (writeContext_writes x).andThen ih

theorem writeContextSeq_writes (x : Cdr.Arr Context) :
    Writes P (contextSeqSegs P.endian x) (writeContextSeq P x) := by
  have hu := writeUlong_writes (P := P) x.ulen
  rw [x.toNat_ulen] at hu
  exact hu.andThen (writeContexts_writes x.val)

theorem writeOpname_writes (x : Cdr.CString) (hx : x.val.length + 1 < 2 ^ 32) :
    Writes P (opnameSegs P.endian x) (writeOpname P x) := by
  intro s hw _ hswap
  have h := writeCString_emits P hw x hx
  have hlen : (ofNat (x.val.length + 1)).toNat = x.val.length + 1 := toNat_ofNat_of_lt' hx
  have e : seg P false .ulong (ofNat (x.val.length + 1)) =
      word P.endian 4 (ofNat (x.val.length + 1)).toNat := rfl
  rw [hswap, e, hlen] at h
  exact h

theorem writeFlags12_writes {flags : UInt8} (h : accepts flags) :
    Writes P [octets [octet12 flags]] (writeFlags12 P flags) := by
  intro s hw hgood hswap
  have hem := fun x => (writeOctet_writes (P := P) x s hw hgood hswap).2
  rcases h with rfl | rfl | rfl | rfl | rfl | rfl
  · exact ⟨rfl, hem 3⟩
  · exact ⟨rfl, hem 3⟩
  · exact ⟨rfl, hem 1⟩
  · exact ⟨rfl, hem 0⟩
  · exact ⟨rfl, hem 0⟩
  · exact ⟨rfl, hem 0⟩

theorem marshallTargetSpec_writes (key : Cdr.Arr UInt8) :
    Writes P (word P.endian 2 0 :: octetSeqSegs P.endian key.val) (marshallTargetSpec P key) :=
  (writeShort_writes 0).andThen (writeOctetSeq_writes key)

theorem alignWritePtr_writes : Writes P [⟨8, []⟩] (alignWritePtr P 8) := by
  intro s hw _ _
  obtain ⟨buf, s', hadj, hres⟩ := adjust_spec P hw 0 (.inr (.inr (.inr rfl)) : Cdr.IsAlign 8)
  have hem := hres.poke_exact (show ([] : List UInt8).length = 0 from rfl)
  have hpoke : s'.poke buf [] = s' := by
    simp [poke, Cdr.MessageBlock.poke]
  rw [hpoke] at hem
  simp only [alignWritePtr, hadj]
  exact ⟨trivial, hem⟩

theorem writeRequestHeader12_writes (d : Details) (key : Cdr.Arr UInt8)
    (hflags : accepts d.responseFlags) (hop : d.opname.val.length + 1 < 2 ^ 32) :
    Writes P (segs12 P.endian d key) (writeRequestHeader12 P d key) := by
  have hbody : Writes P (if d.inArgumentFlag = true then [⟨8, []⟩] else [])
      (if d.inArgumentFlag = true then alignWritePtr P 8 else .done) := by
    split
    · exact alignWritePtr_writes
    · exact .done
  have hrest := (marshallTargetSpec_writes key).andThen ((writeOpname_writes d.opname hop).seq
    ((writeContextSeq_writes d.serviceInfo).andThen hbody))
  exact (writeUlong_writes d.requestId).andThen ((writeFlags12_writes hflags).andThen
    ((writeOctetArray_writes [0, 0, 0] 3 rfl).seq hrest))

theorem writeRequestHeader10_writes (d : Details) (key : Cdr.Arr UInt8)
    (hop : d.opname.val.length + 1 < 2 ^ 32) :
    Writes P (segs10 P.endian d key) (writeRequestHeader10 P d key) := by
  have hnobody := (writeOctetSeq_writes (P := P) ⟨[], nil_length_lt⟩).seq .done
  have hrest := (writeOctetSeq_writes key).seq ((writeOpname_writes d.opname hop).seq hnobody)
  exact (writeContextSeq_writes d.serviceInfo).andThen ((writeUlong_writes d.requestId).andThen
    ((writeOctet_writes _).seq hrest))

variable {key : Cdr.Arr UInt8} {bs rest : List UInt8} {i : Input} {pos : Nat}

/-- The 1.2 generator returns `false` for any other response flags. -/
theorem accepts_of_written {d : Details} {s : Cdr.OutputCDR} (hw : s.Wf) (hgood : s.goodBit = true)
    (hswap : s.swaps P = false) (h : (writeRequestHeader12 P d key s).1 = true) :
    accepts d.responseFlags := by
  by_contra hn
  have hid := (writeUlong_writes (P := P) d.requestId s hw hgood hswap).1
  obtain ⟨s', e⟩ : ∃ s', s.writeUlong P d.requestId = (true, s') := ⟨_, Prod.ext hid rfl⟩
  have hf : ∀ s, writeFlags12 P d.responseFlags s = (false, s) := by
    intro s
    simp only [accepts, not_or] at hn
    simp [writeFlags12, hn]
  simp only [writeRequestHeader12, Writer.andThen, e, hf, Bool.false_eq_true] at h

/-! ## Readers at a position of the message -/

variable {m : Machine} {mem : Nat → UInt8} {wr : Nat}

/-- The reader stands at position `pos` of a message that ends at `wr`, with `bs`
unread. -/
structure At (m : Machine) (mem : Nat → UInt8) (wr : Nat) (i : Input) (pos : Nat)
    (bs : List UInt8) : Prop where
  memory : i.memory = mem
  finish : i.wr = wr
  good : i.good = true
  aligned : i.rd % Cdr.maxAlignment = pos % Cdr.maxAlignment
  length : i.rd + bs.length = wr
  unread : i.bytes i.rd bs.length = bs
  room : wr + 16 ≤ m.space

/-- The reader takes the segments and returns `v`, wherever they are. -/
def Reads {α : Type} (m : Machine) (segs : List (Core.Seg UInt8)) (v : α) (f : Reader α) : Prop :=
  ∀ mem wr i pos bs rest, At m mem wr i pos (bs ++ rest) → Core.Laid pos segs bs →
    ∃ i', f i = (some v, i') ∧ At m mem wr i' (pos + bs.length) rest

theorem Input.bytes_add (i : Input) (p a b : Nat) :
    i.bytes p (a + b) = i.bytes p a ++ i.bytes (p + a) b := by
  simp [bytes, range_add, map_append, Nat.add_assoc]

@[simp] theorem Input.length_bytes (i : Input) (p n : Nat) : (i.bytes p n).length = n := by
  simp [bytes]

/-- The unread bytes in two parts. -/
theorem At.split (h : At m mem wr i pos (bs ++ rest)) :
    i.bytes i.rd bs.length = bs ∧ i.bytes (i.rd + bs.length) rest.length = rest := by
  have hu := h.unread
  rw [length_append, bytes_add] at hu
  exact append_inj hu (by simp)

/-- The read pointer behind the first part. -/
theorem At.move (h : At m mem wr i pos (bs ++ rest)) :
    At m mem wr (i.move (i.rd + bs.length)) (pos + bs.length) rest := by
  have hl := h.length
  rw [length_append] at hl
  refine ⟨h.memory, h.finish, h.good, ?_, ?_, h.split.2, h.room⟩
  · have := h.aligned
    simp only [Input.move]
    rw [Nat.add_mod, this, ← Nat.add_mod]
  · simp only [Input.move]
    omega

theorem At.length_eq (h : At m mem wr i pos bs) : i.length = bs.length := by
  have h1 := h.length
  have h2 := h.finish
  unfold Input.length
  omega

theorem At.alignBinary {align : Nat} {fill : List UInt8} (h : At m mem wr i pos (fill ++ rest))
    (hfill : fill.length = Core.gap pos align) (ha : Cdr.IsAlign align) :
    Cdr.alignBinary i.rd align % m.space = i.rd + fill.length := by
  have hgap : Core.gap i.rd align = fill.length := by
    rw [hfill]
    exact Core.gap_of_mod ha.dvd h.aligned
  have h1 := h.length
  have h2 := h.room
  rw [length_append] at h1
  rw [Cdr.alignBinary_eq ha, hgap, Nat.mod_eq_of_lt (by omega)]

theorem Reads.pure {α : Type} (v : α) : Reads m [] v (.pure v) := by
  intro mem wr i pos bs rest hat hlaid
  obtain rfl := hlaid.nil_inv
  exact ⟨i, rfl, hat⟩

theorem Reads.andThen {α β : Type} {xs ys : List (Core.Seg UInt8)} {v : α} {w : β} {f : Reader α}
    {g : α → Reader β} (hf : Reads m xs v f) (hg : Reads m ys w (g v)) :
    Reads m (xs ++ ys) w (f.andThen g) := by
  intro mem wr i pos bs rest hat hlaid
  obtain ⟨cs, ds, rfl, hcs, hds⟩ := append_inv xs hlaid
  rw [append_assoc] at hat
  obtain ⟨i1, e1, hat1⟩ := hf mem wr i pos cs (ds ++ rest) hat hcs
  obtain ⟨i2, e2, hat2⟩ := hg mem wr i1 _ ds rest hat1 hds
  refine ⟨i2, ?_, ?_⟩
  · simp only [Reader.andThen, e1, e2]
  · rw [length_append, ← Nat.add_assoc]
    exact hat2

theorem Reads.map {α β : Type} {segs : List (Core.Seg UInt8)} {v : α} {f : Reader α} (φ : α → β)
    (hf : Reads m segs v f) : Reads m segs (φ v) (f.andThen fun a => .pure (φ a)) := by
  have h := hf.andThen (g := fun a => .pure (φ a)) (Reads.pure (φ v))
  rwa [append_nil] at h

/-- The data of a segment behind its padding. -/
theorem Laid.single_inv {s : Core.Seg UInt8} (h : Core.Laid pos [s] bs) :
    ∃ fill, bs = fill ++ s.data ∧ fill.length = Core.gap pos s.align := by
  obtain ⟨fill, rest, rfl, hfill, hnil⟩ := h.cons_inv
  obtain rfl := hnil.nil_inv
  exact ⟨fill, by simp, hfill⟩

/-- **Alignment.** `adjust` finds the data of a segment behind the padding. -/
theorem adjust_at {align : Nat} {data : List UInt8} (hat : At m mem wr i pos (bs ++ rest))
    (hlaid : Core.Laid pos [⟨align, data⟩] bs) (ha : Cdr.IsAlign align) :
    ∃ buf i', i.adjust m data.length align = (some buf, i') ∧ i'.bytes buf data.length = data ∧
      At m mem wr i' (pos + bs.length) rest := by
  obtain ⟨fill, rfl, hfill⟩ := Laid.single_inv hlaid
  have hmove := hat.move
  rw [append_assoc] at hat
  have hbuf := hat.alignBinary hfill ha
  have h1 := hat.length
  have h2 := hat.room
  have h3 := hat.finish
  simp only [length_append] at h1 hmove
  have hend : (i.rd + fill.length + data.length) % m.space =
      i.rd + (fill.length + data.length) := by
    rw [Nat.mod_eq_of_lt (by omega), Nat.add_assoc]
  have hdata := hat.split.2
  rw [length_append, bytes_add] at hdata
  refine ⟨i.rd + fill.length, i.move (i.rd + (fill.length + data.length)), ?_, ?_, ?_⟩
  · simp only [Input.adjust, hbuf, hend]
    rw [if_pos (by omega)]
  · exact (append_inj hdata (by simp)).1
  · rw [length_append]
    exact hmove

theorem readOctet_reads (x : UInt8) : Reads m [octets [x]] x Input.readOctet := by
  intro mem wr i pos bs rest hat hlaid
  obtain ⟨fill, rfl, hfill⟩ := Laid.single_inv hlaid
  have hnil : fill = [] := length_eq_zero_iff.mp (by rw [hfill]; exact Core.gap_one pos)
  subst hnil
  have hmove := hat.move
  have h1 := hat.length
  have h2 := hat.finish
  have h3 := hat.split.1
  simp only [octets, nil_append, length_append, length_singleton] at h1 h3 hmove ⊢
  have hx : i.memory i.rd = x := by simpa [bytes] using h3
  refine ⟨i.move (i.rd + 1), ?_, hmove⟩
  rw [readOctet, if_pos (by omega), hx]

theorem readWord_reads {size v : Nat} (hs : Cdr.IsAlign size) (hv : v < 256 ^ size) :
    Reads m [word m.order size v] v (Input.readWord m size) := by
  intro mem wr i pos bs rest hat hlaid
  obtain ⟨buf, i', e, hdata, hat'⟩ := adjust_at hat hlaid hs
  rw [Core.length_store] at e hdata
  refine ⟨i', ?_, hat'⟩
  simp only [readWord, e, hdata, Core.load_store m.order hv]

theorem readShort_reads (x : UInt16) :
    Reads m [word m.order 2 x.toNat] x.toInt16 (Input.readShort m) := by
  have h := (readWord_reads (m := m) (.inr (.inl rfl)) x.toNat_lt).map
    fun v => (UInt16.ofNat v).toInt16
  rw [UInt16.ofNat_toNat] at h
  exact h

theorem readUlong_reads (x : UInt32) : Reads m [word m.order 4 x.toNat] x (Input.readUlong m) := by
  have h := (readWord_reads (m := m) (.inr (.inr (.inl rfl))) x.toNat_lt).map UInt32.ofNat
  rw [UInt32.ofNat_toNat] at h
  exact h

theorem readLong_reads (x : UInt32) :
    Reads m [word m.order 4 x.toNat] x.toInt32 (Input.readLong m) :=
  (readUlong_reads x).map toInt32

/-! ## Sequences -/

theorem octets_inv {x : List UInt8} (h : Core.Laid pos [octets x] bs) : bs = x := by
  obtain ⟨fill, rfl, hfill⟩ := Laid.single_inv h
  have hnil : fill = [] := length_eq_zero_iff.mp (by rw [hfill]; exact Core.gap_one pos)
  rw [hnil]
  rfl

theorem skip_at (h : At m mem wr i pos (bs ++ rest)) :
    i.skipBytes m bs.length = (true, i.move (i.rd + bs.length)) := by
  have h1 := h.length
  have h2 := h.finish
  have h3 := h.room
  rw [length_append] at h1
  have hdest : (i.rd + bs.length) % m.space = i.rd + bs.length := Nat.mod_eq_of_lt (by omega)
  simp only [skipBytes, hdest]
  rw [if_pos (by omega)]

theorem readOctets_reads (x : Cdr.Arr UInt8) :
    Reads m [octets x.val] x.val (Input.readOctets m x.ulen) := by
  intro mem wr i pos bs rest hat hlaid
  have hbs := octets_inv hlaid
  subst hbs
  have hn := x.toNat_ulen
  have hlen := hat.length_eq
  rw [length_append] at hlen
  have hroom : ¬ x.ulen.toNat > i.length := by omega
  have hdata := hat.split.1
  unfold readOctets
  rw [if_neg hroom, hn]
  by_cases hsh : m.shares = true
  · rw [if_pos hsh, hdata, skip_at hat]
    exact ⟨_, rfl, hat.move⟩
  · rw [if_neg hsh, readOctetArray, if_neg hroom]
    by_cases h0 : x.ulen = 0
    · have hnil : x.val = [] := length_eq_zero_iff.mp (by rw [← hn, h0]; rfl)
      rw [if_pos h0]
      rw [hnil] at hat ⊢
      exact ⟨i, rfl, hat⟩
    · obtain ⟨buf, i', e, hbuf, hat'⟩ := adjust_at hat hlaid (.inl rfl)
      refine ⟨i', ?_, hat'⟩
      simp only [if_neg h0, hn, e, hbuf, hat'.good, if_true]

theorem readOctetSeq_reads (x : Cdr.Arr UInt8) :
    Reads m (octetSeqSegs m.order x.val) x.val (Input.readOctetSeq m) := by
  have hu := readUlong_reads (m := m) x.ulen
  rw [x.toNat_ulen] at hu
  exact hu.andThen (readOctets_reads x)

/-- What a reader finds for a context. -/
def Context.value (x : Context) : Tagged := ⟨x.id, x.data.val⟩

theorem readTagged_reads (x : Context) :
    Reads m (contextSegs m.order x) x.value (Input.readTagged m) :=
  (readUlong_reads x.id).andThen ((readOctetSeq_reads x.data).map (Tagged.mk x.id))

theorem readElements_reads (xs : List Context) :
    Reads m (xs.flatMap (contextSegs m.order)) (xs.map Context.value)
      (Input.readElements m xs.length) := by
  induction xs with
  | nil => exact Reads.pure _
  | cons x xs ih => exact (readTagged_reads x).andThen (ih.map (x.value :: ·))

theorem length_le_of_laid (e : Core.Endian) (xs : List Context)
    (h : Core.Laid pos (xs.flatMap (contextSegs e)) bs) : xs.length ≤ bs.length := by
  induction xs generalizing pos bs with
  | nil => simp
  | cons x xs ih =>
    obtain ⟨cs, ds, rfl, hcs, hds⟩ := append_inv (contextSegs e x) h
    obtain ⟨fill, rest, rfl, -, -⟩ := hcs.cons_inv
    have hrest := ih hds
    have hword : (word e 4 x.id.toNat).data.length = 4 := Core.length_store e 4 _
    simp only [length_append, length_cons, hword]
    omega

theorem readCounted_reads (x : Cdr.Arr Context) :
    Reads m (x.val.flatMap (contextSegs m.order)) (x.val.map Context.value)
      (Input.readCounted m x.ulen) := by
  intro mem wr i pos bs rest hat hlaid
  have hcount := length_le_of_laid m.order x.val hlaid
  have hlen := hat.length_eq
  have hn := x.toNat_ulen
  rw [length_append] at hlen
  obtain ⟨i', e, hat'⟩ := readElements_reads x.val mem wr i pos bs rest hat hlaid
  refine ⟨i', ?_, hat'⟩
  rw [readCounted, if_neg (by omega), hn, e]

theorem readTaggedSeq_reads (x : Cdr.Arr Context) :
    Reads m (contextSeqSegs m.order x) (x.val.map Context.value) (Input.readTaggedSeq m) := by
  have hu := readUlong_reads (m := m) x.ulen
  rw [x.toNat_ulen] at hu
  exact hu.andThen (readCounted_reads x)

/-! ## The parts of a header -/

theorem Header.read_some {α : Type} {h : Header} {f : Reader α} {v : α} (hs : h.status = true)
    (e : f h.input = (some v, i)) :
    h.read f = (some v, { h with input := i, status := true }) := by
  simp only [read, hs, if_true, e, isSome_some]

theorem before12_at {id : UInt32} {flags : UInt8} (hat : At m mem wr i pos (bs ++ rest))
    (hlaid : Core.Laid pos [word m.order 4 id.toNat, octets [flags], octets [0, 0, 0]] bs) :
    ∃ i', Header.before12 m i = ⟨i', true, { Request.init with
        requestId := id, responseExpected := decide (flags > 0),
        syncWithServer := decide (flags = 1) }, none⟩ ∧
      At m mem wr i' (pos + bs.length) rest := by
  obtain ⟨b1, bs, rfl, l1, hlaid⟩ := append_inv [_] hlaid
  obtain ⟨b2, b3, rfl, l2, l3⟩ := append_inv [_] hlaid
  simp only [append_assoc] at hat
  obtain ⟨i1, e1, h1⟩ := readUlong_reads id mem wr i pos b1 _ hat l1
  obtain ⟨i2, e2, h2⟩ := readOctet_reads flags mem wr i1 _ b2 _ h1 l2
  have hb3 := octets_inv l3
  subst hb3
  have hskip : i2.skipBytes m 3 = (true, i2.move (i2.rd + 3)) := skip_at h2
  have r1 : (start i).read (readUlong m) =
      (some id, { start i with input := i1, status := true }) := read_some hat.good e1
  have r2 : ({ start i with
      input := i1, status := true, request.requestId := id } : Header).read readOctet =
      (some flags, { start i with
        input := i2, status := true, request.requestId := id }) := read_some rfl e2
  refine ⟨i2.move (i2.rd + 3), ?_, ?_⟩
  · simp only [before12, flags12, r1, getD_some, r2, skip, hskip]
    rfl
  · have hmove := h2.move
    simp only [length_append, length_cons, length_nil] at hmove ⊢
    rw [← Nat.add_assoc, ← Nat.add_assoc]
    exact hmove

theorem sizeT_of_lt {x : UInt32} (h : x.toNat < 2 ^ 31) : m.sizeT x.toInt32 = x.toNat := by
  have hint : x.toInt32.toInt = (x.toNat : Int) := by
    show x.toBitVec.toInt = _
    rw [BitVec.toInt_eq_toNat_of_lt]
    · rfl
    · show 2 * x.toNat < 2 ^ 32
      omega
  have hspace : 2 ^ 32 ≤ m.space := Nat.pow_le_pow_right (by decide) m.width_ge
  unfold Machine.sizeT
  rw [hint]
  have hmod : ((x.toNat : Int) % (m.space : Int)) = (x.toNat : Int) := by
    rw [Int.emod_eq_of_lt (by omega)]
    omega
  rw [hmod, Int.toNat_natCast]

theorem unmarshallObjectKeyI_at {h : Header} (hkey : key.val.length < 2 ^ 31)
    (hat : At m mem wr h.input pos (bs ++ rest))
    (hlaid : Core.Laid pos (octetSeqSegs m.order key.val) bs) :
    ∃ i' p, h.unmarshallObjectKeyI m = { h with
        input := i', status := true, request.profile.objectKey := some ⟨p, key.val.length⟩,
        request.profile.objectKeyExtracted := true } ∧
      i'.bytes p key.val.length = key.val ∧ At m mem wr i' (pos + bs.length) rest := by
  obtain ⟨b1, b2, rfl, l1, l2⟩ := append_inv [_] hlaid
  rw [append_assoc] at hat
  have hu := readLong_reads (m := m) key.ulen
  rw [key.toNat_ulen] at hu
  obtain ⟨i1, e1, h1⟩ := hu mem wr h.input pos b1 _ hat l1
  have hb2 := octets_inv l2
  subst hb2
  have hskip := skip_at h1
  have hn : m.sizeT key.ulen.toInt32 = key.val.length := by
    rw [sizeT_of_lt (by rw [key.toNat_ulen]; exact hkey), key.toNat_ulen]
  have hlen : key.ulen.toInt32.toUInt32.toNat = key.val.length := by
    rw [toUInt32_toInt32, key.toNat_ulen]
  refine ⟨i1.move (i1.rd + key.val.length), i1.rd, ?_, h1.split.1, ?_⟩
  · have hread : ({ h with status := h.input.good } : Header).read (readLong m) =
        (some key.ulen.toInt32, { h with input := i1, status := true }) := read_some hat.good e1
    simp only [unmarshallObjectKeyI, hread, skip, hn, hlen, hskip]
  · rw [length_append, ← Nat.add_assoc]
    exact h1.move

theorem strlen_zero {p n : Nat} (hn : 0 < n) (h : mem p = 0) : Header.strlen mem p n = 0 := by
  obtain ⟨k, rfl⟩ : ∃ k, n = k + 1 := ⟨n - 1, by omega⟩
  simp only [strlen, h, if_true]

theorem operation_at {h : Header} {x : Cdr.CString} (hx : x.val.length + 1 < 2 ^ 32)
    (hs : h.status = true) (hat : At m mem wr h.input pos (bs ++ rest))
    (hlaid : Core.Laid pos (opnameSegs m.order x) bs) : ∃ i' p, h.operation m = { h with
        input := i', status := true, request.operation := some ⟨p, x.val.length⟩ } ∧
      i'.bytes p x.val.length = x.val ∧ At m mem wr i' (pos + bs.length) rest := by
  obtain ⟨b1, b2, rfl, l1, l2⟩ := append_inv [_] hlaid
  rw [append_assoc] at hat
  have hlen : (ofNat (x.val.length + 1)).toNat = x.val.length + 1 := toNat_ofNat_of_lt' hx
  have hpred : (ofNat (x.val.length + 1) - 1).toNat = x.val.length := by
    rw [UInt32.toNat_sub_of_le _ _ (by rw [UInt32.le_iff_toNat_le, hlen]; simp), hlen]
    rfl
  have hu := readUlong_reads (m := m) (ofNat (x.val.length + 1))
  rw [hlen] at hu
  obtain ⟨i1, e1, h1⟩ := hu mem wr h.input pos b1 _ hat l1
  have hb2 := octets_inv l2
  subst hb2
  have hskip := skip_at h1
  rw [length_append, length_singleton] at hskip
  have hbytes := h1.split.1
  rw [length_append, bytes_add] at hbytes
  obtain ⟨hname, hnul⟩ := append_inj hbytes (by simp)
  -- an empty name is measured by strlen, which finds the NUL behind it
  have hop : operationLen m i1 x.val.length = x.val.length := by
    unfold operationLen
    split
    · rename_i h0
      have hz : i1.memory i1.rd = 0 := by
        simpa [bytes, h0] using hnul
      have hlt : i1.rd < m.space := by
        have := h1.length
        have := h1.room
        omega
      rw [strlen_zero (by omega) hz, h0]
    · rfl
  refine ⟨i1.move (i1.rd + (x.val.length + 1)), i1.rd, ?_, hname, ?_⟩
  · simp only [operation, read_some hs e1, hpred, hlen, hskip, hop]
  · have hmove := h1.move
    simp only [length_append, length_singleton] at hmove ⊢
    rw [← Nat.add_assoc pos]
    exact hmove

theorem unmarshallTargetAddress_at {h : Header} (hkey : key.val.length < 2 ^ 31)
    (hs : h.status = true) (hat : At m mem wr h.input pos (bs ++ rest))
    (hlaid : Core.Laid pos (word m.order 2 0 :: octetSeqSegs m.order key.val) bs) :
    ∃ i' p, h.unmarshallTargetAddress m = { h with
        input := i', status := true, request.profile.discriminator := 0,
        request.profile.objectKey := some ⟨p, key.val.length⟩,
        request.profile.objectKeyExtracted := true } ∧
      i'.bytes p key.val.length = key.val ∧ At m mem wr i' (pos + bs.length) rest := by
  obtain ⟨b1, b2, rfl, l1, l2⟩ := append_inv [_] hlaid
  rw [append_assoc] at hat
  obtain ⟨i1, e1, h1⟩ := readShort_reads 0 mem wr h.input pos b1 _ hat l1
  let g : Header := { h with input := i1, status := true, request.profile.discriminator := 0 }
  obtain ⟨i2, p, e2, hbytes, h2⟩ := unmarshallObjectKeyI_at (h := g) hkey h1 l2
  have r1 : h.read (readShort m) =
      (some (UInt16.toInt16 0), { h with input := i1, status := true }) := read_some hs e1
  refine ⟨i2, p, ?_, hbytes, ?_⟩
  · simp only [unmarshallTargetAddress, r1]
    exact e2
  · rw [length_append, ← Nat.add_assoc]
    exact h2

theorem before10_at {id : UInt32} {flag : UInt8} (cs : List Tagged)
    (hat : At m mem wr i pos (bs ++ rest))
    (hlaid : Core.Laid pos [word m.order 4 id.toNat, octets [flag]] bs) :
    ∃ i', Header.before10 m i cs = ⟨i', true, { Request.init with
        requestId := id, responseExpected := decide (flag ≠ 0), serviceInfo := cs }, none⟩ ∧
      At m mem wr i' (pos + bs.length) rest := by
  obtain ⟨b1, b2, rfl, l1, l2⟩ := append_inv [_] hlaid
  rw [append_assoc] at hat
  obtain ⟨i1, e1, h1⟩ := readUlong_reads id mem wr i pos b1 _ hat l1
  obtain ⟨i2, e2, h2⟩ := readOctet_reads flag mem wr i1 _ b2 _ h1 l2
  let g : Header := { start i with request.serviceInfo := cs }
  have r1 : g.read (readUlong m) = (some id, { g with input := i1, status := true }) :=
    read_some hat.good e1
  have r2 : ({ g with
      input := i1, status := true, request.requestId := id } : Header).read readOctet =
      (some flag, { g with input := i2, status := true, request.requestId := id }) :=
    read_some rfl e2
  refine ⟨i2, ?_, ?_⟩
  · simp only [g] at r1 r2
    simp only [before10, flags10, r1, getD_some, r2]
    rfl
  · rw [length_append, ← Nat.add_assoc]
    exact h2

/-- The padding in front of a 1.2 body: the reader finds it by the length that is
left, the writer has put it there if there are arguments. -/
theorem align_at {body : List UInt8} {flag : Bool} (hbody : body = [] ↔ flag = false)
    (hat : At m mem wr i pos (bs ++ body))
    (hlaid : Core.Laid pos (if flag = true then [⟨8, []⟩] else []) bs) :
    At m mem wr (if i.length > 0 then i.alignReadPtr m 8 else i) (pos + bs.length) body := by
  have hlen := hat.length_eq
  rw [length_append] at hlen
  cases flag with
  | false =>
    have hempty : body = [] := hbody.mpr rfl
    have hnil : bs = [] := hlaid.nil_inv
    subst hempty hnil
    simp only [length_nil] at hlen
    rw [if_neg (by omega)]
    exact hat
  | true =>
    obtain ⟨fill, rfl, hfill⟩ := Laid.single_inv hlaid
    have hne : body ≠ [] := fun h => Bool.noConfusion (hbody.mp h)
    have hpos : 0 < body.length := length_pos_iff.mpr hne
    rw [append_nil] at hat ⊢
    have hbuf := hat.alignBinary hfill (.inr (.inr (.inr rfl)))
    have h1 := hat.length
    have h2 := hat.finish
    rw [length_append] at h1
    rw [if_pos (by omega)]
    simp only [alignReadPtr, hbuf]
    rw [if_pos (by omega)]
    exact hat.move

/-! ## The round trip -/

/-- The reader stands behind the GIOP header of a message at address `base`; the
size and the flags in that header are not looked at any more. -/
structure Received (m : Machine) (i : Input) (base : Nat) (msg : List UInt8) : Prop where
  base_aligned : base % Cdr.maxAlignment = 0
  rd_eq : i.rd = base + 12
  wr_eq : i.wr = base + msg.length
  bytes_eq : i.bytes i.rd (msg.length - 12) = msg.drop 12
  good : i.good = true
  room : i.wr + 16 ≤ m.space

/-- What the response flags mean in a version: 1.0 and 1.1 mark a two way call
only, 1.2 also the scopes the server answers. -/
def expectsResponse (v : Version) (flags : UInt8) : Bool :=
  match v with
  | .v10 => decide (flags = 255)
  | .v11 => decide (flags = 255)
  | .v12 => decide (flags = 255 ∨ flags = 3 ∨ flags = 2)

/-- `SYNC_WITH_SERVER` is known to 1.2 only. -/
def syncsWithServer (v : Version) (flags : UInt8) : Bool :=
  match v with
  | .v10 => false
  | .v11 => false
  | .v12 => decide (flags = 2)

/-- The parser has returned 0 and found what was written; its read pointer is on
the first byte of the body. -/
structure Recovers (v : Version) (d : Details) (key : Cdr.Arr UInt8) (body : List UInt8) (i : Input)
    (res : Int × Header) : Prop where
  result : res.1 = 0
  requestId : res.2.request.requestId = d.requestId
  objectKey : ∃ p, res.2.request.profile.objectKey = some ⟨p, key.val.length⟩ ∧
    i.bytes p key.val.length = key.val
  operation : ∃ p, res.2.request.operation = some ⟨p, d.opname.val.length⟩ ∧
    i.bytes p d.opname.val.length = d.opname.val
  serviceInfo : res.2.request.serviceInfo = d.serviceInfo.val.map Context.value
  responseExpected : res.2.request.responseExpected = expectsResponse v d.responseFlags
  syncWithServer : res.2.request.syncWithServer = syncsWithServer v d.responseFlags
  body_left : res.2.input.rd + body.length = i.wr
  body_eq : i.bytes res.2.input.rd body.length = body

theorem At.bytes_eq {j : Input} (h : At m mem wr j pos bs) (hi : i.memory = mem) (p n : Nat) :
    i.bytes p n = j.bytes p n := by
  simp only [bytes, hi, h.memory]

theorem parse12_recovers {d : Details} {body : List UInt8} (hkey : key.val.length < 2 ^ 31)
    (hop : d.opname.val.length + 1 < 2 ^ 32) (hflags : accepts d.responseFlags)
    (hbody : body = [] ↔ d.inArgumentFlag = false) (hat : At m i.memory i.wr i 12 (bs ++ body))
    (hlaid : Core.Laid 12 (segs12 m.order d key) bs) :
    Recovers .v12 d key body i (parseRequestHeader12 m i) := by
  obtain ⟨b1, bs, rfl, l1, hlaid⟩ := append_inv [_, _, _] hlaid
  obtain ⟨b2, bs, rfl, l2, hlaid⟩ := append_inv (_ :: octetSeqSegs _ _) hlaid
  obtain ⟨b3, bs, rfl, l3, hlaid⟩ := append_inv (opnameSegs _ _) hlaid
  obtain ⟨b4, b5, rfl, l4, l5⟩ := append_inv (contextSeqSegs _ _) hlaid
  simp only [append_assoc] at hat
  obtain ⟨i1, e1, h1⟩ := before12_at hat l1
  obtain ⟨i2, pk, e2, hpk, h2⟩ := unmarshallTargetAddress_at (h := before12 m i) hkey
    (by rw [e1]) (by rw [e1]; exact h1) l2
  obtain ⟨i3, po, e3, hpo, h3⟩ := operation_at
    (h := (before12 m i).unmarshallTargetAddress m) hop (by rw [e2])
    (by rw [e2]; exact h2) l3
  obtain ⟨i4, e4, h4⟩ := readTaggedSeq_reads d.serviceInfo _ _ i3 _ b4 _ h3 l4
  have h5 := align_at hbody h4 l5
  have hres : parseRequestHeader12 m i = (0, { before12 m i with
      input := if i4.length > 0 then i4.alignReadPtr m 8 else i4, status := true,
      request := { (before12 m i).request with
        profile := { (before12 m i).request.profile with
          discriminator := 0, objectKey := some ⟨pk, key.val.length⟩, objectKeyExtracted := true }
        operation := some ⟨po, d.opname.val.length⟩
        serviceInfo := d.serviceInfo.val.map Context.value } }) := by
    rw [parseRequestHeader12, e3]
    simp only [finish12, e4, if_true]
    rw [e2]
  rw [hres, e1]
  refine ⟨rfl, rfl, ⟨pk, rfl, ?_⟩, ⟨po, rfl, ?_⟩, rfl, ?_, ?_, h5.length, ?_⟩
  · rw [h2.bytes_eq rfl]
    exact hpk
  · rw [h3.bytes_eq rfl]
    exact hpo
  · rcases hflags with h | h | h | h | h | h <;> rw [h] <;> rfl
  · rcases hflags with h | h | h | h | h | h <;> rw [h] <;> rfl
  · rw [h5.bytes_eq rfl]
    exact h5.unread

theorem parse10_recovers {d : Details} {body : List UInt8} (hkey : key.val.length < 2 ^ 31)
    (hop : d.opname.val.length + 1 < 2 ^ 32) (hat : At m i.memory i.wr i 12 (bs ++ body))
    (hlaid : Core.Laid 12 (segs10 m.order d key) bs) :
    Recovers .v10 d key body i (parseRequestHeader10 m i) := by
  obtain ⟨b1, bs, rfl, l1, hlaid⟩ := append_inv (contextSeqSegs _ _) hlaid
  obtain ⟨b2, bs, rfl, l2, hlaid⟩ := append_inv [_, _] hlaid
  obtain ⟨b3, bs, rfl, l3, hlaid⟩ := append_inv (octetSeqSegs _ _) hlaid
  obtain ⟨b4, b5, rfl, l4, l5⟩ := append_inv (opnameSegs _ _) hlaid
  simp only [append_assoc] at hat
  obtain ⟨i1, e1, h1⟩ := readTaggedSeq_reads d.serviceInfo _ _ i _ b1 _ hat l1
  obtain ⟨i2, e2, h2⟩ := before10_at (d.serviceInfo.val.map Context.value) h1 l2
  let g : Header := { before10 m i1 (d.serviceInfo.val.map Context.value) with
    request.profile.discriminator := 0 }
  obtain ⟨i3, pk, e3, hpk, h3⟩ := unmarshallObjectKeyI_at (h := g) hkey
    (by simp only [g, e2]; exact h2) l3
  obtain ⟨i4, po, e4, hpo, h4⟩ := operation_at (h := g.unmarshallObjectKeyI m) hop (by rw [e3])
    (by rw [e3]; exact h3) l4
  obtain ⟨i5, e5, h5⟩ := readOctetSeq_reads ⟨[], nil_length_lt⟩ _ _ i4 _ b5 _ h4 l5
  have htarget : (before10 m i1 (d.serviceInfo.val.map Context.value)).target10 m =
      g.unmarshallObjectKeyI m := by
    rw [target10, if_pos (by rw [e2])]
    rfl
  have hres : parseRequestHeader10 m i = (0, { g with
      input := i5, status := true,
      request := { g.request with
        profile := { g.request.profile with
          objectKey := some ⟨pk, key.val.length⟩, objectKeyExtracted := true }
        operation := some ⟨po, d.opname.val.length⟩
        principal := [] } }) := by
    simp only [parseRequestHeader10, e1, htarget]
    rw [e4]
    simp only [finish10, if_true, e5, h5.good, getD_some]
    rw [e3]
  rw [hres]
  simp only [g, e2]
  refine ⟨rfl, rfl, ⟨pk, rfl, ?_⟩, ⟨po, rfl, ?_⟩, rfl, ?_, rfl, h5.length, ?_⟩
  · rw [h3.bytes_eq rfl]
    exact hpk
  · rw [h4.bytes_eq rfl]
    exact hpo
  · by_cases h : d.responseFlags = 255 <;> simp [expectsResponse, h]
  · rw [h5.bytes_eq rfl]
    exact h5.unread

/-- The stream behind the GIOP header: 12 octets, of which none is swapped. -/
theorem writeProtocolHeader_spec (P : Cdr.Platform) (size : Nat) (v : Version) :
    (writeProtocolHeader P size v).Wf ∧ (writeProtocolHeader P size v).goodBit = true ∧
      (writeProtocolHeader P size v).swaps P = false ∧
      (writeProtocolHeader P size v).contents.length = 12 := by
  have hw := init_wf P size P.byteOrder 1 v.minor
  have hswap : (init P size P.byteOrder 1 v.minor).swaps P = false := by
    simp [swaps, init]
  obtain ⟨-, hem⟩ := writeOctetArray_writes (P := P)
    [0x47, 0x49, 0x4f, 0x50, 1, v.minor, 0, 0, 0, 0, 0, 0] 12 rfl _ hw rfl hswap
  obtain ⟨bs, hlaid, hcont⟩ := hem.laid
  have hbs := octets_inv hlaid
  rw [init_contents, nil_append, hbs] at hcont
  refine ⟨hem.wf, hem.keeps.good rfl, ?_, ?_⟩
  · rw [writeProtocolHeader, swaps_keeps hem.keeps]
    exact hswap
  · rw [writeProtocolHeader, hcont]
    rfl

/-- The reader of a message whose first 12 bytes are the GIOP header. -/
theorem Received.at {base : Nat} {front : List UInt8} (h : Received m i base (front ++ rest))
    (hfront : front.length = 12) : At m i.memory i.wr i 12 rest := by
  have hw := h.wr_eq
  have hr := h.rd_eq
  have hb := h.bytes_eq
  have ha := h.base_aligned
  rw [length_append, hfront] at hw hb
  rw [← hfront, drop_left, hfront] at hb
  refine ⟨rfl, rfl, h.good, ?_, by omega, ?_, h.room⟩
  · have h8 : Cdr.maxAlignment = 8 := rfl
    rw [h8] at ha ⊢
    omega
  · rw [Nat.add_sub_cancel_left] at hb
    exact hb

/-- **Round trip.** For every version, request id, accepted response flags, object
key, operation name and service contexts, parsing what the generator has written
recovers it and stops on the first byte of the body, wherever the message lies.
The body of a 1.2 request is empty exactly if there are no in arguments; the key
has fewer than 2^31 octets, since its length is read as a `Long`; the operation
name has a `ULong` length with its NUL. -/
theorem requestHeader_roundTrip (m : Machine) (P : Cdr.Platform) (horder : m.order = P.endian)
    (size : Nat) (v : Version) (d : Details) (key : Cdr.Arr UInt8) (body : List UInt8)
    (base : Nat) (i : Input) (hkey : key.val.length < 2 ^ 31)
    (hop : d.opname.val.length + 1 < 2 ^ 32)
    (hbody : v = .v12 → (body = [] ↔ d.inArgumentFlag = false))
    (hwritten : (writeRequestHeader P v d key (writeProtocolHeader P size v)).1 = true)
    (hi : Received m i base
      ((writeRequestHeader P v d key (writeProtocolHeader P size v)).2.contents ++ body)) :
    Recovers v d key body i (parseRequestHeader m v i) := by
  obtain ⟨hw, hgood, hswap, hlen⟩ := writeProtocolHeader_spec P size v
  -- the message is the GIOP header, the segments of the request header and the body
  have hat : ∀ segs, (writeProtocolHeader P size v).Emits segs
      (writeRequestHeader P v d key (writeProtocolHeader P size v)).2 →
      ∃ bs, At m i.memory i.wr i 12 (bs ++ body) ∧ Core.Laid 12 segs bs := by
    intro segs hem
    obtain ⟨bs, hlaid, hcont⟩ := hem.laid
    rw [hlen] at hlaid
    rw [hcont, append_assoc] at hi
    exact ⟨bs, hi.at hlen, hlaid⟩
  have h10 : (writeProtocolHeader P size v).Emits (segs10 P.endian d key)
      (writeRequestHeader10 P d key (writeProtocolHeader P size v)).2 →
      (v = .v10 ∨ v = .v11) → Recovers .v10 d key body i (parseRequestHeader10 m i) := by
    intro hem hv
    obtain ⟨bs, h, hlaid⟩ := hat (segs10 P.endian d key) (by rcases hv with rfl | rfl <;> exact hem)
    exact parse10_recovers hkey hop h (by rw [horder]; exact hlaid)
  cases v with
  | v10 => exact h10 (writeRequestHeader10_writes d key hop _ hw hgood hswap).2 (.inl rfl)
  | v11 =>
    have h := h10 (writeRequestHeader10_writes d key hop _ hw hgood hswap).2 (.inr rfl)
    exact ⟨h.1, h.2, h.3, h.4, h.5, h.6, h.7, h.8, h.9⟩
  | v12 =>
    have hflags := accepts_of_written hw hgood hswap hwritten
    obtain ⟨bs, h, hlaid⟩ := hat (segs12 P.endian d key)
      (writeRequestHeader12_writes d key hflags hop _ hw hgood hswap).2
    exact parse12_recovers hkey hop hflags (hbody rfl) h (by rw [horder]; exact hlaid)

/-- A reader in front of the request header of a message at address `base`. -/
def receive (base : Nat) (msg : List UInt8) : Input :=
  ⟨fun p => msg.getD (p - base) 0, base + 12, base + msg.length, true, []⟩

theorem received_receive {base : Nat} {msg : List UInt8} (hbase : base % Cdr.maxAlignment = 0)
    (hmsg : 12 ≤ msg.length) (hroom : base + msg.length + 16 ≤ m.space) :
    Received m (receive base msg) base msg := by
  refine ⟨hbase, rfl, rfl, ?_, rfl, hroom⟩
  apply ext_getElem (by simp)
  intro k h1 h2
  rw [length_bytes] at h1
  have hk : base + 12 + k - base = 12 + k := by omega
  simp only [receive, bytes, getElem_map, getElem_range, hk, getElem_drop]
  rw [getD_eq_getElem _ _ (by omega)]

theorem pingName_nonul : (0 : UInt8) ∉ [112, 105, 110, 103] := by decide

theorem pingData_length : ([5, 6] : List UInt8).length < 2 ^ 32 := by decide

def pingContext : Context := ⟨1, ⟨[5, 6], pingData_length⟩⟩

theorem pingContexts_length : [pingContext].length < 2 ^ 32 := by
  rw [length_singleton]
  decide

theorem pingKey_length : ([1, 2, 3] : List UInt8).length < 2 ^ 32 := by decide

/-- The object that is called. -/
def pingKey : Cdr.Arr UInt8 := ⟨[1, 2, 3], pingKey_length⟩

/-- A two way call of `ping` with one service context. -/
def ping (hasInArgs : Bool) : Details where
  requestId := 7
  responseFlags := 255
  opname := ⟨[112, 105, 110, 103], pingName_nonul⟩
  serviceInfo := ⟨[pingContext], pingContexts_length⟩
  hasInArgs := hasInArgs
  numArgs := 2

/-- The message that `ping` makes with a body. -/
def pingMessage (hasInArgs : Bool) (body : List UInt8) : List UInt8 :=
  (writeRequestHeader .plain .v12 (ping hasInArgs) pingKey
    (writeProtocolHeader .plain 64 .v12)).2.contents ++ body

theorem pingMessage_true : pingMessage true [8, 9] =
    [71, 73, 79, 80, 1, 2, 0, 0, 0, 0, 0, 0, 7, 0, 0, 0, 3, 0, 0, 0, 0, 0, 0, 0, 3, 0, 0, 0, 1, 2, 3,
      0, 5, 0, 0, 0, 112, 105, 110, 103, 0, 0, 0, 0, 1, 0, 0, 0, 1, 0, 0, 0, 2, 0, 0, 0, 5, 6, 0, 0,
      0, 0, 0, 0, 8, 9] := by decide_cbv

theorem received_ping : Received host64 (receive 64 (pingMessage true [8, 9])) 64
    (pingMessage true [8, 9]) := by
  apply received_receive rfl
  · rw [pingMessage_true]
    decide
  · rw [pingMessage_true]
    decide_cbv

theorem requestHeader_roundTrip_ping :
    Recovers .v12 (ping true) pingKey [8, 9] (receive 64 (pingMessage true [8, 9]))
      (parseRequestHeader host64 .v12 (receive 64 (pingMessage true [8, 9]))) :=
  requestHeader_roundTrip host64 .plain rfl 64 .v12 (ping true) pingKey [8, 9] 64 _
    (by decide) (by decide) (by decide) (by decide_cbv) received_ping

/-- Without in arguments the body follows at once. -/
theorem pingMessage_false : pingMessage false [1, 2, 3, 4, 5, 6, 7, 8] =
    [71, 73, 79, 80, 1, 2, 0, 0, 0, 0, 0, 0, 7, 0, 0, 0, 3, 0, 0, 0, 0, 0, 0, 0, 3, 0, 0, 0, 1, 2, 3,
      0, 5, 0, 0, 0, 112, 105, 110, 103, 0, 0, 0, 0, 1, 0, 0, 0, 1, 0, 0, 0, 2, 0, 0, 0, 5, 6,
      1, 2, 3, 4, 5, 6, 7, 8] := by decide_cbv

/-- Without in arguments the body is not aligned, but the reader looks for an
aligned one as soon as bytes are left: it stops behind the first bytes. -/
theorem unaligned_body :
    (writeRequestHeader .plain .v12 (ping false) pingKey
        (writeProtocolHeader .plain 64 .v12)).1 = true ∧
      ([1, 2, 3, 4, 5, 6, 7, 8] = ([] : List UInt8) → (ping false).inArgumentFlag = false) ∧
      Received host64 (receive 64 (pingMessage false [1, 2, 3, 4, 5, 6, 7, 8])) 64
        (pingMessage false [1, 2, 3, 4, 5, 6, 7, 8]) ∧
      ¬ Recovers .v12 (ping false) pingKey [1, 2, 3, 4, 5, 6, 7, 8]
        (receive 64 (pingMessage false [1, 2, 3, 4, 5, 6, 7, 8]))
        (parseRequestHeader host64 .v12
          (receive 64 (pingMessage false [1, 2, 3, 4, 5, 6, 7, 8]))) := by
  rw [pingMessage_false]
  refine ⟨by decide_cbv, by decide,
    received_receive rfl (by decide) (by decide_cbv), fun h => ?_⟩
  -- 58 bytes of header: the body starts at offset 58, the reader goes on to offset 64
  have hrd := h.body_left
  revert hrd
  decide_cbv

end Atcd.Giop.RequestHeader
