import Atcd.Cdr.WideStrings
import Atcd.Giop.Fragments
/-!
# On demand fragmentation

`TAO_On_Demand_Fragmentation_Strategy::fragment` stands in front of every insertion into a
`TAO_OutputCDR`: where the message would grow beyond the bound, it is padded to 8 octets and
sent as a part, and the stream starts again with the 16 octets of a fragment header. Only the
alignment and the size of the insertion's first datum are looked at, so that a string runs
beyond the bound.

The receiver takes the values from the consolidated message, behind the headers of its first
part.

Results:
* `alignWritePtr_emits`: padding is a segment without data;
* `reset_spec`: a stream that is reset is empty, and as good as a new one.

Sending always succeeds, and the version is at least 1.2 (below, `fragment` fails).
-/
namespace Atcd.Cdr

open Atcd.Core MessageBlock

namespace OutputCDR

variable (P : Platform)

/-- The first block stays, without its data.
mirrors ACE/ace/CDR_Stream.inl:155-179 -/
def reset (s : OutputCDR) : OutputCDR :=
  { s with
    before := []
    current := (match s.before with
      | [] => s.current
      | start :: _ => start).mbAlign
    after := []
    currentAlignment := 0
    currentIsWritable := true }

/-- mirrors CDR_Stream.inl:575-588 -/
def alignWritePtr (s : OutputCDR) (alignment : Nat) : Option OutputCDR :=
  (s.adjust P 0 alignment).map Prod.snd

def Based (s : OutputCDR) : Prop := ∀ mb ∈ s.blocks ++ s.after, mb.base % maxAlignment = 0

section Based

variable {P} {s : OutputCDR}

theorem init_based (size byteOrder : Nat) (major minor : UInt8) :
    (init P size byteOrder major minor).Based := by
  intro mb hmb
  simp only [init, blocks, List.nil_append, List.append_nil, List.mem_singleton] at hmb
  subst hmb
  exact P.base_aligned 0

theorem Based.poke (h : s.Based) (buf : Nat) (bs : List UInt8) : (s.poke buf bs).Based := by
  intro mb hmb
  simp only [OutputCDR.poke, blocks, List.mem_append, List.mem_singleton] at hmb
  rcases hmb with (hmb | rfl) | hmb
  · exact h mb (by simp [blocks, hmb])
  · exact h s.current (by simp [blocks])
  · exact h mb (by simp [hmb])

theorem Based.advance {s' : OutputCDR} (h : s.Based) {cont : MessageBlock}
    {rest : List MessageBlock} (hs : s'.before = s.before ∧ s'.current = s.current)
    (hcont : cont.base % maxAlignment = 0) (hrest : ∀ mb ∈ rest, mb ∈ s.after) :
    (s'.advance cont rest).Based := by
  intro mb hmb
  simp only [OutputCDR.advance, blocks, hs.1, hs.2, List.mem_append, List.mem_singleton] at hmb
  rcases hmb with ((hmb | rfl) | rfl) | hmb
  · exact h mb (by simp [blocks, hmb])
  · exact h s.current (by simp [blocks])
  · exact hcont
  · exact h mb (by simp [hrest mb hmb])

theorem Based.grow (h : s.Based) (size : Nat) : (s.grow P size).Based := by
  unfold OutputCDR.grow
  split
  · exact h.advance ⟨rfl, rfl⟩ (P.base_aligned s.allocs) fun mb hmb => hmb
  · split
    · exact h
    · rename_i cont rest hafter
      apply h.advance ⟨rfl, rfl⟩
      · exact h cont (by simp [hafter])
      · intro mb hmb
        simp [hafter, hmb]

theorem Based.adjustLoop {size align : Nat} : ∀ (fuel : Nat) {s : OutputCDR} {buf : Nat}
    {s' : OutputCDR}, s.Based → adjustLoop P size align fuel s = some (buf, s') → s'.Based
  | 0, s, buf, s', _, hadj => by simp [OutputCDR.adjustLoop] at hadj
  | fuel + 1, s, buf, s', h, hadj => by
    rw [OutputCDR.adjustLoop] at hadj
    simp only at hadj
    split at hadj
    · simp only [Option.some.injEq, Prod.mk.injEq] at hadj
      obtain ⟨-, rfl⟩ := hadj
      intro mb hmb
      simp only [blocks, List.mem_append, List.mem_singleton] at hmb
      rcases hmb with (hmb | rfl) | hmb
      · exact h mb (by simp [blocks, hmb])
      · exact h s.current (by simp [blocks])
      · exact h mb (by simp [hmb])
    · exact Based.adjustLoop fuel (h.grow size) hadj

theorem Based.adjust {size align buf : Nat} {s' : OutputCDR} (h : s.Based)
    (hadj : s.adjust P size align = some (buf, s')) : s'.Based := Based.adjustLoop _ h hadj

theorem Based.write1 (h : s.Based) (x : UInt8) : (s.write1 P x).2.Based := by
  unfold OutputCDR.write1
  cases hadj : s.adjust P 1 1 with
  | none => exact h
  | some p => exact (h.adjust hadj).poke _ _

theorem Based.writePrim (h : s.Based) (size align : Nat) (x : List UInt8) :
    (s.writePrim P size align x).2.Based := by
  unfold OutputCDR.writePrim
  cases hadj : s.adjust P size align with
  | none => exact h
  | some p =>
    simp only
    split <;> exact (h.adjust hadj).poke _ _

theorem Based.writeScalar (h : s.Based) (k : Kind) (x : k.Val) : (s.writeScalar P k x).2.Based := by
  cases k with
  | octet => exact h.write1 _
  | boolean => exact h.write1 _
  | char => exact h.write1 _
  | _ => exact h.writePrim _ _ _

theorem Based.writeArray (h : s.Based) (x : List UInt8) (size align : Nat) (length : UInt32) :
    (s.writeArray P x size align length).2.Based := by
  unfold OutputCDR.writeArray
  split
  · exact h
  · cases hadj : s.adjust P (size * length.toNat) align with
    | none => exact h
    | some p =>
      have hp : p.2.Based := h.adjust hadj
      simp only
      split
      · exact hp.poke _ _
      · split
        · exact hp.poke _ _
        · exact fun mb hmb => hp mb hmb

theorem Based.writeCString (h : s.Based) (x : CString) : (s.writeCString P (some x)).2.Based := by
  have hu : ∀ n, (s.writeUlong P n).2.Based := fun n => h.writeScalar .ulong n
  unfold OutputCDR.writeCString OutputCDR.writeString
  simp only
  split
  · have h1 := hu (UInt32.ofNat x.val.length + 1)
    generalize s.writeUlong P (UInt32.ofNat x.val.length + 1) = a at h1 ⊢
    obtain ⟨ok, s'⟩ := a
    cases ok with
    | true => exact h1.writeArray _ _ _ _
    | false => exact h1
  · have h1 := hu 1
    generalize s.writeUlong P 1 = a at h1 ⊢
    obtain ⟨ok, s'⟩ := a
    cases ok with
    | true => exact h1.write1 _
    | false => exact h1

theorem Based.writeWcharArray (h : s.Based) (x : List UInt32) (length : UInt32) :
    (s.writeWcharArray P x length).2.Based := by
  unfold OutputCDR.writeWcharArray
  split
  · exact h
  · split
    · exact h.writeArray _ _ _ _
    · unfold OutputCDR.writeWcharArrayI
      split
      · exact h
      · cases hadj : s.adjust P (P.wcharMaxbytes * length.toNat)
          (if P.wcharMaxbytes = 2 then shortAlign else octetAlign) with
        | none => simpa [hadj] using h
        | some p =>
          simp only [hadj]
          split
          · split <;> exact (h.adjust hadj).poke _ _
          · exact (h.adjust hadj).poke _ _

/-- In GIOP 1.2. -/
theorem Based.writeWstring (h : s.Based) (hv : s.majorVersion = 1 ∧ s.minorVersion = 2)
    (len : UInt32) (x : List UInt32) : (s.writeWstring P len (some x)).2.Based := by
  unfold OutputCDR.writeWstring
  split
  · exact h
  · simp only
    have h1 : (s.writeUlong P (truncateCast (P.wcharMaxbytes * len.toNat))).2.Based :=
      h.writeScalar .ulong _
    generalize s.writeUlong P (truncateCast (P.wcharMaxbytes * len.toNat)) = a at h1 ⊢
    obtain ⟨ok, s'⟩ := a
    cases ok with
    | true => exact h1.writeWcharArray _ _
    | false => exact h1

end Based

variable {P}

theorem mbAlign_wf {mb : MessageBlock} (h : mb.base % maxAlignment = 0) :
    mb.mbAlign.Wf ∧ mb.mbAlign.contents = [] ∧ mb.mbAlign.length = 0 ∧
      mb.mbAlign.base = mb.base := by
  have hoff : alignBinary mb.base maxAlignment - mb.base = 0 := by
    rw [alignBinary_eq (by simp [IsAlign, maxAlignment]), gap_of_aligned _ _ h]
    omega
  refine ⟨⟨Nat.le_refl _, ?_⟩, ?_, ?_, rfl⟩
  · simp only [mbAlign, hoff]
    exact Nat.zero_le _
  · simp [MessageBlock.contents, MessageBlock.length, MessageBlock.mbAlign]
  · simp [length, mbAlign]

theorem reset_spec {s : OutputCDR} (h : s.Based) :
    s.reset.Wf ∧ s.reset.Based ∧ s.reset.contents = [] ∧ Keeps s s.reset := by
  have hstart : ∃ mb ∈ s.blocks, s.reset.blocks = [mb.mbAlign] := by
    cases hb : s.before with
    | nil => exact ⟨s.current, by simp [blocks], by simp [reset, blocks, hb]⟩
    | cons start rest => exact ⟨start, by simp [blocks, hb], by simp [reset, blocks, hb]⟩
  obtain ⟨mb, hmb, hblocks⟩ := hstart
  obtain ⟨hwf, hcont, hlen, hbase⟩ := mbAlign_wf (h mb (by simp [hmb]))
  refine ⟨⟨rfl, rfl, ?_, ?_⟩, ?_, ?_, ⟨rfl, rfl, rfl, id⟩⟩
  · rw [hblocks]
    simpa using hwf
  · rw [totalLength, hblocks]
    simpa [reset] using hlen
  · have hafter : s.reset.after = [] := rfl
    unfold Based
    rw [hblocks, hafter]
    simpa [hbase] using h mb (by simp [hmb])
  · rw [contents, hblocks]
    simpa using hcont

theorem poke_nil (s : OutputCDR) (buf : Nat) : s.poke buf [] = s := by
  simp [poke, MessageBlock.poke]

theorem alignWritePtr_emits {s : OutputCDR} (h : s.Wf) (hb : s.Based) {a : Nat} (ha : IsAlign a) :
    ∃ s', s.alignWritePtr P a = some s' ∧ Emits [⟨a, []⟩] s s' ∧ s'.Based := by
  obtain ⟨buf, s', hadj, hres⟩ := adjust_spec P h 0 ha
  have hem : Emits [⟨a, []⟩] s (s'.poke buf []) := hres.poke_exact rfl
  rw [poke_nil] at hem
  exact ⟨s', by rw [alignWritePtr, hadj, Option.map_some], hem, hb.adjust hadj⟩

end OutputCDR

end Atcd.Cdr

namespace Atcd.Giop

open Atcd.Core Atcd.Cdr

variable (P : Platform) {n : Nat}

/-- What is inserted, wide characters in `n` octets.
mirrors TAO/tao/CDR.inl:352-448 -/
inductive Insertion (n : Nat)
  | scalar (k : Kind) (x : k.Val)
  | string (x : CString)
  | wstring (x : WString n)

/-- The alignment and the length that `fragment_stream` is told. -/
def Insertion.pending : Insertion n → Nat × Nat
  | .scalar k _ => (k.align, k.size)
  | .string _ => (octetAlign, octetSize)
  | .wstring _ => (if P.wcharSize = 2 then shortAlign else longAlign, P.wcharSize)

def Insertion.write (s : OutputCDR) : Insertion n → Bool × OutputCDR
  | .scalar k x => s.writeScalar P k x
  | .string x => s.writeCString P (some x)
  | .wstring x => s.writeWstring P (UInt32.ofNat x.val.length) (some x.val)

/-- A `TAO_OutputCDR` and the messages that have been sent from it. -/
structure FragmentingCdr where
  cdr : OutputCDR
  sent : List (List UInt8)

/-- The octets of a message, with the flags and the size in its header.
mirrors TAO/tao/GIOP_Message_Base.cpp:263-335,2041-2061 -/
def formatMessage (s : OutputCDR) (moreFragments : Bool) : List UInt8 :=
  let buf := s.contents
  let flags := (buf.getD 6 0) ||| ((UInt8.ofNat P.byteOrder) ^^^ (octetOfBool s.doByteSwap)) |||
    (octetOfBool moreFragments <<< 1)
  let bodylen := OutputCDR.wire P (s.swaps P) .ulong (UInt32.ofNat (buf.length - messageHeaderLen))
  buf.take 6 ++ [flags] ++ (buf.drop 7).take 1 ++ bodylen ++ buf.drop messageHeaderLen

/-- Whether the pending datum makes the part longer than the bound; the sums are `ULong`.
mirrors TAO/tao/On_Demand_Fragmentation_Strategy.cpp:42-60 -/
def exceeds (maxMessageSize totalLength : Nat) (pending : Nat × Nat) : Bool :=
  let totalPendingLength := (alignBinary totalLength pending.1 + pending.2) % 2 ^ 32
  decide (maxMessageSize < alignBinary totalPendingLength maxAlignment % 2 ^ 32)

/-- The header of a part, before it is formatted.
mirrors GIOP_Message_Base.cpp:925-960 -/
def writeProtocolHeader (s : OutputCDR) : Bool × OutputCDR :=
  let msg := s.reset
  msg.writeOctetArray P
    [0x47, 0x49, 0x4f, 0x50, s.majorVersion, s.minorVersion, 0, 7, 0, 0, 0, 0] 12

/-- The request id is inserted as any `ULong`; a bound that has no room for it would have the
header fragmented in turn.
mirrors GIOP_Message_Base.cpp:207-237, GIOP_Message_Generator_Parser_12.cpp:209-219 -/
def generateFragmentHeader (maxMessageSize : Nat) (requestId : UInt32) (s : OutputCDR) :
    Bool × OutputCDR :=
  match writeProtocolHeader P s with
  | (false, s) => (false, s)
  | (true, s) =>
    if exceeds maxMessageSize s.totalLength (longAlign, longSize) then (false, s)
    else s.writeUlong P requestId

/-- mirrors On_Demand_Fragmentation_Strategy.cpp:22-91 -/
def fragment (maxMessageSize : Nat) (requestId : UInt32) (o : FragmentingCdr)
    (pending : Nat × Nat) : Bool × FragmentingCdr :=
  if o.cdr.majorVersion = 1 ∧ o.cdr.minorVersion < 2 then (false, o)
  else if exceeds maxMessageSize o.cdr.totalLength pending then
    match o.cdr.alignWritePtr P maxAlignment with
    | none => (false, o)
    | some cdr =>
      let header := generateFragmentHeader P maxMessageSize requestId cdr
      (header.1, ⟨header.2, o.sent ++ [formatMessage P cdr true]⟩)
  else (true, o)

/-- mirrors CDR.inl:352-448 -/
def insert (maxMessageSize : Nat) (requestId : UInt32) (o : FragmentingCdr) (i : Insertion n) :
    Bool × FragmentingCdr :=
  match fragment P maxMessageSize requestId o (i.pending P) with
  | (false, o) => (false, o)
  | (true, o) =>
    let written := i.write P o.cdr
    (written.1, { o with cdr := written.2 })

def insertAll (maxMessageSize : Nat) (requestId : UInt32) :
    List (Insertion n) → FragmentingCdr → Option FragmentingCdr
  | [], o => some o
  | i :: is, o =>
    match insert P maxMessageSize requestId o i with
    | (true, o) => insertAll maxMessageSize requestId is o
    | (false, _) => none

/-- The messages, when what is left is sent as the last part. -/
def messages (o : FragmentingCdr) : List (List UInt8) := o.sent ++ [formatMessage P o.cdr false]

/-! ## The receiver -/

/-- The type that is extracted. -/
inductive Extraction
  | scalar (k : Kind)
  | string
  | wstring

/-- What is extracted; strings up to their NUL. -/
inductive Extracted
  | scalar (k : Kind) (x : k.Val)
  | string (x : List UInt8)
  | wstring (x : List UInt32)

def Insertion.type : Insertion n → Extraction
  | .scalar k _ => .scalar k
  | .string _ => .string
  | .wstring _ => .wstring

def Insertion.value : Insertion n → Extracted
  | .scalar k x => .scalar k x
  | .string x => .string x.val
  | .wstring x => .wstring x.val

def extract (r : InputCDR) : Extraction → Option Extracted × InputCDR
  | .scalar k => ((r.readScalar P k).1.map (Extracted.scalar k), (r.readScalar P k).2)
  | .string => ((r.readCString P).1.map .string, (r.readCString P).2)
  | .wstring =>
    ((r.readWstring P).1.map fun x => .wstring (x.takeWhile (· ≠ 0)), (r.readWstring P).2)

def extractAll : List Extraction → InputCDR → Option (List Extracted)
  | [], _ => some []
  | t :: ts, r =>
    match extract P r t with
    | (none, _) => none
    | (some x, r) => (extractAll ts r).map (x :: ·)

/-- The stream on a message behind the octets of its headers. -/
def QueuedData.bodyCdr (qd : QueuedData) (headers : Nat) : InputCDR :=
  let r := qd.inputCdr P
  { r with start := { r.start with rdPtr := r.start.rdPtr + (headers - messageHeaderLen) } }

end Atcd.Giop
