import Atcd.Giop.QueuedData
import Atcd.Cdr.RoundTrip
import Atcd.Core.Demux
import Atcd.Core.Run
/-!
# Fragment reassembly

`consolidate_fragmented_message` keeps the parts of all unfinished messages on one
stack. The last part of a message takes the parts of its request id off it, from the
top on, and the others go back through a second stack. A CancelRequest drops the
parts of its request id in the same way.

Results:
* `reassembly`: for parts of any number of requests in any order, a last part gives
  the bytes of the message, and the stack holds what is unfinished of each request.
* `cancelled_part_kept`: a part that comes after its message was cancelled is kept.
-/
namespace Atcd.Giop

open Atcd.Core Atcd.Cdr List MessageBlock QueuedData InputCDR

/-- The parts on the stack, the top first, and the number of buffers used so far. -/
structure GiopMessageBase where
  fragmentStack : List QueuedData
  buffers : Nat
  deriving DecidableEq

/-- No result where the version is unknown: an exception is thrown.
mirrors TAO/tao/GIOP_Message_Base.cpp:1384-1416,1704-1713 -/
def fragmentHeaderLength (version : MessageVersion) : Option Nat :=
  if version.major = 1 then
    if version.minor = 0 ∨ version.minor = 1 then some 0
    else if version.minor = 2 then some messageFragmentHeader
    else none
  else none

/-- The part `tail`, with what it chains, goes behind `head` without its headers. -/
def join (headerAdjustment : Nat) (head tail : QueuedData) : QueuedData :=
  { head with cont :=
      { tail.msgBlock with rdPtr := tail.msgBlock.rdPtr + headerAdjustment } :: tail.cont }

/-- The loop for GIOP 1.1, over the stack. -/
def gatherGiop11 (headerAdjustment : Nat) :
    List QueuedData → QueuedData → List QueuedData → QueuedData × List QueuedData
  | [], tail, reverseStack => (tail, reverseStack)
  | head :: stack, tail, reverseStack =>
    if head.state.moreFragments = true ∧ head.state.giopVersion = ⟨1, 1⟩ ∧
        head.msgBlock.length ≥ headerAdjustment then
      gatherGiop11 headerAdjustment stack (join headerAdjustment head tail) reverseStack
    else gatherGiop11 headerAdjustment stack tail (head :: reverseStack)

variable (P : Platform)

/-- The loop from GIOP 1.2 on, over the stack; what is left of it where a part has
no request id. -/
def gather (headerAdjustment : Nat) (requestId : UInt32) :
    List QueuedData → QueuedData → List QueuedData → Except (List QueuedData) (QueuedData × List QueuedData)
  | [], tail, reverseStack => .ok (tail, reverseStack)
  | head :: stack, tail, reverseStack =>
    if head.state.moreFragments = true ∧ head.state.giopVersion.major ≥ 1 ∧
        head.state.giopVersion.minor ≥ 2 ∧ head.msgBlock.length ≥ headerAdjustment then
      match head.parseRequestId P with
      | none => .error stack
      | some headRequestId =>
        if requestId = headRequestId then
          gather headerAdjustment requestId stack (join headerAdjustment head tail) reverseStack
        else gather headerAdjustment requestId stack tail (head :: reverseStack)
    else gather headerAdjustment requestId stack tail (head :: reverseStack)

namespace GiopMessageBase

/-- The stack is restored, and the chain consolidated. -/
def finishConsolidate (b : GiopMessageBase) (tail : QueuedData) (reverseStack : List QueuedData) :
    Int × Option QueuedData × GiopMessageBase :=
  (0, some (tail.consolidate P b.buffers),
    ⟨reverseStack.foldl (fun stack head => head :: stack) [], b.buffers + 1⟩)

/-- The result is -1 for an error, 0 with the message, 1 where more parts have to come.
mirrors GIOP_Message_Base.cpp:1821-1966 -/
def consolidateFragmentedMessage (b : GiopMessageBase) (qd : Option QueuedData) :
    Option (Int × Option QueuedData × GiopMessageBase) :=
  match qd with
  | none => some (-1, none, b)
  | some qd =>
    if qd.state.giopVersion = ⟨1, 0⟩ then some (-1, none, b)
    else if qd.state.moreFragments = true then
      some (1, none, { b with fragmentStack := qd :: b.fragmentStack })
    else
      -- the minor version of the message is not asked
      match fragmentHeaderLength ⟨qd.state.giopVersion.major, 2⟩ with
      | none => none
      | some fragmentHeader =>
        let headerAdjustment := messageHeaderLen + fragmentHeader
        if qd.msgBlock.length < headerAdjustment then some (-1, none, b)
        else if qd.state.giopVersion = ⟨1, 1⟩ then
          let (tail, reverseStack) := gatherGiop11 headerAdjustment b.fragmentStack qd []
          some (b.finishConsolidate P tail reverseStack)
        else
          match qd.parseRequestId P with
          | none => some (-1, none, b)
          | some requestId =>
            match gather P headerAdjustment requestId b.fragmentStack qd [] with
            | .error stack => some (-1, none, { b with fragmentStack := stack })
            | .ok (tail, reverseStack) => some (b.finishConsolidate P tail reverseStack)

/-- The loop of `discard_fragmented_message`, over the parts in the order of their
arrival. -/
def discardLoop (cancelRequestId : UInt32) :
    List QueuedData → Bool → List QueuedData → List QueuedData
  | [], _, stack => stack
  | head :: reverseStack, discardAllGiop11, stack =>
    let version := head.state.giopVersion
    if version.major = 1 ∧ version.minor ≤ 1 ∧ head.state.messageType ≠ .fragment ∧
        head.parseRequestId P = some cancelRequestId then
      discardLoop cancelRequestId reverseStack true stack
    else if version.major = 1 ∧ version.minor ≤ 1 ∧ discardAllGiop11 = true then
      discardLoop cancelRequestId reverseStack discardAllGiop11 stack
    else if version.major ≥ 1 ∧ version.minor ≥ 2 ∧ head.parseRequestId P = some cancelRequestId then
      discardLoop cancelRequestId reverseStack discardAllGiop11 stack
    else discardLoop cancelRequestId reverseStack discardAllGiop11 (head :: stack)

/-- mirrors GIOP_Message_Base.cpp:1969-2033 -/
def discardFragmentedMessage (b : GiopMessageBase) (cancelRequest : QueuedData) : Int × GiopMessageBase :=
  match cancelRequest.parseRequestId P with
  | none => (-1, b)
  | some cancelRequestId =>
    let reverseStack := b.fragmentStack.foldl (fun stack head => head :: stack) []
    (0, { b with fragmentStack := discardLoop P cancelRequestId reverseStack false [] })

end GiopMessageBase

/-! ## The request id -/

/-- The request id behind the header, in the byte order of the message. -/
def QueuedData.requestId (qd : QueuedData) : UInt32 :=
  UInt32.ofNat (load (if qd.state.byteOrder = 1 then .little else .big)
    ((qd.msgBlock.contents.drop messageHeaderLen).take longSize))

/-- One block, with the header and the request id in it, at a place for a `ULong`. -/
structure Placed (qd : QueuedData) : Prop where
  wf : qd.msgBlock.Wf
  single : qd.cont = []
  long : messageHeaderLen + messageFragmentHeader ≤ qd.msgBlock.length
  aligned : (qd.msgBlock.base + qd.msgBlock.rdPtr) % longAlign = 0
  byteOrder : qd.state.byteOrder = 0 ∨ qd.state.byteOrder = 1

/-- A part of a GIOP 1.2 message. -/
structure Part (qd : QueuedData) : Prop extends Placed qd where
  version : qd.state.giopVersion = ⟨1, 2⟩
  type : qd.state.messageType ∈ [.request, .reply, .fragment, .locateRequest, .locateReply]

/-- A CancelRequest of any version. -/
structure Cancel (qd : QueuedData) : Prop extends Placed qd where
  version : qd.state.giopVersion ∈ ([⟨1, 0⟩, ⟨1, 1⟩, ⟨1, 2⟩] : List MessageVersion)
  type : qd.state.messageType = .cancelRequest

variable {P} {qd : QueuedData}

theorem contents_advance (mb : MessageBlock) (n : Nat) :
    ({ mb with rdPtr := mb.rdPtr + n } : MessageBlock).contents = mb.contents.drop n := by
  unfold MessageBlock.contents MessageBlock.length
  rw [drop_take, drop_drop, Nat.sub_add_eq]

theorem wf_advance {mb : MessageBlock} {n : Nat} (h : mb.Wf) (hn : n ≤ mb.length) :
    ({ mb with rdPtr := mb.rdPtr + n } : MessageBlock).Wf := by
  have hrd := h.rd_le
  refine ⟨?_, h.wr_le⟩
  unfold MessageBlock.length at hn
  change mb.rdPtr + n ≤ mb.wrPtr
  omega

/-- The stream behind the header stands before the rest of the message. -/
theorem inputCdr_at (h : Placed qd) : InputCDR.At (qd.state.byteOrder.toNat ≠ P.byteOrder) (qd.inputCdr P)
    (qd.msgBlock.base + (qd.msgBlock.rdPtr + messageHeaderLen)) (qd.msgBlock.contents.drop messageHeaderLen) := by
  have hstart : (qd.inputCdr P).start = { qd.msgBlock with rdPtr := qd.msgBlock.rdPtr + messageHeaderLen } := by
    unfold inputCdr
    simp only [if_pos h.wf.wr_le]
  refine ⟨?_, rfl, rfl, ?_, ?_⟩
  · rw [hstart]
    exact wf_advance h.wf (Nat.le_trans (Nat.le_add_right _ _) h.long)
  · rw [hstart]
  · rw [hstart, contents_advance]

/-- Bytes read in the order of the host, swapped if need be, are read in their own order. -/
theorem load_swapped (P : Platform) (byteOrder : UInt8) (h : byteOrder = 0 ∨ byteOrder = 1) (bs : List UInt8) :
    load P.endian (if byteOrder.toNat = P.byteOrder then bs else bs.reverse) =
      load (if byteOrder = 1 then .little else .big) bs := by
  unfold Platform.byteOrder
  cases P.endian with
  | little => rcases h with rfl | rfl <;> simp [load]
  | big => rcases h with rfl | rfl <;> simp [load]

theorem readUlong_inputCdr (h : Placed qd) : ((qd.inputCdr P).readUlong P).1 = some qd.requestId := by
  have hlong := h.long
  have hlen := length_contents h.wf
  have haligned := h.aligned
  unfold messageHeaderLen messageFragmentHeader at hlong
  unfold longAlign at haligned
  have hdata : ((qd.msgBlock.contents.drop messageHeaderLen).take longSize).length = longSize := by
    rw [length_take, length_drop, hlen]
    unfold messageHeaderLen longSize
    omega
  have hat := inputCdr_at (P := P) h
  rw [← take_append_drop longSize (qd.msgBlock.contents.drop messageHeaderLen),
    ← nil_append (_ ++ _)] at hat
  have hgap : ([] : List UInt8).length =
      gap (qd.msgBlock.base + (qd.msgBlock.rdPtr + messageHeaderLen)) longSize := by
    unfold gap messageHeaderLen longSize
    simp only [length_nil]
    omega
  obtain ⟨buf, r', hadj, hpeek, hat'⟩ := adjust_at hat hgap (.inr (.inr (.inl rfl)))
  rw [hdata] at hadj hpeek
  have hswap : r'.doByteSwap = decide (qd.state.byteOrder.toNat ≠ P.byteOrder) := hat'.swap
  have hrev : swapElem P.endian longSize ((qd.msgBlock.contents.drop messageHeaderLen).take longSize) =
      ((qd.msgBlock.contents.drop messageHeaderLen).take longSize).reverse :=
    swapElem_eq P.endian (.inr (.inr (.inl rfl))) hdata
  have hread : ((qd.inputCdr P).readPrim P longSize longSize).1 =
      some (if qd.state.byteOrder.toNat = P.byteOrder then
        (qd.msgBlock.contents.drop messageHeaderLen).take longSize
        else ((qd.msgBlock.contents.drop messageHeaderLen).take longSize).reverse) := by
    unfold readPrim
    rw [hadj]
    simp only [hswap, hpeek]
    by_cases hb : qd.state.byteOrder.toNat = P.byteOrder
    · simp [hb]
    · simp [hb, hrev]
  unfold readUlong readScalar asKind read4
  simp only [hread, Option.map_some]
  unfold Kind.ofMem requestId
  simp only [load_swapped P _ h.byteOrder]

theorem Part.parseRequestId (h : Part qd) : qd.parseRequestId P = some qd.requestId := by
  have hread := readUlong_inputCdr (P := P) h.toPlaced
  have htype := h.type
  unfold QueuedData.parseRequestId
  simp only [h.version]
  cases ht : qd.state.messageType <;> simp_all

theorem Cancel.parseRequestId (h : Cancel qd) : qd.parseRequestId P = some qd.requestId := by
  have hread := readUlong_inputCdr (P := P) h.toPlaced
  unfold QueuedData.parseRequestId
  simp [h.type, hread]

/-! ## Joining -/

/-- The bytes of a message in parts: the parts behind the first without headers. -/
def assembled : List (List UInt8) → List UInt8
  | [] => []
  | first :: rest => first ++ rest.flatMap (List.drop (messageHeaderLen + messageFragmentHeader))

theorem assembled_concat {parts : List (List UInt8)} {head tail : List UInt8}
    (hhead : messageHeaderLen + messageFragmentHeader ≤ head.length) :
    assembled (parts ++ [head ++ tail.drop (messageHeaderLen + messageFragmentHeader)]) =
      assembled (parts ++ [head, tail]) := by
  cases parts with
  | nil => simp [assembled]
  | cons first rest => simp [assembled, drop_append_of_le_length hhead]

/-- A chain whose first block has the headers. -/
structure Chain (qd : QueuedData) : Prop where
  wf : ∀ mb ∈ qd.blocks, mb.Wf
  long : messageHeaderLen + messageFragmentHeader ≤ qd.msgBlock.length

theorem Placed.chain (h : Placed qd) : Chain qd := by
  refine ⟨?_, h.long⟩
  unfold blocks
  rw [h.single]
  simpa using h.wf

theorem Placed.bytes_eq (h : Placed qd) : qd.bytes = qd.msgBlock.contents := by
  unfold bytes blocks
  rw [h.single]
  simp

theorem join_bytes {head tail : QueuedData} (hh : Placed head) (ht : Chain tail) :
    (join (messageHeaderLen + messageFragmentHeader) head tail).bytes =
      head.bytes ++ tail.bytes.drop (messageHeaderLen + messageFragmentHeader) := by
  have hlen := length_contents (ht.wf tail.msgBlock mem_cons_self)
  have hlong : messageHeaderLen + messageFragmentHeader ≤ tail.msgBlock.contents.length := hlen ▸ ht.long
  rw [hh.bytes_eq]
  unfold bytes blocks join
  simp only [flatMap_cons, contents_advance]
  rw [drop_append_of_le_length hlong]

theorem join_chain {head tail : QueuedData} (hh : Placed head) (ht : Chain tail) :
    Chain (join (messageHeaderLen + messageFragmentHeader) head tail) := by
  refine ⟨?_, hh.long⟩
  intro mb hmb
  simp only [blocks, join, mem_cons] at hmb
  rcases hmb with rfl | rfl | hmb
  · exact hh.wf
  · exact wf_advance (ht.wf _ mem_cons_self) ht.long
  · exact ht.wf mb (mem_cons_of_mem _ hmb)

theorem head_eligible {head : QueuedData} (h : Part head) (hmore : head.state.moreFragments = true) :
    head.state.moreFragments = true ∧ head.state.giopVersion.major ≥ 1 ∧ head.state.giopVersion.minor ≥ 2 ∧
      head.msgBlock.length ≥ messageHeaderLen + messageFragmentHeader := by
  rw [h.version]
  exact ⟨hmore, by decide, by decide, h.long⟩

/-- **The loop**: the parts of the request id are chained, the others put aside. -/
theorem gather_spec (id : UInt32) {stack : List QueuedData}
    (hstack : ∀ p ∈ stack, Part p ∧ p.state.moreFragments = true) {tail : QueuedData}
    (htail : Chain tail) (reverseStack : List QueuedData) :
    ∃ tail', gather P (messageHeaderLen + messageFragmentHeader) id stack tail reverseStack =
        .ok (tail', (stack.filter fun p => p.requestId ≠ id).reverse ++ reverseStack) ∧
      Chain tail' ∧ (tail' = tail ∨ tail'.state.moreFragments = true ∧ tail'.cont ≠ []) ∧
      tail'.bytes = assembled ((stack.filter fun p => p.requestId = id).reverse.map QueuedData.bytes ++
        [tail.bytes]) := by
  induction stack generalizing tail reverseStack with
  | nil =>
    refine ⟨tail, rfl, htail, .inl rfl, ?_⟩
    simp [assembled]
  | cons head stack ih =>
    obtain ⟨hpart, hmore⟩ := hstack head mem_cons_self
    have hrest : ∀ p ∈ stack, Part p ∧ p.state.moreFragments = true := fun p hp =>
      hstack p (mem_cons_of_mem _ hp)
    unfold gather
    rw [if_pos (head_eligible hpart hmore), hpart.parseRequestId]
    simp only
    by_cases hid : id = head.requestId
    · subst hid
      obtain ⟨tail', hg, hchain, hor, hbytes⟩ := ih hrest (join_chain hpart.toPlaced htail) reverseStack
      rw [join_bytes hpart.toPlaced htail] at hbytes
      refine ⟨tail', ?_, hchain, .inr ?_, ?_⟩
      · simpa using hg
      · rcases hor with rfl | hor
        · exact ⟨hmore, cons_ne_nil _ _⟩
        · exact hor
      · have hlen : messageHeaderLen + messageFragmentHeader ≤ head.bytes.length := by
          rw [hpart.bytes_eq, length_contents hpart.wf]
          exact hpart.long
        rw [hbytes, assembled_concat hlen]
        simp
    · obtain ⟨tail', hg, hchain, hor, hbytes⟩ := ih hrest htail (head :: reverseStack)
      refine ⟨tail', ?_, hchain, hor, ?_⟩
      · rw [if_neg hid, hg]
        simp [Ne.symm hid]
      · rw [hbytes]
        simp [Ne.symm hid]

theorem sum_length_blocks {src : List MessageBlock} (h : ∀ mb ∈ src, mb.Wf) :
    (src.flatMap MessageBlock.contents).length = (src.map MessageBlock.length).sum := by
  induction src with
  | nil => rfl
  | cons mb src ih =>
    rw [flatMap_cons, length_append, length_contents (h mb mem_cons_self),
      ih fun m hm => h m (mem_cons_of_mem _ hm), map_cons, sum_cons]

theorem cloneMbNocopySize_eq (P : Platform) (k n : Nat) :
    cloneMbNocopySize P k n = P.alloc k (firstSize (n + maxAlignment)) := mbAlign_alloc ..

theorem resize_self (P : Platform) (k n : Nat) : resize P k (P.alloc k n) n = P.alloc k n := by
  unfold resize
  rw [if_pos (by rw [size_alloc]), take_of_length_le]
  exact Nat.le_of_eq (size_alloc P k n)

/-- The new block has room for the data at the alignment of the first part. -/
theorem consolidateInto_spec (P : Platform) (k : Nat) {first : MessageBlock} {rest : List MessageBlock}
    (h : ∀ mb ∈ first :: rest, mb.Wf) :
    let dst := consolidateInto P k
      (cloneMbNocopySize P k ((first :: rest).map MessageBlock.length).sum) (first :: rest)
    dst.Wf ∧ dst.contents = (first :: rest).flatMap MessageBlock.contents ∧
      (dst.base + dst.rdPtr) % maxAlignment = (first.base + first.rdPtr) % maxAlignment := by
  have hle := le_firstSize (((first :: rest).map MessageBlock.length).sum + maxAlignment)
  have hbase : (P.alloc k (firstSize (((first :: rest).map MessageBlock.length).sum + maxAlignment))).base %
      maxAlignment = 0 := P.base_aligned k
  have hlt := Nat.mod_lt (first.base + first.rdPtr) (show 0 < maxAlignment by decide)
  have hsum := sum_length_blocks h
  unfold consolidateInto
  simp only
  rw [cloneMbNocopySize_eq, resize_self]
  generalize hsize : firstSize (((first :: rest).map MessageBlock.length).sum + maxAlignment) = size at hle hbase ⊢
  have hrd : (P.alloc k size).rdPtr = 0 := rfl
  rw [hrd, Nat.add_zero, hbase, if_neg (Nat.not_lt_zero _), Nat.sub_zero, Nat.zero_add]
  generalize hoffset : (first.base + first.rdPtr) % maxAlignment = offset at hlt ⊢
  have hwf : ({ P.alloc k size with rdPtr := offset, wrPtr := offset } : MessageBlock).Wf := by
    refine ⟨Nat.le_refl _, ?_⟩
    change offset ≤ (P.alloc k size).size
    rw [MessageBlock.size_alloc]
    omega
  have hspace : ((first :: rest).flatMap MessageBlock.contents).length ≤
      ({ P.alloc k size with rdPtr := offset, wrPtr := offset } : MessageBlock).space := by
    change _ ≤ (P.alloc k size).size - offset
    rw [MessageBlock.size_alloc, hsum]
    omega
  obtain ⟨hwf', hcontents, hbase', hrd'⟩ := copyBlocks_spec h _ hwf hspace
  refine ⟨hwf', ?_, ?_⟩
  · rw [hcontents]
    have hempty : ({ P.alloc k size with rdPtr := offset, wrPtr := offset } : MessageBlock).contents = [] := by
      unfold MessageBlock.contents MessageBlock.length
      simp
    rw [hempty, nil_append]
  · rw [hbase', hrd', Nat.add_mod]
    simp only [hbase, Nat.zero_add, Nat.mod_mod]
    exact Nat.mod_eq_of_lt hlt

theorem consolidate_bytes_of_wf (P : Platform) (k : Nat) (h : ∀ mb ∈ qd.blocks, mb.Wf) :
    (qd.consolidate P k).bytes = qd.bytes := by
  unfold consolidate
  split
  · obtain ⟨-, hcontents, -⟩ := consolidateInto_spec P k h
    unfold bytes blocks
    simp only [flatMap_cons, flatMap_nil, append_nil]
    exact hcontents
  · rfl

theorem consolidate_bytes (P : Platform) (k : Nat) (h : Chain qd) :
    (qd.consolidate P k).bytes = qd.bytes := consolidate_bytes_of_wf P k h.wf

/-! ## Runs -/

/-- A part arrives, or a CancelRequest. -/
inductive FragmentEvent where
  | part (qd : QueuedData)
  | cancel (cancelRequest : QueuedData)

namespace FragmentEvent

/-- The event is well formed. -/
def Complete : FragmentEvent → Prop
  | .part qd => Part qd
  | .cancel cancelRequest => Cancel cancelRequest

def demux : FragmentEvent → DemuxEvent QueuedData UInt32
  | .part qd => .item qd
  | .cancel cancelRequest => .drop cancelRequest.requestId

def requestId (e : FragmentEvent) : UInt32 := e.demux.keyed QueuedData.requestId

/-- The parts of unfinished messages: of each request those that came since its last
part, or its CancelRequest. -/
def unfinished (events : List FragmentEvent) : List QueuedData :=
  DemuxEvent.unfinished QueuedData.requestId (fun qd => !qd.state.moreFragments) (events.map demux)

/-- What an event returns: for a last part, the bytes of the message. -/
def result (parts : List QueuedData) : FragmentEvent → Int × Option (List UInt8)
  | .part qd =>
    if qd.state.moreFragments = true then (1, none)
    else (0, some (assembled ((parts ++ [qd]).map QueuedData.bytes)))
  | .cancel _ => (0, none)

end FragmentEvent

namespace GiopMessageBase

/-- The event is given to the message base. -/
def handle (P : Platform) (b : GiopMessageBase) :
    FragmentEvent → Option (Int × Option QueuedData × GiopMessageBase)
  | .part qd => b.consolidateFragmentedMessage P (some qd)
  | .cancel cancelRequest =>
    let (result, b) := b.discardFragmentedMessage P cancelRequest
    some (result, none, b)

def step (P : Platform) (b : GiopMessageBase) (e : FragmentEvent) : Option GiopMessageBase :=
  (b.handle P e).map fun r => r.2.2

def init : GiopMessageBase := ⟨[], 0⟩

variable {b : GiopMessageBase} {events : List FragmentEvent}

/-- The stack holds what is unfinished, the newest part on top. -/
structure Good (b : GiopMessageBase) (events : List FragmentEvent) : Prop where
  stack : b.fragmentStack.reverse = FragmentEvent.unfinished events
  parts : ∀ p ∈ b.fragmentStack, Part p ∧ p.state.moreFragments = true

open FragmentEvent

theorem unfinished_concat (events : List FragmentEvent) (e : FragmentEvent) :
    FragmentEvent.unfinished (events ++ [e]) =
      DemuxEvent.opens QueuedData.requestId (fun qd => !qd.state.moreFragments)
        (FragmentEvent.unfinished events) e.demux := by
  unfold unfinished
  rw [map_append]
  exact DemuxEvent.unfinished_concat _ _

theorem discardLoop_spec (id : UInt32) {reverseStack : List QueuedData}
    (h : ∀ p ∈ reverseStack, Part p) (stack : List QueuedData) :
    discardLoop P id reverseStack false stack =
      (reverseStack.filter fun p => p.requestId ≠ id).reverse ++ stack := by
  induction reverseStack generalizing stack with
  | nil => rfl
  | cons head reverseStack ih =>
    have hpart := h head mem_cons_self
    have hrest := fun p hp => h p (mem_cons_of_mem head hp)
    have hnew : ¬ (2 : UInt8) ≤ 1 := by decide
    unfold discardLoop
    rw [hpart.version, hpart.parseRequestId]
    simp only [hnew, false_and, and_false, if_false]
    by_cases hid : head.requestId = id
    · simp [hid, ih hrest]
    · simp [hid, ih hrest]

theorem handle_more (h : b.Good events) {qd : QueuedData} (hqd : Part qd)
    (hmore : qd.state.moreFragments = true) :
    ∃ b', b.handle P (.part qd) = some (1, none, b') ∧ b'.Good (events ++ [.part qd]) := by
  have hversion : qd.state.giopVersion ≠ ⟨1, 0⟩ := by
    rw [hqd.version]
    decide
  refine ⟨{ b with fragmentStack := qd :: b.fragmentStack }, ?_, ?_, ?_⟩
  · unfold handle consolidateFragmentedMessage
    simp [hversion, hmore]
  · rw [unfinished_concat, ← h.stack]
    simp [demux, DemuxEvent.opens, hmore]
  · intro p hp
    rcases mem_cons.mp hp with rfl | hp
    · exact ⟨hqd, hmore⟩
    · exact h.parts p hp

theorem handle_last (h : b.Good events) {qd : QueuedData} (hqd : Part qd)
    (hlast : qd.state.moreFragments = false) :
    ∃ msg b', b.handle P (.part qd) = some (0, some msg, b') ∧ b'.Good (events ++ [.part qd]) ∧
      msg.bytes = assembled (((FragmentEvent.unfinished events).filter fun p =>
        p.requestId = qd.requestId).map QueuedData.bytes ++ [qd.bytes]) := by
  obtain ⟨tail, hg, hchain, _, hbytes⟩ :=
    gather_spec (P := P) qd.requestId h.parts hqd.toPlaced.chain []
  rw [← filter_reverse, h.stack] at hbytes
  refine ⟨tail.consolidate P b.buffers, ⟨b.fragmentStack.filter fun p => p.requestId ≠ qd.requestId,
    b.buffers + 1⟩, ?_, ⟨?_, ?_⟩, ?_⟩
  · have hlong : ¬ qd.msgBlock.length < messageHeaderLen + messageFragmentHeader :=
      Nat.not_lt.mpr hqd.long
    have h10 : (⟨1, 2⟩ : MessageVersion) ≠ ⟨1, 0⟩ := by decide
    have h11 : (⟨1, 2⟩ : MessageVersion) ≠ ⟨1, 1⟩ := by decide
    have hheader : fragmentHeaderLength ⟨1, 2⟩ = some messageFragmentHeader := by decide
    unfold handle consolidateFragmentedMessage
    simp only [hqd.version, if_neg h10, if_neg h11, hlast, hheader, hqd.parseRequestId, if_neg hlong, hg]
    simp [finishConsolidate]
  · rw [unfinished_concat, ← h.stack]
    simp [demux, DemuxEvent.opens, hlast]
  · intro p hp
    exact h.parts p (mem_filter.mp hp).1
  · rw [consolidate_bytes P b.buffers hchain, hbytes]

theorem handle_cancel (h : b.Good events) {cancelRequest : QueuedData} (hc : Cancel cancelRequest) :
    ∃ b', b.handle P (.cancel cancelRequest) = some (0, none, b') ∧
      b'.Good (events ++ [.cancel cancelRequest]) := by
  refine ⟨{ b with fragmentStack :=
    b.fragmentStack.filter fun p => p.requestId ≠ cancelRequest.requestId }, ?_, ?_, ?_⟩
  · have hparts : ∀ p ∈ b.fragmentStack.reverse, Part p := fun p hp =>
      (h.parts p (mem_reverse.mp hp)).1
    unfold handle discardFragmentedMessage
    simp only [hc.parseRequestId, foldl_flip_cons_eq_append', append_nil]
    rw [discardLoop_spec _ hparts, filter_reverse, reverse_reverse, append_nil]
  · rw [unfinished_concat, ← h.stack]
    simp [demux, DemuxEvent.opens]
  · intro p hp
    exact h.parts p (mem_filter.mp hp).1

theorem filter_unfinished (events : List FragmentEvent) (id : UInt32) :
    ((FragmentEvent.unfinished events).filter fun p => p.requestId = id) =
      FragmentEvent.unfinished (events.filter fun e => e.requestId = id) := by
  unfold unfinished
  rw [DemuxEvent.filter_unfinished, filter_map]
  rfl

/-- **Every event**: what is returned, and the stack after it. -/
theorem handle_spec (h : b.Good events) {e : FragmentEvent} (he : e.Complete) :
    ∃ result msg b', b.handle P e = some (result, msg, b') ∧ b'.Good (events ++ [e]) ∧
      (result, msg.map QueuedData.bytes) =
        e.result (FragmentEvent.unfinished (events.filter fun e' => e'.requestId = e.requestId)) := by
  cases e with
  | part qd =>
    cases hmore : qd.state.moreFragments with
    | true =>
      obtain ⟨b', hb, hgood⟩ := handle_more (P := P) h he hmore
      refine ⟨1, none, b', hb, hgood, ?_⟩
      simp [result, hmore]
    | false =>
      obtain ⟨msg, b', hb, hgood, hbytes⟩ := handle_last (P := P) h he hmore
      refine ⟨0, some msg, b', hb, hgood, ?_⟩
      have hid : (part qd).requestId = qd.requestId := rfl
      simp [result, hmore, hbytes, filter_unfinished, hid]
  | cancel cancelRequest =>
    obtain ⟨b', hb, hgood⟩ := handle_cancel (P := P) h he
    exact ⟨0, none, b', hb, hgood, rfl⟩

/-- **Reassembly**: after any events the stack holds what is unfinished, and the next
event returns what its request alone makes it return. -/
theorem reassembly {events : List FragmentEvent} {e : FragmentEvent}
    (hevents : ∀ e' ∈ events ++ [e], e'.Complete) :
    ∃ b result msg b', run (step P) init events = some b ∧ b.handle P e = some (result, msg, b') ∧
      b.fragmentStack.reverse = FragmentEvent.unfinished events ∧
      b'.fragmentStack.reverse = FragmentEvent.unfinished (events ++ [e]) ∧
      (result, msg.map QueuedData.bytes) =
        e.result (FragmentEvent.unfinished (events.filter fun e' => e'.requestId = e.requestId)) := by
  have hrun : ∃ b, run (step P) init events = some b ∧ b.Good events := by
    have hbefore : ∀ e' ∈ events, e'.Complete := fun e' he => hevents e' (mem_append_left _ he)
    clear hevents
    induction events using reverseRecOn with
    | nil => exact ⟨init, rfl, rfl, fun p hp => absurd hp not_mem_nil⟩
    | append_singleton events e ih =>
      obtain ⟨b, hb, hgood⟩ := ih fun e' he => hbefore e' (mem_append_left _ he)
      obtain ⟨_, _, b', hstep, hgood', _⟩ := handle_spec (P := P) hgood (hbefore e (by simp))
      refine ⟨b', run_append hb ?_, hgood'⟩
      rw [run_cons]
      unfold step
      rw [hstep]
      rfl
  obtain ⟨b, hb, hgood⟩ := hrun
  obtain ⟨result, msg, b', hstep, hgood', hresult⟩ := handle_spec (P := P) hgood (hevents e (by simp))
  exact ⟨b, result, msg, b', hb, hstep, hgood.stack, hgood'.stack, hresult⟩

/-- A part of a GIOP 1.2 message, little endian, with the request id `id` and a byte
behind it. -/
def smallPart (type : MsgType) (id : UInt8) (more : Bool) (body : List UInt8) : QueuedData where
  msgBlock := ⟨0, [71, 73, 79, 80, 1, 2, if more then 3 else 1, 0, 0, 0, 0, 0, id, 0, 0, 0] ++ body,
    0, 16 + body.length⟩
  cont := []
  state := ⟨⟨1, 2⟩, 1, type, 0, more⟩

theorem smallPart_placed (type : MsgType) (id : UInt8) (more : Bool) (body : List UInt8) :
    Placed (smallPart type id more body) := by
  refine ⟨⟨Nat.zero_le _, ?_⟩, rfl, ?_, rfl, .inr rfl⟩
  · simp [smallPart, size]
    omega
  · simp [smallPart, MessageBlock.length, messageHeaderLen, messageFragmentHeader]

/-- Two requests, one in the middle of the other, and one that is cancelled. -/
def interleavedEvents : List FragmentEvent :=
  [.part (smallPart .request 1 true [10, 11]), .part (smallPart .request 2 true [20]),
    .part (smallPart .request 3 true [30]), .part (smallPart .fragment 2 true [21]),
    .cancel (smallPart .cancelRequest 3 false []), .part (smallPart .fragment 2 false [22])]

theorem reassembly_interleaved :
    ∃ b result msg b', run (step .plain) init interleavedEvents = some b ∧
      b.handle .plain (.part (smallPart .fragment 1 false [12])) = some (result, msg, b') ∧
      b.fragmentStack.reverse = FragmentEvent.unfinished interleavedEvents ∧
      b'.fragmentStack.reverse =
        FragmentEvent.unfinished (interleavedEvents ++ [.part (smallPart .fragment 1 false [12])]) ∧
      (result, msg.map QueuedData.bytes) =
        FragmentEvent.result (FragmentEvent.unfinished (interleavedEvents.filter fun e' => e'.requestId = 1))
          (.part (smallPart .fragment 1 false [12])) := by
  refine reassembly (P := .plain) (e := .part (smallPart .fragment 1 false [12])) ?_
  intro e he
  simp only [interleavedEvents, cons_append, nil_append, mem_cons, not_mem_nil,
    or_false] at he
  rcases he with rfl | rfl | rfl | rfl | rfl | rfl | rfl
  · exact ⟨smallPart_placed .., rfl, by decide⟩
  · exact ⟨smallPart_placed .., rfl, by decide⟩
  · exact ⟨smallPart_placed .., rfl, by decide⟩
  · exact ⟨smallPart_placed .., rfl, by decide⟩
  · exact ⟨smallPart_placed .., by decide, rfl⟩
  · exact ⟨smallPart_placed .., rfl, by decide⟩
  · exact ⟨smallPart_placed .., rfl, by decide⟩

/-- A message is cancelled between its parts. -/
def cancelledEvents : List FragmentEvent :=
  [.part (smallPart .request 3 true [30]), .cancel (smallPart .cancelRequest 3 false []),
    .part (smallPart .fragment 3 true [31])]

/-- The part that comes after the CancelRequest is kept on the stack. -/
theorem cancelled_part_kept :
    (∀ e ∈ cancelledEvents, e.Complete ∧ e.requestId = 3) ∧
      run (step .plain) init cancelledEvents = some ⟨[smallPart .fragment 3 true [31]], 0⟩ := by
  refine ⟨?_, by decide⟩
  intro e he
  simp only [cancelledEvents, mem_cons, not_mem_nil, or_false] at he
  rcases he with rfl | rfl | rfl
  · exact ⟨⟨smallPart_placed .., rfl, by decide⟩, by decide⟩
  · exact ⟨⟨smallPart_placed .., by decide, rfl⟩, by decide⟩
  · exact ⟨⟨smallPart_placed .., rfl, by decide⟩, by decide⟩

end GiopMessageBase

end Atcd.Giop
