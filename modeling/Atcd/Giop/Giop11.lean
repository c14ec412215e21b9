import Atcd.Giop.Fragments
/-!
# GIOP 1.1 fragments

A Fragment of GIOP 1.1 is a header of 12 bytes and the next data of the message; only GIOP 1.2
has a request id behind the header. `consolidate_fragmented_message` asks for the length of the
fragment header by the major version alone, which makes a version with the default minor 2.

Results:
* `giop11_kept_iff`: a message that was cut is never put together as it was; one that was not is,
  if it has 16 bytes.
* `gatherGiop11_loses`: every part that the loop meets costs at least a byte.
-/
namespace Atcd.Giop

open Atcd.Core Atcd.Cdr List QueuedData GiopMessageBase MessageBlock

/-- A part of a GIOP 1.1 message: its header and at least a byte, in one block. -/
structure Giop11Part (qd : QueuedData) : Prop where
  version : qd.state.giopVersion = ⟨1, 1⟩
  wf : qd.msgBlock.Wf
  single : qd.cont = []
  long : messageHeaderLen < qd.msgBlock.length

/-- The bytes of a message in GIOP 1.1 parts: the first one, and the data of the others. -/
def giop11Whole : List QueuedData → List UInt8
  | [] => []
  | first :: rest => first.bytes ++ rest.flatMap fun p => p.bytes.drop messageHeaderLen

def QueuedData.isGiop11 (qd : QueuedData) : Bool := qd.state.giopVersion = ⟨1, 1⟩

/-- With the last part the message is returned as it was. -/
def Keeps (P : Platform) (b : GiopMessageBase) (parts : List QueuedData) (last : QueuedData) :
    Prop :=
  ∃ msg b', b.consolidateFragmentedMessage P (some last) = some (0, some msg, b') ∧
    msg.bytes = giop11Whole (parts ++ [last])

def dataLength (parts : List QueuedData) : Nat :=
  (parts.map fun p => p.bytes.length - messageHeaderLen).sum

variable {P : Platform} {qd tail : QueuedData}

theorem Giop11Part.bytes_eq (h : Giop11Part qd) : qd.bytes = qd.msgBlock.contents := by
  unfold bytes blocks
  rw [h.single]
  simp

theorem Giop11Part.length_bytes (h : Giop11Part qd) : qd.bytes.length = qd.msgBlock.length := by
  rw [h.bytes_eq, length_contents h.wf]

theorem Giop11Part.blocks_wf (h : Giop11Part qd) : ∀ mb ∈ qd.blocks, mb.Wf := by
  unfold blocks
  rw [h.single]
  simpa using h.wf

theorem length_giop11Whole {parts : List QueuedData} (h : ∀ p ∈ parts, Giop11Part p)
    (hne : parts ≠ []) : (giop11Whole parts).length = messageHeaderLen + dataLength parts := by
  cases parts with
  | nil => exact absurd rfl hne
  | cons first rest =>
    have hfirst := h first mem_cons_self
    have hlen := hfirst.length_bytes
    have hlong := hfirst.long
    unfold giop11Whole dataLength
    rw [length_append, length_flatMap]
    simp only [length_drop, map_cons, sum_cons]
    omega

/-! ## The loop -/

/-- The blocks are well formed, and the first one has the headers that are to be skipped. -/
structure Skips (n : Nat) (tail : QueuedData) : Prop where
  wf : ∀ mb ∈ tail.blocks, mb.Wf
  long : n ≤ tail.msgBlock.length

theorem join_length {n : Nat} {head : QueuedData} (hh : Giop11Part head) (ht : Skips n tail) :
    (join n head tail).bytes.length = head.bytes.length + (tail.bytes.length - n) := by
  have hlen := length_contents (ht.wf tail.msgBlock mem_cons_self)
  have hlong := ht.long
  rw [hh.bytes_eq]
  unfold bytes blocks join
  simp only [flatMap_cons, contents_advance, length_append, length_drop]
  omega

theorem join_skips {n : Nat} {head : QueuedData} (hh : Giop11Part head) (ht : Skips n tail)
    (hlong : n ≤ head.msgBlock.length) : Skips n (join n head tail) := by
  refine ⟨fun mb hmb => ?_, hlong⟩
  simp only [blocks, join, mem_cons] at hmb
  rcases hmb with rfl | rfl | hmb
  · exact hh.wf
  · exact wf_advance (ht.wf _ mem_cons_self) ht.long
  · exact ht.wf mb (mem_cons_of_mem _ hmb)

theorem Skips.le_bytes {n : Nat} (h : Skips n tail) : n ≤ tail.bytes.length := by
  have hlen := length_contents (h.wf tail.msgBlock mem_cons_self)
  have hlong := h.long
  unfold bytes blocks
  rw [flatMap_cons, length_append]
  omega

/-- **The loop loses data** with every part, more than the header of 12 bytes. -/
theorem gatherGiop11_loses {stack : List QueuedData}
    (hstack : ∀ p ∈ stack.filter QueuedData.isGiop11, Giop11Part p) {n : Nat}
    (hn : messageHeaderLen < n) (htail : Skips n tail) (reverseStack : List QueuedData) :
    Skips n (gatherGiop11 n stack tail reverseStack).1 ∧
      (gatherGiop11 n stack tail reverseStack).1.bytes.length +
          (stack.filter QueuedData.isGiop11).length ≤
        tail.bytes.length + dataLength (stack.filter QueuedData.isGiop11) := by
  induction stack generalizing tail reverseStack with
  | nil => exact ⟨htail, Nat.le_refl _⟩
  | cons head stack ih =>
    unfold gatherGiop11
    by_cases h11 : head.isGiop11 = true
    · rw [filter_cons_of_pos h11] at hstack ⊢
      obtain ⟨hhead, hrest⟩ := forall_mem_cons.mp hstack
      have hlen := hhead.length_bytes
      have hlong := hhead.long
      have hdata : dataLength (head :: stack.filter isGiop11) =
          (head.bytes.length - messageHeaderLen) +
            dataLength (stack.filter isGiop11) := rfl
      rw [hdata, length_cons]
      split
      · rename_i hchained
        obtain ⟨hskips, hle⟩ := ih hrest (join_skips hhead htail hchained.2.2) reverseStack
        have htake := htail.le_bytes
        rw [join_length hhead htail] at hle
        exact ⟨hskips, by omega⟩
      · obtain ⟨hskips, hle⟩ := ih hrest htail (head :: reverseStack)
        exact ⟨hskips, by omega⟩
    · rw [filter_cons_of_neg h11] at hstack ⊢
      have hother : ¬(head.state.moreFragments = true ∧ head.state.giopVersion = ⟨1, 1⟩ ∧
          head.msgBlock.length ≥ n) := fun hc => h11 (decide_eq_true hc.2.1)
      rw [if_neg hother]
      exact ih hstack htail (head :: reverseStack)

theorem gatherGiop11_none {stack : List QueuedData}
    (h : stack.filter QueuedData.isGiop11 = []) (n : Nat) (tail : QueuedData)
    (reverseStack : List QueuedData) : (gatherGiop11 n stack tail reverseStack).1 = tail := by
  induction stack generalizing reverseStack with
  | nil => rfl
  | cons head stack ih =>
    have h11 : ¬head.isGiop11 = true := fun hc => by
      rw [filter_cons_of_pos hc] at h
      cases h
    rw [filter_cons_of_neg h11] at h
    have hother : ¬(head.state.moreFragments = true ∧ head.state.giopVersion = ⟨1, 1⟩ ∧
        head.msgBlock.length ≥ n) := fun hc => h11 (decide_eq_true hc.2.1)
    unfold gatherGiop11
    rw [if_neg hother]
    exact ih h (head :: reverseStack)

/-! ## The last part -/

theorem headerAdjustment_giop11 {major : UInt8} (h : major = 1) :
    fragmentHeaderLength ⟨major, 2⟩ = some messageFragmentHeader := by
  subst h
  rfl

theorem consolidate_giop11 (P : Platform) (b : GiopMessageBase) (h : qd.state.giopVersion = ⟨1, 1⟩)
    (hlast : qd.state.moreFragments = false) : b.consolidateFragmentedMessage P (some qd) =
      if qd.msgBlock.length < messageHeaderLen + messageFragmentHeader then some (-1, none, b)
      else let (tail, reverseStack) :=
          gatherGiop11 (messageHeaderLen + messageFragmentHeader) b.fragmentStack qd []
        some (b.finishConsolidate P tail reverseStack) := by
  have h10 : (⟨1, 1⟩ : MessageVersion) ≠ ⟨1, 0⟩ := by decide
  unfold consolidateFragmentedMessage
  simp only [h, if_neg h10, hlast, headerAdjustment_giop11 rfl, if_true]
  rfl

theorem dataLength_append (ps qs : List QueuedData) :
    dataLength (ps ++ qs) = dataLength ps + dataLength qs := by
  unfold dataLength
  rw [map_append, sum_append]

theorem dataLength_reverse (ps : List QueuedData) : dataLength ps.reverse = dataLength ps := by
  unfold dataLength
  rw [map_reverse, sum_reverse]

/-- **The last part**, with the others on the stack. -/
theorem consolidated_iff (P : Platform) {b : GiopMessageBase} {parts : List QueuedData} {last : QueuedData}
    (hparts : ∀ p ∈ parts, Giop11Part p)
    (hstack : b.fragmentStack.filter QueuedData.isGiop11 = parts.reverse) (hl : Giop11Part last)
    (hlast : last.state.moreFragments = false) : Keeps P b parts last ↔
      parts = [] ∧ messageHeaderLen + messageFragmentHeader ≤ last.msgBlock.length := by
  unfold Keeps
  rw [consolidate_giop11 P b hl.version hlast]
  by_cases hshort : last.msgBlock.length < messageHeaderLen + messageFragmentHeader
  · rw [if_pos hshort]
    refine iff_of_false (fun h => ?_) (by omega)
    obtain ⟨msg, b', hresult, -⟩ := h
    cases hresult
  rw [if_neg hshort]
  have hskips : Skips (messageHeaderLen + messageFragmentHeader) last :=
    ⟨hl.blocks_wf, Nat.not_lt.mp hshort⟩
  have hstack11 : ∀ p ∈ b.fragmentStack.filter isGiop11, Giop11Part p := by
    rw [hstack]
    exact fun p hp => hparts p (mem_reverse.mp hp)
  obtain ⟨htail, hloses⟩ := gatherGiop11_loses hstack11 (by decide) hskips []
  have hbytes := consolidate_bytes_of_wf P b.buffers htail.wf
  have hmsg : (∃ msg b', some (b.finishConsolidate P
        (gatherGiop11 (messageHeaderLen + messageFragmentHeader) b.fragmentStack last []).1
        (gatherGiop11 (messageHeaderLen + messageFragmentHeader) b.fragmentStack last []).2) =
        some (0, some msg, b') ∧ msg.bytes = giop11Whole (parts ++ [last])) ↔
      (gatherGiop11 (messageHeaderLen + messageFragmentHeader) b.fragmentStack last []).1.bytes =
        giop11Whole (parts ++ [last]) := by
    rw [← hbytes]
    constructor
    · intro h
      obtain ⟨msg, b', hresult, hwhole⟩ := h
      cases hresult
      exact hwhole
    · exact fun hwhole => ⟨_, _, rfl, hwhole⟩
  refine hmsg.trans ?_
  cases parts with
  | nil =>
    rw [gatherGiop11_none hstack]
    exact iff_of_true (append_nil _).symm ⟨rfl, Nat.not_lt.mp hshort⟩
  | cons first rest =>
    refine iff_of_false (fun hwhole => ?_) fun h => cons_ne_nil _ _ h.1
    have hall : ∀ p ∈ first :: rest ++ [last], Giop11Part p := fun p hp =>
      (mem_append.mp hp).elim (hparts p) fun hp => mem_singleton.mp hp ▸ hl
    have hlen := length_giop11Whole hall (by simp)
    have hone : dataLength [last] = last.bytes.length - messageHeaderLen := Nat.add_zero _
    rw [← hwhole, dataLength_append, hone] at hlen
    rw [hstack, dataLength_reverse, length_reverse, length_cons] at hloses
    omega

/-- Parts with more to come are pushed, whatever they are of. -/
theorem arrivals_pushed (P : Platform) {arrivals : List QueuedData}
    (h : ∀ p ∈ arrivals, p.state.moreFragments = true ∧ p.state.giopVersion ≠ ⟨1, 0⟩)
    (b : GiopMessageBase) : run (GiopMessageBase.step P) b (arrivals.map .part) =
      some { b with fragmentStack := arrivals.reverse ++ b.fragmentStack } := by
  induction arrivals generalizing b with
  | nil => rfl
  | cons p arrivals ih =>
    obtain ⟨⟨hmore, h10⟩, hrest⟩ := forall_mem_cons.mp h
    have hstep : step P b (.part p) =
        some { b with fragmentStack := p :: b.fragmentStack } := by
      unfold step handle
      unfold consolidateFragmentedMessage
      simp [h10, hmore]
    rw [map_cons, run_cons, hstep, Option.bind_some, ih hrest]
    simp

/-- **GIOP 1.1 fragments** are never put together as they were: a message is returned with all
its data only if it came in one part, of 16 bytes or more. -/
theorem giop11_kept_iff (P : Platform) {b : GiopMessageBase}
    (hb : b.fragmentStack.filter QueuedData.isGiop11 = []) {arrivals : List QueuedData}
    (harrivals : ∀ p ∈ arrivals, p.state.moreFragments = true ∧ p.state.giopVersion ≠ ⟨1, 0⟩ ∧
      (p.isGiop11 = true → Giop11Part p))
    {last : QueuedData} (hl : Giop11Part last) (hlast : last.state.moreFragments = false) :
    ∃ b', run (GiopMessageBase.step P) b (arrivals.map .part) = some b' ∧
      (Keeps P b' (arrivals.filter QueuedData.isGiop11) last ↔
        arrivals.filter QueuedData.isGiop11 = [] ∧
          messageHeaderLen + messageFragmentHeader ≤ last.msgBlock.length) := by
  refine ⟨_, arrivals_pushed P (fun p hp => ?_) b, ?_⟩
  · obtain ⟨hmore, h10, -⟩ := harrivals p hp
    exact ⟨hmore, h10⟩
  · refine consolidated_iff P (fun p hp => ?_) ?_ hl hlast
    · obtain ⟨hmem, h11⟩ := mem_filter.mp hp
      exact (harrivals p hmem).2.2 h11
    · rw [filter_append, hb, append_nil, filter_reverse]

/-- A part of a GIOP 1.1 message, little endian: a header and data. -/
def giop11Part (type : MsgType) (more : Bool) (body : List UInt8) : QueuedData where
  msgBlock := ⟨0, [71, 73, 79, 80, 1, 1, if more then 3 else 1, 0, 0, 0, 0, 0] ++ body, 0,
    12 + body.length⟩
  cont := []
  state := ⟨⟨1, 1⟩, 1, type, .ofNat body.length, more⟩

theorem giop11Part_part (type : MsgType) (more : Bool) {body : List UInt8} (h : body ≠ []) :
    Giop11Part (giop11Part type more body) := by
  have hpos := length_pos_iff.mpr h
  refine ⟨rfl, ⟨Nat.zero_le _, ?_⟩, rfl, ?_⟩
  · simp [giop11Part, size]
    omega
  · simp [giop11Part, MessageBlock.length, messageHeaderLen]
    omega

/-- A Request in three parts. -/
theorem giop11_kept_iff_three : ∃ b', run (GiopMessageBase.step .plain) GiopMessageBase.init
      [.part (giop11Part .request true [1, 2, 3, 4, 5]),
        .part (giop11Part .fragment true [6, 7, 8, 9, 10])] = some b' ∧
    ¬Keeps .plain b' [giop11Part .request true [1, 2, 3, 4, 5],
      giop11Part .fragment true [6, 7, 8, 9, 10]]
      (giop11Part .fragment false [11, 12, 13, 14]) := by
  have hone := giop11Part_part .request true (cons_ne_nil 1 [2, 3, 4, 5])
  have htwo := giop11Part_part .fragment true (cons_ne_nil 6 [7, 8, 9, 10])
  have harrivals : ∀ p ∈ [giop11Part .request true [1, 2, 3, 4, 5],
      giop11Part .fragment true [6, 7, 8, 9, 10]], p.state.moreFragments = true ∧
      p.state.giopVersion ≠ ⟨1, 0⟩ ∧ (p.isGiop11 = true → Giop11Part p) := by
    simp [hone, htwo]
    simp [giop11Part]
  obtain ⟨b', hrun, hkeeps⟩ := giop11_kept_iff .plain (b := init) rfl harrivals
    (giop11Part_part .fragment false (cons_ne_nil 11 [12, 13, 14])) rfl
  refine ⟨b', hrun, fun h => ?_⟩
  exact cons_ne_nil _ _ (hkeeps.mp h).1

/-- Of the eight bytes behind the header of a Fragment the first four are lost. -/
theorem giop11_fragment_loses_four :
    ¬Keeps .plain ⟨[giop11Part .request true [1, 2, 3, 4]], 0⟩
      [giop11Part .request true [1, 2, 3, 4]]
      (giop11Part .fragment false [5, 6, 7, 8, 9, 10, 11, 12]) := by
  intro h
  obtain ⟨msg, b', hresult, hwhole⟩ := h
  have hbytes : (consolidateFragmentedMessage .plain
      ⟨[giop11Part .request true [1, 2, 3, 4]], 0⟩
      (some (giop11Part .fragment false [5, 6, 7, 8, 9, 10, 11, 12]))).map
        (fun r => r.2.1.map bytes) =
      some (some [71, 73, 79, 80, 1, 1, 3, 0, 0, 0, 0, 0, 1, 2, 3, 4, 9, 10, 11, 12]) := by
    decide +kernel
  rw [hresult] at hbytes
  have hmsg : msg.bytes = [71, 73, 79, 80, 1, 1, 3, 0, 0, 0, 0, 0, 1, 2, 3, 4, 9, 10, 11, 12] :=
    Option.some.inj (Option.some.inj hbytes)
  rw [hmsg] at hwhole
  exact absurd hwhole (by decide_cbv)

end Atcd.Giop
