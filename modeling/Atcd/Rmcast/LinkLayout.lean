import Atcd.Cdr.RoundTrip
import Atcd.Rmcast.Link
/-!
# The layout of a packet

The packet of a message is written in one block, and its bytes are a layout of segments. The
sizes in it are those of a stream of the body alone, so the gaps between the members of an `NRTM`
are in them.

Results:
* `packet_laid`: the packet is laid out from its first byte.
* `snCount_nak`, `blockCount_nrtm`: the counts the receiver computes from the sizes are right up
  to 8190 numbers and up to 7 members.
* `snCount_nak_ne`, `lt_blockCount_nrtm`, `blockCount_nrtm_lt`: beyond that they are not.
-/
namespace Atcd.Rmcast

open Atcd.Core Atcd.Cdr Atcd.Cdr.OutputCDR Atcd.Cdr.InputCDR List Profile OutputCDR

variable {P : Platform}

/-! ## One block -/

/-- Nothing was written behind the first block, which has `cap` bytes. -/
structure InFirst (cap : Nat) (os : OutputCDR) : Prop where
  before : os.before = []
  rdPtr : os.current.rdPtr = 0
  size : os.current.size = cap

/-- What was written, in the first block as long as it has room. -/
structure Fills (segs : List (Seg UInt8)) (os os' : OutputCDR) : Prop where
  emits : Emits segs os os'
  inFirst : ∀ cap, InFirst cap os → os'.currentAlignment ≤ cap → InFirst cap os'

variable {os : OutputCDR}

theorem alignment_emits {segs : List (Seg UInt8)} {os' : OutputCDR} (hwf : os.Wf)
    (h : Emits segs os os') : os'.currentAlignment = extent os.currentAlignment segs := by
  have htotal := h.totalLength_eq hwf
  rwa [h.wf.total, hwf.total] at htotal

theorem le_extent (segs : List (Seg UInt8)) (p : Nat) : p ≤ extent p segs := by
  induction segs generalizing p with
  | nil => exact Nat.le_refl p
  | cons s segs ih =>
    rw [extent_cons]
    have hle := ih (p + gap p s.align + s.data.length)
    omega

theorem Fills.append {xs ys : List (Seg UInt8)} {os' os'' : OutputCDR} (h : Fills xs os os')
    (g : Fills ys os' os'') : Fills (xs ++ ys) os os'' := by
  refine ⟨h.emits.append g.emits, fun cap hfirst hle => g.inFirst cap (h.inFirst cap hfirst ?_) hle⟩
  rw [alignment_emits h.emits.wf g.emits] at hle
  exact Nat.le_trans (le_extent ys _) hle

theorem Fills.nil (h : os.Wf) : Fills [] os os := ⟨.nil h, fun _ hfirst _ => hfirst⟩

theorem adjust_inFirst (P : Platform) (h : os.Wf) {cap size align : Nat} (hfirst : InFirst cap os)
    (ha : IsAlign align) (hle : os.currentAlignment + gap os.currentAlignment align + size ≤ cap) :
    ∃ buf os', os.adjust P size align = some (buf, os') ∧ InFirst cap os' ∧ buf + size ≤ cap := by
  have hwr : os.current.wrPtr = os.currentAlignment := by
    have htotal := h.total
    simp only [totalLength, blocks, hfirst.before, nil_append, map_singleton, sum_singleton,
      MessageBlock.length, hfirst.rdPtr, Nat.sub_zero] at htotal
    exact htotal
  have hgap : alignBinary os.currentAlignment align - os.currentAlignment = gap os.currentAlignment align := by
    rw [alignBinary_eq ha]
    omega
  have hfit : os.current.wrPtr + gap os.currentAlignment align + size ≤ os.current.size := by
    rw [hwr, hfirst.size]
    exact hle
  have hadjust : ∃ os' : OutputCDR,
      os.adjust P size align = some (os.current.wrPtr + gap os.currentAlignment align, os') ∧
      os'.before = os.before ∧ os'.current.rdPtr = os.current.rdPtr ∧ os'.current.buf = os.current.buf := by
    rw [OutputCDR.adjust, adjustLoop]
    simp only [hgap]
    rw [if_pos ⟨h.writable, hfit⟩]
    exact ⟨_, rfl, rfl, rfl, rfl⟩
  obtain ⟨os', heq, hbefore, hrd, hbuf⟩ := hadjust
  refine ⟨_, os', heq, ⟨hbefore.trans hfirst.before, hrd.trans hfirst.rdPtr, ?_⟩, hfirst.size ▸ hfit⟩
  rw [MessageBlock.size, hbuf]
  exact hfirst.size

theorem InFirst.poke {cap buf : Nat} {bs : List UInt8} (h : InFirst cap os)
    (hle : buf + bs.length ≤ cap) : InFirst cap (os.poke buf bs) := by
  refine ⟨h.before, h.rdPtr, ?_⟩
  have hsize := MessageBlock.size_poke (h.size ▸ hle : buf + bs.length ≤ os.current.size)
  exact hsize.trans h.size

theorem writePrim_fills (P : Platform) (h : os.Wf) {size align : Nat} (hs : IsSize size)
    (ha : IsAlign align) {x : List UInt8} (hx : x.length = size) :
    Fills [⟨align, if os.swaps P then x.reverse else x⟩] os (os.writePrim P size align x).2 := by
  have hemits := (writePrim_emits P h hs ha hx).2
  refine ⟨hemits, fun cap hfirst hle => ?_⟩
  have hlen : (if os.swaps P then x.reverse else x).length = size := by
    split
    · rw [length_reverse, hx]
    · exact hx
  rw [alignment_emits h hemits, extent_cons, extent_nil, hlen] at hle
  obtain ⟨buf, os', hadjust, hfirst', hroom⟩ := adjust_inFirst P h hfirst ha hle
  rw [writePrim, hadjust]
  dsimp only
  split
  · refine hfirst'.poke ?_
    rw [swapElem_eq P.endian hs hx, length_reverse, hx]
    exact hroom
  · exact hfirst'.poke (hx ▸ hroom)

def Word (k : Kind) : Prop := k = .ushort ∨ k = .ulong ∨ k = .ulonglong

theorem put_fills (P : Platform) (h : os.Wf) {k : Kind} (hk : Word k) (x : k.Val) :
    Fills [seg P (os.swaps P) k x] os (put P k x os) := by
  have hp : ∀ (k : Kind) (x : k.Val),
      Fills [seg P (os.swaps P) k x] os (os.writePrim P k.size k.align (k.toMem P.endian x)).2 := fun k x =>
    writePrim_fills P h k.isSize k.isAlign (k.length_toMem P.endian x)
  rcases hk with rfl | rfl | rfl
  · exact hp .ushort x
  · exact hp .ulong x
  · exact hp .ulonglong x

theorem writeCharArray_fills (P : Platform) (h : os.Wf) {x : List UInt8} {length : UInt32}
    (hl : length.toNat = x.length) (hne : x ≠ []) :
    Fills [⟨1, x⟩] os (os.writeCharArray P x length).2 := by
  have hemits := (writeCharArray_emits P h hl hne).2
  refine ⟨hemits, fun cap hfirst hle => ?_⟩
  have hne0 : ¬ length = 0 := by
    intro h0
    rw [h0] at hl
    exact hne (length_eq_zero_iff.mp hl.symm)
  rw [alignment_emits h hemits, extent_cons, extent_nil, ← hl] at hle
  have hle' : os.currentAlignment + gap os.currentAlignment octetAlign + octetSize * length.toNat ≤ cap := by
    rw [octetSize, Nat.one_mul]
    exact hle
  obtain ⟨buf, os', hadjust, hfirst', hroom⟩ := adjust_inFirst P h hfirst (.inl rfl : IsAlign octetAlign) hle'
  rw [writeCharArray, writeArray, if_neg hne0, hadjust]
  have hoct : octetSize = 1 := rfl
  simp only [hoct, or_true, if_true]
  refine hfirst'.poke (Nat.le_trans ?_ hroom)
  exact Nat.add_le_add_left (length_take_le _ _) _

/-! ## Layouts -/

section Layout

variable (P) (swap : Bool)

def addressSegs (a : Address) : List (Seg UInt8) := [seg P swap .ulong a.ip, seg P swap .ushort a.port]

def memberSegs (e : Address × UInt64) : List (Seg UInt8) := seg P swap .ulonglong e.2 :: addressSegs P swap e.1

namespace Profile

def bodySegs : Profile → List (Seg UInt8)
  | fromAddress a => addressSegs P swap a
  | toAddress a => addressSegs P swap a
  | data buf => if buf = [] then [] else [⟨1, buf⟩]
  | sn n => [seg P swap .ulonglong n]
  | nak a sns => addressSegs P swap a ++ sns.map (seg P swap .ulonglong)
  | nrtm map => map.flatMap (memberSegs P swap)
  | noData => []
  | part num of totalSize => [seg P swap .ulong num, seg P swap .ulong of, seg P swap .ulonglong totalSize]

def segs (p : Profile) : List (Seg UInt8) :=
  seg P swap .ushort p.id :: seg P swap .ushort p.size :: p.bodySegs P swap

/-- A buffer has a length of 32 bits in a stream. -/
def InRange : Profile → Prop
  | data buf => buf.length < 2 ^ 16
  | _ => True

end Profile

def Message.segs (m : Message) : List (Seg UInt8) :=
  seg P swap .ulong (UInt32.ofNat m.size) :: m.profiles.flatMap (Profile.segs P swap)

end Layout

section Writing

variable (P) {os : OutputCDR}

theorem Fills.put {segs : List (Seg UInt8)} {os' : OutputCDR} (h : Fills segs os os') {k : Kind}
    (hk : Word k) (x : k.Val) :
    Fills (segs ++ [seg P (os.swaps P) k x]) os (put P k x os') := by
  have hput := put_fills P h.emits.wf hk x
  rw [swaps_keeps h.emits.keeps] at hput
  exact h.append hput

theorem putAddress_fills (h : os.Wf) (a : Address) : Fills (addressSegs P (os.swaps P) a) os (putAddress P a os) :=
  (put_fills P h (.inr (.inl rfl)) a.ip).put P (.inl rfl) a.port

theorem putMember_fills (h : os.Wf) (e : Address × UInt64) :
    Fills (memberSegs P (os.swaps P) e) os (putMember P os e) := by
  have hsn := put_fills P h (.inr (.inr rfl)) e.2
  have haddr := putAddress_fills P hsn.emits.wf e.1
  rw [swaps_keeps hsn.emits.keeps] at haddr
  exact hsn.append haddr

/-- A loop of writes. -/
theorem foldl_fills {α : Type} {f : OutputCDR → α → OutputCDR} {g : Bool → α → List (Seg UInt8)}
    (hf : ∀ os x, os.Wf → Fills (g (os.swaps P) x) os (f os x)) (xs : List α) :
    ∀ os : OutputCDR, os.Wf → Fills (xs.flatMap (g (os.swaps P))) os (xs.foldl f os) := by
  induction xs with
  | nil => exact fun os h => .nil h
  | cons x xs ih =>
    intro os h
    have hx := hf os x h
    have hxs := ih (f os x) hx.emits.wf
    rw [swaps_keeps hx.emits.keeps] at hxs
    exact hx.append hxs

theorem serializeBody_fills (h : os.Wf) {p : Profile} (hp : p.InRange) :
    Fills (p.bodySegs P (os.swaps P)) os (p.serializeBody P os) := by
  cases p with
  | fromAddress a => exact putAddress_fills P h a
  | toAddress a => exact putAddress_fills P h a
  | data buf =>
    have hlt : buf.length < 2 ^ 16 := hp
    have hlen : (UInt32.ofNat buf.length).toNat = buf.length :=
      UInt32.toNat_ofNat_of_lt' (Nat.lt_of_lt_of_le hlt (by decide))
    by_cases hne : buf = []
    · subst hne
      exact .nil h
    · rw [bodySegs, if_neg hne]
      exact writeCharArray_fills P h hlen hne
  | sn n => exact put_fills P h (.inr (.inr rfl)) n
  | nak a sns =>
    have haddr := putAddress_fills P h a
    have hsns := foldl_fills P (g := fun swap sn => [seg P swap .ulonglong sn])
      (fun os sn hos => put_fills P hos (.inr (.inr rfl)) sn) sns _ haddr.emits.wf
    rw [swaps_keeps haddr.emits.keeps] at hsns
    have hall := haddr.append hsns
    rw [← map_eq_flatMap] at hall
    exact hall
  | nrtm map => exact foldl_fills P (fun os e hos => putMember_fills P hos e) map _ h
  | noData => exact .nil h
  | part num of totalSize =>
    exact ((put_fills P h (.inr (.inl rfl)) num).put P (.inr (.inl rfl)) of).put P (.inr (.inr rfl)) totalSize

theorem serialize_fills (h : os.Wf) {p : Profile} (hp : p.InRange) :
    Fills (p.segs P (os.swaps P)) os (p.serialize P os) := by
  have hheader := (put_fills P h (.inl rfl : Word .ushort) p.id).put P (.inl rfl : Word .ushort) p.size
  have hbody := serializeBody_fills P hheader.emits.wf hp
  rw [swaps_keeps hheader.emits.keeps] at hbody
  exact hheader.append hbody

end Writing

/-! ## Sizes -/

section Sizes

variable (P) (swap : Bool) (ss : SizeCDR)

theorem putSize_size {k : Kind} (hk : Word k) (x : k.Val) (y : k.Val) :
    (putSize k x ss).size = extent ss.size [seg P swap k y] := by
  have hp : ∀ k : Kind,
      ss.size + (alignBinary ss.size k.align - ss.size) + k.size = ss.size + gap ss.size k.align + k.size := by
    intro k
    rw [alignBinary_eq k.isAlign]
    omega
  rw [extent_cons, extent_nil, seg, length_wire]
  rcases hk with rfl | rfl | rfl
  · exact hp .ushort
  · exact hp .ulong
  · exact hp .ulonglong

theorem putAddressSize_size (a : Address) : (putAddressSize ss).size = extent ss.size (addressSegs P swap a) := by
  rw [putAddressSize, putSize_size P swap _ (.inl rfl) 0 a.port, putSize_size P swap _ (.inr (.inl rfl)) 0 a.ip]
  rfl

theorem putMemberSize_size (e : Address × UInt64) :
    (putMemberSize ss).size = extent ss.size (memberSegs P swap e) := by
  rw [putMemberSize, putAddressSize_size P swap _ e.1, putSize_size P swap _ (.inr (.inr rfl)) 0 e.2]
  rfl

theorem foldl_size {α : Type} {f : SizeCDR → α → SizeCDR} {g : α → List (Seg UInt8)}
    (hf : ∀ ss x, (f ss x).size = extent ss.size (g x)) (xs : List α) :
    ∀ ss : SizeCDR, (xs.foldl f ss).size = extent ss.size (xs.flatMap g) := by
  induction xs with
  | nil => exact fun _ => rfl
  | cons x xs ih =>
    intro ss
    rw [foldl_cons, ih, hf, flatMap_cons, extent_append]

theorem serializeBodySize_size (p : Profile) (hp : p.InRange) :
    (p.serializeBodySize ss).size = extent ss.size (p.bodySegs P swap) := by
  cases p with
  | fromAddress a => exact putAddressSize_size P swap ss a
  | toAddress a => exact putAddressSize_size P swap ss a
  | data buf =>
    have hlt : buf.length < 2 ^ 16 := hp
    have hlen : (UInt32.ofNat buf.length).toNat = buf.length :=
      UInt32.toNat_ofNat_of_lt' (Nat.lt_of_lt_of_le hlt (by decide))
    by_cases hne : buf = []
    · subst hne
      rfl
    · have hne0 : ¬ UInt32.ofNat buf.length = 0 := by
        intro h0
        rw [h0] at hlen
        exact hne (length_eq_zero_iff.mp hlen.symm)
      have ha : IsAlign 1 := .inl rfl
      rw [bodySegs, if_neg hne, extent_cons, extent_nil]
      simp only [serializeBodySize, SizeCDR.writeCharArray, SizeCDR.writeArray, if_neg hne0, SizeCDR.adjust, hlen,
        octetAlign, octetSize, alignBinary_eq ha, Nat.one_mul]
      omega
  | sn n => exact putSize_size P swap ss (.inr (.inr rfl)) n n
  | nak a sns =>
    have hsns := foldl_size (fun ss sn => putSize_size P swap ss (.inr (.inr rfl)) 0 sn) sns (putAddressSize ss)
    rw [← map_eq_flatMap, putAddressSize_size P swap ss a, ← extent_append] at hsns
    exact hsns
  | nrtm map => exact foldl_size (fun ss e => putMemberSize_size P swap ss e) map ss
  | noData => rfl
  | part num of totalSize =>
    rw [serializeBodySize, putSize_size P swap _ (.inr (.inr rfl)) totalSize totalSize,
      putSize_size P swap _ (.inr (.inl rfl)) of of, putSize_size P swap _ (.inr (.inl rfl)) num num]
    rfl

theorem serializeSize_size {p : Profile} (hp : p.InRange) :
    (p.serializeSize ss).size = extent ss.size (p.segs P swap) := by
  rw [serializeSize, serializeBodySize_size P swap _ p hp, putSize_size P swap _ (.inl rfl) p.size p.size,
    putSize_size P swap _ (.inl rfl) p.id p.id]
  rfl

end Sizes

theorem size_eq (P : Platform) (swap : Bool) {m : Message} (hm : ∀ p ∈ m.profiles, p.InRange) :
    m.size = extent 0 (m.segs P swap) := by
  have hfold : ∀ (ps : List Profile), (∀ p ∈ ps, p.InRange) → ∀ ss : SizeCDR,
      (ps.foldl serializeSize ss).size = extent ss.size (ps.flatMap (segs P swap)) := by
    intro ps
    induction ps with
    | nil => exact fun _ _ => rfl
    | cons p ps ih =>
      intro hps ss
      rw [foldl_cons, ih (fun q hq => hps q (mem_cons_of_mem _ hq)),
          serializeSize_size P swap ss (hps p mem_cons_self),
        flatMap_cons, extent_append]
  have hfirst := putSize_size P swap (SizeCDR.init 1 2) (.inr (.inl rfl)) 0 (UInt32.ofNat m.size)
  calc m.size = extent (putSize .ulong 0 (SizeCDR.init 1 2)).size (m.profiles.flatMap (segs P swap)) :=
        hfold m.profiles hm _
    _ = extent 0 (m.segs P swap) := by
      rw [hfirst]
      rfl

/-! ## The packet -/

/-- The sender writes in the order of the receiver. -/
def Swapped (P : Platform) : Bool := decide (1 ≠ P.byteOrder)

theorem serialize_message_fills (P : Platform) (h : os.Wf) {m : Message}
    (hm : ∀ p ∈ m.profiles, p.InRange) :
    Fills (m.segs P (os.swaps P)) os (m.serialize P os) := by
  have hfold : ∀ (ps : List Profile), (∀ p ∈ ps, p.InRange) → ∀ os : OutputCDR, os.Wf →
      Fills (ps.flatMap (segs P (os.swaps P))) os (ps.foldl (serialize P) os) := by
    intro ps
    induction ps with
    | nil => exact fun _ os h => .nil h
    | cons p ps ih =>
      intro hps os h
      have hfirst := serialize_fills P h (hps p mem_cons_self)
      have hrest := ih (fun q hq => hps q (mem_cons_of_mem _ hq)) _ hfirst.emits.wf
      rw [swaps_keeps hfirst.emits.keeps] at hrest
      exact hfirst.append hrest
  have hsize := put_fills P h (.inr (.inl rfl) : Word .ulong) (UInt32.ofNat m.size)
  have hrest := hfold m.profiles hm _ hsize.emits.wf
  rw [swaps_keeps hsize.emits.keeps] at hrest
  exact hsize.append hrest

/-- **The packet** is laid out from its first byte. -/
theorem packet_laid (P : Platform) {m : Message} (hm : ∀ p ∈ m.profiles, p.InRange) :
    Laid 0 (m.segs P (P.swapOnWrite && Swapped P)) (packet P m) := by
  have hwf := init_wf P m.size 1 1 2
  have hfills := serialize_message_fills P hwf hm
  have hswaps : (init P m.size 1 1 2).swaps P = (P.swapOnWrite && Swapped P) := rfl
  rw [hswaps] at hfills
  obtain ⟨bs, hlaid, hcontents⟩ := hfills.emits.laid
  rw [init_contents, nil_append] at hcontents
  rw [init_contents] at hlaid
  have hcap : InFirst ((if m.size = 0 then defaultBufsize else m.size) + maxAlignment) (init P m.size 1 1 2) := by
    have hcurrent : (init P m.size 1 1 2).current =
        P.alloc 0 ((if m.size = 0 then defaultBufsize else m.size) + maxAlignment) := MessageBlock.mbAlign_alloc P 0 _
    refine ⟨rfl, ?_, ?_⟩
    · rw [hcurrent]
      rfl
    · rw [hcurrent]
      exact MessageBlock.size_alloc P 0 _
  have hle : (m.serialize P (init P m.size 1 1 2)).currentAlignment ≤
      (if m.size = 0 then defaultBufsize else m.size) + maxAlignment := by
    have hextent : extent (init P m.size 1 1 2).currentAlignment (m.segs P (P.swapOnWrite && Swapped P)) = m.size :=
      (size_eq P _ hm).symm
    rw [alignment_emits hwf hfills.emits, hextent]
    split <;> omega
  have hfirst := hfills.inFirst _ hcap hle
  have hpacket : packet P m = (m.serialize P (init P m.size 1 1 2)).contents := by
    rw [packet, buffer, OutputCDR.contents, blocks, hfirst.before]
    simp
  rw [hpacket, hcontents]
  exact hlaid

/-! ## Counts -/

namespace Profile

theorem extent_sns (P : Platform) (swap : Bool) (sns : List UInt64) {p : Nat} (hp : p % 8 = 0) :
    extent p (sns.map (seg P swap .ulonglong)) = p + 8 * sns.length := by
  induction sns generalizing p with
  | nil => rfl
  | cons sn sns ih =>
    have hgap : gap p (seg P swap .ulonglong sn).align = 0 := gap_of_aligned p 8 hp
    have hlen : (seg P swap .ulonglong sn).data.length = 8 := length_wire P swap .ulonglong sn
    rw [map_cons, extent_cons, hgap, hlen, ih (by omega), length_cons]
    omega

theorem extent_member (P : Platform) (swap : Bool) (e : Address × UInt64) (p : Nat) :
    extent p (memberSegs P swap e) = p + gap p 8 + 14 := by
  have hlen : ∀ (k : Kind) (x : k.Val), (seg P swap k x).data.length = k.size := fun k x => length_wire P swap k x
  have h8 := add_gap_mod p 8 (by decide)
  have h4 : gap (p + gap p 8 + 8) 4 = 0 := gap_of_aligned _ 4 (by omega)
  have h2 : gap (p + gap p 8 + 8 + 0 + 4) 2 = 0 := gap_of_aligned _ 2 (by omega)
  have hsizes : Kind.ulonglong.size = 8 ∧ Kind.ulong.size = 4 ∧ Kind.ushort.size = 2 := ⟨rfl, rfl, rfl⟩
  have haligns : Kind.ulonglong.align = 8 ∧ Kind.ulong.align = 4 ∧ Kind.ushort.align = 2 := ⟨rfl, rfl, rfl⟩
  simp only [memberSegs, addressSegs, extent_cons, extent_nil, hlen]
  simp only [seg, hsizes, haligns, h4, h2]

theorem extent_members (P : Platform) (swap : Bool) (map : List (Address × UInt64)) {p : Nat} (hp : p % 8 = 6) :
    extent p (map.flatMap (memberSegs P swap)) = p + 16 * map.length := by
  induction map generalizing p with
  | nil => rfl
  | cons e map ih =>
    have hgap : gap p 8 = 2 := by
      unfold gap
      omega
    rw [flatMap_cons, extent_append, extent_member, hgap, ih (by omega), length_cons]
    omega

theorem bodySize_nak (a : Address) (sns : List UInt64) :
    (nak a sns).bodySize = if sns = [] then 6 else 8 + 8 * sns.length := by
  have haddr : ∀ rest, extent 0 (addressSegs .plain false a ++ rest) = extent 6 rest := by
    intro rest
    have hlen : ∀ (k : Kind) (x : k.Val), (seg .plain false k x).data.length = k.size := fun k x =>
        length_wire .plain false k x
    have hgaps : gap 0 (seg .plain false .ulong a.ip).align = 0 ∧ gap 4 (seg .plain false .ushort a.port).align = 0 :=
      ⟨gap_of_aligned 0 4 (by decide), gap_of_aligned 4 2 (by decide)⟩
    have hsizes : Kind.ulong.size = 4 ∧ Kind.ushort.size = 2 := ⟨rfl, rfl⟩
    simp only [addressSegs, cons_append, nil_append, extent_cons, hlen, hgaps, hsizes, Nat.zero_add, Nat.add_zero]
  rw [bodySize, SizeCDR.totalLength, serializeBodySize_size .plain false _ (nak a sns) trivial, bodySegs]
  have hzero : (SizeCDR.init 1 2).size = 0 := rfl
  rw [hzero, haddr]
  cases sns with
  | nil => rfl
  | cons sn sns =>
    have hlen : (seg .plain false .ulonglong sn).data.length = 8 := length_wire .plain false .ulonglong sn
    have hgap : gap 6 (seg .plain false .ulonglong sn).align = 2 := rfl
    rw [map_cons, extent_cons, hlen, hgap, extent_sns _ _ _ (by decide), if_neg (cons_ne_nil _ _), length_cons]
    omega

theorem bodySize_nrtm (map : List (Address × UInt64)) : (nrtm map).bodySize = 16 * map.length - 2 := by
  rw [bodySize, SizeCDR.totalLength, serializeBodySize_size .plain false _ (nrtm map) trivial, bodySegs]
  have hzero : (SizeCDR.init 1 2).size = 0 := rfl
  rw [hzero]
  cases map with
  | nil => rfl
  | cons e map =>
    rw [flatMap_cons, extent_append, extent_member, gap_of_aligned 0 8 rfl,
        extent_members _ _ _ (by decide), length_cons]
    omega

theorem bodySize_data {buf : List UInt8} (h : buf.length < 2 ^ 16) : (data buf).bodySize = buf.length := by
  rw [bodySize, SizeCDR.totalLength, serializeBodySize_size .plain false _ (data buf) h, bodySegs]
  by_cases hne : buf = []
  · rw [if_pos hne, hne]
    rfl
  · rw [if_neg hne, extent_cons, extent_nil, gap_one]
    change 0 + 0 + buf.length = _
    omega

theorem toNat_size (p : Profile) : p.size.toNat = p.bodySize % 2 ^ 16 := UInt16.toNat_ofNat

theorem snCount_eq (size : UInt16) : snCount size = (2 ^ 64 + size.toNat - 6) % 2 ^ 64 / 8 := rfl

theorem blockCount_eq (size : UInt16) : blockCount size = size.toNat / 14 := rfl

theorem snCount_nak (a : Address) {sns : List UInt64} (h : sns.length < 8191) :
    snCount (nak a sns).size = sns.length := by
  rw [snCount_eq, toNat_size, bodySize_nak]
  split
  · next hnil =>
    rw [hnil]
    rfl
  · omega

/-- The size of a long one wraps. -/
theorem snCount_nak_ne (a : Address) {sns : List UInt64} (h : 8191 ≤ sns.length)
    (hsize : (nak a sns).bodySize < 2 ^ 64) :
    snCount (nak a sns).size ≠ sns.length := by
  have hne : sns ≠ [] := fun hnil => by
    rw [hnil, length_nil] at h
    omega
  rw [bodySize_nak, if_neg hne] at hsize
  rw [snCount_eq, toNat_size, bodySize_nak, if_neg hne]
  omega

theorem blockCount_nrtm {map : List (Address × UInt64)} (h : map.length < 8) :
    blockCount (nrtm map).size = map.length := by
  rw [blockCount_eq, toNat_size, bodySize_nrtm]
  omega

/-- The gaps between eight members make one member more. -/
theorem lt_blockCount_nrtm {map : List (Address × UInt64)} (h : 8 ≤ map.length) (hle : map.length ≤ 4096) :
    map.length < blockCount (nrtm map).size := by
  rw [blockCount_eq, toNat_size, bodySize_nrtm]
  omega

theorem blockCount_nrtm_lt {map : List (Address × UInt64)} (h : 4096 < map.length) :
    blockCount (nrtm map).size < map.length := by
  rw [blockCount_eq, toNat_size, bodySize_nrtm]
  omega

end Profile

end Atcd.Rmcast
