import Atcd.Core.Run
import Atcd.Rmcast.Acknowledge
import Atcd.Rmcast.Fragment
import Atcd.Rmcast.LinkLayout
/-!
# The size of a packet

What a socket sends goes down one stack: `Fragment` cuts the data into parts, `Acknowledge` puts
a history (an `NRTM`) behind a part where there is room for one, `Retransmit` keeps a copy and
answers requests with it, `Link` serialises the message and aborts when it is too long. The
tracker of `Acknowledge` sends requests (`NAK`s) and histories of its own.

How many elements there is room for is counted in a stream that starts with the profile, and
`max_service_size` bytes of the packet are set aside for everything else. The profiles of a
message come in the order of a hash map.

The calls of `Fragment::send` run at a time, cut where they draw a number. Between two steps
reception may make anything of the queues of the sources.

Results:
* `packet_fits`: no run gives `send_` a message that is longer than a packet, in any order of
  its profiles.
* `extent_segs_le`: the room that a profile takes, wherever it starts.
* `nrtmMaxCount_fits`, `nakMaxCount_fits`: the counted elements fit.
-/
namespace Atcd.Rmcast

open Atcd.Core Atcd.Cdr Atcd.Cdr.OutputCDR List Function Option Rmcast.Message

/-! ## Counting elements -/

/-- The loop of `max_count`, where `put` adds an element; the fuel bounds its turns.
mirrors ACE/protocols/ace/RMCast/Protocol.h:875-885, 1045-1061 -/
def countElements (put : SizeCDR → SizeCDR) (maxSize : Nat) : Nat → SizeCDR → Nat
  | 0, _ => 0
  | fuel + 1, ss =>
    let ss := put ss
    let n := if ss.totalLength ≤ maxSize then 1 else 0
    if maxSize ≤ ss.totalLength then n else n + countElements put maxSize fuel ss

/-- `ss << hdr` -/
def putHeaderSize (ss : SizeCDR) : SizeCDR := putSize .ushort 0 (putSize .ushort 0 ss)

/-- `NAK::max_count`; every turn adds a byte and more.
mirrors Protocol.h:861-888 -/
def nakMaxCount (maxSize : Nat) : Nat :=
  countElements (putSize .ulonglong 0) maxSize (maxSize + 1)
    (putAddressSize (putHeaderSize (SizeCDR.init 1 2)))

/-- `NRTM::max_count`.
mirrors Protocol.h:1037-1065 -/
def nrtmMaxCount (maxSize : Nat) : Nat :=
  countElements putMemberSize maxSize (maxSize + 1) (putHeaderSize (SizeCDR.init 1 2))

/-! ## The stack -/

/-- The sources in the order of the hash map. The test for the last one comes behind its
decrement, so that 0 stands for `2 ^ 32`.
mirrors ACE/protocols/ace/RMCast/Acknowledge.cpp:347-376 -/
def createNrtm (hold : Table Address AckQueue) (maxElem : Nat) : Option Profile :=
  let elems := hold.take (if maxElem = 0 then 2 ^ 32 else maxElem)
  if elems = [] then none else some (.nrtm (elems.map fun e => (e.1, UInt64.ofNat e.2.sn)))

/-- mirrors Acknowledge.cpp:319-345 -/
def addHistory (params : Parameters) (hold : Table Address AckQueue) (m : Message) : Message :=
  match m.data with
  | none => m
  | some data =>
    let maxElem := nrtmMaxCount (params.maxPayloadSize - data.length)
    if data.length < params.maxPayloadSize ∧ 0 < maxElem then
      match createNrtm hold maxElem with
      | none => m
      | some nrtm => m.add nrtm
    else m

/-- What `Retransmit` sends for a number that is asked for.
mirrors ACE/protocols/ace/RMCast/Retransmit.cpp:78-97 -/
def answer (queue : Table Nat Message) (sn : UInt64) : Message :=
  match queue.find sn.toNat with
  | some m => m
  | none => (Message.empty.add (.sn sn)).add .noData

/-- What `Link::send` does with a message: without the simulator it is sent; the simulator drops
it, sends it, or sends it behind a later one. -/
inductive Fate where
  | direct | dropped | sent | kept
  deriving DecidableEq, Repr

/-- The message that is held back, and the calls of `send_`.
mirrors ACE/protocols/ace/RMCast/Link.cpp:97-134 -/
def linkSend (held : Option Message) (m : Message) : Fate → Option Message × List Message
  | .direct => (held, [m])
  | .dropped => (held, [])
  | .sent => (none, m :: held.toList)
  | .kept =>
    match held with
    | some h => (none, [m, h])
    | none => (some m, [])

/-- The calls of `Fragment::send`, the sources that `Acknowledge` knows, the queue of
`Retransmit`, the messages on their way to the link, the one it holds back, and the calls of
`send_`. -/
structure Stack where
  sn : Nat
  calls : List SendCall
  hold : Table Address AckQueue
  queue : Table Nat Message
  passing : List Message
  held : Option Message
  sent : List Message

namespace Stack

def start : Stack := ⟨1, [], [], [], [], none, []⟩

/-- A part goes through `Acknowledge::send` and `Retransmit::send`.
mirrors Retransmit.cpp:49-60 -/
def pass (params : Parameters) (s : Stack) (m : Message) : Stack :=
  let m := addHistory params s.hold m
  { s with
    queue := match m.data, m.sn with
      | some _, some sn => s.queue.bind sn.toNat m
      | _, _ => s.queue
    passing := s.passing ++ [m] }

/-- A call goes on with the next number. -/
def calling (s : Stack) (i : Nat) (c : SendCall) : Stack :=
  { s with
    sn := s.sn + 1
    calls := s.calls.set i c }

/-- A turn of the loop in a call of `Fragment::send`.
mirrors ACE/protocols/ace/RMCast/Fragment.cpp:51-72 -/
def part (params : Parameters) (s : Stack) (i : Nat) : Option Stack :=
  (s.calls[i]?).bind fun c =>
    if c.done then none
    else (c.next params s.sn).map fun next => (s.calling i next.2).pass params next.1

/-- The `NAK`s hold as many numbers as fit into a payload.
mirrors Acknowledge.cpp:166-169 -/
def ackParameters (params : Parameters) (nakTimeout : UInt64) : AckParameters :=
  ⟨nakTimeout, nakMaxCount params.maxPayloadSize⟩

end Stack

/-- A call of `Fragment::send`, the next part of one, any reception, the tracker at one source,
its history, a `NAK` for this socket, a message that is kept no longer, and a message that
reaches the link. -/
inductive StackOp where
  | call (data : Payload)
  | part (i : Nat)
  | receive (hold : Table Address AckQueue)
  | track (source : Address)
  | history
  | nak (sns : List UInt64)
  | expire (sn : Nat)
  | link (i : Nat) (fate : Fate)

namespace Stack

def step (params : Parameters) (nakTimeout : UInt64) (s : Stack) : StackOp → Option Stack
  | .call data => some { s with calls := s.calls ++ [SendCall.start params data.bytes] }
  | .part i => s.part params i
  | .receive hold => some { s with hold := hold }
  | .track source =>
    (s.hold.find source).bind fun q =>
      (Acknowledge.trackQueue (ackParameters params nakTimeout) source q).map fun (q, naks) =>
        { s with
          hold := s.hold.set source q
          passing := s.passing ++ naks.map Message.empty.add }
  | .history =>
    let nrtm := createNrtm s.hold (nrtmMaxCount params.maxPayloadSize)
    some { s with passing := s.passing ++ nrtm.toList.map Message.empty.add }
  | .nak sns => some { s with passing := s.passing ++ sns.map (answer s.queue) }
  | .expire sn => some { s with queue := s.queue.unbind sn }
  | .link i fate =>
    (s.passing[i]?).map fun m =>
      { s with
        passing := s.passing.eraseIdx i
        held := (linkSend s.held m fate).1
        sent := s.sent ++ (linkSend s.held m fate).2 }

end Stack

/-! ## The room of a profile -/

namespace Profile

/-- The most bytes that a profile takes, with the gaps before its parts. -/
def room : Profile → Nat
  | fromAddress _ => 13
  | toAddress _ => 13
  | data buf => 5 + buf.length
  | sn _ => 19
  | nak _ sns => 19 + 8 * sns.length
  | nrtm map => 9 + 16 * map.length
  | noData => 5
  | part _ _ _ => 27

variable (P : Platform) (swap : Bool)

theorem extent_word (k : Kind) (x : k.Val) (segs : List (Seg UInt8)) (p : Nat) :
    extent p (seg P swap k x :: segs) = extent (p + gap p k.align + k.size) segs := by
  rw [extent_cons, seg, length_wire]

theorem extent_sns_le (sns : List UInt64) (p : Nat) :
    extent p (sns.map (seg P swap .ulonglong)) ≤ p + gap p 8 + 8 * sns.length := by
  cases sns with
  | nil => exact Nat.le_add_right _ _
  | cons sn sns =>
    rw [map_cons, extent_word]
    have haligned := add_gap_mod p 8 (by decide)
    have hsizes : Kind.ulonglong.size = 8 ∧ Kind.ulonglong.align = 8 := ⟨rfl, rfl⟩
    rw [hsizes.1, hsizes.2, extent_sns P swap sns (by omega), length_cons]
    omega

theorem extent_members_le (map : List (Address × UInt64)) (p : Nat) :
    extent p (map.flatMap (memberSegs P swap)) ≤ p + (gap p 8 - 2) + 16 * map.length := by
  cases map with
  | nil => exact Nat.le_add_right _ _
  | cons e map =>
    have haligned := add_gap_mod p 8 (by decide)
    rw [flatMap_cons, extent_append, extent_member, extent_members P swap map (by omega),
      length_cons]
    omega

/-- **The room of a profile** is enough wherever it starts. -/
theorem extent_segs_le (p : Profile) (pos : Nat) : extent pos (p.segs P swap) ≤ pos + p.room := by
  have hushort : Kind.ushort.size = 2 ∧ Kind.ushort.align = 2 := ⟨rfl, rfl⟩
  have hulong : Kind.ulong.size = 4 ∧ Kind.ulong.align = 4 := ⟨rfl, rfl⟩
  have hulonglong : Kind.ulonglong.size = 8 ∧ Kind.ulonglong.align = 8 := ⟨rfl, rfl⟩
  have heven := add_gap_mod pos 2 (by decide)
  have hodd := gap_lt pos 2 (by decide)
  have hheader : extent pos (p.segs P swap) = extent (pos + gap pos 2 + 4) (p.bodySegs P swap) := by
    rw [segs, extent_word, extent_word, hushort.1, hushort.2,
      gap_of_aligned (pos + gap pos 2 + 2) 2 (by omega)]
  rw [hheader]
  generalize hq : pos + gap pos 2 + 4 = q
  -- the gaps behind a header start at an even position
  have hgap4 : gap q 4 ≤ 2 := by
    unfold gap
    omega
  have hgap8 : gap q 8 ≤ 6 := by
    unfold gap
    omega
  have haddress : ∀ (a : Address) (segs : List (Seg UInt8)),
      extent q (addressSegs P swap a ++ segs) = extent (q + gap q 4 + 6) segs := by
    intro a segs
    have h4 := add_gap_mod q 4 (by decide)
    rw [addressSegs, cons_append, cons_append, nil_append, extent_word, extent_word,
      hulong.1, hulong.2, hushort.1, hushort.2, gap_of_aligned (q + gap q 4 + 4) 2 (by omega)]
  have hplain : ∀ a : Address, extent q (addressSegs P swap a) = q + gap q 4 + 6 := by
    intro a
    have h := haddress a []
    rwa [append_nil] at h
  cases p with
  | fromAddress a =>
    simp only [bodySegs, hplain, room]
    omega
  | toAddress a =>
    simp only [bodySegs, hplain, room]
    omega
  | data buf =>
    simp only [bodySegs, room]
    split
    · rw [extent_nil]
      omega
    · rw [extent_cons, extent_nil, gap_one]
      dsimp only
      omega
  | sn n =>
    simp only [bodySegs, room]
    rw [extent_word, extent_nil, hulonglong.1, hulonglong.2]
    omega
  | nak a sns =>
    have hsns := extent_sns_le P swap sns (q + gap q 4 + 6)
    have hafter : gap (q + gap q 4 + 6) 8 ≤ 6 := by
      unfold gap
      omega
    simp only [bodySegs, haddress, room]
    omega
  | nrtm map =>
    have hmembers := extent_members_le P swap map q
    simp only [bodySegs, room]
    omega
  | noData =>
    simp only [bodySegs, room, extent_nil]
    omega
  | part num of totalSize =>
    have h4 := add_gap_mod q 4 (by decide)
    have hnone : gap (q + gap q 4 + 4) 4 = 0 := gap_of_aligned _ 4 (by omega)
    have hlast : gap (q + gap q 4 + 4 + 0 + 4) 8 ≤ 4 := by
      generalize q + gap q 4 = r at h4
      unfold gap
      omega
    simp only [bodySegs, room]
    rw [extent_word, extent_word, extent_word, extent_nil, hulong.1, hulong.2, hulonglong.1,
      hulonglong.2, hnone]
    omega

end Profile

namespace Message

def room (m : Message) : Nat := 4 + (m.profiles.map Profile.room).sum

theorem extent_profiles_le (P : Platform) (swap : Bool) (ps : List Profile) (pos : Nat) :
    extent pos (ps.flatMap (Profile.segs P swap)) ≤ pos + (ps.map Profile.room).sum := by
  induction ps generalizing pos with
  | nil => exact Nat.le_refl _
  | cons p ps ih =>
    have hp := p.extent_segs_le P swap pos
    have hps := ih (extent pos (p.segs P swap))
    rw [flatMap_cons, extent_append, map_cons, sum_cons]
    omega

theorem packet_length_le (P : Platform) {m : Message} (h : ∀ p ∈ m.profiles, p.InRange) :
    (packet P m).length ≤ m.room := by
  have hlen := (packet_laid P h).length_eq
  have hps := extent_profiles_le P (P.swapOnWrite && Swapped P) m.profiles 4
  have hsize : extent 0 (m.segs P (P.swapOnWrite && Swapped P)) =
      extent 4 (m.profiles.flatMap (Profile.segs P (P.swapOnWrite && Swapped P))) := by
    rw [segs, Profile.extent_word]
    rfl
  unfold room
  omega

/-- A message that is not too long for a packet in any order. -/
structure Fits (params : Parameters) (m : Message) : Prop where
  range : ∀ p ∈ m.profiles, p.InRange
  room : m.room ≤ params.maxPacketSize.toNat

theorem Fits.packet {params : Parameters} {m m' : Message} (h : m.Fits params)
    (hperm : m'.profiles.Perm m.profiles) (P : Platform) :
    (packet P m').length ≤ params.maxPacketSize.toNat := by
  have hle : (Rmcast.packet P m').length ≤ m'.room :=
    packet_length_le P fun p hp => h.range p (hperm.mem_iff.mp hp)
  have hsum : m'.room = m.room := by
    unfold Message.room
    rw [(hperm.map Profile.room).sum_nat]
  have hroom := h.room
  omega

end Message

/-! ## The counts -/

theorem countElements_fits (put : SizeCDR → SizeCDR) (maxSize fuel : Nat) (ss : SizeCDR)
    (h : 0 < countElements put maxSize fuel ss) :
    (put^[countElements put maxSize fuel ss] ss).totalLength ≤ maxSize := by
  induction fuel generalizing ss with
  | zero => exact absurd h (Nat.lt_irrefl 0)
  | succ fuel ih =>
    rw [countElements] at h ⊢
    by_cases hend : maxSize ≤ (put ss).totalLength
    · rw [if_pos hend] at h ⊢
      by_cases hle : (put ss).totalLength ≤ maxSize
      · rw [if_pos hle]
        exact hle
      · rw [if_neg hle] at h
        exact absurd h (Nat.lt_irrefl 0)
    · rw [if_neg hend, if_pos (by omega)]
      by_cases hmore : 0 < countElements put maxSize fuel (put ss)
      · rw [Nat.add_comm, iterate_succ_apply]
        exact ih (put ss) hmore
      · obtain hnone : countElements put maxSize fuel (put ss) = 0 := by omega
        rw [hnone]
        simp only [Nat.add_zero, iterate_one]
        omega

theorem iterate_members (n : Nat) (ss : SizeCDR) (h : ss.size % 8 = 6) :
    (putMemberSize^[n] ss).size = ss.size + 16 * n := by
  induction n generalizing ss with
  | zero => rfl
  | succ n ih =>
    have hsize : (putMemberSize ss).size = ss.size + 16 := by
      have hgap : gap ss.size 8 = 2 := by
        unfold gap
        omega
      rw [putMemberSize_size .plain false ss (⟨0, 0⟩, 0), Profile.extent_member, hgap]
    rw [iterate_succ_apply, ih _ (by omega), hsize]
    omega

theorem iterate_sns (n : Nat) (ss : SizeCDR) (h : ss.size % 8 = 0) :
    ((putSize .ulonglong 0)^[n] ss).size = ss.size + 8 * n := by
  induction n generalizing ss with
  | zero => rfl
  | succ n ih =>
    have hsize : (putSize .ulonglong 0 ss).size = ss.size + 8 := by
      have hulonglong : Kind.ulonglong.size = 8 ∧ Kind.ulonglong.align = 8 := ⟨rfl, rfl⟩
      rw [putSize_size .plain false ss (.inr (.inr rfl)) 0 0, Profile.extent_word, extent_nil,
        hulonglong.1, hulonglong.2, gap_of_aligned ss.size 8 h]
    rw [iterate_succ_apply, ih _ (by omega), hsize]
    omega

/-- **The members** that are counted take this room behind a header. -/
theorem nrtmMaxCount_fits {maxSize : Nat} (h : 0 < nrtmMaxCount maxSize) :
    16 * nrtmMaxCount maxSize + 6 ≤ maxSize := by
  have hfits := countElements_fits _ _ _ _ h
  obtain ⟨n, hn⟩ := Nat.exists_eq_succ_of_ne_zero h.ne'
  unfold nrtmMaxCount at hn hfits ⊢
  have hfirst : (putMemberSize (putHeaderSize (SizeCDR.init 1 2))).size = 22 := rfl
  rw [hn, iterate_succ_apply, SizeCDR.totalLength, iterate_members _ _ (by rw [hfirst]),
    hfirst] at hfits
  omega

/-- **The numbers** that are counted take this room behind a header. -/
theorem nakMaxCount_fits {maxSize : Nat} (h : 0 < nakMaxCount maxSize) :
    8 * nakMaxCount maxSize + 16 ≤ maxSize := by
  have hfits := countElements_fits _ _ _ _ h
  obtain ⟨n, hn⟩ := Nat.exists_eq_succ_of_ne_zero h.ne'
  unfold nakMaxCount at hn hfits ⊢
  have hfirst :
      (putSize .ulonglong 0 (putAddressSize (putHeaderSize (SizeCDR.init 1 2)))).size = 24 := rfl
  rw [hn, iterate_succ_apply, SizeCDR.totalLength, iterate_sns _ _ (by rw [hfirst]),
    hfirst] at hfits
  omega

/-! ## The messages of the stack -/

section Stack

variable {params : Parameters}

theorem maxPayloadSize_add (params : Parameters) :
    params.maxPayloadSize + 60 = params.maxPacketSize.toNat := by
  have hlt := params.service_lt
  unfold Parameters.maxPayloadSize maxServiceSize at *
  omega

theorem chunks_go (n : Nat) {α : Type} (xs : List α) (acc : Array α) (done : Array (List α))
    (hpos : 0 < acc.size) (hle : acc.size ≤ n) (hdone : ∀ l ∈ done.toList, l ≠ [] ∧ l.length ≤ n) :
    ∀ l ∈ toChunks.go n xs acc done, l ≠ [] ∧ l.length ≤ n := by
  have hpush : ∀ l ∈ (done.push acc.toList).toList, l ≠ [] ∧ l.length ≤ n := by
    intro l hl
    rw [Array.toList_push, mem_append, mem_singleton] at hl
    rcases hl with hl | rfl
    · exact hdone l hl
    · rw [Array.length_toList]
      exact ⟨fun hnil => by simp [← Array.length_toList, hnil] at hpos, hle⟩
  induction xs generalizing acc done with
  | nil => exact hpush
  | cons x xs ih =>
    unfold toChunks.go
    have hone : ((Array.mkEmpty n).push x).size = 1 := rfl
    split
    · refine ih _ _ (by omega) (by omega) hpush fun l hl => ?_
      rw [Array.toList_push, mem_append, mem_singleton] at hl
      rcases hl with hl | rfl
      · exact hpush l hl
      · rw [Array.length_toList, hone]
        exact ⟨by simp, by omega⟩
    · rename_i hne
      have hlt : acc.size ≠ n := fun he => hne (beq_iff_eq.mpr he)
      have hsize : (acc.push x).size = acc.size + 1 := Array.size_push x
      refine ih _ _ (by omega) (by omega) hdone fun l hl => ?_
      rw [Array.toList_push, mem_append, mem_singleton] at hl
      rcases hl with hl | rfl
      · exact hdone l hl
      · rw [Array.length_toList]
        exact ⟨by simp, by omega⟩

theorem chunks_bounded {n : Nat} (hn : 0 < n) {α : Type} {xs l : List α} (hl : l ∈ xs.toChunks n) :
    l ≠ [] ∧ l.length ≤ n := by
  cases xs with
  | nil => exact absurd hl (by simp [toChunks])
  | cons x xs =>
    cases n with
    | zero => exact absurd hn (Nat.lt_irrefl 0)
    | succ n =>
      refine chunks_go (n + 1) xs #[x] #[] (by simp) (by simp) (fun l hl => ?_) l hl
      simp at hl

/-- Numbers of lost messages fit into a packet. -/
theorem fits_nak (source : Address) {sns : List UInt64} (h : sns ≠ [])
    (hle : sns.length ≤ nakMaxCount params.maxPayloadSize) :
    (Message.empty.add (.nak source sns)).Fits params := by
  have hpos : 0 < sns.length := length_pos_iff.mpr h
  have hcount : 0 < nakMaxCount params.maxPayloadSize := by omega
  have hfits := nakMaxCount_fits hcount
  have hsize := maxPayloadSize_add params
  have hprofiles := add_profiles (p := .nak source sns) (find_empty _)
  refine ⟨fun p hp => ?_, ?_⟩
  · rw [hprofiles] at hp
    obtain rfl : p = .nak source sns := mem_singleton.mp hp
    trivial
  · have hroom : (empty.add (.nak source sns)).room = 4 + (19 + 8 * sns.length) := by
      rfl
    omega

theorem fits_naks {nakTimeout : UInt64} {source : Address} {q q' : AckQueue} {naks : List Profile}
    (h : Acknowledge.trackQueue (Stack.ackParameters params nakTimeout) source q =
      some (q', naks)) : ∀ p ∈ naks, (Message.empty.add p).Fits params := by
  unfold Acknowledge.trackQueue at h
  split at h
  · cases h
  · rename_i hend
    cases h
    intro p hp
    obtain ⟨sns, hsns, rfl⟩ := mem_map.mp hp
    have hcount : 0 < nakMaxCount params.maxPayloadSize := by
      refine Nat.pos_of_ne_zero fun hzero => ?_
      have hnil : q.entries = [] := not_not.mp fun hne => hend ⟨hzero, hne⟩
      rw [hnil] at hsns
      simp [toChunks] at hsns
    obtain ⟨hne, hle⟩ := chunks_bounded hcount hsns
    refine fits_nak source (by simpa using hne) ?_
    rw [length_map]
    exact hle

theorem createNrtm_spec {hold : Table Address AckQueue} {maxElem : Nat} {p : Profile}
    (h : createNrtm hold maxElem = some p) (hpos : 0 < maxElem) :
    ∃ map, p = .nrtm map ∧ map.length ≤ maxElem := by
  unfold createNrtm at h
  rw [if_neg hpos.ne'] at h
  dsimp only at h
  split at h
  · cases h
  · cases h
    refine ⟨_, rfl, ?_⟩
    rw [length_map]
    exact length_take_le _ _

theorem fits_history {hold : Table Address AckQueue} {p : Profile}
    (hpos : 0 < nrtmMaxCount params.maxPayloadSize)
    (h : createNrtm hold (nrtmMaxCount params.maxPayloadSize) = some p) :
    (Message.empty.add p).Fits params := by
  obtain ⟨map, rfl, hlen⟩ := createNrtm_spec h hpos
  have hfits := nrtmMaxCount_fits hpos
  have hsize := maxPayloadSize_add params
  have hprofiles := add_profiles (p := .nrtm map) (find_empty _)
  refine ⟨fun p hp => ?_, ?_⟩
  · rw [hprofiles] at hp
    obtain rfl : p = .nrtm map := mem_singleton.mp hp
    trivial
  · have hroom : (empty.add (.nrtm map)).room = 4 + (9 + 16 * map.length) := by
      rfl
    omega

/-- What `Fragment` passes on: at most a payload of data, and room for its number and its
place. -/
structure Part (params : Parameters) (m : Message) : Prop where
  range : ∀ p ∈ m.profiles, p.InRange
  data : ∃ data, m.data = some data ∧ data.length ≤ params.maxPayloadSize ∧
    m.room ≤ 55 + data.length
  fresh : m.find Profile.nrtmId = none

/-- **A part and its history** fit into a packet. -/
theorem fits_part {m : Message} (h : Part params m) (hold : Table Address AckQueue) :
    (addHistory params hold m).Fits params := by
  obtain ⟨data, hdata, hlen, hroom⟩ := h.data
  have hsize := maxPayloadSize_add params
  have hplain : m.Fits params := ⟨h.range, by omega⟩
  unfold addHistory
  rw [hdata]
  dsimp only
  split
  · rename_i hspace
    cases hcreate : createNrtm hold (nrtmMaxCount (params.maxPayloadSize - data.length)) with
    | none => exact hplain
    | some p =>
      obtain ⟨map, rfl, hmap⟩ := createNrtm_spec hcreate hspace.2
      have hfits := nrtmMaxCount_fits hspace.2
      have hprofiles := add_profiles (p := .nrtm map) h.fresh
      refine ⟨fun p hp => ?_, ?_⟩
      · rw [hprofiles, mem_append, mem_singleton] at hp
        rcases hp with hp | rfl
        · exact h.range p hp
        · trivial
      · have hadd : (m.add (.nrtm map)).room = m.room + (9 + 16 * map.length) := by
          unfold room
          rw [hprofiles, map_append, sum_append, Nat.add_assoc]
          rfl
        show (m.add (.nrtm map)).room ≤ _
        omega
  · exact hplain

def CallInv (params : Parameters) (c : SendCall) : Prop :=
  c.fragmented = false → c.p.length ≤ params.maxPayloadSize

theorem callInv_start (data : List UInt8) : CallInv params (SendCall.start params data) := by
  intro h
  have hle : ¬params.maxPayloadSize < data.length := of_decide_eq_false h
  show data.length ≤ _
  omega

/-- A turn of `Fragment::send`. -/
theorem part_next {c c' : SendCall} {sn : Nat} {m : Message} (hc : CallInv params c)
    (h : c.next params sn = some (m, c')) : Part params m ∧ CallInv params c' := by
  have hsize := maxPayloadSize_add params
  have hmax := params.maxPacketSize.toNat_lt
  have hpos : 0 < params.maxPayloadSize := by
    have hlt := params.service_lt
    unfold maxServiceSize at hlt
    omega
  unfold SendCall.next at h
  dsimp only at h
  split at h
  · cases h
  · rename_i hroom
    cases h
    refine ⟨?_, fun hwhole => ?_⟩
    · cases hcut : c.fragmented with
      | true =>
        have hpart : c.partSize params ≤ params.maxPayloadSize := by
          unfold SendCall.partSize
          rw [hcut]
          have hmod := Nat.mod_lt c.size hpos
          simp only [if_true]
          split <;> omega
        have hlen : (c.p.take (c.partSize params)).length ≤ params.maxPayloadSize := by
          rw [length_take]
          omega
        generalize c.p.take (c.partSize params) = data at hlen
        refine ⟨fun p hp => ?_, ⟨data, rfl, hlen, ?_⟩, rfl⟩
        · have hcases : p = .sn (.ofNat sn) ∨ p = .part c.i c.packets (.ofNat c.size) ∨
              p = .data data := by
            have hp' : p ∈ [.sn (.ofNat sn), .part c.i c.packets (.ofNat c.size), .data data] := hp
            simpa using hp'
          rcases hcases with rfl | rfl | rfl
          · trivial
          · trivial
          · show data.length < 2 ^ 16
            omega
        · show 4 + (19 + (27 + (5 + data.length + 0))) ≤ _
          omega
      | false =>
        have hlen := hc hcut
        refine ⟨fun p hp => ?_, ⟨c.p, rfl, hlen, ?_⟩, rfl⟩
        · have hcases : p = .data c.p ∨ p = .sn (.ofNat sn) := by
            have hp' : p ∈ [Profile.data c.p, .sn (.ofNat sn)] := hp
            simpa using hp'
          rcases hcases with rfl | rfl
          · show c.p.length < 2 ^ 16
            omega
          · trivial
        · show 4 + (5 + c.p.length + (19 + 0)) ≤ _
          omega
    · have hlen := hc hwhole
      rw [length_drop]
      omega

theorem fits_answer {queue : Table Nat Message}
    (h : ∀ e ∈ queue, e.2.Fits params) (sn : UInt64) : (answer queue sn).Fits params := by
  unfold answer
  cases hfind : queue.find sn.toNat with
  | some m => exact h _ (Table.mem_of_find hfind)
  | none =>
    have hsize := maxPayloadSize_add params
    refine ⟨fun p hp => ?_, ?_⟩
    · have hp' : p ∈ [Profile.sn sn, .noData] := hp
      rcases mem_cons.mp hp' with rfl | hp'
      · trivial
      · rw [mem_singleton.mp hp']
        trivial
    · show 4 + (19 + (5 + 0)) ≤ _
      omega

/-! ## Runs -/

/-- Every message below `Acknowledge` fits into a packet. -/
structure Stack.Inv (params : Parameters) (s : Stack) : Prop where
  calls : ∀ c ∈ s.calls, CallInv params c
  queue : ∀ e ∈ s.queue, e.2.Fits params
  passing : ∀ m ∈ s.passing, m.Fits params
  held : ∀ m ∈ s.held, m.Fits params
  sent : ∀ m ∈ s.sent, m.Fits params

theorem Stack.Inv.pass {s : Stack} (h : s.Inv params) {m : Message} (hm : Part params m) :
    (s.pass params m).Inv params := by
  have hfits := fits_part hm s.hold
  unfold Stack.pass
  refine ⟨h.calls, fun e he => ?_, fun x hx => ?_, h.held, h.sent⟩
  · dsimp only at he
    split at he
    · unfold Table.bind at he
      split at he
      · exact h.queue e he
      · rcases mem_append.mp he with he | he
        · exact h.queue e he
        · rw [mem_singleton.mp he]
          exact hfits
    · exact h.queue e he
  · rcases mem_append.mp hx with hx | hx
    · exact h.passing x hx
    · rw [mem_singleton.mp hx]
      exact hfits

theorem mem_linkSend {held : Option Message} {m x : Message} {fate : Fate}
    (h : x ∈ (linkSend held m fate).1 ∨ x ∈ (linkSend held m fate).2) : x = m ∨ x ∈ held := by
  cases fate with
  | direct =>
    rcases h with h | h
    · exact .inr h
    · exact .inl (mem_singleton.mp h)
  | dropped =>
    rcases h with h | h
    · exact .inr h
    · exact absurd h not_mem_nil
  | sent =>
    rcases h with h | h
    · cases h
    · simpa [linkSend] using h
  | kept =>
    cases held with
    | none => simpa [linkSend, eq_comm] using h
    | some k => simpa [linkSend, eq_comm] using h

theorem Stack.Inv.link {s : Stack} (h : s.Inv params) {m : Message} (hm : m ∈ s.passing) (i : Nat)
    (fate : Fate) : Stack.Inv params { s with
      passing := s.passing.eraseIdx i
      held := (linkSend s.held m fate).1
      sent := s.sent ++ (linkSend s.held m fate).2 } := by
  have hall : ∀ x, x ∈ (linkSend s.held m fate).1 ∨ x ∈ (linkSend s.held m fate).2 →
      x.Fits params := by
    intro x hx
    rcases mem_linkSend hx with rfl | hx
    · exact h.passing x hm
    · exact h.held x hx
  refine ⟨h.calls, h.queue, fun x hx => h.passing x (mem_of_mem_eraseIdx hx),
    fun x hx => hall x (.inl hx), fun x hx => ?_⟩
  rcases mem_append.mp hx with hx | hx
  · exact h.sent x hx
  · exact hall x (.inr hx)

/-- More messages on their way. -/
theorem Stack.Inv.append {s : Stack} (h : s.Inv params) {ms : List Message}
    (hms : ∀ m ∈ ms, m.Fits params) (hold : Table Address AckQueue) : Stack.Inv params { s with
      hold := hold
      passing := s.passing ++ ms } := by
  refine ⟨h.calls, h.queue, fun x hx => ?_, h.held, h.sent⟩
  rcases mem_append.mp hx with hx | hx
  · exact h.passing x hx
  · exact hms x hx

theorem Stack.Inv.part {s s' : Stack} (h : s.Inv params) {i : Nat}
    (hpart : s.part params i = some s') : s'.Inv params := by
  obtain ⟨c, hc, hturn⟩ := bind_eq_some_iff.mp hpart
  split at hturn
  · cases hturn
  · obtain ⟨⟨m, c'⟩, hnext, rfl⟩ := map_eq_some_iff.mp hturn
    obtain ⟨hm, hcall⟩ := part_next (h.calls c (mem_of_getElem? hc)) hnext
    have hcalling : (s.calling i c').Inv params := by
      refine ⟨fun d hd => ?_, h.queue, h.passing, h.held, h.sent⟩
      rcases mem_or_eq_of_mem_set hd with hd | rfl
      · exact h.calls d hd
      · exact hcall
    exact hcalling.pass hm

/-- **A step** makes no message that is too long. -/
theorem Stack.Inv.step {nakTimeout : UInt64} (hpos : 0 < nrtmMaxCount params.maxPayloadSize)
    {s s' : Stack} {op : StackOp} (h : s.Inv params)
    (hstep : s.step params nakTimeout op = some s') : s'.Inv params := by
  cases op with
  | call data =>
    cases hstep
    refine ⟨fun c hc => ?_, h.queue, h.passing, h.held, h.sent⟩
    rcases mem_append.mp hc with hc | hc
    · exact h.calls c hc
    · rw [mem_singleton.mp hc]
      exact callInv_start data.bytes
  | part i => exact h.part hstep
  | receive hold =>
    cases hstep
    exact ⟨h.calls, h.queue, h.passing, h.held, h.sent⟩
  | track source =>
    obtain ⟨q, -, hq⟩ := bind_eq_some_iff.mp hstep
    obtain ⟨⟨q', naks⟩, htrack, rfl⟩ := map_eq_some_iff.mp hq
    refine h.append (fun m hm => ?_) _
    obtain ⟨p, hp, rfl⟩ := mem_map.mp hm
    exact fits_naks htrack p hp
  | history =>
    obtain rfl := some.inj hstep
    refine h.append (fun m hm => ?_) s.hold
    obtain ⟨p, hp, rfl⟩ := mem_map.mp hm
    exact fits_history hpos (mem_toList.mp hp)
  | nak sns =>
    cases hstep
    refine h.append (fun m hm => ?_) s.hold
    obtain ⟨sn, -, rfl⟩ := mem_map.mp hm
    exact fits_answer h.queue sn
  | expire sn =>
    cases hstep
    exact ⟨h.calls, fun e he => h.queue e (mem_filter.mp he).1, h.passing, h.held, h.sent⟩
  | link i fate =>
    obtain ⟨m, hm, rfl⟩ := map_eq_some_iff.mp hstep
    exact h.link (mem_of_getElem? hm) i fate

theorem Stack.inv_start : Stack.start.Inv params := by
  refine ⟨?_, ?_, ?_, ?_, ?_⟩ <;> intro x hx <;> cases hx

/-- **Every packet fits**, if there is room for one element of a history: the test in `send_`
never fails. -/
theorem packet_fits (P : Platform) (nakTimeout : UInt64)
    (hroom : 0 < nrtmMaxCount params.maxPayloadSize) {ops : List StackOp} {s : Stack}
    (h : run (Stack.step params nakTimeout) Stack.start ops = some s) {m m' : Message}
    (hm : m ∈ s.sent) (horder : m'.profiles.Perm m.profiles) :
    (packet P m').length ≤ params.maxPacketSize.toNat := by
  have hstep : ∀ (s : Stack) (op : StackOp) (s' : Stack), s.Inv params →
      s.step params nakTimeout op = some s' → s'.Inv params := fun _ _ _ hs hop => hs.step hroom hop
  have hinv := run_inv hstep Stack.inv_start h
  exact (hinv.sent m hm).packet horder P

end Stack

theorem sampleBytes_lt : [(1 : UInt8), 2, 3].length < 2 ^ 64 := by decide

/-- A source whose number is told behind three bytes of data, and a message that is lost. -/
def sampleOps : List StackOp :=
  [.receive [(⟨1, 2⟩, .ofNumber 7)], .call ⟨[1, 2, 3], sampleBytes_lt⟩, .part 0, .nak [1, 9],
    .link 0 .kept, .link 0 .sent, .link 0 .direct]

def sampleParameters : Parameters := ⟨100, by decide⟩

theorem packet_fits_sampleOps :
    ∃ s m, run (Stack.step sampleParameters 1) Stack.start sampleOps = some s ∧ m ∈ s.sent ∧
      (packet .plain m).length ≤ 100 := by
  have hlen : (run (Stack.step sampleParameters 1) Stack.start sampleOps).map
      (fun s => s.sent.length) = some 3 := by decide_cbv
  obtain ⟨s, hs, hsent⟩ := map_eq_some_iff.mp hlen
  have hmem := getElem_mem (l := s.sent) (n := 0) (by omega)
  exact ⟨s, _, hs, hmem, packet_fits .plain 1 (by decide_cbv) hs hmem (.refl _)⟩

end Atcd.Rmcast
