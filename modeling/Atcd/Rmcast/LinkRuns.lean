import Atcd.Rmcast.LinkLayout
/-!
# Round trips of the reliable multicast

A profile whose count comes out right is read back from where it was written. An `NRTM` of eight
members is read on into what is behind it: if nothing is, the reads fail and change nothing.

Results:
* `roundTrip_iff`: a message comes back from its packet if the host writes little endian, its
  `NAK` has fewer than 8191 numbers and its `NRTM` fewer than 8 members, or at most 4096 and
  nothing behind it; in the order of the hash table, only if.
* `eight_members_lose_data`: the data behind a history of eight members does not come back.
-/
namespace Atcd.Rmcast

open Atcd.Core Atcd.Cdr Atcd.Cdr.OutputCDR Atcd.Cdr.InputCDR List Option Profile Nat

variable {P : Platform}

/-! ## Reading what was written -/

def Ahead (swap : Bool) (is : InputCDR) (segs : List (Seg UInt8)) : Prop :=
  ∃ pos bs, At swap is pos bs ∧ Laid pos segs bs

section Reading

variable {swap : Bool} {is : InputCDR} {segs : List (Seg UInt8)} {mem : Memory}

theorem Ahead.good (h : Ahead swap is segs) : is.goodBit = true := by
  obtain ⟨pos, bs, hat, -⟩ := h
  exact hat.good

theorem Ahead.scalar {k : Kind} {x : k.Val} (h : Ahead swap is (seg P swap k x :: segs)) :
    ∃ is', is.readScalar P k = (some x, is') ∧ Ahead swap is' segs := by
  obtain ⟨pos, bs, hat, hlaid⟩ := h
  obtain ⟨cs, ds, rfl, hcs, hds⟩ := Laid.append_inv [seg P swap k x] hlaid
  obtain ⟨hv, hat'⟩ := readScalar_reads (P := P) swap k x is pos cs ds hat hcs
  exact ⟨_, Prod.ext hv rfl, _, ds, hat', hds⟩

theorem Ahead.take {k : Kind} {x : k.Val} (h : Ahead swap is (seg P swap k x :: segs)) (old : k.Val) :
    ∃ is', take P k old is = (x, is') ∧ Ahead swap is' segs := by
  obtain ⟨is', heq, h'⟩ := h.scalar
  refine ⟨is', ?_, h'⟩
  rw [Rmcast.take, heq]
  rfl

theorem take?_of_scalar {is' : InputCDR} {k : Kind} {x : k.Val} (h : is.readScalar P k = (some x, is'))
    (hgood : is'.goodBit = true) :
    take? P k is = (some x, is') := by
  rw [Rmcast.take?, h]
  dsimp only
  rw [if_pos hgood]

theorem Ahead.take? {k : Kind} {x : k.Val} (h : Ahead swap is (seg P swap k x :: segs)) :
    ∃ is', take? P k is = (some x, is') ∧ Ahead swap is' segs := by
  obtain ⟨is', heq, h'⟩ := h.scalar
  exact ⟨is', take?_of_scalar heq h'.good, h'⟩

theorem Ahead.charArray {buf : List UInt8} (h : Ahead swap is (⟨1, buf⟩ :: segs)) (hne : buf ≠ []) {n : UInt32}
    (hn : n.toNat = buf.length) : ∃ is', is.readCharArray P n = (some buf, is') ∧ Ahead swap is' segs := by
  obtain ⟨pos, bs, hat, hlaid⟩ := h
  obtain ⟨cs, ds, rfl, hcs, hds⟩ := Laid.append_inv [⟨1, buf⟩] hlaid
  have hreads := readArray_reads (P := P) swap .char buf hne n hn
  rw [flatMap_wire_char] at hreads
  obtain ⟨hv, hat'⟩ := hreads is pos cs ds hat hcs
  have hle : buf.length ≤ is.length := by
    obtain ⟨fill, rest, rfl, -, hnil⟩ := hcs.cons_inv
    rw [hat.length_eq]
    simp only [length_append]
    omega
  have hmem : buf.flatMap (Kind.toMem P.endian .char) = buf := flatMap_singleton' buf
  rw [hmem] at hv
  refine ⟨_, ?_, _, ds, hat', hds⟩
  rw [readCharArray, if_neg (by omega)]
  exact Prod.ext hv rfl

theorem Ahead.sns (sns : List UInt64) (h : Ahead swap is (sns.map (seg P swap .ulonglong) ++ segs)) (sn : UInt64) :
    ∃ is', readSns P sns.length sn is = (sns, is') ∧ Ahead swap is' segs := by
  induction sns generalizing is sn with
  | nil => exact ⟨is, rfl, h⟩
  | cons x sns ih =>
    obtain ⟨is₁, heq, h₁⟩ := h.take sn
    obtain ⟨is₂, hrest, h₂⟩ := ih h₁ x
    refine ⟨is₂, ?_, h₂⟩
    simp only [length_cons, readSns, heq, hrest]

/-- The members of an `NRTM`, with more of them to be read. -/
theorem Ahead.members (map : List (Address × UInt64)) (acc : Table Address UInt64) (more : Nat)
    (h : Ahead swap is (map.flatMap (memberSegs P swap) ++ segs)) (hnodup : Table.keys (acc ++ map) |>.Nodup)
    (sn : UInt64) (addr : Address) (haddr : map = [] → addr ∈ acc.keys ∨ more = 0) :
    ∃ sn' addr' is', readMembers P (map.length + more) sn addr acc is = readMembers P more sn' addr' (acc ++ map) is' ∧
      Ahead swap is' segs ∧ (addr' ∈ Table.keys (acc ++ map) ∨ more = 0) := by
  induction map generalizing is sn addr acc with
  | nil =>
    rw [append_nil, length_nil, Nat.zero_add]
    exact ⟨sn, addr, is, rfl, h, haddr rfl⟩
  | cons e map ih =>
    obtain ⟨e, n⟩ := e
    obtain ⟨is₁, hsn, h₁⟩ := h.take sn
    obtain ⟨is₂, hip, h₂⟩ := h₁.take addr.ip
    obtain ⟨is₃, hport, h₃⟩ := h₂.take addr.port
    have hnew : Table.find acc e = none := by
      rw [Table.find_eq_none]
      intro hmem
      rw [Table.keys, map_append, nodup_append] at hnodup
      exact hnodup.2.2 e hmem e (by simp) rfl
    have hbind : Table.bind acc e n = acc ++ [(e, n)] := by
      rw [Table.bind, hnew, isSome_none, if_neg Bool.false_ne_true]
    have happend : acc ++ [(e, n)] ++ map = acc ++ (e, n) :: map := by rw [append_assoc, singleton_append]
    have hlast : e ∈ Table.keys (acc ++ [(e, n)]) := by simp [Table.keys]
    obtain ⟨sn', addr', is', heq, h', hmem⟩ := ih (acc ++ [(e, n)]) h₃ (happend ▸ hnodup) n e fun _ => .inl hlast
    rw [happend] at heq hmem
    refine ⟨sn', addr', is', ?_, h', hmem⟩
    have hlen : ((e, n) :: map).length + more = (map.length + more) + 1 := by
      rw [length_cons]
      omega
    rw [hlen, readMembers]
    simp only [hsn, hip, hport, hbind]
    exact heq

/-- The counts in the headers are right. -/
def Clean : Profile → Prop
  | .fromAddress _ => False
  | .toAddress _ => False
  | .data buf => buf.length < 2 ^ 16
  | .nak _ sns => sns.length < 8191
  | .nrtm map => map.length < 8 ∧ (Table.keys map).Nodup
  | _ => True

theorem readData_ahead (mem : Memory) {buf : List UInt8} (hlt : buf.length < 2 ^ 16)
    (h : Ahead swap is ((Profile.data buf).bodySegs P swap ++ segs)) :
    ∃ is', readData P mem (Profile.data buf).size is = (.data buf, is') ∧ Ahead swap is' segs := by
  have hsize : (data buf).size.toNat = buf.length := by
    rw [toNat_size, bodySize_data hlt, mod_eq_of_lt hlt]
  by_cases hne : buf = []
  · subst hne
    exact ⟨is, rfl, h⟩
  · have hsize0 : (data buf).size ≠ 0 := by
      intro h0
      rw [h0] at hsize
      exact hne (length_eq_zero_iff.mp hsize.symm)
    rw [bodySegs, if_neg hne] at h
    obtain ⟨is', heq, h'⟩ := h.charArray (P := P) hne (n := (data buf).size.toUInt32) hsize
    refine ⟨is', ?_, h'⟩
    rw [readData, if_pos hsize0, heq]
    rfl

/-- **Profiles.** A profile is read back from its body. -/
theorem readProfile_ahead (mem : Memory) {p : Profile} (hp : Clean p) (h : Ahead swap is (p.bodySegs P swap ++ segs)) :
    ∃ is', readProfile P mem p.id p.size is = some (p, is') ∧ Ahead swap is' segs := by
  cases p with
  | fromAddress a => exact hp.elim
  | toAddress a => exact hp.elim
  | data buf =>
    obtain ⟨is', heq, h'⟩ := readData_ahead mem hp h
    exact ⟨is', congrArg some heq, h'⟩
  | sn n =>
    obtain ⟨is', heq, h'⟩ := h.take (mem.value .ulonglong)
    refine ⟨is', ?_, h'⟩
    change some (readSn P mem is) = _
    rw [readSn, heq]
  | nak a sns =>
    obtain ⟨is₁, hip, h₁⟩ := h.take 0
    obtain ⟨is₂, hport, h₂⟩ := h₁.take 0
    obtain ⟨is₃, hsns, h₃⟩ := Ahead.sns sns h₂ 0
    refine ⟨is₃, ?_, h₃⟩
    change some (readNak P (nak a sns).size is) = _
    simp only [readNak, hip, hport, snCount_nak a hp, hsns]
  | nrtm map =>
    obtain ⟨hlt, hnodup⟩ := hp
    obtain ⟨sn', addr', is', heq, h', -⟩ := Ahead.members map [] 0 h hnodup 0 ⟨0, 0⟩ fun _ => .inr rfl
    refine ⟨is', ?_, h'⟩
    change some (readNrtm P (nrtm map).size is) = _
    rw [Nat.add_zero] at heq
    rw [readNrtm, blockCount_nrtm hlt, heq]
    rfl
  | noData => exact ⟨is, rfl, h⟩
  | part num of totalSize =>
    obtain ⟨is₁, hnum, h₁⟩ := h.take (mem.value .ulong)
    obtain ⟨is₂, hof, h₂⟩ := h₁.take (mem.value .ulong)
    obtain ⟨is₃, htotal, h₃⟩ := h₂.take (mem.value .ulonglong)
    refine ⟨is₃, ?_, h₃⟩
    change some (readPart P mem is) = _
    simp only [readPart, hnum, hof, htotal]

theorem recvLoop_ahead (mem : Memory) {p : Profile} (hp : Clean p) (fuel : Nat) (m : Message)
    (h : Ahead swap is (p.segs P swap ++ segs)) :
    ∃ is', recvLoop P mem (fuel + 1) is m = recvLoop P mem fuel is' (m.add p) ∧ Ahead swap is' segs := by
  obtain ⟨is₁, hid, h₁⟩ := h.take?
  obtain ⟨is₂, hsize, h₂⟩ := h₁.take?
  obtain ⟨is₃, hbody, h₃⟩ := readProfile_ahead mem hp h₂
  refine ⟨is₃, ?_, h₃⟩
  rw [recvLoop]
  simp only [hid, hsize, hbody]

/-- **The loop** over profiles with the right counts. -/
theorem recvLoop_profiles (mem : Memory) (ps : List Profile) (hps : ∀ p ∈ ps, Clean p) (fuel : Nat) (m : Message)
    (h : Ahead swap is (ps.flatMap (Profile.segs P swap) ++ segs)) :
    ∃ is', recvLoop P mem (ps.length + fuel) is m = recvLoop P mem fuel is' (ps.foldl Message.add m) ∧
        Ahead swap is' segs := by
  induction ps generalizing is m with
  | nil =>
    rw [length_nil, Nat.zero_add]
    exact ⟨is, rfl, h⟩
  | cons p ps ih =>
    rw [flatMap_cons, append_assoc] at h
    obtain ⟨is₁, heq, h₁⟩ := recvLoop_ahead mem (hps p mem_cons_self) (ps.length + fuel) m h
    obtain ⟨is₂, hrest, h₂⟩ := ih (fun q hq => hps q (mem_cons_of_mem _ hq)) (m.add p) h₁
    refine ⟨is₂, ?_, h₂⟩
    have hlen : (p :: ps).length + fuel = ps.length + fuel + 1 := by
      rw [length_cons]
      omega
    rw [hlen, heq, hrest]
    rfl

end Reading

/-! ## The end of the packet -/

section AtEnd

variable {is : InputCDR} {mem : Memory}

def Exhausted (is : InputCDR) : Prop := is.start.rdPtr = is.start.wrPtr

theorem Ahead.exhausted {swap : Bool} (h : Ahead swap is []) : Exhausted is := by
  obtain ⟨pos, bs, hat, hlaid⟩ := h
  obtain rfl := hlaid.nil_inv
  have hlen := hat.length_eq
  have hle := hat.wf.rd_le
  unfold InputCDR.length MessageBlock.length at hlen
  unfold Exhausted
  rw [length_nil] at hlen
  omega

theorem Exhausted.length (h : Exhausted is) : is.length = 0 := by
  unfold InputCDR.length MessageBlock.length
  rw [h, Nat.sub_self]

theorem Exhausted.scalar (h : Exhausted is) {k : Kind} (hk : Word k) :
    ∃ is', is.readScalar P k = (none, is') ∧ Exhausted is' ∧ is'.goodBit = false := by
  have hp : ∀ k : Kind, (is.readPrim P k.size k.align) = (none, is.bad) := by
    intro k
    have hpos := k.size_pos
    rw [readPrim, InputCDR.adjust]
    have hle : ¬ alignBinary (is.start.base + is.start.rdPtr) k.align + k.size ≤ is.start.base + is.start.wrPtr := by
      rw [alignBinary_eq k.isAlign, ← h]
      omega
    simp only [if_neg hle]
    rfl
  have hscalar : is.readScalar P k = asKind P k (is.readPrim P k.size k.align) := by
    rcases hk with rfl | rfl | rfl
    · rfl
    · rfl
    · rfl
  refine ⟨is.bad, ?_, h, rfl⟩
  rw [hscalar, hp]
  rfl

theorem Exhausted.take (h : Exhausted is) {k : Kind} (hk : Word k) (old : k.Val) :
    ∃ is', Rmcast.take P k old is = (old, is') ∧ Exhausted is' := by
  obtain ⟨is', heq, h', -⟩ := h.scalar (P := P) hk
  refine ⟨is', ?_, h'⟩
  rw [Rmcast.take, heq]
  rfl

theorem Exhausted.take? (h : Exhausted is) {k : Kind} (hk : Word k) :
    ∃ is', Rmcast.take? P k is = (none, is') ∧ Exhausted is' := by
  obtain ⟨is', heq, h', hbad⟩ := h.scalar (P := P) hk
  refine ⟨is', ?_, h'⟩
  rw [Rmcast.take?, heq]
  dsimp only
  rw [hbad, if_neg Bool.false_ne_true]

theorem Exhausted.recvLoop (mem : Memory) (h : Exhausted is) (fuel : Nat) (m : Message) :
    ∃ is', Rmcast.recvLoop P mem (fuel + 1) is m = some (m, is') ∧ Exhausted is' := by
  obtain ⟨is', heq, h'⟩ := h.take? (P := P) (.inl rfl)
  refine ⟨is', ?_, h'⟩
  rw [Rmcast.recvLoop]
  simp only [heq]

/-- Members that are not there repeat the last one. -/
theorem Exhausted.members (h : Exhausted is) (n : Nat) (sn : UInt64) (addr : Address) (map : Table Address UInt64)
    (haddr : addr ∈ map.keys ∨ n = 0) : ∃ is', readMembers P n sn addr map is = (map, is') ∧ Exhausted is' := by
  induction n generalizing is with
  | zero => exact ⟨is, rfl, h⟩
  | succ n ih =>
    have hmem : addr ∈ map.keys := haddr.resolve_right (succ_ne_zero n)
    obtain ⟨is₁, hsn, h₁⟩ := h.take (P := P) (.inr (.inr rfl)) sn
    obtain ⟨is₂, hip, h₂⟩ := h₁.take (P := P) (.inr (.inl rfl)) addr.ip
    obtain ⟨is₃, hport, h₃⟩ := h₂.take (P := P) (.inl rfl) addr.port
    obtain ⟨is₄, heq, h₄⟩ := ih h₃ (.inl hmem)
    have hbound : map.bind addr sn = map := by
      rw [Table.bind, if_pos (isSome_iff_ne_none.mpr (Table.mem_keys_iff.mp hmem))]
    refine ⟨is₄, ?_, h₄⟩
    rw [readMembers]
    simp only [hsn, hip, hport]
    rw [hbound]
    exact heq

/-- **The last profile.** The members that are counted twice are read behind the end. -/
theorem readNrtm_last {swap : Bool} {map : List (Address × UInt64)} (h : 8 ≤ map.length) (hle : map.length ≤ 4096)
    (hnodup : (Table.keys map).Nodup) (hahead : Ahead swap is ((Profile.nrtm map).bodySegs P swap)) :
    ∃ is', readNrtm P (Profile.nrtm map).size is = (.nrtm map, is') ∧ Exhausted is' := by
  obtain ⟨more, hmore⟩ := le.dest (Nat.le_of_lt (lt_blockCount_nrtm h hle))
  rw [← append_nil ((nrtm map).bodySegs P swap)] at hahead
  obtain ⟨sn', addr', is₁, heq, h₁, hmem⟩ := Ahead.members map [] more hahead hnodup 0 ⟨0, 0⟩ fun hnil => by
    rw [hnil, length_nil] at h
    omega
  obtain ⟨is₂, hrest, h₂⟩ := Exhausted.members (P := P) h₁.exhausted more sn' addr' map hmem
  refine ⟨is₂, ?_, h₂⟩
  rw [readNrtm, ← hmore, heq, nil_append, hrest]

end AtEnd

/-! ## Sufficiency -/

section Whole

variable {m : Message} {mem : Memory} {addr self : Address}

/-- The messages the link sends: the addresses are added at reception, and lengths are those of
the machine. -/
structure Sendable (m : Message) : Prop where
  own : ∀ p ∈ m.profiles, p.id ≠ Profile.fromId ∧ p.id ≠ Profile.toId
  data : ∀ buf, .data buf ∈ m.profiles → buf.length < 2 ^ 16
  members : ∀ map, .nrtm map ∈ m.profiles → (Table.keys map).Nodup
  size : ∀ p ∈ m.profiles, p.bodySize < 2 ^ 64

/-- The host writes little endian, and both counts are found again. -/
structure Countable (P : Platform) (m : Message) : Prop where
  order : P.swapOnWrite = true ∨ P.endian = .little
  nak : ∀ a sns, .nak a sns ∈ m.profiles → sns.length < 8191
  nrtm : ∀ map, .nrtm map ∈ m.profiles →
    map.length < 8 ∨ map.length ≤ 4096 ∧ m.profiles.getLast? = some (.nrtm map)

/-- The packet as `recv` sees it. -/
theorem istream_at (P : Platform) (data : List UInt8) : At (Swapped P) (istream P data 1) 0 data := by
  refine ⟨⟨zero_le _, Nat.le_refl _⟩, rfl, rfl, P.base_aligned 1, ?_⟩
  change (data.drop 0).take data.length = data
  rw [drop_zero, take_length]

theorem Sendable.inRange (h : Sendable m) : ∀ p ∈ m.profiles, p.InRange := by
  intro p hp
  cases p with
  | data buf => exact h.data buf hp
  | _ => trivial

theorem Ahead.length_le {swap : Bool} {is : InputCDR} (ps : List Profile)
    (h : Ahead swap is (ps.flatMap (Profile.segs P swap))) :
    ps.length ≤ is.length := by
  have hextent : ∀ (ps : List Profile) (p : Nat), p + ps.length ≤ extent p (ps.flatMap (segs P swap)) := by
    intro ps
    induction ps with
    | nil => exact fun p => Nat.le_refl p
    | cons q ps ih =>
      intro p
      have hlen : (seg P swap .ushort q.id).data.length = 2 := length_wire P swap .ushort q.id
      have hstep : p + 1 ≤ extent p (q.segs P swap) := by
        rw [segs, extent_cons, hlen]
        exact Nat.le_trans (by omega) (le_extent _ _)
      have hrest := ih (extent p (q.segs P swap))
      rw [flatMap_cons, extent_append, length_cons]
      omega
  obtain ⟨pos, bs, hat, hlaid⟩ := h
  have hpos := hextent ps pos
  rw [← hlaid.length_eq] at hpos
  rw [hat.length_eq]
  omega

open Rmcast.Message

theorem find_foldl_add (ps : List Profile) (hnodup : (ps.map Profile.id).Nodup) (m : Message)
    (hm : ∀ p ∈ ps, m.find p.id = none) (id : UInt16) :
    (ps.foldl Message.add m).find id = (ps.find? fun p => p.id = id).or (m.find id) := by
  induction ps generalizing m with
  | nil => rfl
  | cons p ps ih =>
    rw [map_cons, nodup_cons] at hnodup
    have hp := hm p mem_cons_self
    have hm' : ∀ q ∈ ps, (m.add p).find q.id = none := by
      intro q hq
      have hne : p.id ≠ q.id := fun he => hnodup.1 (he ▸ mem_map_of_mem hq)
      rw [find_add hp, if_neg hne]
      exact hm q (mem_cons_of_mem _ hq)
    rw [foldl_cons, ih hnodup.2 (m.add p) hm', find_add hp, find?_cons]
    by_cases hid : p.id = id
    · have hnone : (ps.find? fun q => q.id = id) = none := by
        rw [find?_eq_none]
        intro q hq hqid
        exact hnodup.1 (hid.trans (of_decide_eq_true hqid).symm ▸ mem_map_of_mem hq)
      rw [if_pos hid, hnone]
      simp [hid]
    · rw [if_neg hid]
      simp [hid]

def addressed (addr self : Address) : Message := (Message.empty.add (.fromAddress addr)).add (.toAddress self)

theorem find_addressed (addr self : Address) {id : UInt16} (hfrom : id ≠ Profile.fromId) (hto : id ≠ Profile.toId) :
    (addressed addr self).find id = none := by
  have hempty : empty.find (fromAddress addr).id = none := rfl
  have hne : (empty.add (.fromAddress addr)).find (toAddress self).id = none := by
    rfl
  rw [addressed, find_add hne, find_add hempty, if_neg (fun h => hto h.symm), if_neg (fun h => hfrom h.symm)]
  rfl

theorem same_received (h : Sendable m) (addr self : Address) :
    m.Same (m.profiles.foldl Message.add (addressed addr self)) := by
  intro id hfrom hto
  have hfind := find_foldl_add m.profiles m.nodup (addressed addr self)
    (fun p hp => find_addressed addr self (h.own p hp).1 (h.own p hp).2) id
  rw [find_addressed addr self hfrom hto, or_none] at hfind
  rw [hfind]
  change Rel Profile.Same (m.find id) (m.find id)
  cases m.find id with
  | none => exact .none
  | some p =>
    refine .some ?_
    cases p with
    | nrtm map => exact List.Perm.refl map
    | _ => rfl

/-- The receiver is at the first profile. -/
theorem recv_eq (h : Sendable m) (horder : P.swapOnWrite = true ∨ P.endian = .little) (mem : Memory)
    (addr self : Address) :
    ∃ is, recv P mem addr self (packet P m) = recvLoop P mem (is.length + 1) is (addressed addr self) ∧
      Ahead (Swapped P) is (m.profiles.flatMap (Profile.segs P (Swapped P))) := by
  have hswap : (P.swapOnWrite && Swapped P) = Swapped P := by
    rcases horder with h | h
    · rw [h, Bool.true_and]
    · have hfalse : Swapped P = false := by
        unfold Swapped Platform.byteOrder
        rw [h]
        rfl
      rw [hfalse, Bool.and_false]
  have hlaid := packet_laid P h.inRange
  rw [hswap] at hlaid
  have hahead : Ahead (Swapped P) (istream P (packet P m) 1) (m.segs P (Swapped P)) := ⟨0, _, istream_at P _, hlaid⟩
  obtain ⟨is, htake, his⟩ := hahead.take (mem.value .ulong)
  refine ⟨is, ?_, his⟩
  rw [recv, htake]
  rfl

theorem clean_of_countable (h : Sendable m) (hc : Countable P m) {p : Profile} (hp : p ∈ m.profiles)
    (hshort : ∀ map, p = .nrtm map → map.length < 8) : Clean p := by
  cases p with
  | fromAddress a => exact (h.own _ hp).1 rfl
  | toAddress a => exact (h.own _ hp).2 rfl
  | data buf => exact h.data buf hp
  | sn n => trivial
  | nak a sns => exact hc.nak a sns hp
  | nrtm map => exact ⟨hshort map rfl, h.members map hp⟩
  | noData => trivial
  | part num of totalSize => trivial

/-- **Sufficiency**, in any order. -/
theorem roundTrips_of_countable (h : Sendable m) (hc : Countable P m) : RoundTrips P m := by
  intro mem addr self
  obtain ⟨is, hrecv, hahead⟩ := recv_eq h hc.order mem addr self
  have hlen := hahead.length_le m.profiles
  by_cases hall : ∀ p ∈ m.profiles, Clean p
  · obtain ⟨k, hk⟩ := le.dest hlen
    rw [← append_nil (m.profiles.flatMap _)] at hahead
    obtain ⟨is', hloop, hahead'⟩ := recvLoop_profiles mem m.profiles hall (k + 1) (addressed addr self) hahead
    obtain ⟨is'', hend, hexhausted⟩ := hahead'.exhausted.recvLoop (P := P) mem k
      (m.profiles.foldl add (addressed addr self))
    refine ⟨_, is'', ?_, hexhausted.length, same_received h addr self⟩
    rw [hrecv, ← hk, Nat.add_assoc, hloop, hend]
  · -- an `NRTM` of 8 members or more, at the end
    obtain ⟨p, hp, hnot⟩ : ∃ p ∈ m.profiles, ¬ Clean p := by
      by_contra hnone
      exact hall fun p hp => by_contra fun hnot => hnone ⟨p, hp, hnot⟩
    obtain ⟨map, rfl, hlong⟩ : ∃ map, p = .nrtm map ∧ 8 ≤ map.length := by
      by_contra hnone
      refine hnot (clean_of_countable h hc hp fun map he => ?_)
      by_contra hge
      exact hnone ⟨map, he, Nat.le_of_not_lt hge⟩
    obtain ⟨hle, hlast⟩ := (hc.nrtm map hp).resolve_left (not_lt.mpr hlong)
    obtain ⟨pre, hpre⟩ := getLast?_eq_some_iff.mp hlast
    have hclean : ∀ p ∈ pre, Clean p := by
      intro p hmem
      refine clean_of_countable h hc (hpre ▸ mem_append_left _ hmem) ?_
      rintro map' rfl
      have hnodup := m.nodup
      rw [hpre, map_append, nodup_append] at hnodup
      exact (hnodup.2.2 nrtmId (mem_map_of_mem hmem) nrtmId
        (mem_map.mpr ⟨.nrtm map, mem_singleton_self _, rfl⟩) rfl).elim
    rw [hpre, length_append, length_singleton] at hlen
    obtain ⟨k, hk⟩ := le.dest hlen
    rw [hpre, flatMap_append, flatMap_singleton] at hahead
    obtain ⟨is₁, hloop, h₁⟩ := recvLoop_profiles mem pre hclean (k + 1 + 1) (addressed addr self) hahead
    obtain ⟨is₂, hid, h₂⟩ := h₁.take?
    obtain ⟨is₃, hsize, h₃⟩ := h₂.take?
    obtain ⟨is₄, hbody, h₄⟩ := readNrtm_last hlong hle (h.members map hp) h₃
    obtain ⟨is₅, hend, h₅⟩ := h₄.recvLoop (P := P) mem k ((pre.foldl add (addressed addr self)).add (.nrtm map))
    have hfuel : is.length + 1 = pre.length + (k + 1 + 1) := by omega
    have hsame := same_received h addr self
    rw [hpre, foldl_append] at hsame
    refine ⟨_, is₅, ?_, h₅.length, hsame⟩
    have hprofile : readProfile P mem nrtmId (nrtm map).size is₃ = some (.nrtm map, is₄) := congrArg some hbody
    have hid' : (nrtm map).id = nrtmId := rfl
    rw [hrecv, hfuel, hloop, recvLoop]
    simp only [hid, hsize, hid', hprofile]
    exact hend

end Whole

/-! ## What a read takes -/

section Taken

variable {is is' : InputCDR} {mem : Memory}

theorem adjust_cases (is : InputCDR) (size : Nat) {align : Nat} (ha : IsAlign align) :
    (∃ buf is', is.adjust size align = (some buf, is') ∧ is'.length + size ≤ is.length ∧ is'.goodBit = is.goodBit) ∨
      is.adjust size align = (none, is.bad) := by
  rw [InputCDR.adjust, alignBinary_eq ha]
  by_cases hle : is.start.base + is.start.rdPtr + gap (is.start.base + is.start.rdPtr) align + size ≤
      is.start.base + is.start.wrPtr
  · left
    rw [if_pos hle]
    refine ⟨_, _, rfl, ?_, rfl⟩
    change is.start.wrPtr -
        (is.start.base + is.start.rdPtr + gap (is.start.base + is.start.rdPtr) align + size - is.start.base)
      + size ≤ is.start.wrPtr - is.start.rdPtr
    omega
  · right
    rw [if_neg hle]

theorem readScalar_cases (P : Platform) (is : InputCDR) {k : Kind} (hk : Word k) :
    (∃ x is', is.readScalar P k = (some x, is') ∧ is'.length + k.size ≤ is.length ∧ is'.goodBit = is.goodBit) ∨
      is.readScalar P k = (none, is.bad) := by
  have hscalar : is.readScalar P k = asKind P k (is.readPrim P k.size k.align) := by
    rcases hk with rfl | rfl | rfl
    · rfl
    · rfl
    · rfl
  rw [hscalar, readPrim]
  rcases adjust_cases is k.size k.isAlign with ⟨buf, is', heq, hlen, hgood⟩ | heq
  · left
    simp only [heq]
    cases hswap : is'.doByteSwap with
    | false => exact ⟨_, is', rfl, hlen, hgood⟩
    | true => exact ⟨_, is', rfl, hlen, hgood⟩
  · right
    simp only [heq]
    rfl

theorem take_taken (P : Platform) (is : InputCDR) {k : Kind} (hk : Word k) (old : k.Val) :
    (take P k old is).2.length ≤ is.length ∧
      ((take P k old is).2.goodBit = true → (take P k old is).2.length + k.size ≤ is.length ∧ is.goodBit = true) := by
  rw [take]
  rcases readScalar_cases P is hk with ⟨x, is', heq, hlen, hgood⟩ | heq
  · rw [heq]
    exact ⟨by dsimp only; omega, fun h => ⟨hlen, hgood ▸ h⟩⟩
  · rw [heq]
    exact ⟨Nat.le_refl _, fun h => absurd h Bool.false_ne_true⟩

theorem take?_taken {k : Kind} (hk : Word k) {x : k.Val} (h : take? P k is = (some x, is')) :
    is'.length + k.size ≤ is.length := by
  unfold take? at h
  rcases readScalar_cases P is hk with ⟨y, is₁, heq, hlen, -⟩ | heq
  · rw [heq] at h
    dsimp only at h
    split at h
    · simp only [Prod.mk.injEq] at h
      rw [← h.2]
      exact hlen
    · simp only [Prod.mk.injEq, reduceCtorEq, false_and] at h
  · rw [heq] at h
    dsimp only at h
    split at h
    · simp only [Prod.mk.injEq, reduceCtorEq, false_and] at h
    · simp only [Prod.mk.injEq, reduceCtorEq, false_and] at h

theorem take?_bad {k : Kind} (hk : Word k) (h : is.goodBit = false) : (take? P k is).1 = none := by
  unfold take?
  rcases readScalar_cases P is hk with ⟨y, is₁, heq, -, hgood⟩ | heq
  · rw [heq]
    dsimp only
    rw [hgood, h, if_neg Bool.false_ne_true]
  · rw [heq]
    dsimp only
    split <;> rfl

theorem readCharArray_taken (P : Platform) (is : InputCDR) (n : UInt32) :
    (is.readCharArray P n).2.length ≤ is.length ∧
      ∀ x, (is.readCharArray P n).1 = some x → (is.readCharArray P n).2.length + x.length ≤ is.length := by
  have hone : IsAlign octetAlign := .inl rfl
  have hoct : octetSize = 1 := rfl
  unfold readCharArray
  by_cases hlong : n.toNat > is.length
  · rw [if_pos hlong]
    exact ⟨Nat.le_refl _, fun x h => by cases h⟩
  · rw [if_neg hlong, readArray]
    by_cases hzero : n = 0
    · rw [if_pos hzero]
      refine ⟨Nat.le_refl _, fun x h => ?_⟩
      cases h
      exact Nat.le_refl _
    · rw [if_neg hzero]
      rcases adjust_cases is (octetSize * n.toNat) hone with ⟨buf, is', heq, hlen, -⟩ | heq
      · rw [hoct, Nat.one_mul] at heq hlen
        simp only [hoct, Nat.one_mul, heq, or_true, if_true]
        refine ⟨Nat.le_trans (le_add_right _ _) hlen, fun x h => Nat.le_trans (Nat.add_le_add_left ?_ _) hlen⟩
        split at h
        · cases h
          rw [peek, length_take]
          exact Nat.min_le_left _ _
        · cases h
      · simp only [heq]
        exact ⟨Nat.le_refl _, fun x h => by cases h⟩

theorem readSns_taken (P : Platform) (n : Nat) (sn : UInt64) (is : InputCDR) :
    (readSns P n sn is).2.length ≤ is.length ∧ (readSns P n sn is).1.length = n := by
  induction n generalizing sn is with
  | zero => exact ⟨Nat.le_refl _, rfl⟩
  | succ n ih =>
    rw [readSns]
    have htake := (take_taken P is (.inr (.inr rfl)) sn).1
    obtain ⟨hlen, hcount⟩ := ih (take P .ulonglong sn is).1 (take P .ulonglong sn is).2
    exact ⟨Nat.le_trans hlen htake, congrArg succ hcount⟩

theorem length_bind_le (t : Table Address UInt64) (a : Address) (sn : UInt64) :
    (t.bind a sn).length ≤ t.length + 1 := by
  unfold Table.bind
  split
  · exact le_succ _
  · rw [length_append, length_singleton]

theorem readMembers_taken (P : Platform) (n : Nat) (sn : UInt64) (addr : Address) (map : Table Address UInt64)
    (is : InputCDR) :
    (readMembers P n sn addr map is).2.length ≤ is.length ∧
      ((readMembers P n sn addr map is).2.goodBit = true →
        (readMembers P n sn addr map is).2.length + 14 * n ≤ is.length ∧ is.goodBit = true) ∧
      (readMembers P n sn addr map is).1.length ≤ map.length + n := by
  induction n generalizing sn addr map is with
  | zero => exact ⟨Nat.le_refl _, fun h => ⟨Nat.le_refl _, h⟩, Nat.le_refl _⟩
  | succ n ih =>
    rw [readMembers]
    dsimp only
    obtain ⟨hlen₁, hgood₁⟩ := take_taken P is (.inr (.inr rfl)) sn
    generalize take P .ulonglong sn is = r₁ at hlen₁ hgood₁ ⊢
    obtain ⟨hlen₂, hgood₂⟩ := take_taken P r₁.2 (.inr (.inl rfl)) addr.ip
    generalize take P .ulong addr.ip r₁.2 = r₂ at hlen₂ hgood₂ ⊢
    obtain ⟨hlen₃, hgood₃⟩ := take_taken P r₂.2 (.inl rfl) addr.port
    generalize take P .ushort addr.port r₂.2 = r₃ at hlen₃ hgood₃ ⊢
    obtain ⟨hlen, hgood, hcount⟩ := ih r₁.1 ⟨r₂.1, r₃.1⟩ (map.bind ⟨r₂.1, r₃.1⟩ r₁.1) r₃.2
    have hbind := length_bind_le map ⟨r₂.1, r₃.1⟩ r₁.1
    refine ⟨by omega, fun h => ?_, by omega⟩
    obtain ⟨hrest, h₃⟩ := hgood h
    obtain ⟨htaken₃, h₂⟩ := hgood₃ h₃
    obtain ⟨htaken₂, h₁⟩ := hgood₂ h₂
    obtain ⟨htaken₁, h₀⟩ := hgood₁ h₁
    have hsizes : Kind.ulonglong.size = 8 ∧ Kind.ulong.size = 4 ∧ Kind.ushort.size = 2 := ⟨rfl, rfl, rfl⟩
    exact ⟨by omega, h₀⟩

theorem readProfile_taken {p : Profile} {id size : UInt16} (h : readProfile P mem id size is = some (p, is')) :
    p.id = id ∧ is'.length ≤ is.length := by
  unfold readProfile at h
  split at h
  · next hid =>
    simp only [readSn, some.injEq, Prod.mk.injEq] at h
    obtain ⟨rfl, rfl⟩ := h
    exact ⟨hid.symm, (take_taken P is (.inr (.inr rfl)) _).1⟩
  split at h
  · next hid =>
    unfold readData at h
    split at h
    · simp only [some.injEq, Prod.mk.injEq] at h
      obtain ⟨rfl, rfl⟩ := h
      exact ⟨hid.symm, (readCharArray_taken P is _).1⟩
    · simp only [some.injEq, Prod.mk.injEq] at h
      obtain ⟨rfl, rfl⟩ := h
      exact ⟨hid.symm, Nat.le_refl _⟩
  split at h
  · next hid =>
    simp only [readNak, some.injEq, Prod.mk.injEq] at h
    obtain ⟨rfl, rfl⟩ := h
    refine ⟨hid.symm, Nat.le_trans (readSns_taken P _ _ _).1 (Nat.le_trans (take_taken P _ (.inl rfl) _).1 ?_)⟩
    exact (take_taken P is (.inr (.inl rfl)) _).1
  split at h
  · next hid =>
    obtain ⟨rfl, rfl⟩ := h
    exact ⟨hid.symm, (readMembers_taken P _ _ _ _ is).1⟩
  split at h
  · next hid =>
    obtain ⟨rfl, rfl⟩ := h
    exact ⟨hid.symm, Nat.le_refl _⟩
  split at h
  · next hid =>
    simp only [readPart, some.injEq, Prod.mk.injEq] at h
    obtain ⟨rfl, rfl⟩ := h
    refine ⟨hid.symm,
        Nat.le_trans (take_taken P _ (.inr (.inr rfl)) _).1 (Nat.le_trans (take_taken P _ (.inr (.inl rfl)) _).1 ?_)⟩
    exact (take_taken P is (.inr (.inl rfl)) _).1
  · cases h

theorem recvLoop_cases {fuel : Nat} {m : Message} {r : Option (Message × InputCDR)}
    (h : recvLoop P mem (fuel + 1) is m = r) :
    (∃ is', r = some (m, is')) ∨ ∃ id size is₁, is₁.length + 4 ≤ is.length ∧
        (readProfile P mem id size is₁ = none ∧ r = none ∨
          ∃ p is₂, readProfile P mem id size is₁ = some (p, is₂) ∧ recvLoop P mem fuel is₂ (m.add p) = r) := by
  rw [recvLoop] at h
  have hushort : Kind.ushort.size = 2 := rfl
  split at h
  · exact .inl ⟨_, h.symm⟩
  · next id is₁ hid =>
    have h₁ := take?_taken (.inl rfl) hid
    split at h
    · exact .inl ⟨_, h.symm⟩
    · next size is₂ hsize =>
      have h₂ := take?_taken (.inl rfl) hsize
      refine .inr ⟨id, size, is₂, by omega, ?_⟩
      split at h
      · next hnone => exact .inl ⟨hnone, h.symm⟩
      · next p is₃ hp => exact .inr ⟨p, is₃, hp, h⟩

theorem find_add_of_some {m : Message} {p q : Profile} {id : UInt16} (h : m.find id = some q) :
    (m.add p).find id = some q := by
  cases hp : m.find p.id with
  | none =>
    rw [Message.find_add hp]
    by_cases hid : p.id = id
    · rw [← hid, hp] at h
      cases h
    · rw [if_neg hid, h]
  | some x =>
    have hne : ¬ m.find p.id = none := by
      rw [hp]
      exact some_ne_none x
    rw [Message.add, dif_neg hne, h]

/-- A profile that was read first stays. -/
theorem recvLoop_keeps {fuel : Nat} {m m' : Message} {q : Profile} {id : UInt16}
    (h : recvLoop P mem fuel is m = some (m', is')) (hq : m.find id = some q) : m'.find id = some q := by
  induction fuel generalizing is m with
  | zero => cases h
  | succ fuel ih =>
    rcases recvLoop_cases h with ⟨is₁, hstop⟩ | ⟨id', size, is₁, -, ⟨-, hnone⟩ | ⟨p, is₂, -, hrest⟩⟩
    · simp only [some.injEq, Prod.mk.injEq] at hstop
      rw [hstop.1]
      exact hq
    · cases hnone
    · exact ih hrest (find_add_of_some hq)

/-- **Data** that was received took its bytes from the packet, unless it is what was in memory. -/
theorem recvLoop_data {fuel : Nat} {m m' : Message} {buf : List UInt8} (h : recvLoop P mem fuel is m = some (m', is'))
    (hm : m.find Profile.dataId = none) (hm' : m'.find Profile.dataId = some (.data buf))
    (hmem : ∀ b ∈ buf.head?, mem.bytes 0 ≠ b) : 4 + buf.length ≤ is.length := by
  induction fuel generalizing is m with
  | zero => cases h
  | succ fuel ih =>
    rcases recvLoop_cases h with ⟨is₁, hstop⟩ | ⟨id, size, is₁, hlen, ⟨-, hnone⟩ | ⟨p, is₂, hp, hrest⟩⟩
    · simp only [some.injEq, Prod.mk.injEq] at hstop
      rw [hstop.1, hm] at hm'
      cases hm'
    · cases hnone
    · obtain ⟨hid, htaken⟩ := readProfile_taken hp
      by_cases hdata : p.id = dataId
      · have hfind : (m.add p).find dataId = some p := by
          rw [Message.find_add (hdata ▸ hm), if_pos hdata]
        rw [recvLoop_keeps hrest hfind, some.injEq] at hm'
        subst hm'
        rw [← hid, hdata] at hp
        have hread : readData P mem size is₁ = (.data buf, is₂) := some.inj hp
        unfold readData at hread
        split at hread
        · obtain ⟨-, hsome⟩ := readCharArray_taken P is₁ size.toUInt32
          next hne =>
          cases hx : (is₁.readCharArray P size.toUInt32).1 with
          | some x =>
            have hle := hsome x hx
            simp only [hx, getD_some, Prod.mk.injEq, data.injEq] at hread
            obtain ⟨rfl, rfl⟩ := hread
            omega
          | none =>
            simp only [hx, getD_none, Prod.mk.injEq, data.injEq] at hread
            obtain ⟨rfl, -⟩ := hread
            obtain ⟨n, hn⟩ : ∃ n, size.toNat = n + 1 := by
              refine ⟨size.toNat - 1, ?_⟩
              have hpos : size.toNat ≠ 0 := fun h0 => hne (UInt16.toNat_inj.mp h0)
              omega
            refine absurd rfl (hmem (mem.bytes 0) ?_)
            rw [hn, range_succ_eq_map]
            rfl
        · simp only [Prod.mk.injEq, data.injEq] at hread
          rw [← hread.1, length_nil]
          omega
      · have hfind : (m.add p).find dataId = none := by
          by_cases hnew : m.find p.id = none
          · rw [Message.find_add hnew, if_neg hdata, hm]
          · rw [Message.add, dif_neg hnew, hm]
        have hle := ih hrest hfind
        omega

end Taken

/-! ## Necessity -/

section Necessity

variable {m : Message} {mem : Memory} {addr self : Address}

/-- The hash table has four buckets, and the iterator takes one after the other.
mirrors ACE/protocols/ace/RMCast/Protocol.h:231-240 -/
def Message.HashOrder (m : Message) : Prop := (m.profiles.map fun p => p.id.toNat % 4).Pairwise (· ≤ ·)

theorem scalar_swapped {is : InputCDR} {pos : Nat} {bs : List UInt8} {segs : List (Seg UInt8)} {k : Kind} (hk : Word k)
    (x : k.Val) (hat : At true is pos bs) (hlaid : Laid pos (seg P false k x :: segs) bs) :
    ∃ is' pos' bs', is.readScalar P k = (some (k.ofMem P.endian (k.toMem P.endian x).reverse), is') ∧
      At true is' pos' bs' ∧ Laid pos' segs bs' := by
  obtain ⟨cs, ds, rfl, hcs, hds⟩ := Laid.append_inv [seg P false k x] hlaid
  have hlen : (k.toMem P.endian x).reverse.length = k.size := by
    rw [length_reverse]
    exact k.length_toMem P.endian x
  have hreads := readPrim_reads (P := P) true k.isSize k.isAlign hlen
  rw [if_pos rfl, reverse_reverse] at hreads
  obtain ⟨hv, hat'⟩ := hreads is pos cs ds hat hcs
  have hscalar : is.readScalar P k = asKind P k (is.readPrim P k.size k.align) := by
    rcases hk with rfl | rfl | rfl
    · rfl
    · rfl
    · rfl
  refine ⟨_, _, ds, ?_, hat', hds⟩
  rw [hscalar, asKind]
  exact Prod.ext (by rw [hv]; rfl) rfl

theorem readProfile_unknown {id size : UInt16} {is : InputCDR}
    (h : id ∉ [Profile.snId, Profile.dataId, Profile.nakId, Profile.nrtmId, Profile.noDataId, Profile.partId]) :
    readProfile P mem id size is = none := by
  simp only [mem_cons, not_mem_nil, or_false, not_or] at h
  obtain ⟨h₁, h₂, h₃, h₄, h₅, h₆⟩ := h
  rw [readProfile, if_neg h₁, if_neg h₂, if_neg h₃, if_neg h₄, if_neg h₅, if_neg h₆]

/-- No id is known with its bytes the other way round. -/
theorem reversed_unknown (p : Profile) : Kind.ofMem .big .ushort (Kind.toMem .big .ushort p.id).reverse ∉
    [Profile.snId, Profile.dataId, Profile.nakId, Profile.nrtmId, Profile.noDataId, Profile.partId] := by
  -- the list is searched: for all ids the instance of a finite type would be taken
  have hall : [Profile.fromId, Profile.toId, Profile.dataId, Profile.snId, Profile.nakId, Profile.nrtmId,
      noDataId, partId].all (fun id =>
        Kind.ofMem .big .ushort (Kind.toMem .big .ushort id).reverse ∉ [snId, dataId,
          nakId, nrtmId, noDataId, partId]) = true := by decide
  refine of_decide_eq_true (all_eq_true.mp hall p.id ?_)
  cases p <;> simp [Profile.id]

theorem swapped_of_order (h : ¬ (P.swapOnWrite = true ∨ P.endian = .little)) :
    P.swapOnWrite = false ∧ P.endian = .big ∧ Swapped P = true := by
  rw [not_or, Bool.not_eq_true] at h
  have hbig : P.endian = .big := by
    cases he : P.endian with
    | little => exact absurd he h.2
    | big => rfl
  refine ⟨h.1, hbig, ?_⟩
  unfold Swapped Platform.byteOrder
  rw [hbig]
  rfl

/-- An empty message is its size, in either byte order. -/
theorem roundTrips_of_nil (h : Sendable m) (hnil : m.profiles = []) : RoundTrips P m := by
  by_cases horder : P.swapOnWrite = true ∨ P.endian = .little
  · refine roundTrips_of_countable h ⟨horder, fun a sns hmem => ?_, fun map hmem => ?_⟩
    · rw [hnil] at hmem
      cases hmem
    · rw [hnil] at hmem
      cases hmem
  · intro mem addr self
    obtain ⟨hswap, -, hswapped⟩ := swapped_of_order horder
    have hlaid := packet_laid P h.inRange
    rw [hswap, Bool.false_and, Message.segs, hnil, flatMap_nil] at hlaid
    have hat := istream_at P (packet P m)
    rw [hswapped] at hat
    obtain ⟨is₁, pos₁, bs₁, heq, hat₁, hlaid₁⟩ := scalar_swapped (.inr (.inl rfl)) _ hat hlaid
    have hexhausted : Exhausted is₁ := Ahead.exhausted ⟨pos₁, bs₁, hat₁, hlaid₁⟩
    obtain ⟨is₂, hend, h₂⟩ := hexhausted.recvLoop (P := P) mem is₁.length (addressed addr self)
    refine ⟨addressed addr self, is₂, ?_, h₂.length, fun id hfrom hto => ?_⟩
    · rw [recv, take, heq]
      exact hend
    · rw [find_addressed addr self hfrom hto, Message.find_eq_none.mpr (by rw [hnil]; exact not_mem_nil)]
      exact .none

/-- **Byte order.** A big endian host that does not swap sends no known id. -/
theorem recv_swapped (h : Sendable m) (hne : m.profiles ≠ [])
    (horder : ¬ (P.swapOnWrite = true ∨ P.endian = .little)) :
    recv P mem addr self (packet P m) = none := by
  obtain ⟨hswap, hbig, hswapped⟩ := swapped_of_order horder
  have hlaid := packet_laid P h.inRange
  rw [hswap, Bool.false_and] at hlaid
  have hat := istream_at P (packet P m)
  rw [hswapped] at hat
  obtain ⟨p, ps, hps⟩ := exists_cons_of_ne_nil hne
  rw [Message.segs, hps] at hlaid
  obtain ⟨is₁, pos₁, bs₁, heq₁, hat₁, hlaid₁⟩ := scalar_swapped (.inr (.inl rfl)) _ hat hlaid
  obtain ⟨is₂, pos₂, bs₂, heq₂, hat₂, hlaid₂⟩ := scalar_swapped (.inl rfl) _ hat₁ hlaid₁
  obtain ⟨is₃, pos₃, bs₃, heq₃, hat₃, -⟩ := scalar_swapped (.inl rfl) _ hat₂ hlaid₂
  have hid := take?_of_scalar heq₂ hat₂.good
  have hsize := take?_of_scalar heq₃ hat₃.good
  rw [hbig] at hid
  have hfirst : (take P .ulong (mem.value .ulong) (istream P (packet P m) 1)).2 = is₁ := by
    rw [take, heq₁]
  rw [recv]
  simp only [hfirst]
  rw [recvLoop]
  simp only [hid, hsize, readProfile_unknown (reversed_unknown p)]

theorem find_of_mem {p : Profile} (hp : p ∈ m.profiles) : m.find p.id = some p := by
  cases hfind : m.find p.id with
  | none => exact absurd (mem_map_of_mem hp) (Message.find_eq_none.mp hfind)
  | some q =>
    have hmem : q ∈ m.profiles := mem_of_find?_eq_some hfind
    have hid : q.id = p.id := by simpa using find?_some hfind
    rw [inj_on_of_nodup_map m.nodup hmem hp hid]

/-- Behind profiles with the right counts, the next one is read from where it was written. -/
theorem received_next (h : Sendable m) (horder : P.swapOnWrite = true ∨ P.endian = .little)
    {pre post : List Profile} {p : Profile}
    (hsplit : m.profiles = pre ++ p :: post) (hpre : ∀ q ∈ pre, Clean q) {m' : Message} {is' : InputCDR}
    (hrecv : recv P mem addr self (packet P m) = some (m', is')) (hsame : m.Same m') :
    ∃ fuel m₁ is₁ q is₂,
        Ahead (Swapped P) is₁ (p.bodySegs P (Swapped P) ++ post.flatMap (Profile.segs P (Swapped P))) ∧
      readProfile P mem p.id p.size is₁ = some (q, is₂) ∧ recvLoop P mem fuel is₂ m₁ = some (m', is') ∧
      (∀ x ∈ post, m₁.find x.id = none) ∧ p.Same q := by
  obtain ⟨is, heq, hahead⟩ := recv_eq h horder mem addr self
  have hlen := hahead.length_le m.profiles
  rw [hsplit, length_append, length_cons] at hlen
  obtain ⟨k, hk⟩ := le.dest hlen
  rw [hsplit, flatMap_append, flatMap_cons] at hahead
  obtain ⟨is₀, hloop, h₀⟩ := recvLoop_profiles mem pre hpre (post.length + k + 1 + 1) (addressed addr self) hahead
  have hfuel : is.length + 1 = pre.length + (post.length + k + 1 + 1) := by omega
  rw [heq, hfuel, hloop, recvLoop] at hrecv
  obtain ⟨is₁, hid, h₁⟩ := h₀.take?
  obtain ⟨is₂, hsize, h₂⟩ := h₁.take?
  simp only [hid, hsize] at hrecv
  have hnodup := m.nodup
  rw [hsplit, map_append, map_cons, nodup_append, nodup_cons] at hnodup
  -- the profiles from here on are new to the message
  have hnew : ∀ x ∈ p :: post, (pre.foldl Message.add (addressed addr self)).find x.id = none := by
    intro x hx
    have hmem : x ∈ m.profiles := hsplit ▸ mem_append_right _ hx
    have hown := h.own x hmem
    have hfirst : ∀ q ∈ pre, (addressed addr self).find q.id = none := by
      intro q hq
      have hown := h.own q (hsplit ▸ mem_append_left _ hq)
      exact find_addressed addr self hown.1 hown.2
    rw [find_foldl_add pre hnodup.1 _ hfirst, find_addressed addr self hown.1 hown.2, or_none, find?_eq_none]
    intro q hq hqid
    exact hnodup.2.2 _ (mem_map_of_mem hq) x.id (mem_map_of_mem (f := Profile.id) hx) (of_decide_eq_true hqid)
  cases hp : readProfile P mem p.id p.size is₂ with
  | none =>
    simp only [hp] at hrecv
    cases hrecv
  | some r =>
    obtain ⟨q, is₃⟩ := r
    simp only [hp] at hrecv
    have hqid := (readProfile_taken hp).1
    have hfind := Message.find_add (hqid ▸ hnew p mem_cons_self)
    have hown := h.own p (hsplit ▸ mem_append_right _ mem_cons_self)
    have hrel := hsame p.id hown.1 hown.2
    have hq : ((pre.foldl Message.add (addressed addr self)).add q).find p.id = some q := by rw [hfind, if_pos hqid]
    rw [find_of_mem (hsplit ▸ mem_append_right _ mem_cons_self), recvLoop_keeps hrecv hq] at hrel
    refine ⟨_, _, is₂, q, is₃, h₂, hp, hrecv, fun x hx => ?_, ?_⟩
    · have hne : q.id ≠ x.id := fun he => hnodup.2.1.1 (hqid ▸ he ▸ mem_map_of_mem hx)
      rw [hfind, if_neg hne]
      exact hnew x (mem_cons_of_mem _ hx)
    · cases hrel with
      | some hrel => exact hrel

theorem HashOrder.around (h : m.HashOrder) {pre post : List Profile} {p : Profile}
    (hsplit : m.profiles = pre ++ p :: post) :
    (∀ q ∈ pre, q.id.toNat % 4 ≤ p.id.toNat % 4) ∧ ∀ q ∈ post, p.id.toNat % 4 ≤ q.id.toNat % 4 := by
  unfold Message.HashOrder at h
  rw [hsplit, map_append, map_cons, pairwise_append, pairwise_cons] at h
  refine ⟨fun q hq => ?_, fun q hq => ?_⟩
  · exact h.2.2 _ (mem_map_of_mem (f := fun p : Profile => p.id.toNat % 4) hq) _ mem_cons_self
  · exact h.2.1.1 _ (mem_map_of_mem (f := fun p : Profile => p.id.toNat % 4) hq)

theorem ids_around {pre post : List Profile} {p : Profile} (hsplit : m.profiles = pre ++ p :: post) :
    (∀ q ∈ pre, q.id ≠ p.id) ∧ (∀ q ∈ post, q.id ≠ p.id) ∧ (post.map Profile.id).Nodup := by
  have hnodup := m.nodup
  rw [hsplit, map_append, map_cons, nodup_append, nodup_cons] at hnodup
  refine ⟨fun q hq => ?_, fun q hq he => ?_, hnodup.2.1.2⟩
  · exact hnodup.2.2 _ (mem_map_of_mem hq) _ mem_cons_self
  · exact hnodup.2.1.1 (he ▸ mem_map_of_mem hq)

/-- **Numbers.** The count of 8191 numbers or more is wrong. -/
theorem nak_lt (h : Sendable m) (hash : m.HashOrder) (horder : P.swapOnWrite = true ∨ P.endian = .little)
    (hrt : RoundTrips P m) {a : Address} {sns : List UInt64} (hmem : .nak a sns ∈ m.profiles) : sns.length < 8191 := by
  obtain ⟨pre, post, hsplit⟩ := append_of_mem hmem
  obtain ⟨hpre, -⟩ := HashOrder.around hash hsplit
  obtain ⟨hids, -⟩ := ids_around hsplit
  have hclean : ∀ q ∈ pre, Clean q := by
    intro q hq
    have hbucket := hpre q hq
    have hown := h.own q (hsplit ▸ mem_append_left _ hq)
    cases q with
    | fromAddress a => exact hown.1 rfl
    | toAddress a => exact hown.2 rfl
    | data buf => exact absurd hbucket (by decide : ¬ 3 % 4 ≤ 5 % 4)
    | sn n => trivial
    | nak a' sns' => exact absurd rfl (hids (.nak a' sns') hq)
    | nrtm map => exact absurd hbucket (by decide : ¬ 6 % 4 ≤ 5 % 4)
    | noData => exact absurd hbucket (by decide : ¬ 7 % 4 ≤ 5 % 4)
    | part num of totalSize => trivial
  obtain ⟨m', is', hrecv, -, hsame⟩ := hrt ⟨fun k => k.ofMem .little [], fun _ => 0⟩ ⟨0, 0⟩ ⟨0, 0⟩
  obtain ⟨fuel, m₁, is₁, q, is₂, -, hread, -, -, hpq⟩ := received_next h horder hsplit hclean hrecv hsame
  have hnak : readNak P (nak a sns).size is₁ = (q, is₂) := some.inj hread
  rw [readNak] at hnak
  simp only [Prod.mk.injEq] at hnak
  have heq : nak a sns = q := hpq
  rw [← heq, nak.injEq] at hnak
  have hlen := congrArg List.length hnak.1.2
  rw [(readSns_taken P _ _ _).2] at hlen
  by_contra hge
  exact snCount_nak_ne a (Nat.le_of_not_lt hge) (h.size _ hmem) hlen

theorem extent_header (P : Platform) (swap : Bool) (q : Profile) (p : Nat) :
    ∃ p', p' ≤ p + 6 ∧ extent p (q.segs P swap) = extent p' (q.bodySegs P swap) := by
  have hlen : ∀ x : UInt16, (seg P swap .ushort x).data.length = 2 := fun x => length_wire P swap .ushort x
  have hgap : ∀ p : Nat, gap p 2 ≤ 1 := fun p => le_of_lt_succ (gap_lt p 2 (by decide))
  have h₁ := hgap p
  have h₂ := hgap (p + gap p 2 + 2)
  refine ⟨p + gap p 2 + 2 + gap (p + gap p 2 + 2) 2 + 2, by omega, ?_⟩
  rw [segs, extent_cons, extent_cons, hlen, hlen]
  rfl

theorem extent_data (P : Platform) (swap : Bool) (buf : List UInt8) (p : Nat) :
    extent p ((Profile.data buf).segs P swap) ≤ p + 6 + buf.length := by
  obtain ⟨p', hle, heq⟩ := extent_header P swap (.data buf) p
  rw [heq, bodySegs]
  split
  · exact Nat.le_trans hle (le_add_right _ _)
  · rw [extent_cons, extent_nil, gap_one]
    exact Nat.add_le_add_right hle _

theorem extent_noData (P : Platform) (swap : Bool) (p : Nat) : extent p (Profile.noData.segs P swap) ≤ p + 6 := by
  obtain ⟨p', hle, heq⟩ := extent_header P swap .noData p
  rw [heq]
  exact hle

/-- What can be behind an `NRTM` in the order of the hash table. -/
inductive Tail : List Profile → Prop
  | noData : Tail [.noData]
  | data (buf : List UInt8) : Tail [.data buf]
  | dataNoData (buf : List UInt8) : Tail [.data buf, .noData]
  | noDataData (buf : List UInt8) : Tail [.noData, .data buf]

theorem tail_of_ids {post : List Profile} (hids : ∀ q ∈ post, q.id = Profile.dataId ∨ q.id = Profile.noDataId)
    (hnodup : (post.map Profile.id).Nodup) (hne : post ≠ []) : Tail post := by
  have hcases : ∀ q ∈ post, (∃ buf, q = .data buf) ∨ q = .noData := by
    intro q hq
    cases q with
    | data buf => exact .inl ⟨buf, rfl⟩
    | noData => exact .inr rfl
    | fromAddress a => exact absurd (hids _ hq) (by decide : ¬ ((1 : UInt16) = 3 ∨ (1 : UInt16) = 7))
    | toAddress a => exact absurd (hids _ hq) (by decide : ¬ ((2 : UInt16) = 3 ∨ (2 : UInt16) = 7))
    | sn n => exact absurd (hids _ hq) (by decide : ¬ ((4 : UInt16) = 3 ∨ (4 : UInt16) = 7))
    | nak a sns => exact absurd (hids _ hq) (by decide : ¬ ((5 : UInt16) = 3 ∨ (5 : UInt16) = 7))
    | nrtm map => exact absurd (hids _ hq) (by decide : ¬ ((6 : UInt16) = 3 ∨ (6 : UInt16) = 7))
    | part num of totalSize => exact absurd (hids _ hq) (by decide : ¬ ((8 : UInt16) = 3 ∨ (8 : UInt16) = 7))
  match post, hne with
  | [x], _ =>
    rcases hcases x mem_cons_self with ⟨buf, rfl⟩ | rfl
    · exact .data buf
    · exact .noData
  | x :: y :: rest, _ =>
    have hx := hcases x mem_cons_self
    have hy := hcases y (mem_cons_of_mem _ mem_cons_self)
    rw [map_cons, map_cons, nodup_cons, nodup_cons, mem_cons, not_or] at hnodup
    obtain ⟨⟨hxy, hx'⟩, hy', -⟩ := hnodup
    have hrest : rest = [] := by
      cases rest with
      | nil => rfl
      | cons z rest =>
        rw [map_cons, mem_cons, not_or] at hx' hy'
        rcases hcases z (mem_cons_of_mem _ (mem_cons_of_mem _ mem_cons_self)) with ⟨bz, rfl⟩ | rfl
        · rcases hx with ⟨bx, rfl⟩ | rfl
          · exact absurd rfl hx'.1
          · rcases hy with ⟨b, rfl⟩ | rfl
            · exact absurd rfl hy'.1
            · exact absurd rfl hxy
        · rcases hx with ⟨bx, rfl⟩ | rfl
          · rcases hy with ⟨b, rfl⟩ | rfl
            · exact absurd rfl hxy
            · exact absurd rfl hy'.1
          · exact absurd rfl hx'.1
    subst hrest
    rcases hx with ⟨bx, rfl⟩ | rfl
    · rcases hy with ⟨b, rfl⟩ | rfl
      · exact absurd rfl hxy
      · exact .dataNoData bx
    · rcases hy with ⟨b, rfl⟩ | rfl
      · exact .noDataData b
      · exact absurd rfl hxy

/-- Memory that is not the data of a message. -/
def unlike (m : Message) : Memory where
  value := fun k => k.ofMem .little []
  bytes := fun _ => match m.data with
    | some (b :: _) => b + 1
    | _ => 0

theorem unlike_ne {buf : List UInt8} (h : m.find Profile.dataId = some (.data buf)) :
    ∀ b ∈ buf.head?, (unlike m).bytes 0 ≠ b := by
  intro b hb
  have hdata : m.data = some buf := by
    rw [Message.data, h]
  cases buf with
  | nil => cases hb
  | cons x buf =>
    obtain rfl : x = b := by simpa using hb
    change (match m.data with | some (b :: _) => b + 1 | _ => (0 : UInt8)) ≠ x
    rw [hdata]
    intro he
    have hnat := congrArg UInt8.toNat he
    rw [UInt8.toNat_add] at hnat
    have hone : (1 : UInt8).toNat = 1 := rfl
    omega

theorem recvLoop_bad {fuel : Nat} {is is' : InputCDR} {m' : Message} (hbad : is.goodBit = false)
    (h : recvLoop P mem fuel is m = some (m', is')) : m' = m := by
  cases fuel with
  | zero => cases h
  | succ fuel =>
    rw [recvLoop] at h
    have hnone := take?_bad (P := P) (.inl rfl : Word .ushort) hbad
    cases htake : take? P .ushort is with
    | mk x is₁ =>
      rw [htake] at hnone
      obtain rfl : x = none := hnone
      simp only [htake, some.injEq, Prod.mk.injEq] at h
      exact h.1.symm

/-- The profiles behind an `NRTM` do not come back from fewer bytes than they have. -/
theorem tail_lost {swap : Bool} {post : List Profile} (htail : Tail post) {is is₂ is' : InputCDR} {fuel : Nat}
    {m' m₁ : Message}
    (hpost : ∀ q ∈ post, q ∈ m.profiles) (hahead : Ahead swap is (post.flatMap (Profile.segs P swap)))
    (htaken : is₂.goodBit = true → is₂.length + 14 ≤ is.length)
    (hloop : recvLoop P (unlike m) fuel is₂ m₁ = some (m', is'))
    (hnew : ∀ q ∈ post, m₁.find q.id = none) : ¬ m.Same m' := by
  intro hsame
  have hdata := fun buf => extent_data P swap buf
  have hnoData := extent_noData P swap
  obtain ⟨pos, bs, hat, hlaid⟩ := hahead
  have hlen := hlaid.length_eq
  rw [← hat.length_eq] at hlen
  cases hgood : is₂.goodBit with
  | false =>
    -- the loop has ended
    have hend := recvLoop_bad hgood hloop
    subst hend
    have hmissing : ∀ q ∈ post, q.id ≠ fromId → q.id ≠ toId → False := by
      intro q hq hfrom hto
      have hrel := hsame q.id hfrom hto
      rw [find_of_mem (hpost q hq), hnew q hq] at hrel
      cases hrel
    cases htail with
    | noData => exact hmissing _ mem_cons_self (by decide) (by decide)
    | data buf => exact hmissing _ mem_cons_self (by decide : (3 : UInt16) ≠ 1) (by decide : (3 : UInt16) ≠ 2)
    | dataNoData buf => exact hmissing _ mem_cons_self (by decide : (3 : UInt16) ≠ 1) (by decide : (3 : UInt16) ≠ 2)
    | noDataData buf => exact hmissing _ mem_cons_self (by decide) (by decide)
  | true =>
    have hleft := htaken hgood
    -- the data needs its header and its bytes
    have hneeds : ∀ buf, .data buf ∈ post → 4 + buf.length ≤ is₂.length := by
      intro buf hmem
      have hfind := find_of_mem (hpost _ hmem)
      have hrel := hsame dataId (by decide) (by decide)
      change m.find dataId = _ at hfind
      rw [hfind] at hrel
      cases hfound : m'.find dataId with
      | none =>
        rw [hfound] at hrel
        cases hrel
      | some q =>
        rw [hfound] at hrel
        cases hrel with
        | some hrel =>
          have hq : data buf = q := hrel
          exact recvLoop_data hloop (hnew _ hmem) (hq ▸ hfound) (unlike_ne hfind)
    cases htail with
    | noData =>
      rw [flatMap_singleton] at hlen
      have hle := hnoData pos
      omega
    | data buf =>
      rw [flatMap_singleton] at hlen
      have hle := hdata buf pos
      have hneed := hneeds buf mem_cons_self
      omega
    | dataNoData buf =>
      rw [flatMap_cons, flatMap_singleton, extent_append] at hlen
      have hle := hdata buf pos
      have hle' := hnoData (extent pos ((data buf).segs P swap))
      have hneed := hneeds buf mem_cons_self
      omega
    | noDataData buf =>
      rw [flatMap_cons, flatMap_singleton, extent_append] at hlen
      have hle := hnoData pos
      have hle' := hdata buf (extent pos (noData.segs P swap))
      have hneed := hneeds buf (mem_cons_of_mem _ mem_cons_self)
      omega

/-- **Members.** Eight of them take bytes from what is behind. -/
theorem overread_fails (h : Sendable m) (horder : P.swapOnWrite = true ∨ P.endian = .little) {pre post : List Profile}
    {map : List (Address × UInt64)} (hsplit : m.profiles = pre ++ .nrtm map :: post) (hpre : ∀ q ∈ pre, Clean q)
    (htail : Tail post) (hlong : 8 ≤ map.length) (hle : map.length ≤ 4096) : ¬ RoundTrips P m := by
  intro hrt
  obtain ⟨m', is', hrecv, -, hsame⟩ := hrt (unlike m) ⟨0, 0⟩ ⟨0, 0⟩
  obtain ⟨fuel, m₁, is₁, q, is₂, hahead, hread, hloop, hnew, -⟩ := received_next h horder hsplit hpre hrecv hsame
  have hmem : nrtm map ∈ m.profiles := hsplit ▸ mem_append_right _ mem_cons_self
  have hlt := lt_blockCount_nrtm hlong hle
  obtain ⟨more, hmore⟩ := le.dest (Nat.le_of_lt hlt)
  obtain ⟨sn', addr', is₃, heq, h₃, -⟩ := Ahead.members map [] more hahead (h.members map hmem) 0 ⟨0, 0⟩ fun hnil => by
    rw [hnil, length_nil] at hlong
    omega
  have hnrtm : readNrtm P (nrtm map).size is₁ = (q, is₂) := some.inj hread
  rw [readNrtm, ← hmore, heq] at hnrtm
  simp only [Prod.mk.injEq] at hnrtm
  have htaken := (readMembers_taken P more sn' addr' ([] ++ map) is₃).2.1
  rw [hnrtm.2] at htaken
  refine tail_lost htail (fun q hq => hsplit ▸ mem_append_right _ (mem_cons_of_mem _ hq)) h₃
      (fun hgood => ?_) hloop hnew hsame
  have hbytes := (htaken hgood).1
  omega

theorem nrtm_short (h : Sendable m) (hash : m.HashOrder) (horder : P.swapOnWrite = true ∨ P.endian = .little)
    (hrt : RoundTrips P m) {map : List (Address × UInt64)} (hmem : .nrtm map ∈ m.profiles) :
    map.length < 8 ∨ map.length ≤ 4096 ∧ m.profiles.getLast? = some (.nrtm map) := by
  obtain ⟨pre, post, hsplit⟩ := append_of_mem hmem
  obtain ⟨hpre, hpost⟩ := HashOrder.around hash hsplit
  obtain ⟨hids, hids', hnodup⟩ := ids_around hsplit
  have hclean : ∀ q ∈ pre, Clean q := by
    intro q hq
    have hbucket := hpre q hq
    have hmem' : q ∈ m.profiles := hsplit ▸ mem_append_left _ hq
    have hown := h.own q hmem'
    cases q with
    | fromAddress a => exact hown.1 rfl
    | toAddress a => exact hown.2 rfl
    | data buf => exact absurd hbucket (by decide : ¬ 3 % 4 ≤ 6 % 4)
    | sn n => trivial
    | nak a sns => exact nak_lt h hash horder hrt hmem'
    | nrtm map' => exact absurd rfl (hids (.nrtm map') hq)
    | noData => exact absurd hbucket (by decide : ¬ 7 % 4 ≤ 6 % 4)
    | part num of totalSize => trivial
  by_contra hnot
  rw [not_or, not_lt, not_and] at hnot
  obtain ⟨hlong, hlast⟩ := hnot
  by_cases hle : map.length ≤ 4096
  · have hne : post ≠ [] := by
      rintro rfl
      exact hlast hle (by rw [hsplit, getLast?_append_of_ne_nil _ (cons_ne_nil _ _)]; rfl)
    have htail : Tail post := by
      refine tail_of_ids (fun q hq => ?_) hnodup hne
      have hbucket := hpost q hq
      have hown := h.own q (hsplit ▸ mem_append_right _ (mem_cons_of_mem _ hq))
      cases q with
      | fromAddress a => exact absurd rfl hown.1
      | toAddress a => exact absurd rfl hown.2
      | data buf => exact .inl rfl
      | sn n => exact absurd hbucket (by decide : ¬ 6 % 4 ≤ 4 % 4)
      | nak a sns => exact absurd hbucket (by decide : ¬ 6 % 4 ≤ 5 % 4)
      | nrtm map' => exact absurd rfl (hids' (.nrtm map') hq)
      | noData => exact .inr rfl
      | part num of totalSize => exact absurd hbucket (by decide : ¬ 6 % 4 ≤ 8 % 4)
    exact overread_fails h horder hsplit hclean htail hlong hle hrt
  · obtain ⟨m', is', hrecv, -, hsame⟩ := hrt (unlike m) ⟨0, 0⟩ ⟨0, 0⟩
    obtain ⟨fuel, m₁, is₁, q, is₂, -, hread, -, -, hpq⟩ := received_next h horder hsplit hclean hrecv hsame
    have hnrtm : readNrtm P (nrtm map).size is₁ = (q, is₂) := some.inj hread
    rw [readNrtm] at hnrtm
    simp only [Prod.mk.injEq] at hnrtm
    have hcount := (readMembers_taken P (blockCount (nrtm map).size) 0 ⟨0, 0⟩ [] is₁).2.2
    have hlt := blockCount_nrtm_lt (Nat.lt_of_not_le hle)
    rw [← hnrtm.1] at hpq
    have hperm : map.Perm (readMembers P (blockCount (nrtm map).size) 0 ⟨0, 0⟩ [] is₁).1 := hpq
    have hlen := hperm.length_eq
    rw [length_nil, Nat.zero_add] at hcount
    omega

end Necessity

/-- **Round trip.** A message comes back from its packet if the counts in its headers are found
again by the receiver; in the order of the hash table, only if. -/
theorem roundTrip_iff (P : Platform) (m : Message) (h : Sendable m) :
    (m.profiles = [] ∨ Countable P m → RoundTrips P m) ∧
      (m.HashOrder → (RoundTrips P m ↔ m.profiles = [] ∨ Countable P m)) := by
  have hsufficient : m.profiles = [] ∨ Countable P m → RoundTrips P m := by
    rintro (hnil | hc)
    · exact roundTrips_of_nil h hnil
    · exact roundTrips_of_countable h hc
  refine ⟨hsufficient, fun hash => ⟨fun hrt => ?_, hsufficient⟩⟩
  by_cases hne : m.profiles = []
  · exact .inl hne
  · have horder : P.swapOnWrite = true ∨ P.endian = .little := by
      by_contra hnot
      obtain ⟨m', is', hrecv, -⟩ := hrt (unlike m) ⟨0, 0⟩ ⟨0, 0⟩
      rw [recv_swapped h hne hnot] at hrecv
      cases hrecv
    exact .inr
      ⟨horder, fun a sns hmem => nak_lt h hash horder hrt hmem, fun map hmem => nrtm_short h hash horder hrt hmem⟩

/-! ## Samples -/

/-- One message with a profile of each kind that is sent with data. -/
def numbered : Message := ⟨[.sn 1, .nrtm [(⟨1, 1⟩, 1)], .data [1, 2, 3]], by decide⟩

theorem numbered_sendable : Sendable numbered := by
  refine ⟨by decide, fun buf hmem => ?_, fun map hmem => ?_, by decide⟩
  · simp only [numbered, mem_cons, not_mem_nil, or_false, reduceCtorEq, false_or, data.injEq] at hmem
    rw [hmem]
    decide
  · simp only [numbered, mem_cons, not_mem_nil, or_false, reduceCtorEq, false_or, nrtm.injEq] at hmem
    rw [hmem]
    decide

theorem roundTrip_iff_numbered : RoundTrips .plain numbered := by
  refine (roundTrip_iff .plain numbered numbered_sendable).1
      (.inr ⟨.inr rfl, fun a sns hmem => ?_, fun map hmem => .inl ?_⟩)
  · simp [numbered] at hmem
  · simp only [numbered, mem_cons, not_mem_nil, or_false, reduceCtorEq, false_or, nrtm.injEq] at hmem
    rw [hmem]
    decide

/-- The history of eight members, and a byte of data behind it. -/
def eightMembers : Message :=
  ⟨[.nrtm [(⟨1, 1⟩, 1), (⟨2, 1⟩, 1), (⟨3, 1⟩, 1), (⟨4, 1⟩, 1), (⟨5, 1⟩, 1), (⟨6, 1⟩, 1), (⟨7, 1⟩, 1),
      (⟨8, 1⟩, 1)], .data [1]],
    by decide⟩

theorem eightMembers_sendable : Sendable eightMembers := by
  refine ⟨by decide, fun buf hmem => ?_, fun map hmem => ?_, by decide⟩
  · simp only [eightMembers, mem_cons, not_mem_nil, or_false, reduceCtorEq, false_or, data.injEq] at hmem
    rw [hmem]
    decide
  · simp only [eightMembers, mem_cons, not_mem_nil, or_false, reduceCtorEq, nrtm.injEq] at hmem
    rw [hmem]
    decide

theorem eight_members_lose_data : Sendable eightMembers ∧ ¬ RoundTrips .plain eightMembers :=
  ⟨eightMembers_sendable, overread_fails eightMembers_sendable (.inr rfl) (nil_append _).symm
    (fun _ hq => absurd hq not_mem_nil) (.data [1]) (by decide) (by decide)⟩

end Atcd.Rmcast
