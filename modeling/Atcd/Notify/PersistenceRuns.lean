import Atcd.Core.Follows
import Atcd.Core.Shares
import Atcd.Notify.Persistence
/-!
# Records that survive a crash

The file holds the records at all times: a store writes blocks that are free until its last
write, that to the preallocated block, adds the record; an update writes free blocks until its
last write changes the routing slip; a removal is one write to the predecessor.

**Results.**
* `buildChain_spec`: what `build_chain` writes, and what its blocks have together;
* `Factory.Inv.reload`: the file has the records, also when free blocks are written;
* `Factory.Inv.step`: the writes of a step are to free blocks, but for the last one;
* `Factory.survives`: any prefix of the writes is reloaded as the records it has stored and not unlinked.
-/
namespace Atcd.Notify
open Atcd.Core List Function Manager Nat BlockHeader
open Option (bind_eq_some_iff bind_some elim_some getD_some map_eq_some_iff map_some some)

/-! ## Headers -/

theorem field_take {data : Data} {pos n k : Nat} (h : pos + n ≤ k) :
    field (data.take k) pos n = field data pos n := by
  unfold field
  rw [drop_take, take_take, Nat.min_eq_left (by omega)]

theorem field_store {a c : Data} {pos n v : Nat} (ha : a.length = pos) (hv : v < 256 ^ n) :
    field (a ++ (Core.store .big n v ++ c)) pos n = v := by
  unfold field
  rw [drop_append_of_le_length (Nat.le_of_eq ha.symm), drop_eq_nil_of_le (Nat.le_of_eq ha),
    nil_append, take_append_of_le_length (by rw [length_store]),
    take_of_length_le (by rw [length_store]), load_store .big hv]

@[simp] theorem BlockHeader.length_bytes (h : BlockHeader) : h.bytes.length = 16 := by
  simp [bytes]

@[simp] theorem RoutingSlipHeader.length_bytes (h : RoutingSlipHeader) : h.bytes.length = 32 := by
  simp [bytes]

/-- The fields fit their places in the block. -/
structure BlockHeader.Fits (h : BlockHeader) : Prop where
  serial : h.serial_number < 2 ^ 64
  overflow : h.next_overflow < 2 ^ 32
  size : h.data_size < 2 ^ 16

theorem BlockHeader.extract_eq {h : BlockHeader} {data : Data} (hf : h.Fits)
    (hd : data.take 16 = h.bytes) (g : BlockHeader) :
    (g.extract data).serial_number = h.serial_number ∧
      (g.extract data).next_overflow = h.next_overflow ∧
      (g.extract data).data_size = h.data_size := by
  simp only [extract]
  rw [← field_take (show 0 + 8 ≤ 16 by omega), ← field_take (show 8 + 4 ≤ 16 by omega),
    ← field_take (show 14 + 2 ≤ 16 by omega), hd]
  refine ⟨?_, ?_, ?_⟩
  · have := @field_store [] (Core.store .big 4 h.next_overflow ++ Core.store .big 2 h.header_type ++
      Core.store .big 2 h.data_size) 0 8 h.serial_number rfl hf.serial
    simpa [bytes] using this
  · have := @field_store (Core.store .big 8 h.serial_number) (Core.store .big 2 h.header_type ++
      Core.store .big 2 h.data_size) 8 4 h.next_overflow (length_store ..) hf.overflow
    simpa [bytes] using this
  · have := @field_store (Core.store .big 8 h.serial_number ++ Core.store .big 4 h.next_overflow ++
      Core.store .big 2 h.header_type) [] 14 2 h.data_size (by simp) hf.size
    simpa [bytes] using this

structure RoutingSlipHeader.Fits (h : RoutingSlipHeader) : Prop extends h.toBlockHeader.Fits where
  next_block : h.next_routing_slip_block < 2 ^ 32
  next_serial : h.next_serial_number < 2 ^ 64
  event : h.event_block < 2 ^ 32

theorem RoutingSlipHeader.take_bytes {h : RoutingSlipHeader} {data : Data}
    (hd : data.take 32 = h.bytes) : data.take 16 = h.toBlockHeader.bytes := by
  have : data.take 16 = (data.take 32).take 16 := by rw [take_take, Nat.min_eq_left (by omega)]
  rw [this, hd]
  simp [bytes]

theorem RoutingSlipHeader.extract_eq {h : RoutingSlipHeader} {data : Data} (hf : h.Fits)
    (hd : data.take 32 = h.bytes) (g : RoutingSlipHeader) :
    ((g.extract data).serial_number = h.serial_number ∧
      (g.extract data).next_overflow = h.next_overflow ∧
      (g.extract data).data_size = h.data_size) ∧
    (g.extract data).next_routing_slip_block = h.next_routing_slip_block ∧
      (g.extract data).next_serial_number = h.next_serial_number ∧
      (g.extract data).event_block = h.event_block := by
  refine ⟨BlockHeader.extract_eq hf.toFits (take_bytes hd) g.toBlockHeader, ?_⟩
  simp only [extract]
  rw [← field_take (show 16 + 4 ≤ 32 by omega), ← field_take (show 20 + 8 ≤ 32 by omega),
    ← field_take (show 28 + 4 ≤ 32 by omega), hd]
  refine ⟨?_, ?_, ?_⟩
  · have := @field_store h.toBlockHeader.bytes (Core.store .big 8 h.next_serial_number ++
      Core.store .big 4 h.event_block) 16 4 h.next_routing_slip_block (by simp) hf.next_block
    simpa [bytes] using this
  · have := @field_store (h.toBlockHeader.bytes ++ Core.store .big 4 h.next_routing_slip_block)
      (Core.store .big 4 h.event_block) 20 8 h.next_serial_number (by simp) hf.next_serial
    simpa [bytes] using this
  · have := @field_store (h.toBlockHeader.bytes ++ Core.store .big 4 h.next_routing_slip_block ++
      Core.store .big 8 h.next_serial_number) [] 28 4 h.event_block (by simp) hf.event
    simpa [bytes] using this

/-! ## Blocks -/

theorem firstFree_not_mem (used : List Nat) : firstFree used ∉ used := by
  unfold firstFree
  cases hfind : (range (used.length + 1)).find? fun b => b ∉ used with
  | some b =>
    have := find?_some hfind
    simpa using this
  | none =>
    -- more numbers than blocks in use
    rw [find?_eq_none] at hfind
    have hsub : range (used.length + 1) ⊆ used := by
      intro b hb
      simpa using hfind b hb
    have hlen := (nodup_range.subperm hsub).length_le
    rw [length_range] at hlen
    omega

theorem take_overwrite_zero {buf hdr : Data} : (overwrite buf 0 hdr).take hdr.length = hdr := by
  simp [overwrite]

theorem drop_overwrite_zero {buf hdr : Data} :
    (overwrite buf 0 hdr).drop hdr.length = buf.drop hdr.length := by
  simp [overwrite]

/-- A block that is filled behind its header, and then has its header put. -/
theorem filled {buf hdr here : Data} {pos : Nat} (hpos : hdr.length = pos)
    (hlen : pos + here.length ≤ buf.length) :
    (overwrite (overwrite buf pos here) 0 hdr).length = buf.length ∧
      (overwrite (overwrite buf pos here) 0 hdr).take pos = hdr ∧
      ((overwrite (overwrite buf pos here) 0 hdr).drop pos).take here.length = here := by
  subst hpos
  have h1 := length_overwrite hlen
  refine ⟨?_, take_overwrite_zero, ?_⟩
  · rw [length_overwrite (by omega), h1]
  · rw [drop_overwrite_zero]
    unfold overwrite
    have htake : (buf.take hdr.length).length = hdr.length := by
      rw [length_take]
      omega
    rw [append_assoc, drop_append_of_le_length (by omega),
      drop_eq_nil_of_le (by omega), nil_append, take_left]

/-! ## Chains -/

def serialOf (data : Data) : Nat := field data 0 8

theorem serialOf_bytes {h : BlockHeader} {data : Data} (hs : h.serial_number < 2 ^ 64)
    (hd : data.take 16 = h.bytes) : serialOf data = h.serial_number := by
  unfold serialOf
  rw [← field_take (show 0 + 8 ≤ 16 by omega), hd]
  have := @field_store [] (Core.store .big 4 h.next_overflow ++ Core.store .big 2 h.header_type ++
    Core.store .big 2 h.data_size) 0 8 h.serial_number rfl hs
  simpa [bytes] using this

theorem overflow_bytes (next_overflow data_size : Nat) (hn : next_overflow < 2 ^ 32)
    (hd : data_size < 2 ^ 16) :
    ({ overflowHeader with next_overflow := next_overflow, data_size := data_size } :
      BlockHeader).Fits := ⟨show 0 < 2 ^ 64 by decide, hn, hd⟩

/-- The overflow blocks have these bytes. -/
def OverflowAt (read : Nat → Option Data) : List Nat → Data → Prop
  | [], bytes => bytes = []
  | b :: blocks, bytes => b ≠ 0 ∧ ∃ data, read b = some data ∧
      (overflowHeader.extract data).next_overflow = blocks.head?.getD 0 ∧
      ∃ rest, bytes = segment data 16 (overflowHeader.extract data) ++ rest ∧
        OverflowAt read blocks rest

theorem OverflowAt.mono {read read' : Nat → Option Data} {blocks : List Nat} {bytes : Data}
    (h : OverflowAt read blocks bytes)
    (hr : ∀ b ∈ blocks, ∀ data, read b = some data → read' b = some data) :
    OverflowAt read' blocks bytes := by
  induction blocks generalizing bytes with
  | nil => exact h
  | cons b blocks ih =>
    obtain ⟨hne, data, hd, hnext, rest, hbytes, hrest⟩ := h
    exact ⟨hne, data, hr b mem_cons_self data hd, hnext, rest, hbytes,
      ih hrest fun b' hb' => hr b' (mem_cons_of_mem b hb')⟩

theorem OverflowAt.reload {read : Nat → Option Data} {blocks : List Nat} {bytes : Data}
    (h : OverflowAt read blocks bytes) (memory : Data) {fuel : Nat} (hf : blocks.length ≤ fuel) :
    reloadOverflow read memory fuel (blocks.head?.getD 0) = some bytes := by
  induction blocks generalizing bytes fuel with
  | nil =>
    cases h
    unfold reloadOverflow
    rfl
  | cons b blocks ih =>
    obtain ⟨hne, data, hd, hnext, rest, rfl, hrest⟩ := h
    obtain ⟨fuel, rfl⟩ : ∃ k, fuel = k + 1 := ⟨fuel - 1, by rw [length_cons] at hf; omega⟩
    rw [length_cons] at hf
    have hb : (b :: blocks).head?.getD 0 = b := rfl
    unfold reloadOverflow
    rw [hb, if_neg hne]
    simp only [hd, getD_some, hnext]
    rw [ih hrest (by omega), map_some]

/-- Blocks that were free, each written once. -/
structure NewBlocks (used : List Nat) (blocks : List Nat) (writes : List Write)
    (used' : List Nat) : Prop where
  blocks_eq : writes.map Write.block = blocks
  nodup : blocks.Nodup
  fresh : ∀ b ∈ blocks, b ∉ used
  used_iff : ∀ b, b ∈ used' ↔ b ∈ blocks ∨ b ∈ used
  quiet : ∀ w ∈ writes, w.commit = none
  serial : ∀ w ∈ writes, serialOf w.data = 0

theorem NewBlocks.free {used blocks used' : List Nat} {writes : List Write}
    (h : NewBlocks used blocks writes used') : ∀ w ∈ writes, w.block ∉ used := by
  intro w hw
  refine h.fresh w.block ?_
  rw [← h.blocks_eq]
  exact mem_map.mpr ⟨w, hw, rfl⟩

theorem truncate_eq {b : Nat} (h : b < 2 ^ 32) : truncate b = b := Nat.min_eq_left (by omega)

theorem truncate_head {blocks : List Nat} (h : ∀ b ∈ blocks, b < 2 ^ 32) :
    blocks.head?.elim 0 truncate = blocks.head?.getD 0 ∧ blocks.head?.elim 0 truncate < 2 ^ 32 := by
  cases blocks with
  | nil => exact ⟨rfl, by decide⟩
  | cons b blocks =>
    have hb := h b mem_cons_self
    simp only [head?_cons, elim_some, getD_some, truncate_eq hb]
    exact ⟨trivial, hb⟩

variable {bs : Nat}

theorem overflowChain_spec (hlo : 16 < bs) (hhi : bs < 2 ^ 16 + 16) (fuel : Nat) :
    ∀ (used : List Nat) (rest : Data), rest.length ≤ fuel →
      ∃ blocks writes used', overflowChain bs fuel used rest = some (blocks, writes, used') ∧
        NewBlocks used blocks writes used' ∧
        (0 ∈ used → (∀ b ∈ blocks, b < 2 ^ 32) → ∀ read : Nat → Option Data,
          (∀ w ∈ writes, read w.block = some w.data) → OverflowAt read blocks rest) := by
  induction fuel with
  | zero =>
    intro used rest hlen
    obtain rfl := length_eq_zero_iff.mp (le_zero.mp hlen)
    refine ⟨[], [], used, rfl, ⟨rfl, nodup_nil, ?_, by simp, ?_, ?_⟩, fun _ _ _ _ => rfl⟩
    all_goals
      intro x hx
      cases hx
  | succ fuel ih =>
    intro used rest hlen
    cases rest with
    | nil =>
      refine ⟨[], [], used, rfl, ⟨rfl, nodup_nil, ?_, by simp, ?_, ?_⟩, fun _ _ _ _ => rfl⟩
      all_goals
        intro x hx
        cases hx
    | cons x xs =>
      have hdrop : ((x :: xs).drop (bs - 16)).length ≤ fuel := by
        rw [length_drop]
        omega
      obtain ⟨blocks, writes, used', heq, hn, hat⟩ :=
        ih (firstFree used :: used) ((x :: xs).drop (bs - 16)) hdrop
      have hfree := firstFree_not_mem used
      have hnot : firstFree used ∉ blocks := fun hb => hn.fresh _ hb mem_cons_self
      have hhere : ((x :: xs).take (bs - 16)).length ≤ bs - 16 := length_take_le _ _
      have hbuf : 16 + ((x :: xs).take (bs - 16)).length ≤ (replicate bs (0 : UInt8)).length := by
        rw [length_replicate]
        omega
      obtain ⟨-, hput, hseg⟩ := filled (length_bytes { overflowHeader with
        next_overflow := blocks.head?.elim 0 truncate
        data_size := ((x :: xs).take (bs - 16)).length % 2 ^ 16 }) hbuf
      simp only [overflowChain, allocate, heq, map_some]
      refine ⟨_, _, _, rfl, ⟨?_, nodup_cons.mpr ⟨hnot, hn.nodup⟩, ?_, ?_, ?_, ?_⟩, ?_⟩
      · rw [map_cons, hn.blocks_eq]
      · intro b hb
        rcases mem_cons.mp hb with rfl | hb
        · exact hfree
        · exact fun hu => hn.fresh b hb (mem_cons_of_mem _ hu)
      · intro b
        rw [hn.used_iff, mem_cons, mem_cons]
        tauto
      · intro w hw
        rcases mem_cons.mp hw with rfl | hw
        · rfl
        · exact hn.quiet w hw
      · intro w hw
        rcases mem_cons.mp hw with rfl | hw
        · exact serialOf_bytes (show 0 < 2 ^ 64 by decide) hput
        · exact hn.serial w hw
      · intro h0 hnum read hread
        have hnum' : ∀ b ∈ blocks, b < 2 ^ 32 := fun b hb => hnum b (mem_cons_of_mem _ hb)
        obtain ⟨hhead, hlt⟩ := truncate_head hnum'
        have hsize : ((x :: xs).take (bs - 16)).length % 2 ^ 16 =
            ((x :: xs).take (bs - 16)).length := mod_eq_of_lt (by omega)
        obtain ⟨-, hnext, hds⟩ := extract_eq
          (overflow_bytes _ _ hlt (mod_lt _ (by decide))) hput overflowHeader
        refine ⟨fun he => hfree (he ▸ h0), _, hread _ mem_cons_self, hnext.trans hhead, _, ?_,
          hat (mem_cons_of_mem _ h0) hnum' read fun w hw => hread w (mem_cons_of_mem _ hw)⟩
        have hds' : _ = ((x :: xs).take (bs - 16)).length := hds.trans hsize
        unfold segment
        rw [hds', hseg, take_append_drop]

/-- The first block of a chain has the beginning of its bytes, the overflow blocks the rest. -/
structure ChainAt (read : Nat → Option Data) (pos : Nat) (data : Data)
    (next_overflow data_size : Nat) (blocks : List Nat) (bytes : Data) : Prop where
  overflow : next_overflow = blocks.head?.getD 0
  bytes_eq : ∃ rest, bytes = (data.drop pos).take data_size ++ rest ∧ OverflowAt read blocks rest

theorem ChainAt.mono {read read' : Nat → Option Data} {pos next_overflow data_size : Nat}
    {data bytes : Data} {blocks : List Nat}
    (h : ChainAt read pos data next_overflow data_size blocks bytes)
    (hr : ∀ b ∈ blocks, ∀ data, read b = some data → read' b = some data) :
    ChainAt read' pos data next_overflow data_size blocks bytes := by
  obtain ⟨rest, hbytes, hrest⟩ := h.bytes_eq
  exact ⟨h.overflow, rest, hbytes, hrest.mono hr⟩

/-- What `build_chain` makes of the first block and the free ones. -/
structure Built (bs pos : Nat) (header : Nat → Nat → Data) (used allocated : List Nat)
    (bytes : Data) (chain : Chain) : Prop where
  blocks : ∃ used', NewBlocks used chain.allocated.reverse chain.writes used' ∧
    chain.used = used'.filter (· ∉ allocated)
  length : chain.data.length = bs
  header_eq : chain.data.take pos = header chain.next_overflow chain.data_size
  size : chain.data_size < 2 ^ 16
  overflow : (∀ b ∈ chain.allocated, b < 2 ^ 32) → chain.next_overflow < 2 ^ 32
  chainAt : 0 ∈ used → (∀ b ∈ chain.allocated, b < 2 ^ 32) → ∀ read : Nat → Option Data,
    (∀ w ∈ chain.writes, read w.block = some w.data) →
      ChainAt read pos chain.data chain.next_overflow chain.data_size chain.allocated.reverse bytes

theorem Built.mem_used {pos : Nat} {header : Nat → Nat → Data} {used : List Nat} {bytes : Data}
    {chain : Chain} (h : Built bs pos header used [] bytes chain) (b : Nat) :
    b ∈ chain.used ↔ b ∈ chain.allocated ∨ b ∈ used := by
  obtain ⟨used', hnew, hused⟩ := h.blocks
  rw [hused, mem_filter, hnew.used_iff, mem_reverse]
  simp

theorem Built.fresh {pos : Nat} {header : Nat → Nat → Data} {used allocated : List Nat}
    {bytes : Data} {chain : Chain} (h : Built bs pos header used allocated bytes chain) :
    chain.allocated.Nodup ∧ ∀ b ∈ chain.allocated, b ∉ used := by
  obtain ⟨used', hnew, -⟩ := h.blocks
  exact ⟨nodup_reverse.mp hnew.nodup, fun b hb => hnew.fresh b (mem_reverse.mpr hb)⟩

theorem buildChain_spec {header : Nat → Nat → Data} {pos : Nat} {first : Data} (hlo : 16 < bs)
    (hhi : bs < 2 ^ 16 + 16) (hpos : ∀ a b, (header a b).length = pos) (hle : 16 ≤ pos ∧ pos ≤ bs)
    (hfirst : first.length = bs) (allocated used : List Nat) (bytes : Data) :
    ∃ chain, buildChain bs header first allocated used bytes = some chain ∧
      Built bs pos header used allocated bytes chain := by
  obtain ⟨blocks, writes, used', heq, hn, hat⟩ := overflowChain_spec hlo hhi bytes.length used
    (bytes.drop (bs - pos)) (by rw [length_drop]; omega)
  have hhere : (bytes.take (bs - pos)).length ≤ bs - pos := length_take_le _ _
  have hsize : (bytes.take (bs - pos)).length % 2 ^ 16 = (bytes.take (bs - pos)).length :=
    mod_eq_of_lt (by omega)
  have hbuf : pos + (bytes.take (bs - pos)).length ≤ first.length := by omega
  simp only [buildChain, hpos, heq, map_some]
  refine ⟨_, rfl, ?_⟩
  obtain ⟨hlen, hput, hseg⟩ := filled
    (hpos (blocks.head?.elim 0 truncate) ((bytes.take (bs - pos)).length % 2 ^ 16)) hbuf
  refine ⟨⟨used', ?_, rfl⟩, hlen.trans hfirst, hput, mod_lt _ (by decide), ?_, ?_⟩
  · rw [reverse_reverse]
    exact hn
  · intro hnum
    exact (truncate_head fun b hb => hnum b (mem_reverse.mpr hb)).2
  · intro h0 hnum read hread
    have hnum' : ∀ b ∈ blocks, b < 2 ^ 32 := fun b hb => hnum b (mem_reverse.mpr hb)
    rw [reverse_reverse]
    refine ⟨(truncate_head hnum').1, _, ?_, hat h0 hnum' read hread⟩
    have hfirst' := hseg.symm.trans (congrArg (fun n => take n _) hsize.symm)
    exact (take_append_drop (bs - pos) bytes).symm.trans (congrArg (· ++ _) hfirst')

theorem ChainAt.reload {read : Nat → Option Data} {pos next_overflow : Nat} {data bytes : Data}
    {blocks : List Nat} {header : BlockHeader}
    (h : ChainAt read pos data next_overflow header.data_size blocks bytes) (memory : Data)
    {fuel : Nat} (hf : blocks.length ≤ fuel) :
    (reloadOverflow read memory fuel next_overflow).map (segment data pos header ++ ·) =
      some bytes := by
  obtain ⟨rest, rfl, hrest⟩ := h.bytes_eq
  rw [h.overflow, hrest.reload memory hf]
  rfl

/-! ## What a manager has on the file -/

/-- The first routing slip block in memory, and the blocks behind it on the file. -/
structure Manager.SlipIn (bs : Nat) (read : Nat → Option Data) (m : Manager) (first : Psb)
    (slip : Data) : Prop where
  first_eq : m.first_routing_slip_block = some first
  length : first.data.length = bs
  header_eq : first.data.take 32 = m.routing_slip_header.bytes
  fits : m.routing_slip_header.Fits
  chain : ChainAt read 32 first.data m.routing_slip_header.next_overflow
    m.routing_slip_header.data_size m.allocated_routing_slip_blocks.reverse slip

/-- The first block is on the file as it is in memory. -/
structure Manager.Slip (bs : Nat) (read : Nat → Option Data) (m : Manager) (first : Psb)
    (slip : Data) : Prop extends Manager.SlipIn bs read m first slip where
  on_file : read first.block_number = some first.data

structure Manager.Event (read : Nat → Option Data) (m : Manager) (first : Psb)
    (event : Data) : Prop where
  first_eq : m.first_event_block = some first
  ne_zero : first.block_number ≠ 0
  number : m.routing_slip_header.event_block = first.block_number
  on_file : read first.block_number = some first.data
  header_eq : first.data.take 16 = m.event_header.bytes
  fits : m.event_header.Fits
  serial : m.event_header.serial_number = 0
  chain : ChainAt read 16 first.data m.event_header.next_overflow m.event_header.data_size
    m.allocated_event_blocks.reverse event

def Manager.Record (bs : Nat) (read : Nat → Option Data) (m : Manager) (event slip : Data) : Prop :=
  (∃ first, m.Slip bs read first slip) ∧ ∃ first, m.Event read first event

/-- The blocks that are given back when the manager is removed. -/
def Manager.blocks (m : Manager) : List Nat :=
  (m.first_routing_slip_block.map Psb.block_number).toList ++
    (m.first_event_block.map Psb.block_number).toList ++
    m.allocated_routing_slip_blocks ++ m.allocated_event_blocks

def Manager.key (m : Manager) : Nat × Nat :=
  (m.first_routing_slip_block.elim 0 Psb.block_number, m.routing_slip_header.serial_number)

def RoutingSlipHeader.nextKey (h : RoutingSlipHeader) : Nat × Nat :=
  (h.next_routing_slip_block, h.next_serial_number)

def Manager.nextKey (m : Manager) : Nat × Nat := m.routing_slip_header.nextKey

variable {read read' : Nat → Option Data} {m : Manager} {first : Psb} {event slip : Data}

theorem Manager.Slip.mono (h : m.Slip bs read first slip)
    (hr : ∀ b ∈ m.blocks, ∀ d, read b = some d → read' b = some d) :
    m.Slip bs read' first slip where
  toSlipIn := { h.toSlipIn with
    chain := h.chain.mono fun b hb => hr b (by simp [blocks, mem_reverse.mp hb]) }
  on_file := hr _ (by simp [blocks, h.first_eq]) _ h.on_file

theorem Manager.Event.mono (h : m.Event read first event)
    (hr : ∀ b, b = first.block_number ∨ b ∈ m.allocated_event_blocks →
      ∀ d, read b = some d → read' b = some d) : m.Event read' first event where
  first_eq := h.first_eq
  ne_zero := h.ne_zero
  number := h.number
  on_file := hr _ (.inl rfl) _ h.on_file
  header_eq := h.header_eq
  fits := h.fits
  serial := h.serial
  chain := h.chain.mono fun b hb => hr b (.inr (mem_reverse.mp hb))

theorem Manager.Event.mem_blocks (h : m.Event read first event) {b : Nat}
    (hb : b = first.block_number ∨ b ∈ m.allocated_event_blocks) : b ∈ m.blocks := by
  rcases hb with rfl | hb
  · simp [blocks, h.first_eq]
  · simp [blocks, hb]

theorem Manager.ne_first (hnodup : m.blocks.Nodup) (hm : m.first_routing_slip_block = some first)
    {b : Nat} (hb : b ∈ (m.first_event_block.map Psb.block_number).toList ++
      m.allocated_routing_slip_blocks ++ m.allocated_event_blocks) : first.block_number ≠ b := by
  simp only [blocks, hm, map_some, Option.toList_some, append_assoc,
    cons_append, nil_append, nodup_cons] at hnodup
  rw [append_assoc] at hb
  rintro rfl
  exact hnodup.1 hb

theorem Manager.Event.ne_first {ev : Psb} (he : m.Event read ev event) (hnodup : m.blocks.Nodup)
    (hm : m.first_routing_slip_block = some first) {b : Nat}
    (hb : b = ev.block_number ∨ b ∈ m.allocated_event_blocks) : first.block_number ≠ b := by
  refine Manager.ne_first hnodup hm ?_
  rcases hb with rfl | hb
  · simp [he.first_eq]
  · simp [hb]

theorem Manager.Record.mono (h : m.Record bs read event slip)
    (hr : ∀ b ∈ m.blocks, ∀ d, read b = some d → read' b = some d) : m.Record bs read' event slip :=
  ⟨h.1.imp fun _ hs => hs.mono hr, h.2.imp fun _ he => he.mono fun b hb => hr b (he.mem_blocks hb)⟩

theorem Manager.SlipIn.serialOf (h : m.SlipIn bs read first slip) :
    serialOf first.data = m.routing_slip_header.serial_number :=
  (RoutingSlipHeader.extract_eq h.fits h.header_eq {}).1.1

/-! ## Reloading a manager -/

theorem load_none {memory data : Data} {depth b serial : Nat} (hd : read b = some data)
    (hs : serialOf data ≠ serial) : load read memory depth b serial = some none := by
  unfold load
  simp only [hd, RoutingSlipHeader.extract, BlockHeader.extract]
  exact if_pos hs

theorem load_root (h : m.Slip bs read first slip) (h0 : first.block_number = 0)
    (he : m.routing_slip_header.event_block = 0) (memory : Data) {depth : Nat}
    (hd : m.blocks.length ≤ depth) :
    ∃ l, load read memory depth 0 m.routing_slip_header.serial_number = some (some l) ∧
      l.header.nextKey = m.nextKey := by
  obtain ⟨⟨hserial, hover, hsize⟩, hnext, hnum, hevent⟩ :=
    RoutingSlipHeader.extract_eq h.fits h.header_eq {}
  have hon := h.on_file
  rw [h0] at hon
  have hlen : m.allocated_routing_slip_blocks.reverse.length ≤ depth := by
    simp only [blocks, length_append] at hd
    rw [length_reverse]
    omega
  have hchain := h.chain
  rw [← hsize, ← hover] at hchain
  obtain ⟨rest, hrest, -⟩ := map_eq_some_iff.mp (hchain.reload memory hlen)
  unfold load
  simp only [hon, hserial, ne_eq, not_true_eq_false, if_false, hrest, bind_some, hevent, he,
    if_true]
  exact ⟨_, rfl, Prod.ext hnext hnum⟩

theorem load_record (h : m.Record bs read event slip) (memory : Data) {depth : Nat}
    (hd : m.blocks.length ≤ depth) :
    ∃ l, load read memory depth m.key.1 m.key.2 = some (some l) ∧
      l.header.nextKey = m.nextKey ∧ l.event = event ∧ l.slip = slip := by
  obtain ⟨⟨first, hs⟩, ev, he⟩ := h
  obtain ⟨⟨hserial, hover, hsize⟩, hnext, hnum, hevent⟩ :=
    RoutingSlipHeader.extract_eq hs.fits hs.header_eq {}
  obtain ⟨heserial, heover, hesize⟩ := extract_eq he.fits he.header_eq eventHeader
  simp only [blocks, length_append] at hd
  have hslip := hs.chain
  rw [← hsize, ← hover] at hslip
  have hslen : m.allocated_routing_slip_blocks.reverse.length ≤ depth := by
    rw [length_reverse]
    omega
  have helen : m.allocated_event_blocks.reverse.length ≤ depth := by
    rw [length_reverse]
    omega
  obtain ⟨rest, hrest, hslip⟩ := map_eq_some_iff.mp (hslip.reload memory hslen)
  have hev := he.chain
  rw [← hesize, ← heover] at hev
  obtain ⟨erest, herest, hev⟩ := map_eq_some_iff.mp (hev.reload memory helen)
  simp only [key, hs.first_eq, elim_some]
  unfold load
  simp only [hs.on_file, hserial, ne_eq, not_true_eq_false, if_false, hrest, bind_some,
    hevent, he.number, he.ne_zero, not_false_eq_true, if_true, he.on_file, heserial, he.serial,
    herest, map_some]
  exact ⟨_, rfl, Prod.ext hnext hnum, hev, hslip⟩

/-- The list from a predecessor's header on. -/
theorem loadAll_records {memory : Data} {depth : Nat} {managers : Nat → Manager} {stop : Nat × Nat}
    (hstop : load read memory depth stop.1 stop.2 = some none) :
    ∀ (records : List Record) (header : RoutingSlipHeader) (fuel : Nat),
      Follows (fun id => (managers id).key) (fun id => (managers id).nextKey) header.nextKey
        (records.map Record.id) stop →
      (∀ r ∈ records, (managers r.id).Record bs read r.event r.slip ∧
        (managers r.id).blocks.length ≤ depth) → records.length < fuel →
      ∃ ls, loadAll read memory fuel depth header = some ls ∧
        ls.map (fun l => (l.event, l.slip)) = records.map fun r => (r.event, r.slip) := by
  intro records
  induction records with
  | nil =>
    intro header fuel hf _ hfuel
    obtain ⟨fuel, rfl⟩ : ∃ k, fuel = k + 1 := ⟨fuel - 1, by rw [length_nil] at hfuel; omega⟩
    have hkey : (header.next_routing_slip_block, header.next_serial_number) = stop := hf
    refine ⟨[], ?_, rfl⟩
    unfold loadAll
    rw [← hkey] at hstop
    rw [hstop]
    rfl
  | cons r records ih =>
    intro header fuel hf hr hfuel
    obtain ⟨fuel, rfl⟩ : ∃ k, fuel = k + 1 := ⟨fuel - 1, by rw [length_cons] at hfuel; omega⟩
    rw [length_cons] at hfuel
    obtain ⟨hkey, hrest⟩ := hf
    obtain ⟨hrec, hdepth⟩ := hr r mem_cons_self
    obtain ⟨l, hl, hnext, hevent, hslip⟩ := load_record hrec memory hdepth
    have hrest : Follows (fun id => (managers id).key) (fun id => (managers id).nextKey)
        l.header.nextKey (records.map Record.id) stop := by
      rw [hnext]
      exact hrest
    obtain ⟨ls, hls, hmap⟩ := ih l.header fuel hrest
      (fun r' hr' => hr r' (mem_cons_of_mem r hr')) (by omega)
    have hblock : header.next_routing_slip_block = (managers r.id).key.1 := congrArg Prod.fst hkey
    have hnumber : header.next_serial_number = (managers r.id).key.2 := congrArg Prod.snd hkey
    refine ⟨l :: ls, ?_, by rw [map_cons, map_cons, hmap, hevent, hslip]⟩
    unfold loadAll
    rw [hblock, hnumber, hl, bind_some, elim_some, hls, map_some]

/-! ## The invariant -/

def Factory.onFile (f : Factory) : Nat → Option Data := contents Write.block Write.data f.writes

/-- Who has blocks: the root, the factory its preallocated one, and the managers. -/
inductive Owner
  | root
  | next
  | manager (id : Nat)
  deriving DecidableEq

def Factory.blocks (f : Factory) : Owner → List Nat
  | .root => f.root.blocks
  | .next => [f.psb.block_number]
  | .manager id => (f.managers id).blocks

/-- The block numbers and serial numbers fit their fields. -/
structure Factory.Fits (f : Factory) : Prop where
  blocks : ∀ w ∈ f.writes, w.block < 2 ^ 32
  psb : f.psb.block_number < 2 ^ 32
  serial : f.serial_number < 2 ^ 64

/-- The list of the managers is on the file from the root on; it ends in front of the
preallocated block, which has not the serial number that it will have. -/
structure Factory.Inv (bs : Nat) (f : Factory) : Prop where
  root : ∃ first, f.root.Slip bs f.onFile first [1, 0] ∧ first.block_number = 0
  root_event : f.root.routing_slip_header.event_block = 0
  root_serial : f.root.routing_slip_header.serial_number = 1
  records : ∀ r ∈ survivors f.writes, (f.managers r.id).Record bs f.onFile r.event r.slip
  order : (survivors f.writes).map Record.id = f.order
  nodup : f.order.Nodup
  follows : Follows (fun id => (f.managers id).key) (fun id => (f.managers id).nextKey)
    f.root.nextKey f.order (f.psb.block_number, f.serial_number)
  shares : Shares f.used f.blocks
  serials : ∀ w ∈ f.writes, serialOf w.data < f.serial_number
  psb : f.psb.data.length = bs
  alive : ∀ id ∈ f.order, (f.managers id).removed = false
  others : ∀ id, id ∉ f.order → (f.managers id).first_routing_slip_block = none ∧
    ((f.managers id).removed = false → f.managers id = {})

/-- The event of a store is not empty. -/
def PersistOp.HasEvent : PersistOp → Prop
  | .store _ event _ => event ≠ []
  | _ => True

/-- Writes that change no record: their blocks are free, and they show no serial number. -/
structure Quiet (f : Factory) (ws : List Write) : Prop where
  free : ∀ w ∈ ws, w.block ∉ f.used
  quiet : ∀ w ∈ ws, w.commit = none
  serial : ∀ w ∈ ws, serialOf w.data = 0

theorem survivors_append {ws vs : List Write} (h : ∀ w ∈ vs, w.commit = none) :
    survivors (ws ++ vs) = survivors ws := by
  have hnil : vs.filterMap Write.commit = [] := filterMap_eq_nil_iff.mpr h
  unfold survivors
  rw [filterMap_append, hnil, append_nil]

theorem survivors_commit {ws : List Write} {b : Nat} {d : Data} {c : Commit} :
    survivors (ws ++ [⟨b, d, some c⟩]) = c.apply (survivors ws) := by
  simp [survivors, filterMap_append]

theorem readBlock_of_contents {ws : List Write} {b : Nat} {d : Data}
    (h : contents Write.block Write.data ws b = some d) : readBlock bs ws b = some d := by
  unfold readBlock
  rw [h]

theorem serialOf_replicate (n : Nat) : serialOf (replicate n 0) = 0 := by
  have hzero : ∀ k, leNat (replicate k 0) = 0 := by
    intro k
    induction k with
    | zero => rfl
    | succ k ih =>
      rw [replicate_succ, leNat, ih]
      rfl
  unfold serialOf field
  rw [drop_zero, take_replicate, Core.load, reverse_replicate]
  exact hzero _

theorem load_absent {ws : List Write} {serial : Nat} (hpos : 0 < serial)
    (hs : ∀ w ∈ ws, serialOf w.data ≠ serial) (memory : Data) (depth b : Nat) :
    load (readBlock bs ws) memory depth b serial = some none := by
  cases hread : readBlock bs ws b with
  | none =>
    unfold load
    rw [hread]
  | some data =>
    refine load_none hread ?_
    unfold readBlock at hread
    split at hread
    · rename_i d hd
      cases hread
      obtain ⟨w, hw, -, rfl⟩ := exists_of_contents hd
      exact hs w hw
    · split at hread
      · cases hread
        rw [serialOf_replicate]
        omega
      · cases hread

namespace Factory
variable {f f' : Factory}

theorem blocks_length {id : Nat} (hid : id ∈ f.order) :
    (f.managers id).blocks.length ≤ (f.order.flatMap fun id => (f.managers id).blocks).length := by
  obtain ⟨l₁, l₂, ho⟩ := append_of_mem hid
  rw [ho, flatMap_append, flatMap_cons]
  simp only [length_append]
  omega

theorem Inv.serial_pos (h : f.Inv bs) : 0 < f.serial_number := by
  obtain ⟨first, hs, -⟩ := h.root
  obtain ⟨w, hw, -⟩ := exists_of_contents hs.on_file
  exact Nat.lt_of_le_of_lt (zero_le _) (h.serials w hw)

/-- The file has the records, also when blocks are written that are free. -/
theorem Inv.reload (h : f.Inv bs) {q : List Write} (hq : Quiet f q) (memory : Data) :
    ∃ n, ∀ fuel, n ≤ fuel → Notify.reload bs memory fuel (f.writes ++ q) =
      some ((survivors (f.writes ++ q)).map fun r => (r.event, r.slip)) := by
  have hread : ∀ o, ∀ b ∈ f.blocks o, ∀ d, f.onFile b = some d →
      readBlock bs (f.writes ++ q) b = some d := by
    intro o b hb d hd
    have hfree : ∀ w ∈ q, w.block ≠ b := by
      rintro w hw rfl
      exact hq.free w hw (h.shares.in_use o _ hb)
    refine readBlock_of_contents ?_
    rw [contents_append_of_not_mem hfree]
    exact hd
  refine ⟨f.root.blocks.length + (f.order.flatMap fun id => (f.managers id).blocks).length +
    f.order.length + 1, fun fuel hfuel => ?_⟩
  rw [survivors_append hq.quiet]
  obtain ⟨first, hroot, h0⟩ := h.root
  have hdepth : f.root.blocks.length ≤ fuel := by omega
  obtain ⟨l, hl, hnext⟩ := load_root (hroot.mono (hread .root)) h0 h.root_event memory hdepth
  rw [h.root_serial] at hl
  -- the preallocated block has an older serial number, if any
  have hold : ∀ w ∈ f.writes ++ q, serialOf w.data ≠ f.serial_number := by
    intro w hw
    rcases mem_append.mp hw with hw | hw
    · exact Nat.ne_of_lt (h.serials w hw)
    · rw [hq.serial w hw]
      exact Nat.ne_of_lt h.serial_pos
  have hstop : load (readBlock bs (f.writes ++ q)) memory fuel
      (f.psb.block_number, f.serial_number).1 (f.psb.block_number, f.serial_number).2 = some none :=
    load_absent h.serial_pos hold memory fuel f.psb.block_number
  have hfollows := h.follows
  rw [← h.order, ← hnext] at hfollows
  have hlen : (survivors f.writes).length < fuel := by
    have := congrArg length h.order
    rw [length_map] at this
    omega
  have hrecords : ∀ r ∈ survivors f.writes,
      (f.managers r.id).Record bs (readBlock bs (f.writes ++ q)) r.event r.slip ∧
        (f.managers r.id).blocks.length ≤ fuel := by
    intro r hr
    have hid : r.id ∈ f.order := h.order ▸ mem_map.mpr ⟨r, hr, rfl⟩
    have hlength := blocks_length hid
    exact ⟨(h.records r hr).mono (hread (.manager r.id)), by omega⟩
  obtain ⟨ls, hls, hmap⟩ :=
    loadAll_records hstop (survivors f.writes) l.header fuel hfollows hrecords hlen
  unfold Notify.reload
  rw [hl, bind_some, elim_some, hls, map_some, hmap]

/-! ## Updating -/

/-- Blocks of other owners stay as they are. -/
theorem frame (h : Shares f.used f.blocks) {ws : List Write} (hw : f'.writes = f.writes ++ ws)
    {o : Owner} (hws : ∀ w ∈ ws, w.block ∉ f.used ∨ w.block ∈ f.blocks o) {o' : Owner}
    (ho : o' ≠ o) : ∀ b ∈ f.blocks o', ∀ d, f.onFile b = some d → f'.onFile b = some d := by
  intro b hb d hd
  have hne : ∀ w ∈ ws, w.block ≠ b := by
    rintro w hwmem rfl
    rcases hws w hwmem with hfree | hown
    · exact hfree (h.in_use o' _ hb)
    · exact ho (h.eq_of_mem hb hown)
  unfold onFile
  rw [hw, contents_append_of_not_mem hne]
  exact hd

theorem onFile_new {pre : List Write} {c : Write} (hw : f'.writes = f.writes ++ (pre ++ [c]))
    (hnodup : (pre.map Write.block).Nodup) (hne : ∀ w ∈ pre, w.block ≠ c.block) :
    ∀ w ∈ pre ++ [c], f'.onFile w.block = some w.data := by
  intro w hmem
  unfold onFile
  rw [hw]
  refine contents_of_mem hmem ?_
  rw [map_append, nodup_append]
  refine ⟨hnodup, nodup_singleton _, ?_⟩
  rintro x hx y hy rfl
  obtain ⟨v, hv, rfl⟩ := mem_map.mp hx
  exact hne v hv (mem_singleton.mp hy)

theorem onFile_one {w : Write} (hw : f'.writes = f.writes ++ [w]) {b : Nat} (hne : w.block ≠ b) :
    f'.onFile b = f.onFile b := by
  unfold onFile
  rw [hw, contents_append_of_not_mem]
  intro v hv
  rw [mem_singleton.mp hv]
  exact hne

theorem Inv.zero_mem (h : f.Inv bs) : 0 ∈ f.used := by
  obtain ⟨first, hs, h0⟩ := h.root
  exact h.shares.in_use .root 0 (by simp [blocks, Manager.blocks, hs.first_eq, h0])

theorem Inv.mem_order (h : f.Inv bs) {id : Nat} {first : Psb}
    (hm : (f.managers id).first_routing_slip_block = some first) : id ∈ f.order := by
  by_contra hid
  rw [(h.others id hid).1] at hm
  cases hm

theorem Inv.record (h : f.Inv bs) {id : Nat} (hid : id ∈ f.order) :
    ∃ event slip, (f.managers id).Record bs f.onFile event slip := by
  rw [← h.order] at hid
  obtain ⟨r, hr, rfl⟩ := mem_map.mp hid
  exact ⟨r.event, r.slip, h.records r hr⟩

end Factory

/-- A manager with the routing slip that `build_chain` has made. -/
def Manager.setSlip (m : Manager) (first : Psb) (chain : Chain) : Manager :=
  { m with
    routing_slip_header := { m.routing_slip_header with
      next_overflow := chain.next_overflow, data_size := chain.data_size }
    first_routing_slip_block := some ⟨first.block_number, chain.data⟩
    allocated_routing_slip_blocks := chain.allocated }

theorem RoutingSlipHeader.length_put (h : RoutingSlipHeader) (a b : Nat) : (h.put a b).length = 32 :=
  length_bytes _

theorem BlockHeader.length_put (h : BlockHeader) (a b : Nat) : (h.put a b).length = 16 :=
  length_bytes _

theorem buildSlip_spec (hlo : 32 ≤ bs) (hhi : bs < 2 ^ 16 + 16) (f : Factory) (m : Manager)
    {first : Psb} (hlen : first.data.length = bs) (slip : Data) :
    ∃ chain, Built bs 32 m.routing_slip_header.put f.used m.allocated_routing_slip_blocks slip chain ∧
      f.buildSlip bs m first slip =
        some ({ f with used := chain.used, writes := f.writes ++ chain.writes },
          m.setSlip first chain) := by
  obtain ⟨chain, heq, hb⟩ := buildChain_spec (by omega) hhi m.routing_slip_header.length_put
    (by omega) hlen m.allocated_routing_slip_blocks f.used slip
  refine ⟨chain, hb, ?_⟩
  unfold Factory.buildSlip
  rw [heq]
  rfl

/-- Everything of the chain is on the file. -/
theorem Built.slipIn {used : List Nat} {chain : Chain}
    (hb : Built bs 32 m.routing_slip_header.put used m.allocated_routing_slip_blocks slip chain)
    (h0 : 0 ∈ used) (hfits : m.routing_slip_header.Fits)
    (hnum : ∀ b ∈ chain.allocated, b < 2 ^ 32)
    (hread : ∀ w ∈ chain.writes, read w.block = some w.data) :
    (m.setSlip first chain).SlipIn bs read ⟨first.block_number, chain.data⟩ slip where
  first_eq := rfl
  length := hb.length
  header_eq := hb.header_eq
  fits := { hfits with overflow := hb.overflow hnum, size := hb.size }
  chain := hb.chainAt h0 hnum read hread

theorem nodup_exchange {a old new c : List Nat} (h : (a ++ old ++ c).Nodup) (hnew : new.Nodup)
    (hfree : ∀ b ∈ new, b ∉ a ++ old ++ c) : (a ++ new ++ c).Nodup := by
  simp only [nodup_append, mem_append] at h hfree ⊢
  obtain ⟨⟨ha, -, -⟩, hc, hac⟩ := h
  refine ⟨⟨ha, hnew, ?_⟩, hc, ?_⟩
  · rintro x hx y hy rfl
    exact hfree x hy (.inl (.inl hx))
  · rintro x hx y hy rfl
    rcases hx with hx | hx
    · exact hac x (.inl hx) x hy rfl
    · exact hfree x hx (.inr hy)

namespace Factory
variable {f f' : Factory}

theorem mem_blocks_first {id : Nat} {first : Psb}
    (hm : (f.managers id).first_routing_slip_block = some first) :
    first.block_number ∈ f.blocks (.manager id) := by
  simp [blocks, Manager.blocks, hm]

theorem blocks_setManager (f : Factory) (id : Nat) (m : Manager) {o : Owner}
    (ho : o ≠ .manager id) : (f.setManager id m).blocks o = f.blocks o := by
  cases o with
  | root => rfl
  | next => rfl
  | manager k =>
    have hk : k ≠ id := fun hk => ho (hk ▸ rfl)
    simp only [blocks, setManager, update_of_ne hk]

/-- After an update with this chain. -/
def updated (f : Factory) (id : Nat) (first : Psb) (slip : Data) (chain : Chain) : Factory :=
  (writeFirst { f with used := chain.used, writes := f.writes ++ chain.writes }
    ⟨first.block_number, chain.data⟩ (.updated id slip)).setManager id
      ((f.managers id).setSlip first chain)

theorem updated_writes (f : Factory) (id : Nat) (first : Psb) (slip : Data) (chain : Chain) :
    (f.updated id first slip chain).writes =
      f.writes ++ (chain.writes ++ [⟨first.block_number, chain.data, some (.updated id slip)⟩]) :=
  append_assoc ..

theorem updated_self {id : Nat} {first : Psb} {slip : Data} {chain : Chain} :
    (f.updated id first slip chain).managers id = (f.managers id).setSlip first chain :=
  update_self ..

theorem updated_ne {id k : Nat} {first : Psb} {slip : Data} {chain : Chain} (hk : k ≠ id) :
    (f.updated id first slip chain).managers k = f.managers k := update_of_ne hk ..

theorem Inv.update_shares (h : f.Inv bs) {id : Nat} {first : Psb} {slip : Data} {chain : Chain}
    (hm : (f.managers id).first_routing_slip_block = some first)
    (hb : Built bs 32 (f.managers id).routing_slip_header.put f.used
      (f.managers id).allocated_routing_slip_blocks slip chain) :
    Shares chain.used (f.updated id first slip chain).blocks := by
  obtain ⟨used', hnew, hused⟩ := hb.blocks
  have hold := h.shares.nodup (.manager id)
  have hin := h.shares.in_use (.manager id)
  have hmem : ∀ b, b ∈ chain.used ↔ (b ∈ chain.allocated ∨ b ∈ f.used) ∧
      b ∉ (f.managers id).allocated_routing_slip_blocks := by
    intro b
    rw [hused, mem_filter, hnew.used_iff, mem_reverse]
    simp
  have hfresh : ∀ b ∈ chain.allocated, b ∉ f.used := fun b hb =>
    hnew.fresh b (mem_reverse.mpr hb)
  refine h.shares.change (o := .manager id) (fun o ho => blocks_setManager _ _ _ ho) ?_ ?_ ?_ ?_
  all_goals
    simp only [blocks, Manager.blocks, hm, map_some, Option.toList_some,
      updated_self, Manager.setSlip] at hold hin ⊢
  · exact nodup_exchange hold (nodup_reverse.mp hnew.nodup) fun b hb hb' =>
      hfresh b hb (hin b hb')
  · intro b hb
    simp only [mem_append] at hb ⊢
    rcases hb with (hb | hb) | hb
    · exact .inl (.inl (.inl hb))
    · exact .inr (hfresh b hb)
    · exact .inl (.inr hb)
  · intro b hb
    simp only [mem_append, nodup_append] at hb hold hin
    refine (hmem b).mpr ?_
    rcases hb with (hb | hb) | hb
    · exact ⟨.inr (hin b (.inl (.inl hb))), fun hb' => hold.1.2.2 b hb b hb' rfl⟩
    · exact ⟨.inl hb, fun hb' => hfresh b hb (hin b (.inl (.inr hb')))⟩
    · exact ⟨.inr (hin b (.inr hb)), fun hb' => hold.2.2 b (.inr hb') b hb rfl⟩
  · intro b hb hnot
    simp only [mem_append, not_or] at hnot
    exact (hmem b).mpr ⟨.inr hb, hnot.1.2⟩

theorem Inv.update (hlo : 32 ≤ bs) (hhi : bs < 2 ^ 16 + 16) (h : f.Inv bs) {id : Nat} {first : Psb}
    {slip : Data} (hm : (f.managers id).first_routing_slip_block = some first) (hslip : slip ≠ [])
    (hstep : f.updateI bs id first slip = some f') :
    ∃ pre data, f'.writes = f.writes ++ (pre ++ [⟨first.block_number, data, some (.updated id slip)⟩]) ∧
      Quiet f pre ∧ (f'.Fits → f'.Inv bs) := by
  have hid := h.mem_order hm
  obtain ⟨event, old, ⟨first', hs⟩, ev, he⟩ := h.record hid
  obtain rfl : first = first' := some.inj (hm.symm.trans hs.first_eq)
  obtain ⟨chain, hb, hbuild⟩ := buildSlip_spec hlo hhi f (f.managers id) hs.length slip
  obtain ⟨used', hnew, hused⟩ := hb.blocks
  have hf' : f' = f.updated id first slip chain := by
    unfold updateI at hstep
    rw [if_neg hslip, hbuild] at hstep
    exact (some.inj hstep).symm
  subst hf'
  refine ⟨chain.writes, chain.data, updated_writes .., ⟨hnew.free, hnew.quiet, hnew.serial⟩,
    fun hfits => ?_⟩
  have hfirst := h.shares.in_use _ _ (mem_blocks_first hm)
  have hread := onFile_new (updated_writes f id first slip chain) (hnew.blocks_eq ▸ hnew.nodup) fun w hw he =>
      hnew.free w hw (he ▸ hfirst)
  have hframe : ∀ o, o ≠ .manager id → ∀ b ∈ f.blocks o, ∀ d, f.onFile b = some d →
      (f.updated id first slip chain).onFile b = some d := by
    intro o ho
    refine frame h.shares (updated_writes ..) (fun w hw => ?_) ho
    rcases mem_append.mp hw with hw | hw
    · exact .inl (hnew.free w hw)
    · rw [mem_singleton.mp hw]
      exact .inr (mem_blocks_first hm)
  have hnum : ∀ b ∈ chain.allocated, b < 2 ^ 32 := by
    intro b hb'
    have hb' : b ∈ chain.writes.map Write.block := by
      rw [hnew.blocks_eq]
      exact mem_reverse.mpr hb'
    obtain ⟨w, hw, rfl⟩ := mem_map.mp hb'
    refine hfits.blocks w ?_
    rw [updated_writes]
    exact mem_append_right _ (mem_append_left _ hw)
  have hslipIn : ((f.managers id).setSlip first chain).SlipIn bs
      (f.updated id first slip chain).onFile ⟨first.block_number, chain.data⟩ slip :=
    hb.slipIn h.zero_mem hs.fits hnum fun w hw => hread w (mem_append_left _ hw)
  have hsurv : survivors (f.updated id first slip chain).writes =
      (survivors f.writes).map fun r => if r.id = id then { r with slip := slip } else r := by
    rw [updated_writes, ← append_assoc, survivors_commit, survivors_append hnew.quiet]
    rfl
  have hkeys : ∀ k, ((f.updated id first slip chain).managers k).key = (f.managers k).key ∧
      ((f.updated id first slip chain).managers k).nextKey = (f.managers k).nextKey ∧
      ((f.updated id first slip chain).managers k).removed = (f.managers k).removed := by
    intro k
    by_cases hk : k = id
    · subst hk
      rw [updated_self]
      refine ⟨?_, rfl, rfl⟩
      simp [key, setSlip, hm]
    · rw [updated_ne hk]
      exact ⟨rfl, rfl, rfl⟩
  obtain ⟨rfirst, hroot, hroot0⟩ := h.root
  refine
    { root := ⟨rfirst, hroot.mono (hframe .root (by simp)), hroot0⟩
      root_event := h.root_event
      root_serial := h.root_serial
      records := ?_
      order := ?_
      nodup := h.nodup
      follows := h.follows.congr fun k _ => ⟨(hkeys k).1, (hkeys k).2.1⟩
      shares := h.update_shares hm hb
      serials := ?_
      psb := h.psb
      alive := fun k hk => (hkeys k).2.2.trans (h.alive k hk)
      others := ?_ }
  · intro r hr
    rw [hsurv] at hr
    obtain ⟨r, hr', rfl⟩ := mem_map.mp hr
    by_cases hk : r.id = id
    · subst hk
      obtain ⟨-, ev, he⟩ := h.records r hr'
      rw [if_pos rfl, updated_self]
      refine ⟨⟨_, hslipIn, hread _ (mem_append_right _ (mem_singleton_self _))⟩, ev, ?_⟩
      have he' : (f.managers r.id).Event (f.updated r.id first slip chain).onFile ev r.event := by
        refine he.mono fun b hb' d hd => ?_
        unfold onFile
        rw [updated_writes, contents_append_of_not_mem]
        · exact hd
        · intro w hw he'
          rcases mem_append.mp hw with hw | hw
          · exact hnew.free w hw (he' ▸ h.shares.in_use (.manager r.id) b (he.mem_blocks hb'))
          · rw [mem_singleton.mp hw] at he'
            exact he.ne_first (h.shares.nodup (.manager r.id)) hm hb' he'
      exact ⟨he'.first_eq, he'.ne_zero, he'.number, he'.on_file, he'.header_eq, he'.fits, he'.serial,
        he'.chain⟩
    · rw [if_neg hk, updated_ne hk]
      exact (h.records r hr').mono (hframe _ fun ho => hk (Owner.manager.inj ho))
  · rw [hsurv, map_map]
    refine Eq.trans (map_congr_left fun r _ => ?_) h.order
    by_cases hk : r.id = id
    · simp [hk]
    · simp [hk]
  · intro w hw
    rw [updated_writes] at hw
    rcases mem_append.mp hw with hw | hw
    · exact h.serials w hw
    rcases mem_append.mp hw with hw | hw
    · rw [hnew.serial w hw]
      exact h.serial_pos
    · rw [mem_singleton.mp hw]
      have hser : serialOf chain.data = (f.managers id).routing_slip_header.serial_number :=
        hslipIn.serialOf
      obtain ⟨v, hv, -, hdata⟩ := exists_of_contents hs.on_file
      have hlt := h.serials v hv
      rw [hdata, hs.serialOf] at hlt
      exact hser ▸ hlt
  · intro k hk
    have hne : k ≠ id := fun he => hk (he ▸ hid)
    rw [updated_ne hne]
    exact h.others k hk

end Factory

/-! ## Removing -/

/-- Another header is put on the first block. -/
theorem Manager.SlipIn.put (h : m.SlipIn bs read first slip) (hlo : 32 ≤ bs)
    (header : RoutingSlipHeader) (hfits : header.Fits)
    (hover : header.next_overflow = m.routing_slip_header.next_overflow)
    (hsize : header.data_size = m.routing_slip_header.data_size) : ({ m with
      routing_slip_header := header
      first_routing_slip_block :=
        some ⟨first.block_number, overwrite first.data 0 header.bytes⟩ } : Manager).SlipIn bs read
      ⟨first.block_number, overwrite first.data 0 header.bytes⟩ slip where
  first_eq := rfl
  length := by
    rw [length_overwrite, h.length]
    rw [header.length_bytes, h.length]
    omega
  header_eq := by
    have := @take_overwrite_zero first.data header.bytes
    rwa [header.length_bytes] at this
  fits := hfits
  chain := by
    have hdrop := @drop_overwrite_zero first.data header.bytes
    rw [header.length_bytes] at hdrop
    obtain ⟨rest, hbytes, hrest⟩ := h.chain.bytes_eq
    refine ⟨hover ▸ h.chain.overflow, rest, ?_, hrest⟩
    rw [hdrop, hsize]
    exact hbytes

/-- The header of a predecessor after a removal. -/
def RoutingSlipHeader.skip (h next : RoutingSlipHeader) : RoutingSlipHeader :=
  { h with
    next_serial_number := next.next_serial_number
    next_routing_slip_block := next.next_routing_slip_block }

def Manager.skip (m : Manager) (first : Psb) (next : RoutingSlipHeader) : Manager :=
  { m with
    routing_slip_header := m.routing_slip_header.skip next
    first_routing_slip_block :=
      some ⟨first.block_number, overwrite first.data 0 (m.routing_slip_header.skip next).bytes⟩ }

/-- A removed manager. -/
def Manager.dead (m : Manager) : Manager :=
  { m with
    removed := true, first_routing_slip_block := none, first_event_block := none
    allocated_routing_slip_blocks := [], allocated_event_blocks := [] }

theorem Manager.Slip.skip (h : m.Slip bs read first slip) (hlo : 32 ≤ bs) {next : RoutingSlipHeader}
    (hnext : next.Fits)
    (hread : ∀ b ∈ m.allocated_routing_slip_blocks, ∀ d, read b = some d → read' b = some d)
    (hfirst : read' first.block_number =
      some (overwrite first.data 0 (m.routing_slip_header.skip next).bytes)) :
    (m.skip first next).Slip bs read'
      ⟨first.block_number, overwrite first.data 0 (m.routing_slip_header.skip next).bytes⟩ slip where
  toSlipIn := by
    have hin := h.toSlipIn.put hlo (m.routing_slip_header.skip next)
      { h.fits with next_block := hnext.next_block, next_serial := hnext.next_serial } rfl rfl
    exact { hin with chain := hin.chain.mono fun b hb => hread b (mem_reverse.mp hb) }
  on_file := hfirst

theorem skip_blocks (hm : m.first_routing_slip_block = some first) (next : RoutingSlipHeader) :
    (m.skip first next).blocks = m.blocks := by
  simp [blocks, skip, hm]

namespace Factory
variable {f f' : Factory}

theorem updateNextManager_spec {pm : Manager} {first : Psb} {id : Nat}
    (hm : pm.first_routing_slip_block = some first) (hkey : pm.nextKey = (f.managers id).key)
    (hne : (f.managers id).nextKey.1 ≠ (f.managers id).key.1) : f.updateNextManager pm id =
      ({ f with writes := f.writes ++ [⟨first.block_number, overwrite first.data 0
        (pm.routing_slip_header.skip (f.managers id).routing_slip_header).bytes,
          some (.removed id)⟩] }, pm.skip first (f.managers id).routing_slip_header) := by
  have hblock : pm.routing_slip_header.next_routing_slip_block ≠
      (f.managers id).routing_slip_header.next_routing_slip_block := by
    intro he
    exact hne (he.symm.trans (congrArg Prod.fst hkey))
  unfold updateNextManager
  simp only [hm]
  rw [if_pos (.inr hblock)]
  rfl

theorem prevManager_eq {l₁ l₂ : List Nat} {id : Nat} (ho : f.order = l₁ ++ id :: l₂)
    (hid : id ∉ l₁) : f.prevManager id = l₁.getLast? := by
  have htake : f.order.takeWhile (· ≠ id) = l₁ := by
    rw [ho, takeWhile_append_of_pos, takeWhile_cons_of_neg, append_nil]
    · simp
    · intro k hk
      have : k ≠ id := fun he => hid (he ▸ hk)
      simpa using this
  unfold prevManager
  rw [htake]

/-- The block that a manager names is not its own. -/
theorem Inv.next_ne (h : f.Inv bs) {l₁ l₂ : List Nat} {id : Nat} {first : Psb}
    (ho : f.order = l₁ ++ id :: l₂) (hm : (f.managers id).first_routing_slip_block = some first) :
    (f.managers id).nextKey.1 ≠ (f.managers id).key.1 := by
  have hown := mem_blocks_first hm
  have hkey : (f.managers id).key.1 = first.block_number := by simp [key, hm]
  have hfollows := h.follows
  have hnodup := h.nodup
  rw [ho] at hfollows hnodup
  obtain ⟨mid, -, -, hrest⟩ := follows_append.mp hfollows
  rw [hkey]
  cases l₂ with
  | nil =>
    have hnext : (f.managers id).nextKey = (f.psb.block_number, f.serial_number) := hrest
    rw [hnext]
    intro he
    have : Owner.next = .manager id := h.shares.eq_of_mem (by simp [blocks]) (he ▸ hown)
    cases this
  | cons k l₂ =>
    have hnext : (f.managers id).nextKey = (f.managers k).key := hrest.1
    have hk : k ∈ f.order := ho ▸ mem_append_right _ (by simp)
    obtain ⟨event, slip, ⟨kfirst, hs⟩, -⟩ := h.record hk
    have hkb : (f.managers k).key.1 = kfirst.block_number := by simp [key, hs.first_eq]
    rw [hnext, hkb]
    intro he
    have : Owner.manager k = .manager id :=
      h.shares.eq_of_mem (mem_blocks_first hs.first_eq) (he ▸ hown)
    cases this
    simp [nodup_append] at hnodup

/-- The removal of a manager behind the root. -/
def removedFirst (f : Factory) (id : Nat) (first : Psb) : Factory :=
  let next := (f.managers id).routing_slip_header
  { f with
    writes := f.writes ++ [⟨first.block_number, overwrite first.data 0
      (f.root.routing_slip_header.skip next).bytes, some (.removed id)⟩]
    root := f.root.skip first next
    managers := Function.update f.managers id (f.managers id).dead
    used := f.used.filter (· ∉ (f.managers id).blocks)
    order := f.order.filter (· ≠ id) }

/-- The removal of a manager behind another one. -/
def removedAfter (f : Factory) (prev id : Nat) (first : Psb) : Factory :=
  let next := (f.managers id).routing_slip_header
  { f with
    writes := f.writes ++ [⟨first.block_number, overwrite first.data 0
      ((f.managers prev).routing_slip_header.skip next).bytes, some (.removed id)⟩]
    managers := Function.update (Function.update f.managers prev ((f.managers prev).skip first next))
      id (f.managers id).dead
    used := f.used.filter (· ∉ (f.managers id).blocks)
    order := f.order.filter (· ≠ id) }

theorem remove_first {id : Nat} {first : Psb} (hprev : f.prevManager id = none)
    (hm : f.root.first_routing_slip_block = some first) (hkey : f.root.nextKey = (f.managers id).key)
    (hne : (f.managers id).nextKey.1 ≠ (f.managers id).key.1) :
    f.remove id = f.removedFirst id first := by
  unfold remove
  simp only [hprev, updateNextManager_spec hm hkey hne]
  rfl

theorem remove_after {prev id : Nat} {first : Psb} (hprev : f.prevManager id = some prev)
    (hm : (f.managers prev).first_routing_slip_block = some first)
    (hkey : (f.managers prev).nextKey = (f.managers id).key)
    (hne : (f.managers id).nextKey.1 ≠ (f.managers id).key.1) :
    f.remove id = f.removedAfter prev id first := by
  unfold remove
  simp only [hprev, updateNextManager_spec hm hkey hne]
  rfl

theorem remove_shares (h : Shares f.used f.blocks) {id : Nat}
    (hused : f'.used = f.used.filter (· ∉ (f.managers id).blocks))
    (hdead : (f'.managers id).blocks = [])
    (hother : ∀ o, o ≠ .manager id → f'.blocks o = f.blocks o) : Shares f'.used f'.blocks := by
  have hnil : f'.blocks (.manager id) = [] := hdead
  refine h.change hother ?_ ?_ ?_ ?_
  · rw [hnil]
    exact nodup_nil
  · intro b hb
    rw [hnil] at hb
    cases hb
  · intro b hb
    rw [hnil] at hb
    cases hb
  · intro b hb hnot
    rw [hused]
    have hnot : b ∉ (f.managers id).blocks := hnot
    refine mem_filter.mpr ⟨hb, ?_⟩
    simpa using hnot

theorem survivors_removed {b : Nat} {d : Data} {id : Nat} (hw : f'.writes = f.writes ++ [⟨b, d,
    some (.removed id)⟩]) : survivors f'.writes = (survivors f.writes).filter fun r => r.id ≠ id := by
  rw [hw, survivors_commit]
  rfl

theorem filter_order {l₁ l₂ : List Nat} {id : Nat} (h : (l₁ ++ id :: l₂).Nodup) :
    (l₁ ++ id :: l₂).filter (· ≠ id) = l₁ ++ l₂ := by
  obtain ⟨-, h₂, hdis⟩ := nodup_append.mp h
  rw [filter_append, filter_cons_of_neg (by simp), filter_eq_self.mpr, filter_eq_self.mpr]
  · intro k hk
    have hne : k ≠ id := fun he => (nodup_cons.mp h₂).1 (he ▸ hk)
    simpa using hne
  · intro k hk
    have hne : k ≠ id := fun he => hdis k hk id mem_cons_self he
    simpa using hne

theorem Inv.serials_put (h : f.Inv bs) {m : Manager} {first : Psb} {slip : Data}
    (hs : m.Slip bs f.onFile first slip) {next : RoutingSlipHeader}
    (hs' : (m.skip first next).Slip bs f'.onFile
      ⟨first.block_number, overwrite first.data 0 (m.routing_slip_header.skip next).bytes⟩ slip)
    {c : Option Commit} (hw : f'.writes = f.writes ++ [⟨first.block_number,
      overwrite first.data 0 (m.routing_slip_header.skip next).bytes, c⟩]) :
    ∀ w ∈ f'.writes, serialOf w.data < f.serial_number := by
  intro w hmem
  rw [hw] at hmem
  rcases mem_append.mp hmem with hmem | hmem
  · exact h.serials w hmem
  · rw [mem_singleton.mp hmem]
    have hser : serialOf (overwrite first.data 0 (m.routing_slip_header.skip next).bytes) =
      m.routing_slip_header.serial_number := hs'.serialOf
    obtain ⟨v, hv, -, hdata⟩ := exists_of_contents hs.on_file
    have hlt := h.serials v hv
    rw [hdata, hs.serialOf] at hlt
    exact hser ▸ hlt

/-- The predecessor of a removed manager is on the file as it is in memory. -/
theorem skip_slip (hlo : 32 ≤ bs) {m : Manager} {first : Psb} {slip : Data}
    {next : RoutingSlipHeader} {c : Option Commit} (hs : m.Slip bs f.onFile first slip)
    (hnodup : m.blocks.Nodup) (hnext : next.Fits)
    (hw : f'.writes = f.writes ++ [⟨first.block_number,
      overwrite first.data 0 (m.routing_slip_header.skip next).bytes, c⟩]) :
    (m.skip first next).Slip bs f'.onFile
      ⟨first.block_number, overwrite first.data 0 (m.routing_slip_header.skip next).bytes⟩ slip := by
  refine hs.skip hlo hnext (fun b hb d hd => ?_) ?_
  · have hne := ne_first hnodup hs.first_eq
      (mem_append_left _ (mem_append_right _ hb))
    exact (onFile_one hw hne).trans hd
  · unfold onFile
    rw [hw, contents_concat]
    exact update_self ..

theorem Inv.removedFirst (hlo : 32 ≤ bs) (h : f.Inv bs) {id : Nat} {first : Psb} {l : List Nat}
    (ho : f.order = id :: l) (hs : f.root.Slip bs f.onFile first [1, 0])
    (h0 : first.block_number = 0) : (f.removedFirst id first).Inv bs := by
  have hnodup := h.nodup
  rw [ho] at hnodup
  have hid : id ∈ f.order := ho ▸ mem_cons_self
  have horder : (f.removedFirst id first).order = l := by
    have hfilter : ([] ++ id :: l).filter (· ≠ id) = [] ++ l := filter_order hnodup
    unfold Factory.removedFirst
    rw [ho]
    exact hfilter
  obtain ⟨_, _, ⟨mfirst, hm⟩, -⟩ := h.record hid
  have hw : (f.removedFirst id first).writes = f.writes ++ [⟨first.block_number,
    overwrite first.data 0 (f.root.routing_slip_header.skip
      (f.managers id).routing_slip_header).bytes, some (.removed id)⟩] := rfl
  have hroot := skip_slip hlo hs (h.shares.nodup .root) hm.fits hw
  have hframe : ∀ o, o ≠ .root → ∀ b ∈ f.blocks o, ∀ d, f.onFile b = some d →
      (f.removedFirst id first).onFile b = some d := by
    intro o hne
    refine frame h.shares hw (fun w hmem => ?_) hne
    rw [mem_singleton.mp hmem]
    exact .inr (by simp [blocks, Manager.blocks, hs.first_eq])
  have hdead : (f.removedFirst id first).managers id = (f.managers id).dead := update_self ..
  have hother : ∀ k, k ≠ id → (f.removedFirst id first).managers k = f.managers k := fun k hk =>
    update_of_ne hk ..
  have hl : ∀ k ∈ l, k ≠ id := by
    rintro k hk rfl
    exact (nodup_cons.mp hnodup).1 hk
  have hfollows := h.follows
  rw [ho] at hfollows
  have hsurv := survivors_removed hw
  refine
    { root := ⟨_, hroot, h0⟩
      root_event := h.root_event
      root_serial := h.root_serial
      records := ?_
      order := ?_
      nodup := horder ▸ (nodup_cons.mp hnodup).2
      follows := ?_
      shares := ?_
      serials := h.serials_put hs hroot hw
      psb := h.psb
      alive := ?_
      others := ?_ }
  · intro r hr
    rw [hsurv] at hr
    obtain ⟨hr, hne⟩ := mem_filter.mp hr
    have hne : r.id ≠ id := by simpa using hne
    rw [hother _ hne]
    exact (h.records r hr).mono (hframe (.manager r.id) (by simp))
  · rw [hsurv]
    exact (filter_map ..).symm.trans (congrArg (filter (· ≠ id)) h.order)
  · rw [horder]
    exact hfollows.tail.congr fun k hk => by rw [hother k (hl k hk)]; exact ⟨rfl, rfl⟩
  · refine remove_shares h.shares rfl ?_ fun o hne => ?_
    · rw [hdead]
      rfl
    · cases o with
      | root => exact skip_blocks hs.first_eq _
      | next => rfl
      | manager k => exact congrArg Manager.blocks (hother k fun hk => hne (hk ▸ rfl))
  · intro k hk
    rw [horder] at hk
    rw [hother k (hl k hk)]
    exact h.alive k (ho ▸ mem_cons_of_mem id hk)
  · intro k hk
    by_cases hki : k = id
    · subst hki
      rw [hdead]
      exact ⟨rfl, fun hr => by cases hr⟩
    · rw [hother k hki]
      refine h.others k fun hmem => hk ?_
      rw [horder]
      rw [ho] at hmem
      exact (mem_cons.mp hmem).resolve_left hki

theorem Inv.removedAfter (hlo : 32 ≤ bs) (h : f.Inv bs) {prev id : Nat} {first : Psb} {slip : Data}
    {l₁ l₂ : List Nat} (ho : f.order = l₁ ++ prev :: id :: l₂)
    (hs : (f.managers prev).Slip bs f.onFile first slip) : (f.removedAfter prev id first).Inv bs := by
  have hnodup := h.nodup
  have ho' : f.order = (l₁ ++ [prev]) ++ id :: l₂ := by rw [ho]; simp
  rw [ho'] at hnodup
  have hid : id ∈ f.order := ho' ▸ mem_append_right _ mem_cons_self
  have hpi : prev ≠ id := fun he => (nodup_append.mp hnodup).2.2 prev (by simp) id (by simp) he
  have horder : (f.removedAfter prev id first).order = (l₁ ++ [prev]) ++ l₂ := by
    unfold Factory.removedAfter
    rw [ho']
    exact filter_order hnodup
  have hmem : ∀ k ∈ f.order, k ≠ id → k ∈ (l₁ ++ [prev]) ++ l₂ := by
    intro k hk hki
    rw [ho', mem_append, mem_cons] at hk
    rw [mem_append]
    tauto
  have hmem' : ∀ k ∈ (l₁ ++ [prev]) ++ l₂, k ∈ f.order ∧ k ≠ id := by
    intro k hk
    have hfilter := filter_order hnodup
    rw [← hfilter, ← ho'] at hk
    simpa using mem_filter.mp hk
  obtain ⟨_, _, ⟨mfirst, hm⟩, -⟩ := h.record hid
  have hw : (f.removedAfter prev id first).writes = f.writes ++ [⟨first.block_number,
    overwrite first.data 0 ((f.managers prev).routing_slip_header.skip
      (f.managers id).routing_slip_header).bytes, some (.removed id)⟩] := rfl
  have hprev := skip_slip hlo hs (h.shares.nodup (.manager prev)) hm.fits hw
  have hframe : ∀ o, o ≠ .manager prev → ∀ b ∈ f.blocks o, ∀ d, f.onFile b = some d →
      (f.removedAfter prev id first).onFile b = some d := by
    intro o hne
    refine frame h.shares hw (fun w hmem => ?_) hne
    rw [mem_singleton.mp hmem]
    exact .inr (mem_blocks_first hs.first_eq)
  have hdead : (f.removedAfter prev id first).managers id = (f.managers id).dead :=
    update_self ..
  have hskip : (f.removedAfter prev id first).managers prev =
      (f.managers prev).skip first (f.managers id).routing_slip_header :=
    (update_of_ne hpi ..).trans (update_self ..)
  have hother : ∀ k, k ≠ id → k ≠ prev →
      (f.removedAfter prev id first).managers k = f.managers k := fun k hk hkp =>
    (update_of_ne hk ..).trans (update_of_ne hkp ..)
  have hsurv := survivors_removed hw
  obtain ⟨rfirst, hroot, h0⟩ := h.root
  refine
    { root := ⟨rfirst, hroot.mono (hframe .root (by simp)), h0⟩
      root_event := h.root_event
      root_serial := h.root_serial
      records := ?_
      order := ?_
      nodup := horder ▸ filter_order hnodup ▸ hnodup.filter _
      follows := ?_
      shares := ?_
      serials := h.serials_put hs hprev hw
      psb := h.psb
      alive := ?_
      others := ?_ }
  · intro r hr
    rw [hsurv] at hr
    obtain ⟨hr, hne⟩ := mem_filter.mp hr
    have hne : r.id ≠ id := by simpa using hne
    by_cases hrp : r.id = prev
    · subst hrp
      obtain ⟨⟨first', hs'⟩, ev, he⟩ := h.records r hr
      obtain rfl : first = first' := some.inj (hs.first_eq.symm.trans hs'.first_eq)
      have hnodup' := h.shares.nodup (.manager r.id)
      have he' : (f.managers r.id).Event (f.removedAfter r.id id first).onFile ev r.event :=
        he.mono fun b hb d hd => (onFile_one hw (he.ne_first hnodup' hs.first_eq hb)).trans hd
      rw [hskip]
      refine ⟨⟨_, skip_slip hlo hs' hnodup' hm.fits hw⟩, ev, ?_⟩
      exact ⟨he'.first_eq, he'.ne_zero, he'.number, he'.on_file, he'.header_eq, he'.fits, he'.serial,
        he'.chain⟩
    · rw [hother _ hne hrp]
      exact (h.records r hr).mono (hframe (.manager r.id) (by simpa using hrp))
  · rw [hsurv]
    exact (filter_map ..).symm.trans (congrArg (filter (· ≠ id)) h.order)
  · rw [horder, append_assoc]
    have hfollows := h.follows
    rw [ho] at hfollows
    have hpn : prev ∉ l₁ ++ l₂ := by
      rw [append_assoc] at hnodup
      simp only [nodup_append, mem_append, nodup_cons, mem_cons] at hnodup ⊢
      rintro (hmem | hmem)
      · exact hnodup.2.2 prev hmem prev (by simp) rfl
      · exact hnodup.2.1.2.2 prev (by simp) prev (.inr hmem) rfl
    have hsub : ∀ k ∈ l₁ ++ l₂, k ≠ id ∧ k ≠ prev := by
      intro k hk
      refine ⟨(hmem' k ?_).2, fun he => hpn (he ▸ hk)⟩
      simp only [mem_append] at hk ⊢
      tauto
    refine hfollows.unlink ?_ (fun k hk => ?_) ?_
    · intro k hk
      by_cases hkp : k = prev
      · subst hkp
        rw [hskip]
        simp [key, skip, RoutingSlipHeader.skip, hs.first_eq]
      · have hk' : k ∈ l₁ ++ l₂ := by
          simp only [mem_append, mem_cons] at hk ⊢
          tauto
        rw [hother k (hsub k hk').1 hkp]
    · rw [hother k (hsub k hk).1 (hsub k hk).2]
    · rw [hskip]
      rfl
  · refine remove_shares h.shares rfl ?_ fun o hne => ?_
    · rw [hdead]
      rfl
    · cases o with
      | root => rfl
      | next => rfl
      | manager k =>
        have hk : k ≠ id := fun hk => hne (hk ▸ rfl)
        by_cases hkp : k = prev
        · subst hkp
          exact (congrArg Manager.blocks hskip).trans (skip_blocks hs.first_eq _)
        · exact congrArg Manager.blocks (hother k hk hkp)
  · intro k hk
    rw [horder] at hk
    obtain ⟨hko, hki⟩ := hmem' k hk
    by_cases hkp : k = prev
    · subst hkp
      rw [hskip]
      exact h.alive k hko
    · rw [hother k hki hkp]
      exact h.alive k hko
  · intro k hk
    rw [horder] at hk
    by_cases hki : k = id
    · subst hki
      rw [hdead]
      exact ⟨rfl, fun hr => by cases hr⟩
    · have hkp : k ≠ prev := by
        rintro rfl
        exact hk (by simp)
      rw [hother k hki hkp]
      exact h.others k fun hmemk => hk (hmem k hmemk hki)

/-- The write to the predecessor is the only one. -/
theorem Inv.remove (hlo : 32 ≤ bs) (h : f.Inv bs) {id : Nat} {first : Psb}
    (hm : (f.managers id).first_routing_slip_block = some first) :
    (∃ w, (f.remove id).writes = f.writes ++ [w]) ∧ (f.remove id).Inv bs := by
  obtain ⟨l₁, l₂, ho⟩ := append_of_mem (h.mem_order hm)
  have hnodup := h.nodup
  rw [ho] at hnodup
  have hid : id ∉ l₁ := fun hmem => (nodup_append.mp hnodup).2.2 id hmem id (by simp) rfl
  have hprev := prevManager_eq ho hid
  have hne := h.next_ne ho hm
  have hfollows := h.follows
  rw [ho] at hfollows
  rcases eq_nil_or_concat' l₁ with rfl | ⟨l₁, prev, rfl⟩
  · obtain ⟨first, hroot, h0⟩ := h.root
    rw [remove_first hprev hroot.first_eq hfollows.1 hne]
    exact ⟨⟨_, rfl⟩, h.removedFirst hlo ho hroot h0⟩
  · rw [getLast?_concat] at hprev
    rw [append_assoc] at ho hfollows
    obtain ⟨_, -, -, hkey, -⟩ := follows_append.mp hfollows
    have hmem : prev ∈ f.order := by
      rw [ho]
      simp
    obtain ⟨_, slip, ⟨first, hs⟩, -⟩ := h.record hmem
    rw [remove_after hprev hs.first_eq hkey hne]
    exact ⟨⟨_, rfl⟩, h.removedAfter hlo ho hs⟩

end Factory

/-! ## Storing -/

def Manager.setEvent (m : Manager) (block_number : Nat) (chain : Chain) : Manager :=
  { m with
    event_header := { m.event_header with
      next_overflow := chain.next_overflow, data_size := chain.data_size }
    first_event_block := some ⟨block_number, chain.data⟩
    allocated_event_blocks := chain.allocated }

theorem storeEvent_spec (hlo : 32 ≤ bs) (hhi : bs < 2 ^ 16 + 16) (f : Factory) (m : Manager)
    {event : Data} (hevent : event ≠ []) :
    ∃ chain, Built bs 16 m.event_header.put (firstFree f.used :: f.used) m.allocated_event_blocks
        event chain ∧ f.storeEvent bs m event = some ({ f with
            used := chain.used
            writes := f.writes ++ chain.writes ++ [⟨firstFree f.used, chain.data, none⟩] },
          m.setEvent (firstFree f.used) chain) := by
  have hlen : (replicate bs (0 : UInt8)).length = bs := length_replicate
  obtain ⟨chain, heq, hb⟩ := buildChain_spec (by omega) hhi m.event_header.length_put (by omega) hlen
    m.allocated_event_blocks (firstFree f.used :: f.used) event
  refine ⟨chain, hb, ?_⟩
  unfold Factory.storeEvent
  rw [if_neg hevent]
  simp only [allocate, heq]
  rfl

namespace Factory
variable {f f' : Factory}

/-- A manager with the blocks that were preallocated for it and for the next one. -/
def fresh (f : Factory) : Manager :=
  { routing_slip_header :=
      { serial_number := f.serial_number
        next_serial_number := f.serial_number + 1
        next_routing_slip_block := truncate (firstFree f.used) } }

/-- The factory when the routing slip's overflow blocks are written. -/
def withSlip (f : Factory) (bs : Nat) (chain : Chain) : Factory where
  used := chain.used
  psb := ⟨firstFree f.used, List.replicate bs 0⟩
  serial_number := f.serial_number + 1
  root := f.root
  managers := f.managers
  order := f.order
  writes := f.writes ++ chain.writes

/-- The manager when its event is stored. -/
def storedManager (f : Factory) (chain echain : Chain) : Manager :=
  let m := ((fresh f).setSlip f.psb chain).setEvent (firstFree chain.used) echain
  let header := { m.routing_slip_header with event_block := truncate (firstFree chain.used) }
  { m with
    routing_slip_header := header
    first_routing_slip_block :=
      some ⟨f.psb.block_number, overwrite chain.data 0 header.bytes⟩ }

def storedHeader (f : Factory) (chain echain : Chain) : RoutingSlipHeader :=
  (f.storedManager chain echain).routing_slip_header

/-- The writes of a store before its last one. -/
def storedWrites (chain echain : Chain) : List Write :=
  chain.writes ++ echain.writes ++ [⟨firstFree chain.used, echain.data, none⟩]

/-- After a store with these chains. -/
def stored (f : Factory) (bs id : Nat) (event slip : Data) (chain echain : Chain) : Factory :=
  { f with
    used := echain.used
    psb := ⟨firstFree f.used, List.replicate bs 0⟩
    serial_number := f.serial_number + 1
    managers := Function.update f.managers id (f.storedManager chain echain)
    order := f.order ++ [id]
    writes := f.writes ++ (storedWrites chain echain ++ [⟨f.psb.block_number,
      overwrite chain.data 0 (f.storedHeader chain echain).bytes, some (.stored id event slip)⟩]) }

theorem storeI_eq (hlo : 32 ≤ bs) (hhi : bs < 2 ^ 16 + 16) {id : Nat} {event slip : Data}
    (hm : f.managers id = {}) (hpsb : f.psb.data.length = bs) (hevent : event ≠ []) :
    ∃ chain echain, Built bs 32 f.fresh.routing_slip_header.put (firstFree f.used :: f.used) []
        slip chain ∧
      Built bs 16 eventHeader.put (firstFree chain.used :: chain.used) [] event echain ∧
      f.storeI bs id event slip = some (f.stored bs id event slip chain echain) := by
  obtain ⟨chain, hb, hbuild⟩ := buildSlip_spec hlo hhi (f.getPreallocatedPointer bs) f.fresh hpsb slip
  have hbuild : (f.getPreallocatedPointer bs).buildSlip bs f.fresh f.psb slip =
    some (f.withSlip bs chain, f.fresh.setSlip f.psb chain) := hbuild
  obtain ⟨echain, heb, hstore⟩ := storeEvent_spec hlo hhi (f.withSlip bs chain)
    (f.fresh.setSlip f.psb chain) hevent
  refine ⟨chain, echain, hb, heb, ?_⟩
  have hpre : f.preallocateNextRecord bs (f.managers id) =
      (f.getPreallocatedPointer bs, f.fresh.routing_slip_header) := by
    rw [hm]
    rfl
  have hfresh : { (f.getPreallocatedPointer bs).managers id with
      routing_slip_header := f.fresh.routing_slip_header } = f.fresh := by
    have hman : (f.getPreallocatedPointer bs).managers id = {} := hm
    rw [hman]
    rfl
  unfold storeI
  rw [hpre]
  dsimp only
  rw [hfresh, hbuild]
  simp only [bind_some, hstore]
  simp only [setEvent, setSlip, map_some]
  have hwrites : f.writes ++ chain.writes ++ echain.writes ++
      [⟨firstFree chain.used, echain.data, none⟩] = f.writes ++ storedWrites chain echain := by
    simp only [storedWrites, append_assoc]
  simp only [withSlip, hwrites, writeFirst, setManager, putHeader, elim_some]
  rw [append_assoc]
  rfl

theorem stored_blocks {chain echain : Chain} : (f.storedManager chain echain).blocks =
      f.psb.block_number :: firstFree chain.used :: (chain.allocated ++ echain.allocated) := rfl

/-- The preallocated block becomes the manager's, and another one is preallocated. -/
theorem stored_shares (h : Shares f.used f.blocks) {id : Nat} {event slip : Data}
    {chain echain : Chain}
    (hb : Built bs 32 f.fresh.routing_slip_header.put (firstFree f.used :: f.used) [] slip chain)
    (heb : Built bs 16 eventHeader.put (firstFree chain.used :: chain.used) [] event echain) :
    Shares echain.used (f.stored bs id event slip chain echain).blocks := by
  have hpsb := h.in_use .next f.psb.block_number (by simp [blocks])
  have hfree := firstFree_not_mem f.used
  have hefree := firstFree_not_mem chain.used
  have hin : ∀ b ∈ f.used, b ∈ chain.used := fun b hb' =>
    (hb.mem_used b).mpr (.inr (mem_cons_of_mem _ hb'))
  obtain ⟨hnodup, hfresh⟩ := hb.fresh
  obtain ⟨henodup, hefresh⟩ := heb.fresh
  -- the manager takes over the preallocated block
  have hswap := h.reindex (Equiv.swap Owner.next (.manager id)).injective
  have hnext : Shares (firstFree f.used :: f.used) fun o =>
      if o = .next then [firstFree f.used] else (f.blocks ∘ Equiv.swap Owner.next (.manager id)) o := by
    refine hswap.change (o := .next) (fun o ho => if_neg ho) ?_ ?_ ?_ ?_
    · simp
    · intro b hb'
      rw [if_pos rfl, mem_singleton] at hb'
      exact .inr (hb' ▸ hfree)
    · intro b hb'
      rw [if_pos rfl, mem_singleton] at hb'
      exact hb' ▸ mem_cons_self
    · exact fun b hb' _ => mem_cons_of_mem _ hb'
  have hself : (f.stored bs id event slip chain echain).blocks (.manager id) =
      f.psb.block_number :: firstFree chain.used :: (chain.allocated ++ echain.allocated) :=
    (congrArg Manager.blocks (update_self ..)).trans stored_blocks
  refine hnext.change (o := .manager id) (fun o ho => ?_) ?_ ?_ ?_ ?_
  · cases o with
    | root => rfl
    | next => rfl
    | manager k =>
      have hk : k ≠ id := fun hk => ho (hk ▸ rfl)
      have hstored : (f.stored bs id event slip chain echain).managers k = f.managers k :=
        update_of_ne hk ..
      rw [if_neg (by simp), comp, Equiv.swap_apply_of_ne_of_ne (by simp) ho]
      exact congrArg Manager.blocks hstored
  · rw [hself]
    have hin₁ : ∀ b ∈ chain.allocated, b ∈ chain.used := fun b hb' => (hb.mem_used b).mpr (.inl hb')
    refine nodup_cons.mpr ⟨?_, nodup_cons.mpr ⟨?_, nodup_append.mpr
      ⟨hnodup, henodup, ?_⟩⟩⟩
    · simp only [mem_cons, mem_append, not_or]
      refine ⟨fun he => hefree (he ▸ hin _ hpsb), fun hmem => ?_, fun hmem => ?_⟩
      · exact hfresh _ hmem (mem_cons_of_mem _ hpsb)
      · exact hefresh _ hmem (mem_cons_of_mem _ (hin _ hpsb))
    · simp only [mem_append, not_or]
      exact ⟨fun hmem => hefree (hin₁ _ hmem), fun hmem => hefresh _ hmem mem_cons_self⟩
    · rintro b hb₁ c hc rfl
      exact hefresh b hc (mem_cons_of_mem _ (hin₁ b hb₁))
  · rw [hself]
    intro b hmem
    rcases mem_cons.mp hmem with rfl | hmem
    · exact .inl (by simp [blocks])
    refine .inr fun hused => ?_
    have hused₁ : b ∈ chain.used := (hb.mem_used b).mpr (.inr hused)
    rcases mem_cons.mp hmem with rfl | hmem
    · exact hefree hused₁
    rcases mem_append.mp hmem with hmem | hmem
    · exact hfresh b hmem hused
    · exact hefresh b hmem (mem_cons_of_mem _ hused₁)
  · rw [hself]
    intro b hmem
    rw [heb.mem_used, mem_cons, hb.mem_used]
    rcases mem_cons.mp hmem with rfl | hmem
    · exact .inr (.inr (.inr (mem_cons_of_mem _ hpsb)))
    · simp only [mem_cons, mem_append] at hmem
      tauto
  · intro b hmem _
    rw [heb.mem_used, mem_cons, hb.mem_used]
    exact .inr (.inr (.inr hmem))

theorem stored_quiet {event slip : Data} {chain echain : Chain}
    (hb : Built bs 32 f.fresh.routing_slip_header.put (firstFree f.used :: f.used) [] slip chain)
    (heb : Built bs 16 eventHeader.put (firstFree chain.used :: chain.used) [] event echain) :
    Quiet f (storedWrites chain echain) ∧ ((storedWrites chain echain).map Write.block).Nodup ∧
      ∀ b, b ∈ (storedWrites chain echain).map Write.block ↔
        b ∈ chain.allocated ∨ b ∈ echain.allocated ∨ b = firstFree chain.used := by
  obtain ⟨u, hnew, -⟩ := hb.blocks
  obtain ⟨eu, henew, -⟩ := heb.blocks
  have hefree := firstFree_not_mem chain.used
  have hin : ∀ b ∈ f.used, b ∈ chain.used := fun b hb' =>
    (hb.mem_used b).mpr (.inr (mem_cons_of_mem _ hb'))
  have hmap : (storedWrites chain echain).map Write.block =
      chain.allocated.reverse ++ echain.allocated.reverse ++ [firstFree chain.used] := by
    simp only [storedWrites, map_append, hnew.blocks_eq, henew.blocks_eq, map_singleton]
  refine ⟨⟨?_, ?_, ?_⟩, ?_, ?_⟩
  · intro w hw hused
    simp only [storedWrites, mem_append, mem_singleton] at hw
    rcases hw with (hw | hw) | rfl
    · exact hnew.free w hw (mem_cons_of_mem _ hused)
    · exact henew.free w hw (mem_cons_of_mem _ (hin _ hused))
    · exact hefree (hin _ hused)
  · intro w hw
    simp only [storedWrites, mem_append, mem_singleton] at hw
    rcases hw with (hw | hw) | rfl
    · exact hnew.quiet w hw
    · exact henew.quiet w hw
    · rfl
  · intro w hw
    simp only [storedWrites, mem_append, mem_singleton] at hw
    rcases hw with (hw | hw) | rfl
    · exact hnew.serial w hw
    · exact henew.serial w hw
    · exact serialOf_bytes (show 0 < 2 ^ 64 by decide) heb.header_eq
  · rw [hmap]
    have hin₁ : ∀ b ∈ chain.allocated.reverse, b ∈ chain.used := fun b hb' =>
      (hb.mem_used b).mpr (.inl (mem_reverse.mp hb'))
    simp only [nodup_append, mem_append, mem_singleton]
    refine ⟨⟨hnew.nodup, henew.nodup, ?_⟩, nodup_singleton _, ?_⟩
    · rintro b hb₁ c hc rfl
      exact henew.fresh b hc (mem_cons_of_mem _ (hin₁ b hb₁))
    · rintro b hb₁ c rfl rfl
      rcases hb₁ with hb₁ | hb₁
      · exact hefree (hin₁ _ hb₁)
      · exact henew.fresh _ hb₁ mem_cons_self
  · intro b
    rw [hmap]
    simp only [mem_append, mem_reverse, mem_singleton, or_assoc]

theorem stored_record {id : Nat} {event slip : Data} {chain echain : Chain} (hlo : 32 ≤ bs)
    (h0 : 0 ∈ f.used)
    (hb : Built bs 32 f.fresh.routing_slip_header.put (firstFree f.used :: f.used) [] slip chain)
    (heb : Built bs 16 eventHeader.put (firstFree chain.used :: chain.used) [] event echain)
    (hfits : (f.stored bs id event slip chain echain).Fits)
    (hread : ∀ w ∈ storedWrites chain echain ++ [⟨f.psb.block_number,
      overwrite chain.data 0 (f.storedHeader chain echain).bytes, some (.stored id event slip)⟩],
      (f.stored bs id event slip chain echain).onFile w.block = some w.data) :
    (∃ first, (f.storedManager chain echain).Slip bs
      (f.stored bs id event slip chain echain).onFile first slip ∧
        first.block_number = f.psb.block_number ∧ serialOf first.data = f.serial_number ∧
        first.data = overwrite chain.data 0 (f.storedHeader chain echain).bytes) ∧
      ∃ first, (f.storedManager chain echain).Event
        (f.stored bs id event slip chain echain).onFile first event := by
  have hnum : ∀ b ∈ (storedWrites chain echain).map Write.block, b < 2 ^ 32 := by
    intro b hmem
    obtain ⟨w, hw, rfl⟩ := mem_map.mp hmem
    exact hfits.blocks w (mem_append_right _ (mem_append_left _ hw))
  obtain ⟨-, -, hblocks⟩ := stored_quiet hb heb
  have hserial : f.serial_number + 1 < 2 ^ 64 := hfits.serial
  have htrunc : truncate (firstFree chain.used) < 2 ^ 32 := by unfold truncate; omega
  have hslip : (f.fresh.setSlip f.psb chain).SlipIn bs
      (f.stored bs id event slip chain echain).onFile ⟨f.psb.block_number, chain.data⟩ slip :=
    hb.slipIn (mem_cons_of_mem _ h0)
    ⟨⟨show f.serial_number < 2 ^ 64 by omega, show 0 < 2 ^ 32 by decide, show 0 < 2 ^ 16 by decide⟩,
      show truncate (firstFree f.used) < 2 ^ 32 by unfold truncate; omega, hserial,
      show 0 < 2 ^ 32 by decide⟩
    (fun b hmem => hnum b ((hblocks b).mpr (.inl hmem)))
    fun w hw => hread w (by simp [storedWrites, hw])
  have hput := hslip.put hlo (f.storedHeader chain echain)
    { hslip.fits with event := htrunc } rfl rfl
  have hcommit := hread ⟨f.psb.block_number,
    overwrite chain.data 0 (f.storedHeader chain echain).bytes, some (.stored id event slip)⟩
    (mem_append_right _ (mem_singleton_self _))
  have hser : serialOf (overwrite chain.data 0 (f.storedHeader chain echain).bytes) =
    f.serial_number := hput.serialOf
  refine ⟨⟨_, ⟨⟨rfl, hput.length, hput.header_eq, hput.fits, hput.chain⟩, hcommit⟩, rfl, hser, rfl⟩,
    ⟨firstFree chain.used, echain.data⟩, ?_⟩
  have he0 : 0 ∈ chain.used := (hb.mem_used 0).mpr (.inr (mem_cons_of_mem _ h0))
  have henum : ∀ b ∈ echain.allocated, b < 2 ^ 32 := fun b hmem =>
    hnum b ((hblocks b).mpr (.inr (.inl hmem)))
  exact
    { first_eq := rfl
      ne_zero := fun he => firstFree_not_mem chain.used ((show firstFree chain.used = 0 from he) ▸ he0)
      number := truncate_eq (hnum _ ((hblocks _).mpr (.inr (.inr rfl))))
      on_file := hread ⟨firstFree chain.used, echain.data, none⟩ (by simp [storedWrites])
      header_eq := heb.header_eq
      fits := ⟨show 0 < 2 ^ 64 by decide, heb.overflow henum, heb.size⟩
      serial := rfl
      chain := heb.chainAt (mem_cons_of_mem _ he0) henum _ fun w hw =>
        hread w (by simp [storedWrites, hw]) }

theorem Inv.store (hlo : 32 ≤ bs) (hhi : bs < 2 ^ 16 + 16) (h : f.Inv bs) {id : Nat}
    {event slip : Data} (hr : (f.managers id).removed = false)
    (hm : (f.managers id).first_routing_slip_block = none) (hevent : event ≠ [])
    (hstep : f.storeI bs id event slip = some f') :
    ∃ pre w, f'.writes = f.writes ++ (pre ++ [w]) ∧ Quiet f pre ∧ w.block = f.psb.block_number ∧
      (f'.Fits → f'.Inv bs) := by
  have hid : id ∉ f.order := by
    intro hid
    obtain ⟨_, _, ⟨first, hs⟩, -⟩ := h.record hid
    rw [hs.first_eq] at hm
    cases hm
  have hdef := (h.others id hid).2 hr
  obtain ⟨chain, echain, hb, heb, heq⟩ := storeI_eq hlo hhi hdef h.psb hevent
  rw [heq] at hstep
  obtain rfl := some.inj hstep
  obtain ⟨hquiet, hnodup, hblocks⟩ := stored_quiet hb heb
  refine ⟨_, _, rfl, hquiet, rfl, fun hfits => ?_⟩
  have hpsb := h.shares.in_use .next f.psb.block_number (by simp [blocks])
  have hread := onFile_new (f := f) (c := ⟨f.psb.block_number,
    overwrite chain.data 0 (f.storedHeader chain echain).bytes, some (.stored id event slip)⟩)
    (show (f.stored bs id event slip chain echain).writes = _ from rfl) hnodup
    fun w hw he => hquiet.free w hw (he ▸ hpsb)
  obtain ⟨⟨first, hslip, hfirst, hser, hdata⟩, hev⟩ :=
    stored_record hlo h.zero_mem hb heb hfits hread
  have hself : (f.stored bs id event slip chain echain).managers id = f.storedManager chain echain :=
    update_self ..
  have hother : ∀ k, k ≠ id → (f.stored bs id event slip chain echain).managers k = f.managers k :=
    fun k hk => update_of_ne hk ..
  have hframe : ∀ o, o ≠ .next → ∀ b ∈ f.blocks o, ∀ d, f.onFile b = some d →
      (f.stored bs id event slip chain echain).onFile b = some d := by
    intro o ho
    refine frame h.shares rfl (fun w hw => ?_) ho
    rcases mem_append.mp hw with hw | hw
    · exact .inl (hquiet.free w hw)
    · rw [mem_singleton.mp hw]
      exact .inr (by simp [blocks])
  have hsurv : survivors (f.stored bs id event slip chain echain).writes =
      survivors f.writes ++ [⟨id, event, slip⟩] := by
    unfold stored
    rw [← append_assoc, survivors_commit, survivors_append hquiet.quiet]
    rfl
  have hne : ∀ k ∈ f.order, k ≠ id := by
    rintro k hk rfl
    exact hid hk
  obtain ⟨rfirst, hroot, hroot0⟩ := h.root
  refine
    { root := ⟨rfirst, hroot.mono (hframe .root (by simp)), hroot0⟩
      root_event := h.root_event
      root_serial := h.root_serial
      records := ?_
      order := ?_
      nodup := ?_
      follows := ?_
      shares := stored_shares h.shares hb heb
      serials := ?_
      psb := length_replicate
      alive := ?_
      others := ?_ }
  · intro r hr
    rw [hsurv] at hr
    rcases mem_append.mp hr with hr | hr
    · have hk : r.id ∈ f.order := h.order ▸ mem_map.mpr ⟨r, hr, rfl⟩
      rw [hother _ (hne _ hk)]
      exact (h.records r hr).mono (hframe (.manager r.id) (by simp))
    · rw [mem_singleton.mp hr, hself]
      exact ⟨⟨first, hslip⟩, hev⟩
  · rw [hsurv, map_append, h.order]
    rfl
  · refine nodup_append.mpr ⟨h.nodup, nodup_singleton _, ?_⟩
    rintro k hk l hl rfl
    exact hne k hk (mem_singleton.mp hl)
  · refine follows_concat.mpr ⟨?_, ?_⟩
    · have hkey : ((f.stored bs id event slip chain echain).managers id).key =
          (f.psb.block_number, f.serial_number) := by
        rw [hself]
        rfl
      rw [hkey]
      exact h.follows.congr fun k hk => by rw [hother k (hne k hk)]; exact ⟨rfl, rfl⟩
    · rw [hself]
      exact Prod.ext (truncate_eq hfits.psb) rfl
  · intro w hw
    rcases mem_append.mp hw with hw | hw
    · exact lt_succ_of_lt (h.serials w hw)
    rcases mem_append.mp hw with hw | hw
    · rw [hquiet.serial w hw]
      exact succ_pos _
    · rw [mem_singleton.mp hw, ← hdata, hser]
      exact lt_succ_self _
  · intro k hk
    rcases mem_append.mp hk with hk | hk
    · rw [hother k (hne k hk)]
      exact h.alive k hk
    · rw [mem_singleton.mp hk, hself]
      rfl
  · intro k hk
    have hk' : k ∉ f.order ∧ k ≠ id := by
      refine ⟨fun hmem => hk (mem_append_left _ hmem), ?_⟩
      rintro rfl
      exact hk (mem_append_right _ (mem_singleton_self _))
    rw [hother k hk'.2]
    exact h.others k hk'.1

/-! ## Fitting numbers -/

/-- Only writes are added. -/
structure Extends (f g : Factory) : Prop where
  writes : f.writes <+: g.writes
  psb : g.psb = f.psb
  serial : g.serial_number = f.serial_number

theorem Extends.trans {g k : Factory} (h : Extends f g) (h' : Extends g k) : Extends f k :=
  ⟨h.writes.trans h'.writes, h'.psb.trans h.psb, h'.serial.trans h.serial⟩

theorem Extends.fits {g : Factory} (h : Extends f g) (hg : g.Fits) : f.Fits where
  blocks w hw := hg.blocks w (h.writes.subset hw)
  psb := h.psb ▸ hg.psb
  serial := h.serial ▸ hg.serial

theorem buildSlip_extends {g : Factory} {m m' : Manager} {first : Psb} {slip : Data}
    (h : f.buildSlip bs m first slip = some (g, m')) :
    Extends f g ∧ ∃ data, m'.first_routing_slip_block = some ⟨first.block_number, data⟩ := by
  obtain ⟨chain, -, heq⟩ := map_eq_some_iff.mp h
  cases heq
  exact ⟨⟨prefix_append _ _, rfl, rfl⟩, _, rfl⟩

theorem storeEvent_extends {g : Factory} {m m' : Manager} {event : Data}
    (h : f.storeEvent bs m event = some (g, m')) :
    Extends f g ∧ m'.first_routing_slip_block = m.first_routing_slip_block := by
  unfold storeEvent at h
  split at h
  · cases h
    exact ⟨⟨prefix_refl _, rfl, rfl⟩, rfl⟩
  · obtain ⟨chain, -, heq⟩ := map_eq_some_iff.mp h
    cases heq
    exact ⟨⟨(prefix_append _ _).trans (prefix_append _ _), rfl, rfl⟩, rfl⟩

theorem storeI_fits {id : Nat} {event slip : Data} (h : f.storeI bs id event slip = some f')
    (hf : f'.Fits) : f.Fits := by
  obtain ⟨⟨g, m⟩, hslip, h⟩ := bind_eq_some_iff.mp h
  obtain ⟨⟨k, m'⟩, hevent, h⟩ := bind_eq_some_iff.mp h
  obtain ⟨first, hfirst, rfl⟩ := map_eq_some_iff.mp h
  obtain ⟨hg, data, hdata⟩ := buildSlip_extends hslip
  obtain ⟨hk, hsame⟩ := storeEvent_extends hevent
  rw [hsame, hdata] at hfirst
  cases hfirst
  have hext := hg.trans hk
  have hserial : k.serial_number = f.serial_number + 1 := hext.serial
  refine ⟨fun w hw => hf.blocks w (mem_append_left _ (hext.writes.subset hw)), ?_, ?_⟩
  · exact hf.blocks ⟨f.psb.block_number, _, _⟩ (mem_append_right _ (mem_singleton_self _))
  · have hlt : k.serial_number < 2 ^ 64 := hf.serial
    omega

theorem updateI_extends {id : Nat} {first : Psb} {slip : Data}
    (h : f.updateI bs id first slip = some f') : Extends f f' := by
  unfold updateI at h
  split at h
  · cases h
    exact ⟨prefix_refl _, rfl, rfl⟩
  · obtain ⟨⟨g, m⟩, hslip, h⟩ := bind_eq_some_iff.mp h
    obtain ⟨first', -, rfl⟩ := map_eq_some_iff.mp h
    exact (buildSlip_extends hslip).1.trans ⟨prefix_append _ _, rfl, rfl⟩

theorem updateNextManager_extends (f : Factory) (pm : Manager) (id : Nat) :
    Extends f (f.updateNextManager pm id).1 := by
  unfold updateNextManager
  dsimp only
  split
  · exact ⟨prefix_refl _, rfl, rfl⟩
  · split
    · exact ⟨prefix_append _ _, rfl, rfl⟩
    · exact ⟨prefix_refl _, rfl, rfl⟩

theorem remove_extends (f : Factory) (id : Nat) : Extends f (f.remove id) := by
  have hsame : ∀ pm, Extends f (f.updateNextManager pm id).1 := fun pm =>
    f.updateNextManager_extends pm id
  unfold remove
  dsimp only
  split
  · exact (hsame f.root).trans ⟨prefix_refl _, rfl, rfl⟩
  · exact (hsame _).trans ⟨prefix_refl _, rfl, rfl⟩

/-- What a call can do. -/
theorem step_cases {op : PersistOp} (h : f.step bs op = some f') : f' = f ∨
    (∃ id event slip, op = .store id event slip ∧ (f.managers id).removed = false ∧
      (f.managers id).first_routing_slip_block = none ∧ f.storeI bs id event slip = some f') ∨
    (∃ id slip first, (f.managers id).first_routing_slip_block = some first ∧
      f.updateI bs id first slip = some f') ∨
    ∃ id first, (f.managers id).first_routing_slip_block = some first ∧ f' = f.remove id := by
  cases op with
  | store id event slip =>
    simp only [step] at h
    split at h
    · exact .inl (some.inj h).symm
    · rename_i hr
      split at h
      · cases h
      · rename_i hm
        exact .inr (.inl ⟨id, event, slip, rfl, by simpa using hr, by simpa using hm, h⟩)
  | update id slip =>
    simp only [step] at h
    split at h
    · exact .inl (some.inj h).symm
    · cases hm : (f.managers id).first_routing_slip_block with
      | none =>
        rw [hm] at h
        exact .inl (some.inj h).symm
      | some first =>
        rw [hm] at h
        exact .inr (.inr (.inl ⟨id, slip, first, hm, h⟩))
  | remove id =>
    simp only [step] at h
    split at h
    · rename_i hm
      obtain ⟨first, hm⟩ := Option.isSome_iff_exists.mp hm
      exact .inr (.inr (.inr ⟨id, first, hm, (some.inj h).symm⟩))
    · cases h

theorem step_fits {op : PersistOp} (h : f.step bs op = some f') (hf : f'.Fits) : f.Fits := by
  rcases step_cases h with rfl | ⟨id, event, slip, -, -, -, h⟩ | ⟨id, slip, first, -, h⟩ |
    ⟨id, first, -, rfl⟩
  · exact hf
  · exact storeI_fits h hf
  · exact (updateI_extends h).fits hf
  · exact (f.remove_extends id).fits hf

/-! ## Runs -/

/-- Any prefix of the writes is reloaded as its survivors. -/
def Recovers (bs : Nat) (ws : List Write) : Prop :=
  ∀ p, p <+: ws → ∀ memory, ∃ n, ∀ fuel, n ≤ fuel →
    Notify.reload bs memory fuel p = some ((survivors p).map fun r => (r.event, r.slip))

theorem quiet_nil : Quiet f [] := by
  constructor
  all_goals
    intro w hw
    cases hw

theorem Inv.recovers (h : f.Inv bs) (hr : Recovers bs f.writes) (h' : f'.Inv bs) {pre : List Write}
    {w : Write} (hw : f'.writes = f.writes ++ (pre ++ [w])) (hq : Quiet f pre) :
    Recovers bs f'.writes := by
  intro p hp memory
  rw [hw] at hp
  rcases prefix_append_cases hp with hp | ⟨q, hpq, rfl⟩
  · exact hr p hp memory
  rcases prefix_append_cases hpq with hq' | ⟨q, hq', rfl⟩
  · -- the crash is before the last write
    have hsub := hq'.subset
    exact h.reload ⟨fun w hw => hq.free w (hsub hw), fun w hw => hq.quiet w (hsub hw),
      fun w hw => hq.serial w (hsub hw)⟩ memory
  · rcases prefix_cons_iff.mp hq' with rfl | ⟨t, rfl, ht⟩
    · rw [append_nil]
      exact h.reload hq memory
    · rw [prefix_nil.mp ht, ← hw]
      have hreload := h'.reload quiet_nil memory
      rwa [append_nil] at hreload

theorem Inv.step (hlo : 32 ≤ bs) (hhi : bs < 2 ^ 16 + 16) (h : f.Inv bs) {op : PersistOp}
    (hop : op.HasEvent) (hstep : f.step bs op = some f') (hf : f'.Fits) :
    f'.Inv bs ∧ (f' = f ∨ ∃ pre w, f'.writes = f.writes ++ (pre ++ [w]) ∧ Quiet f pre) := by
  rcases step_cases hstep with rfl | ⟨id, event, slip, rfl, hr, hm, hstep⟩ |
    ⟨id, slip, first, hm, hstep⟩ | ⟨id, first, hm, rfl⟩
  · exact ⟨h, .inl rfl⟩
  · obtain ⟨pre, w, hw, hq, -, hinv⟩ := h.store hlo hhi hr hm hop hstep
    exact ⟨hinv hf, .inr ⟨pre, w, hw, hq⟩⟩
  · by_cases hslip : slip = []
    · unfold updateI at hstep
      rw [if_pos hslip] at hstep
      cases hstep
      exact ⟨h, .inl rfl⟩
    · obtain ⟨pre, data, hw, hq, hinv⟩ := h.update hlo hhi hm hslip hstep
      exact ⟨hinv hf, .inr ⟨pre, _, hw, hq⟩⟩
  · obtain ⟨⟨w, hw⟩, hinv⟩ := h.remove hlo hm
    exact ⟨hinv, .inr ⟨[], w, hw, quiet_nil⟩⟩

/-! ## Opening -/

def rootHeader : RoutingSlipHeader :=
  { serial_number := 1, next_serial_number := 3, next_routing_slip_block := truncate (firstFree [0]) }

def opened (bs : Nat) (chain : Chain) : Factory where
  used := chain.used
  psb := ⟨firstFree [0], List.replicate bs 0⟩
  serial_number := 3
  root := ({ routing_slip_header := rootHeader } : Manager).setSlip ⟨0, List.replicate bs 0⟩ chain
  managers := fun _ => {}
  order := []
  writes := chain.writes ++ [⟨0, chain.data, none⟩]

theorem open_spec (hlo : 32 ≤ bs) (hhi : bs < 2 ^ 16 + 16) :
    ∃ chain, Built bs 32 rootHeader.put [firstFree [0], 0] [] [1, 0] chain ∧
      open_ bs = some (opened bs chain) := by
  have hlen : (replicate bs (0 : UInt8)).length = bs := length_replicate
  obtain ⟨chain, heq, hb⟩ := buildChain_spec (by omega) hhi rootHeader.length_put (by omega) hlen
    [] [firstFree [0], 0] [1, 0]
  refine ⟨chain, hb, ?_⟩
  have hopen : open_ bs = (buildChain bs rootHeader.put (replicate bs 0) []
      [firstFree [0], 0] [1, 0]).map (opened bs) := rfl
  rw [hopen, heq]
  rfl

theorem opened_shares {chain : Chain}
    (hb : Built bs 32 rootHeader.put [firstFree [0], 0] [] [1, 0] chain) :
    Shares (opened bs chain).used (opened bs chain).blocks := by
  obtain ⟨hnodup, hfresh⟩ := hb.fresh
  have hfree := firstFree_not_mem [0]
  have hroot : (opened bs chain).blocks .root = 0 :: (chain.allocated ++ []) := rfl
  have hnext : (opened bs chain).blocks .next = [firstFree [0]] := rfl
  rw [append_nil] at hroot
  have hdisjoint : firstFree [0] ∉ 0 :: chain.allocated := by
    rw [mem_cons, not_or]
    exact ⟨fun he => hfree (mem_singleton.mpr he), fun hmem => hfresh _ hmem mem_cons_self⟩
  refine ⟨fun o => ?_, fun o b hmem => (hb.mem_used b).mpr ?_, fun o o' hne b hmem hmem' => ?_⟩
  · cases o with
    | root =>
      rw [hroot]
      exact nodup_cons.mpr ⟨fun hmem => hfresh 0 hmem (by simp), hnodup⟩
    | next => exact nodup_singleton _
    | manager id => exact nodup_nil
  · cases o with
    | root =>
      rw [hroot, mem_cons] at hmem
      rcases hmem with rfl | hmem
      · exact .inr (by simp)
      · exact .inl hmem
    | next =>
      rw [hnext, mem_singleton] at hmem
      exact .inr (hmem ▸ mem_cons_self)
    | manager id => cases hmem
  · cases o with
    | root =>
      cases o' with
      | root => exact hne rfl
      | next =>
        rw [hroot] at hmem
        rw [hnext, mem_singleton] at hmem'
        exact hdisjoint (hmem' ▸ hmem)
      | manager id => cases hmem'
    | next =>
      cases o' with
      | root =>
        rw [hroot] at hmem'
        rw [hnext, mem_singleton] at hmem
        exact hdisjoint (hmem ▸ hmem')
      | next => exact hne rfl
      | manager id => cases hmem'
    | manager id => cases hmem

/-- The blocks behind the root's first one are free when they are written. -/
theorem opened_inv {chain : Chain}
    (hb : Built bs 32 rootHeader.put [firstFree [0], 0] [] [1, 0] chain)
    (hfits : (opened bs chain).Fits) : (opened bs chain).Inv bs := by
  obtain ⟨u, hnew, -⟩ := hb.blocks
  have hread : ∀ w ∈ chain.writes ++ [⟨0, chain.data, none⟩],
      contents Write.block Write.data ([] ++ (chain.writes ++ [⟨0, chain.data, none⟩])) w.block =
        some w.data := by
    intro w hw
    refine contents_of_mem hw ?_
    rw [map_append, hnew.blocks_eq, nodup_append]
    refine ⟨hnew.nodup, nodup_singleton _, ?_⟩
    rintro b hb c hc rfl
    rw [map_singleton, mem_singleton] at hc
    exact hnew.fresh b hb (hc ▸ mem_cons_of_mem _ mem_cons_self)
  have hnum : ∀ b ∈ chain.allocated, b < 2 ^ 32 := by
    intro b hmem
    have hmem : b ∈ chain.writes.map Write.block := by
      rw [hnew.blocks_eq]
      exact mem_reverse.mpr hmem
    obtain ⟨w, hw, rfl⟩ := mem_map.mp hmem
    exact hfits.blocks w (mem_append_left _ hw)
  have hslip : (opened bs chain).root.SlipIn bs (opened bs chain).onFile ⟨0, chain.data⟩ [1, 0] :=
    hb.slipIn (m := { routing_slip_header := rootHeader }) (mem_cons_of_mem _ mem_cons_self)
    ⟨⟨show 1 < 2 ^ 64 by decide, show 0 < 2 ^ 32 by decide, show 0 < 2 ^ 16 by decide⟩,
      show truncate (firstFree [0]) < 2 ^ 32 by unfold truncate; omega, show 3 < 2 ^ 64 by decide,
      show 0 < 2 ^ 32 by decide⟩ hnum fun w hw => hread w (mem_append_left _ hw)
  have hquiet : ∀ w ∈ (opened bs chain).writes, w.commit = none := by
    intro w hw
    rcases mem_append.mp hw with hw | hw
    · exact hnew.quiet w hw
    · rw [mem_singleton.mp hw]
  have hsurv : survivors ([] ++ (opened bs chain).writes) = [] := survivors_append hquiet
  rw [nil_append] at hsurv
  exact
    { root := ⟨_, ⟨hslip, hread _ (mem_append_right _ (mem_singleton_self _))⟩, rfl⟩
      root_event := rfl
      root_serial := rfl
      records := by
        rw [hsurv]
        intro r hr
        cases hr
      order := by rw [hsurv]; rfl
      nodup := nodup_nil
      follows := Prod.ext (truncate_eq hfits.psb) rfl
      shares := opened_shares hb
      serials := by
        intro w hw
        rcases mem_append.mp hw with hw | hw
        · rw [hnew.serial w hw]
          exact succ_pos _
        · rw [mem_singleton.mp hw]
          have hser : serialOf chain.data = 1 := hslip.serialOf
          rw [hser]
          exact Nat.lt_of_sub_eq_succ rfl
      psb := length_replicate
      alive := by
        intro id hid
        cases hid
      others := fun id _ => ⟨rfl, fun _ => rfl⟩ }

theorem opened_recovers {chain : Chain}
    (hb : Built bs 32 rootHeader.put [firstFree [0], 0] [] [1, 0] chain)
    (hfits : (opened bs chain).Fits) : Recovers bs (opened bs chain).writes := by
  obtain ⟨u, hnew, -⟩ := hb.blocks
  intro p hp memory
  rcases prefix_append_cases hp with hp | ⟨q, hq, rfl⟩
  · have hsub := hp.subset
    have hsurv : survivors ([] ++ p) = [] := survivors_append fun w hw => hnew.quiet w (hsub hw)
    rw [nil_append] at hsurv
    refine ⟨0, fun fuel _ => ?_⟩
    unfold Notify.reload
    rw [load_absent Nat.one_pos (fun w hw => by rw [hnew.serial w (hsub hw)]; decide), hsurv]
    rfl
  · rcases prefix_cons_iff.mp hq with rfl | ⟨t, rfl, ht⟩
    · have hsurv : survivors ([] ++ chain.writes) = [] := survivors_append hnew.quiet
      rw [nil_append] at hsurv
      refine ⟨0, fun fuel _ => ?_⟩
      unfold Notify.reload
      rw [append_nil, load_absent Nat.one_pos (fun w hw => by rw [hnew.serial w hw]; decide),
        hsurv]
      rfl
    · rw [prefix_nil.mp ht]
      have hreload := (opened_inv hb hfits).reload quiet_nil memory
      rwa [append_nil] at hreload

theorem reloadOverflow_mono {read : Nat → Option Data} {memory : Data} {fuel n p : Nat}
    {bytes : Data} (hle : fuel ≤ n) (h : reloadOverflow read memory fuel p = some bytes) :
    reloadOverflow read memory n p = some bytes := by
  induction fuel generalizing n p bytes with
  | zero =>
    unfold reloadOverflow at h ⊢
    split at h
    next hp => rwa [if_pos hp]
    next => cases h
  | succ fuel ih =>
    obtain ⟨n, rfl⟩ := Nat.exists_eq_add_of_le' (one_le_of_lt hle)
    unfold reloadOverflow at h ⊢
    split at h
    next hp => rwa [if_pos hp]
    next hp =>
      obtain ⟨rest, hrest, rfl⟩ := map_eq_some_iff.mp h
      simp only [if_neg hp, ih (le_of_succ_le_succ hle) hrest, map_some]

theorem load_mono {read : Nat → Option Data} {memory : Data} {fuel n b serial : Nat}
    {found : Option Loaded} (hle : fuel ≤ n) (h : load read memory fuel b serial = some found) :
    load read memory n b serial = some found := by
  unfold load at h ⊢
  cases hb : read b with
  | none => simpa only [hb] using h
  | some data =>
    simp only [hb] at h ⊢
    split at h
    next hserial => rwa [if_pos hserial]
    next hserial =>
      obtain ⟨rest, hrest, h⟩ := bind_eq_some_iff.mp h
      rw [if_neg hserial, reloadOverflow_mono hle hrest, bind_some]
      split at h
      next hevent =>
        rw [if_pos hevent]
        cases he : read (({} : RoutingSlipHeader).extract data).event_block with
        | none => simpa only [he] using h
        | some eventData =>
          simp only [he] at h ⊢
          split at h
          next hzero => rwa [if_pos hzero]
          next hzero =>
            obtain ⟨tail, htail, rfl⟩ := map_eq_some_iff.mp h
            rw [if_neg hzero, reloadOverflow_mono hle htail, map_some]
      next hevent => rwa [if_neg hevent]

theorem loadAll_mono {read : Nat → Option Data} {memory : Data} {fuel n depth d : Nat}
    {header : RoutingSlipHeader} {records : List Loaded} (hle : fuel ≤ n) (hd : depth ≤ d)
    (h : loadAll read memory fuel depth header = some records) :
    loadAll read memory n d header = some records := by
  induction fuel generalizing n header records with
  | zero => cases h
  | succ fuel ih =>
    obtain ⟨n, rfl⟩ := Nat.exists_eq_add_of_le' (one_le_of_lt hle)
    unfold loadAll at h ⊢
    obtain ⟨next, hnext, h⟩ := bind_eq_some_iff.mp h
    rw [load_mono hd hnext, bind_some]
    cases next with
    | none => exact h
    | some loaded =>
      obtain ⟨rest, hrest, rfl⟩ := map_eq_some_iff.mp h
      rw [elim_some, ih (le_of_succ_le_succ hle) hrest, map_some]

/-- More fuel does not change what is found. -/
theorem reload_mono {memory : Data} {fuel n : Nat} {ws : List Write} {records : List (Data × Data)}
    (hle : fuel ≤ n) (h : Notify.reload bs memory fuel ws = some records) :
    Notify.reload bs memory n ws = some records := by
  unfold Notify.reload at h ⊢
  obtain ⟨root, hroot, h⟩ := bind_eq_some_iff.mp h
  rw [load_mono hle hroot, bind_some]
  cases root with
  | none => exact h
  | some root =>
    obtain ⟨found, hfound, rfl⟩ := map_eq_some_iff.mp h
    rw [elim_some, loadAll_mono hle hle hfound, map_some]

/-- **A crash loses no event.** -/
theorem survives {ops : List PersistOp} {f₀ : Factory} (hlo : 32 ≤ bs) (hhi : bs < 2 ^ 16 + 16)
    (hops : ∀ op ∈ ops, op.HasEvent) (hopen : open_ bs = some f₀)
    (hrun : run (Factory.step bs) f₀ ops = some f) (hfits : f.Fits) (p : List Write)
    (hp : p <+: f.writes) (memory : Data) :
    ∃ n, ∀ fuel, n ≤ fuel → Notify.reload bs memory fuel p =
      some ((survivors p).map fun r => (r.event, r.slip)) := by
  have hstep : ∀ (g : Factory) op g', (g.Fits → g.Inv bs ∧ Recovers bs g.writes) → op.HasEvent →
      g.step bs op = some g' → g'.Fits → g'.Inv bs ∧ Recovers bs g'.writes := by
    intro g op g' hg hop hgstep hfits'
    obtain ⟨hinv, hrec⟩ := hg (step_fits hgstep hfits')
    obtain ⟨hinv', rfl | ⟨pre, w, hw, hq⟩⟩ := hinv.step hlo hhi hop hgstep hfits'
    · exact ⟨hinv, hrec⟩
    · exact ⟨hinv', hinv.recovers hrec hinv' hw hq⟩
  obtain ⟨chain, hb, heq⟩ := open_spec hlo hhi
  rw [heq] at hopen
  obtain rfl := some.inj hopen
  have hinv := run_inv_of hstep (fun hf => ⟨opened_inv hb hf, opened_recovers hb hf⟩)
    (allSteps_of_forall hops) hrun
  exact (hinv hfits).2 p hp memory

instance (f : Factory) : Decidable f.Fits :=
  decidable_of_iff ((∀ w ∈ f.writes, w.block < 2 ^ 32) ∧ f.psb.block_number < 2 ^ 32 ∧
    f.serial_number < 2 ^ 64) ⟨fun h => ⟨h.1, h.2.1, h.2.2⟩, fun h => ⟨h.1, h.2, h.3⟩⟩

def runNew (ops : List PersistOp) : Option Factory :=
  (open_ 40).bind fun f₀ => run (Factory.step 40) f₀ ops

def sampleOps : List PersistOp :=
  [.store 1 [7, 7] (List.replicate 60 9), .update 1 [5], .store 2 (List.replicate 60 6) [], .remove 1]

theorem survives_sample : ∃ f₀ f, open_ 40 = some f₀ ∧ run (Factory.step 40) f₀ sampleOps = some f ∧
    f.Fits ∧ ∀ p, p <+: f.writes → ∃ n, ∀ fuel, n ≤ fuel → Notify.reload 40 [] fuel p =
      some ((survivors p).map fun r => (r.event, r.slip)) := by
  have hfits : (runNew sampleOps).map (fun f => decide f.Fits) = some true := by decide_cbv
  obtain ⟨f, hf, hfits⟩ := map_eq_some_iff.mp hfits
  obtain ⟨f₀, hopen, hrun⟩ := bind_eq_some_iff.mp hf
  have hops : ∀ op ∈ sampleOps, op.HasEvent := by simp [sampleOps, PersistOp.HasEvent]
  refine ⟨f₀, f, hopen, hrun, of_decide_eq_true hfits, fun p hp => ?_⟩
  exact survives (by decide) (by decide) hops hopen hrun (of_decide_eq_true hfits) p hp []

def emptyOps : List PersistOp := [.store 1 [] [5], .store 2 [7] []]

/-- Two records are kept and none is read back. -/
theorem runNew_emptyOps : (runNew emptyOps).map (fun f =>
    (decide f.Fits, (survivors f.writes).length,
      (Notify.reload 40 [] 2 f.writes).map length)) = some (true, 2, some 0) := by decide_cbv

/-- An event of no bytes gets no block, and the records from it on are not found again. -/
theorem empty_event_lost : ¬ ∀ f₀ f, open_ 40 = some f₀ →
    run (Factory.step 40) f₀ emptyOps = some f → f.Fits →
    ∃ n, ∀ fuel, n ≤ fuel → Notify.reload 40 [] fuel f.writes =
      some ((survivors f.writes).map fun r => (r.event, r.slip)) := by
  intro h
  obtain ⟨f, hf, hall⟩ := map_eq_some_iff.mp runNew_emptyOps
  obtain ⟨hfits, hall⟩ := Prod.mk.inj hall
  obtain ⟨hsurv, hreload⟩ := Prod.mk.inj hall
  obtain ⟨loaded, hreload, hnone⟩ := map_eq_some_iff.mp hreload
  obtain ⟨f₀, hopen, hrun⟩ := bind_eq_some_iff.mp hf
  obtain ⟨n, hn⟩ := h f₀ f hopen hrun (of_decide_eq_true hfits)
  have hmore := reload_mono (le_add_left 2 n) hreload
  rw [hn (n + 2) (le_add_right n 2), length_eq_zero_iff.mp hnone] at hmore
  have hnil := map_eq_nil_iff.mp (some.inj hmore)
  rw [hnil] at hsurv
  cases hsurv

end Factory

end Atcd.Notify
