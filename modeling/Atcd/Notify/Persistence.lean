import Atcd.Core.Bytes
import Atcd.Core.Pieces
import Atcd.Core.Run
import Atcd.Core.WriteLog
/-!
# Events and routing slips in a file of blocks

A stored event has a first block for its routing slip, a first block for the event, and
overflow blocks for what these do not hold. The first routing slip blocks are a list from the
root in block 0: each has the number and the serial number of the next one. The last one has
those of a block that is preallocated, which has not that serial number yet.

The model has the managers' memory and the log of the blocks that are written, in their order;
each operation starts when the one before has been called back, so that the writer has nothing
left to do. A write that stores an event, that gives it another routing slip or that unlinks it
says so beside the block.
-/
namespace Atcd.Notify
open Atcd.Core

abbrev Data := List UInt8

/-- What is written to the first routing slip block of an event, or to its predecessor's. -/
inductive Commit
  | stored (id : Nat) (event slip : Data)
  | updated (id : Nat) (slip : Data)
  | removed (id : Nat)

structure Write where
  block : Nat
  data : Data
  commit : Option Commit := none

/-- mirrors TAO/orbsvcs/orbsvcs/Notify/Routing_Slip_Persistence_Manager.h:125-155 -/
structure BlockHeader where
  serial_number : Nat := 0
  next_overflow : Nat := 0
  header_type : Nat
  data_size : Nat := 0

/-- mirrors Routing_Slip_Persistence_Manager.h:160-175 -/
structure RoutingSlipHeader extends BlockHeader where
  header_type := 1
  next_routing_slip_block : Nat := 0
  next_serial_number : Nat := 0
  event_block : Nat := 0

def eventHeader : BlockHeader := { header_type := 0 }

def overflowHeader : BlockHeader := { header_type := 2 }

/-- mirrors TAO/orbsvcs/orbsvcs/Notify/Routing_Slip_Persistence_Manager.cpp:313-342 -/
def BlockHeader.bytes (h : BlockHeader) : Data :=
  Core.store .big 8 h.serial_number ++ Core.store .big 4 h.next_overflow ++
    Core.store .big 2 h.header_type ++ Core.store .big 2 h.data_size

/-- mirrors Routing_Slip_Persistence_Manager.cpp:378-408 -/
def RoutingSlipHeader.bytes (h : RoutingSlipHeader) : Data :=
  h.toBlockHeader.bytes ++ Core.store .big 4 h.next_routing_slip_block ++
    Core.store .big 8 h.next_serial_number ++ Core.store .big 4 h.event_block

def field (data : Data) (pos n : Nat) : Nat := Core.load .big ((data.drop pos).take n)

/-- The type is put together with the size that was there before.
mirrors Routing_Slip_Persistence_Manager.cpp:284-311 -/
def BlockHeader.extract (h : BlockHeader) (data : Data) : BlockHeader where
  serial_number := field data 0 8
  next_overflow := field data 8 4
  header_type := (h.data_size * 256 + field data 13 1) % 2 ^ 16
  data_size := field data 14 2

/-- mirrors Routing_Slip_Persistence_Manager.cpp:352-376 -/
def RoutingSlipHeader.extract (h : RoutingSlipHeader) (data : Data) : RoutingSlipHeader where
  toBlockHeader := h.toBlockHeader.extract data
  next_routing_slip_block := field data 16 4
  next_serial_number := field data 20 8
  event_block := field data 28 4

/-- `truncate_cast` to a `Block_Number`.
mirrors ACE/ace/Truncate.h:396-402 -/
def truncate (block_number : Nat) : Nat := min block_number (2 ^ 32 - 1)

/-- The first block that is not in use.
mirrors TAO/orbsvcs/orbsvcs/Notify/Bit_Vector.cpp:61-119 -/
def firstFree (used : List Nat) : Nat :=
  ((List.range (used.length + 1)).find? fun b => b ∉ used).getD 0

/-- A block in memory. -/
structure Psb where
  block_number : Nat
  data : Data

/-- mirrors TAO/orbsvcs/orbsvcs/Notify/Persistent_File_Allocator.cpp:20-32, 173-207 -/
def allocate (blockSize : Nat) (used : List Nat) : Psb × List Nat :=
  (⟨firstFree used, List.replicate blockSize 0⟩, firstFree used :: used)

/-! ## Chains -/

/-- The loop of `build_chain`: the overflow blocks for the rest of the data, in the order in
which they are allocated and written. A block is written when its successor is known.
mirrors Routing_Slip_Persistence_Manager.cpp:589-636 -/
def overflowChain (blockSize : Nat) :
    Nat → List Nat → Data → Option (List Nat × List Write × List Nat)
  | _, used, [] => some ([], [], used)
  | 0, _, _ :: _ => none
  | fuel + 1, used, rest =>
    let (curblk, used) := allocate blockSize used
    let here := rest.take (blockSize - 16)
    (overflowChain blockSize fuel used (rest.drop (blockSize - 16))).map
      fun (blocks, writes, used) =>
        let hdr := { overflowHeader with
          next_overflow := blocks.head?.elim 0 truncate
          data_size := here.length % 2 ^ 16 }
        (curblk.block_number :: blocks,
          ⟨curblk.block_number, overwrite (overwrite curblk.data 16 here) 0 hdr.bytes, none⟩ :: writes,
          used)

/-- What `build_chain` makes of the first block, whose header it is given as a function of the
fields that it sets. -/
structure Chain where
  next_overflow : Nat
  data_size : Nat
  data : Data
  allocated : List Nat
  writes : List Write
  used : List Nat

/-- The blocks of the chain before are freed at the end.
mirrors Routing_Slip_Persistence_Manager.cpp:552-643 -/
def buildChain (blockSize : Nat) (header : Nat → Nat → Data) (first : Data)
    (allocated used : List Nat) (data : Data) : Option Chain :=
  let pos := (header 0 0).length
  let here := data.take (blockSize - pos)
  (overflowChain blockSize data.length used (data.drop (blockSize - pos))).map
    fun (blocks, writes, used) =>
      let next_overflow := blocks.head?.elim 0 truncate
      let data_size := here.length % 2 ^ 16
      { next_overflow := next_overflow
        data_size := data_size
        data := overwrite (overwrite first pos here) 0 (header next_overflow data_size)
        allocated := blocks.reverse
        writes := writes
        used := used.filter (· ∉ allocated) }

/-! ## Managers -/

/-- mirrors Routing_Slip_Persistence_Manager.h:253-273 -/
structure Manager where
  removed : Bool := false
  routing_slip_header : RoutingSlipHeader := {}
  event_header : BlockHeader := eventHeader
  first_event_block : Option Psb := none
  first_routing_slip_block : Option Psb := none
  allocated_event_blocks : List Nat := []
  allocated_routing_slip_blocks : List Nat := []

/-- The factory with its allocator and the managers it has made. `order` has those in the list
of the root, from its first one. -/
structure Factory where
  used : List Nat
  psb : Psb
  serial_number : Nat
  root : Manager
  managers : Nat → Manager
  order : List Nat
  writes : List Write

/-- The header as `build_chain` writes it. -/
def RoutingSlipHeader.put (h : RoutingSlipHeader) (next_overflow data_size : Nat) : Data :=
  { h with next_overflow := next_overflow, data_size := data_size : RoutingSlipHeader }.bytes

def BlockHeader.put (h : BlockHeader) (next_overflow data_size : Nat) : Data :=
  { h with next_overflow := next_overflow, data_size := data_size : BlockHeader }.bytes

namespace Factory

/-- mirrors TAO/orbsvcs/orbsvcs/Notify/Standard_Event_Persistence.cpp:204-214 -/
def getPreallocatedPointer (f : Factory) (blockSize : Nat) : Factory :=
  let (psb, used) := allocate blockSize f.used
  { f with serial_number := f.serial_number + 1, psb := psb, used := used }

/-- mirrors Routing_Slip_Persistence_Manager.cpp:49-85 -/
def storeRoot (f : Factory) (blockSize : Nat) (psb : Psb) : Option Factory :=
  let f := f.getPreallocatedPointer blockSize
  let header := { f.root.routing_slip_header with
    next_serial_number := f.serial_number
    next_routing_slip_block := truncate f.psb.block_number
    serial_number := 1 }
  (buildChain blockSize header.put psb.data [] f.used [1, 0]).map fun chain =>
    { f with
      used := chain.used
      root := { f.root with
        routing_slip_header := { header with
          next_overflow := chain.next_overflow, data_size := chain.data_size }
        first_routing_slip_block := some ⟨psb.block_number, chain.data⟩
        allocated_routing_slip_blocks := chain.allocated }
      writes := f.writes ++ chain.writes ++ [⟨psb.block_number, chain.data, none⟩] }

/-- A new factory on an empty file: the root is not found there.
mirrors Standard_Event_Persistence.cpp:114-140 -/
def open_ (blockSize : Nat) : Option Factory :=
  storeRoot ⟨[0], ⟨0, []⟩, 2, {}, fun _ => {}, [], []⟩ blockSize
    ⟨0, List.replicate blockSize 0⟩

/-- mirrors Standard_Event_Persistence.cpp:189-202 -/
def preallocateNextRecord (f : Factory) (blockSize : Nat) (m : Manager) : Factory × RoutingSlipHeader :=
  let next := f.getPreallocatedPointer blockSize
  (next, { m.routing_slip_header with
    next_serial_number := next.serial_number
    next_routing_slip_block := truncate next.psb.block_number
    serial_number := f.serial_number })

/-- `build_chain` for a routing slip, with its writes.
mirrors Routing_Slip_Persistence_Manager.cpp:436-438, 480-482 -/
def buildSlip (f : Factory) (blockSize : Nat) (m : Manager) (first : Psb) (slip : Data) :
    Option (Factory × Manager) :=
  (buildChain blockSize m.routing_slip_header.put first.data m.allocated_routing_slip_blocks
    f.used slip).map fun chain =>
      ({ f with used := chain.used, writes := f.writes ++ chain.writes },
        { m with
          routing_slip_header := { m.routing_slip_header with
            next_overflow := chain.next_overflow, data_size := chain.data_size }
          first_routing_slip_block := some ⟨first.block_number, chain.data⟩
          allocated_routing_slip_blocks := chain.allocated })

/-- For a manager that has no event yet.
mirrors Routing_Slip_Persistence_Manager.cpp:496-518 -/
def storeEvent (f : Factory) (blockSize : Nat) (m : Manager) (event : Data) :
    Option (Factory × Manager) :=
  if event = [] then some (f, m)
  else
    let (psb, used) := allocate blockSize f.used
    (buildChain blockSize m.event_header.put psb.data m.allocated_event_blocks used event).map
      fun chain =>
        ({ f with
            used := chain.used
            writes := f.writes ++ chain.writes ++ [⟨psb.block_number, chain.data, none⟩] },
          { m with
            event_header := { m.event_header with
              next_overflow := chain.next_overflow, data_size := chain.data_size }
            first_event_block := some ⟨psb.block_number, chain.data⟩
            allocated_event_blocks := chain.allocated })

/-- The write of a first routing slip block. -/
def writeFirst (f : Factory) (first : Psb) (commit : Commit) : Factory :=
  { f with writes := f.writes ++ [⟨first.block_number, first.data, some commit⟩] }

/-- `put_header` of `write_first_routing_slip_block`.
mirrors Routing_Slip_Persistence_Manager.cpp:756-766 -/
def putHeader (m : Manager) (first : Psb) : Psb :=
  { first with data := overwrite first.data 0 m.routing_slip_header.bytes }

def setManager (f : Factory) (id : Nat) (m : Manager) : Factory :=
  { f with managers := Function.update f.managers id m }

/-- For a manager that is not persisted.
mirrors Routing_Slip_Persistence_Manager.cpp:420-472 -/
def storeI (f : Factory) (blockSize : Nat) (id : Nat) (event slip : Data) : Option Factory :=
  let first := f.psb
  let (f, header) := f.preallocateNextRecord blockSize (f.managers id)
  let m := { f.managers id with routing_slip_header := header }
  (f.buildSlip blockSize m first slip).bind fun (f, m) =>
  (f.storeEvent blockSize m event).bind fun (f, m) =>
  m.first_routing_slip_block.map fun first =>
    let m := { m with routing_slip_header := { m.routing_slip_header with
      event_block := m.first_event_block.elim 0 fun psb => truncate psb.block_number } }
    let first := putHeader m first
    let f := (f.writeFirst first (.stored id event slip)).setManager id
      { m with first_routing_slip_block := some first }
    { f with order := f.order ++ [id] }

/-- For a manager with this first block.
mirrors Routing_Slip_Persistence_Manager.cpp:474-494 -/
def updateI (f : Factory) (blockSize : Nat) (id : Nat) (first : Psb) (slip : Data) :
    Option Factory :=
  if slip = [] then some f
  else
    (f.buildSlip blockSize (f.managers id) first slip).bind fun (f, m) =>
    m.first_routing_slip_block.map fun first =>
      (f.writeFirst first (.updated id slip)).setManager id m

/-- mirrors Routing_Slip_Persistence_Manager.cpp:699-732 -/
def updateNextManager (f : Factory) (prev : Manager) (id : Nat) : Factory × Manager :=
  let next := (f.managers id).routing_slip_header
  let m := { prev with routing_slip_header := { prev.routing_slip_header with
    next_serial_number := next.next_serial_number
    next_routing_slip_block := next.next_routing_slip_block } }
  match prev.first_routing_slip_block with
  | none => (f, m)
  | some first =>
    if prev.routing_slip_header.next_serial_number ≠ next.next_serial_number ∨
        prev.routing_slip_header.next_routing_slip_block ≠ next.next_routing_slip_block then
      let first := putHeader m first
      (f.writeFirst first (.removed id), { m with first_routing_slip_block := some first })
    else (f, m)

/-- The manager before this one in the list; `none` is the root. -/
def prevManager (f : Factory) (id : Nat) : Option Nat := (f.order.takeWhile (· ≠ id)).getLast?

/-- mirrors Routing_Slip_Persistence_Manager.cpp:229-271 -/
def remove (f : Factory) (id : Nat) : Factory :=
  let m := f.managers id
  let f :=
    match f.prevManager id with
    | none =>
      let (f, root) := f.updateNextManager f.root id
      { f with root := root }
    | some prev =>
      let (f, prevM) := f.updateNextManager (f.managers prev) id
      f.setManager prev prevM
  let freed := (m.first_routing_slip_block.map Psb.block_number).toList ++
    (m.first_event_block.map Psb.block_number).toList ++
    m.allocated_routing_slip_blocks ++ m.allocated_event_blocks
  let f := f.setManager id { m with
    removed := true, first_routing_slip_block := none, first_event_block := none
    allocated_routing_slip_blocks := [], allocated_event_blocks := [] }
  { f with used := f.used.filter (· ∉ freed), order := f.order.filter (· ≠ id) }

end Factory

/-- The calls on the managers. -/
inductive PersistOp
  | store (id : Nat) (event slip : Data)
  | update (id : Nat) (slip : Data)
  | remove (id : Nat)
  deriving DecidableEq

/-- A manager that is persisted is not stored again, and one that is not is not removed: both
are assertions.
mirrors Routing_Slip_Persistence_Manager.cpp:203-241 -/
def Factory.step (blockSize : Nat) (f : Factory) : PersistOp → Option Factory
  | .store id event slip =>
    if (f.managers id).removed then some f
    else if (f.managers id).first_routing_slip_block.isSome then none
    else f.storeI blockSize id event slip
  | .update id slip =>
    if (f.managers id).removed then some f
    else (f.managers id).first_routing_slip_block.elim (some f) fun first =>
      f.updateI blockSize id first slip
  | .remove id =>
    if (f.managers id).first_routing_slip_block.isSome then some (f.remove id) else none

/-! ## Reloading -/

/-- A hole in the file reads as zeros; a block behind its end cannot be read.
mirrors TAO/orbsvcs/orbsvcs/Notify/Random_File.cpp:123-142 -/
def readBlock (blockSize : Nat) (ws : List Write) (block_number : Nat) : Option Data :=
  match contents Write.block Write.data ws block_number with
  | some data => some data
  | none =>
    if ws.any fun w => block_number < w.block then some (List.replicate blockSize 0) else none

def segment (data : Data) (pos : Nat) (header : BlockHeader) : Data :=
  (data.drop pos).take header.data_size

/-- The overflow blocks from `nextptr` on. What cannot be read is what the memory has.
mirrors Routing_Slip_Persistence_Manager.cpp:670-692 -/
def reloadOverflow (read : Nat → Option Data) (memory : Data) : Nat → Nat → Option Data
  | fuel, nextptr =>
    if nextptr = 0 then some []
    else
      match fuel with
      | 0 => none
      | fuel + 1 =>
        let data := (read nextptr).getD memory
        let header := overflowHeader.extract data
        (reloadOverflow read memory fuel header.next_overflow).map fun rest =>
          segment data 16 header ++ rest

/-- A record that `load` has read: the header of its manager, the event and the routing slip. -/
structure Loaded where
  header : RoutingSlipHeader
  event : Data
  slip : Data

/-- The inner `none` when there is no such record.
mirrors Routing_Slip_Persistence_Manager.cpp:109-170, 645-697 -/
def load (read : Nat → Option Data) (memory : Data) (fuel block_number serial_number : Nat) :
    Option (Option Loaded) :=
  match read block_number with
  | none => some none
  | some data =>
    let header := ({} : RoutingSlipHeader).extract data
    if header.serial_number ≠ serial_number then some none
    else
      (reloadOverflow read memory fuel header.next_overflow).bind fun rest =>
      let slip := segment data 32 header.toBlockHeader ++ rest
      if header.event_block ≠ 0 then
        match read header.event_block with
        | none => some none
        | some eventData =>
          let event := eventHeader.extract eventData
          if event.serial_number ≠ 0 then some none
          else
            (reloadOverflow read memory fuel event.next_overflow).map fun rest =>
              some ⟨header, segment eventData 16 event ++ rest, slip⟩
      else if block_number = 0 then some (some ⟨header, [], slip⟩)
      else some none

/-- `load_next`, until there is no next manager.
mirrors Routing_Slip_Persistence_Manager.cpp:172-200 -/
def loadAll (read : Nat → Option Data) (memory : Data) :
    Nat → Nat → RoutingSlipHeader → Option (List Loaded)
  | 0, _, _ => none
  | fuel + 1, depth, header =>
    (load read memory depth header.next_routing_slip_block header.next_serial_number).bind
      fun next => next.elim (some []) fun loaded =>
        (loadAll read memory fuel depth loaded.header).map (loaded :: ·)

/-- What a new factory finds on a file with these writes.
mirrors Standard_Event_Persistence.cpp:114-163 -/
def reload (blockSize : Nat) (memory : Data) (fuel : Nat) (ws : List Write) :
    Option (List (Data × Data)) :=
  (load (readBlock blockSize ws) memory fuel 0 1).bind fun root => root.elim (some []) fun root =>
    (loadAll (readBlock blockSize ws) memory fuel fuel root.header).map fun records =>
      records.map fun r => (r.event, r.slip)

/-! ## What should be found -/

/-- A record that was stored, with the routing slip that it has now. -/
structure Record where
  id : Nat
  event : Data
  slip : Data
  deriving DecidableEq

def Commit.apply (records : List Record) : Commit → List Record
  | .stored id event slip => records ++ [⟨id, event, slip⟩]
  | .updated id slip => records.map fun r => if r.id = id then { r with slip := slip } else r
  | .removed id => records.filter fun r => r.id ≠ id

/-- The records whose first block is written and not unlinked, in the order of their stores. -/
def survivors (ws : List Write) : List Record :=
  (ws.filterMap Write.commit).foldl Commit.apply []

end Atcd.Notify
