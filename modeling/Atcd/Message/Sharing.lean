import Mathlib
/-!
# Message blocks and data blocks

`ACE_Message_Block` and the reference-counted `ACE_Data_Block` it shares: construction by
size, `duplicate`, `clone` and `release` of chains. A chain is the list of its message
blocks, the first one with the others as its continuation. `none` is undefined behaviour:
a null or dangling pointer, a block freed twice or to another allocator, or a lock that is
acquired by its holder.

Every allocation may fail: the calls take the outcomes of their allocations in order.
Message blocks without an allocator come from `new (std::nothrow)`, which evaluates the
arguments of the constructor after the allocation and only if it succeeded.
-/
namespace Atcd.Message.Sharing

/-- The outcomes of the allocations to come; those behind the end of the list succeed. -/
abbrev Allocs := List Bool

def malloc : Allocs → Bool × Allocs
  | [] => (true, [])
  | ok :: allocs => (ok, allocs)

abbrev MessageFlags := UInt64

/-- `ACE_Message_Block::DONT_DELETE` -/
def dontDelete : MessageFlags := 1

/-- The allocator that `ACE_Allocator::instance ()` returns. -/
def allocatorInstance : Nat := 0

/-- What is allocated: message blocks, data blocks and the bytes of data blocks. -/
inductive Cell where
  | messageBlock (id : Nat)
  | dataBlock (id : Nat)
  | bytes (id : Nat)
  deriving DecidableEq, Repr

structure DataBlock where
  type : Int
  curSize : Nat
  maxSize : Nat
  flags : MessageFlags
  base : Option (List UInt8)
  allocatorStrategy : Nat
  lockingStrategy : Option Nat
  referenceCount : Int
  dataBlockAllocator : Nat
  deriving DecidableEq, Repr

structure MessageBlock where
  id : Nat
  rdPtr : Nat
  wrPtr : Nat
  priority : Nat
  dataBlock : Option Nat
  /-- none for `new` and `delete` -/
  messageBlockAllocator : Option Nat
  deriving DecidableEq, Repr

/-- The memory: what is allocated, and from which allocator; the data blocks; and what new
memory holds. -/
structure Heap where
  memory : Cell → Option (Option Nat)
  dataBlocks : Nat → Option DataBlock
  next : Nat
  junk : Nat → UInt8

namespace Heap

def setMemory (h : Heap) (c : Cell) (allocator : Option (Option Nat)) : Heap :=
  { h with memory := fun c' => if c' = c then allocator else h.memory c' }

def setDataBlock (h : Heap) (d : Nat) (db : Option DataBlock) : Heap :=
  { h with dataBlocks := fun d' => if d' = d then db else h.dataBlocks d' }

@[simp] theorem setMemory_memory (h : Heap) (c c' : Cell) (a : Option (Option Nat)) :
    (h.setMemory c a).memory c' = if c' = c then a else h.memory c' := rfl

@[simp] theorem setMemory_dataBlocks (h : Heap) (c : Cell) (a : Option (Option Nat)) :
    (h.setMemory c a).dataBlocks = h.dataBlocks := rfl

@[simp] theorem setMemory_next (h : Heap) (c : Cell) (a : Option (Option Nat)) :
    (h.setMemory c a).next = h.next := rfl

@[simp] theorem setMemory_junk (h : Heap) (c : Cell) (a : Option (Option Nat)) :
    (h.setMemory c a).junk = h.junk := rfl

@[simp] theorem setDataBlock_memory (h : Heap) (d : Nat) (db : Option DataBlock) :
    (h.setDataBlock d db).memory = h.memory := rfl

@[simp] theorem setDataBlock_dataBlocks (h : Heap) (d d' : Nat) (db : Option DataBlock) :
    (h.setDataBlock d db).dataBlocks d' = if d' = d then db else h.dataBlocks d' := rfl

@[simp] theorem setDataBlock_next (h : Heap) (d : Nat) (db : Option DataBlock) :
    (h.setDataBlock d db).next = h.next := rfl

@[simp] theorem setDataBlock_junk (h : Heap) (d : Nat) (db : Option DataBlock) :
    (h.setDataBlock d db).junk = h.junk := rfl

def free (h : Heap) (c : Cell) (allocator : Option Nat) : Option Heap :=
  if h.memory c = some allocator then some (h.setMemory c none) else none

/-- `~ACE_Data_Block` frees the bytes, and the allocator the object.
mirrors ACE/ace/Message_Block.cpp:754-768 -/
def destroyDataBlock (h : Heap) (d : Nat) : Option Heap := do
  let db ← h.dataBlocks d
  let h ← if db.flags &&& dontDelete = 0 ∧ db.base.isSome
    then h.free (.bytes d) (some db.allocatorStrategy) else some h
  let h ← h.free (.dataBlock d) (some db.dataBlockAllocator)
  some (h.setDataBlock d none)

/-- The constructor of a data block; `ok` for the allocation of its bytes. A data block
without them has the size 0.
mirrors Message_Block.cpp:332-381 -/
def constructDataBlock (h : Heap) (size : Nat) (type : Int) (allocatorStrategy : Nat) (lockingStrategy : Option Nat)
    (flags : MessageFlags) (dataBlockAllocator : Nat) (ok : Bool) : Heap × DataBlock :=
  let base := if ok then some ((List.range size).map h.junk) else none
  let size := if ok then size else 0
  let db : DataBlock :=
    { type, curSize := size, maxSize := size, flags, base, allocatorStrategy, lockingStrategy
      referenceCount := 1, dataBlockAllocator }
  let h' := h.setMemory (.dataBlock h.next) (some (some dataBlockAllocator))
  let h' := if ok then h'.setMemory (.bytes h.next) (some (some allocatorStrategy)) else h'
  ({ h'.setDataBlock h.next (some db) with next := h.next + 1 }, db)

/-- The allocation of a data block, its constructor, and the check for its size.
mirrors Message_Block.cpp:715-745,1176-1196 -/
def createDataBlock (h : Heap) (size : Nat) (type : Int) (allocatorStrategy : Nat) (lockingStrategy : Option Nat)
    (flags : MessageFlags) (dataBlockAllocator : Nat) (allocs : Allocs) : Option (Heap × Option Nat × Allocs) :=
  match malloc allocs with
  | (false, allocs) => some (h, none, allocs)
  | (true, allocs) =>
    let (ok, allocs) := malloc allocs
    let d := h.next
    let (h, db) := h.constructDataBlock size type allocatorStrategy lockingStrategy flags dataBlockAllocator ok
    if db.curSize < size then (h.destroyDataBlock d).map fun h => (h, none, allocs)
    else some (h, some d, allocs)

/-- The data block afterwards, none if it has to be destroyed. `held` is the lock that the
caller holds, and `lock` the one it passes on.
mirrors Message_Block.cpp:770-832 -/
def releaseNoDelete (h : Heap) (held lock : Option Nat) (d : Nat) : Option (Heap × Option Nat) := do
  let db ← h.dataBlocks d
  let lockToBeUsed := if lock.isSome then if lock = db.lockingStrategy then none else db.lockingStrategy
    else db.lockingStrategy
  if lockToBeUsed.isSome ∧ lockToBeUsed = held then none
  else
    let db := { db with referenceCount := db.referenceCount - 1 }
    let h := h.setDataBlock d (some db)
    some (h, if db.referenceCount = 0 then none else some d)

/-- mirrors Message_Block.cpp:834-850 -/
def releaseDataBlock (h : Heap) (d : Nat) : Option Heap := do
  match ← h.releaseNoDelete none none d with
  | (h, none) => h.destroyDataBlock d
  | (h, some _) => some h

/-- `release_i` of a message block without continuation: whether its data block has to be
destroyed.
mirrors Message_Block.cpp:931-957 -/
def releaseSelf (h : Heap) (held lock : Option Nat) (mb : MessageBlock) : Option (Heap × Bool) := do
  match mb.dataBlock with
  | none => some (← h.free (.messageBlock mb.id) mb.messageBlockAllocator, false)
  | some d =>
    let (h, result) ← h.releaseNoDelete held lock d
    some (← h.free (.messageBlock mb.id) mb.messageBlockAllocator, result.isNone)

/-- Destroys the data block if that is left to the caller of `release_i`. -/
def destroyIf (h : Heap) (mb : MessageBlock) (destroy : Bool) : Option Heap := do
  if destroy then h.destroyDataBlock (← mb.dataBlock) else some h

/-- The loop of `release_i` over the continuation.
mirrors Message_Block.cpp:905-929 -/
def releaseCont (held lock : Option Nat) : Heap → List MessageBlock → Option Heap
  | h, [] => some h
  | h, tmp :: rest => do
    let (h, destroy) ← h.releaseSelf held lock tmp
    releaseCont held lock (← h.destroyIf tmp destroy) rest

/-- The lock of the data block, if any. -/
def lockOf (h : Heap) (mb : MessageBlock) : Option (Option Nat) :=
  match mb.dataBlock with
  | none => some none
  | some d => (h.dataBlocks d).map (·.lockingStrategy)

/-- `release` of a whole chain; nothing for a null pointer.
mirrors Message_Block.cpp:852-975 -/
def release (h : Heap) : List MessageBlock → Option Heap
  | [] => some h
  | mb :: cont => do
    let lock ← h.lockOf mb
    let h ← releaseCont lock lock h cont
    let (h, destroyDblock) ← h.releaseSelf lock lock mb
    h.destroyIf mb destroyDblock

/-- The new message block, with its memory.
mirrors Message_Block.cpp:672-752 -/
def newMessageBlock (h : Heap) (priority : Nat) (dataBlock : Option Nat) (messageBlockAllocator : Option Nat)
    (rdPtr wrPtr : Nat) : Heap × MessageBlock :=
  ({ h.setMemory (.messageBlock h.next) (some messageBlockAllocator) with next := h.next + 1 },
    { id := h.next, rdPtr, wrPtr, priority, dataBlock, messageBlockAllocator })

/-- A message block by size. The block is constructed also when its data block cannot be
allocated; null if the block itself cannot.
mirrors Message_Block.cpp:424-456,672-752 -/
def construct (h : Heap) (size : Nat) (type : Int) (allocatorStrategy lockingStrategy : Option Nat) (priority : Nat)
    (dataBlockAllocator messageBlockAllocator : Option Nat) (allocs : Allocs) : Option (Heap × List MessageBlock) :=
  match malloc allocs with
  | (false, _) => some (h, [])
  | (true, allocs) => do
    let (h, db, _) ← h.createDataBlock size type (allocatorStrategy.getD allocatorInstance) lockingStrategy 0
      (dataBlockAllocator.getD allocatorInstance) allocs
    let (h, mb) := h.newMessageBlock priority db messageBlockAllocator 0 0
    some (h, [mb])

/-- `ACE_Data_Block::duplicate`
mirrors Message_Block.cpp:986-1003 -/
def duplicateDataBlock (h : Heap) (d : Nat) : Option Heap := do
  let db ← h.dataBlocks d
  some (h.setDataBlock d (some { db with referenceCount := db.referenceCount + 1 }))

/-- The loop of `duplicate`; `top` is the new chain so far.
mirrors Message_Block.cpp:1013-1108 -/
def duplicateLoop (h : Heap) (top : List MessageBlock) (allocs : Allocs) :
    List MessageBlock → Option (Heap × List MessageBlock)
  | [] => some (h, top)
  | current :: rest =>
    match malloc allocs with
    | (false, _) => do some (← h.release top, [])
    | (true, allocs) => do
      let h ← h.duplicateDataBlock (← current.dataBlock)
      let (h, dup) := h.newMessageBlock current.priority current.dataBlock current.messageBlockAllocator
        current.rdPtr current.wrPtr
      duplicateLoop h (top ++ [dup]) allocs rest

/-- `duplicate`: null when an allocation fails. -/
def duplicate (h : Heap) (chain : List MessageBlock) (allocs : Allocs) : Option (Heap × List MessageBlock) :=
  h.duplicateLoop [] allocs chain

/-- The bytes of one buffer copied to the start of another. -/
def memcpy (dst src : Option (List UInt8)) (n : Nat) : Option (List UInt8) :=
  dst.map fun bytes => ((src.getD []).take n ++ bytes.drop n)

/-- `ACE_Data_Block::clone`; null when an allocation fails.
mirrors Message_Block.cpp:1120-1200 -/
def cloneDataBlock (h : Heap) (d : Nat) (mask : MessageFlags) (allocs : Allocs) :
    Option (Heap × Option Nat × Allocs) := do
  let db ← h.dataBlocks d
  match ← h.createDataBlock db.maxSize db.type db.allocatorStrategy db.lockingStrategy db.flags
      db.dataBlockAllocator allocs with
  | (h, none, allocs) => some (h, none, allocs)
  | (h, some nb, allocs) =>
    let new ← h.dataBlocks nb
    let new := { new with
      flags := new.flags &&& ~~~(mask ||| dontDelete)
      base := memcpy new.base db.base db.curSize }
    some (h.setDataBlock nb (some new), some nb, allocs)

/-- The loop of `clone`: the new chain, null when an allocation failed; and the message
blocks that are left allocated then. `root` is the new chain so far.
mirrors Message_Block.cpp:1202-1266 -/
def cloneLoop (h : Heap) (mask : MessageFlags) (root : List MessageBlock) (allocs : Allocs) :
    List MessageBlock → Option (Heap × List MessageBlock × List MessageBlock)
  | [] => some (h, root, [])
  | old :: rest => do
    match ← h.cloneDataBlock (← old.dataBlock) mask allocs with
    | (h, none, _) => some (h, [], root)
    | (h, some db, allocs) =>
      match malloc allocs with
      | (false, _) =>
        match old.messageBlockAllocator with
        -- ACE_NEW_RETURN: the function returns and the data block stays
        | none => some (h, [], root)
        | some _ => some (← h.releaseDataBlock db, [], root)
      | (true, allocs) =>
        let (h, new) := h.newMessageBlock old.priority (some db) old.messageBlockAllocator old.rdPtr old.wrPtr
        cloneLoop h mask (root ++ [new]) allocs rest

def clone (h : Heap) (chain : List MessageBlock) (mask : MessageFlags) (allocs : Allocs) :
    Option (Heap × List MessageBlock × List MessageBlock) := h.cloneLoop mask [] allocs chain

end Heap

/-- The memory, the user's pointers to chains (empty for null), and the message blocks that
no pointer leads to any more. -/
structure BlockSys where
  heap : Heap
  chains : List (List MessageBlock)
  lost : List MessageBlock

inductive BlockOp where
  | construct (size : Nat) (type : Int) (allocatorStrategy lockingStrategy : Option Nat) (priority : Nat)
      (dataBlockAllocator messageBlockAllocator : Option Nat) (allocs : Allocs)
  /-- Block `k` of a chain gets another chain as its continuation; what followed it is left
  in the pointer to that chain. -/
  | cont (i k j : Nat)
  | duplicate (i : Nat) (allocs : Allocs)
  | clone (i : Nat) (mask : MessageFlags) (allocs : Allocs)
  | release (i : Nat)
  /-- The user moves the pointers of block `k` of a chain, or writes its bytes. -/
  | seek (i k rdPtr wrPtr : Nat)
  | write (i k : Nat) (bytes : List UInt8)

namespace BlockSys

def fresh (junk : Nat → UInt8) : BlockSys := ⟨⟨fun _ => none, fun _ => none, 0, junk⟩, [], []⟩

/-- One operation; the results of `construct`, `duplicate` and `clone` are new pointers. -/
def step (s : BlockSys) : BlockOp → Option BlockSys
  | .construct size type allocatorStrategy lockingStrategy priority dataBlockAllocator
      messageBlockAllocator allocs => do
    let (heap, mb) ← s.heap.construct size type allocatorStrategy lockingStrategy priority dataBlockAllocator
      messageBlockAllocator allocs
    some { s with heap, chains := s.chains ++ [mb] }
  | .cont i k j => do
    let ci ← s.chains[i]?
    let cj ← s.chains[j]?
    if i = j ∨ ci.length ≤ k then none
    else some { s with chains := (s.chains.set i (ci.take (k + 1) ++ cj)).set j (ci.drop (k + 1)) }
  | .duplicate i allocs => do
    let (heap, dup) ← s.heap.duplicate (← s.chains[i]?) allocs
    some { s with heap, chains := s.chains ++ [dup] }
  | .clone i mask allocs => do
    let (heap, new, lost) ← s.heap.clone (← s.chains[i]?) mask allocs
    some { s with heap, chains := s.chains ++ [new], lost := lost ++ s.lost }
  | .release i => do
    let heap ← s.heap.release (← s.chains[i]?)
    some { s with heap, chains := s.chains.set i [] }
  | .seek i k rdPtr wrPtr => do
    let ci ← s.chains[i]?
    let mb ← ci[k]?
    some { s with chains := s.chains.set i (ci.set k { mb with rdPtr, wrPtr }) }
  | .write i k bytes => do
    let d ← (← (← s.chains[i]?)[k]?).dataBlock
    let db ← s.heap.dataBlocks d
    if db.base.map (·.length) = some bytes.length then
      some { s with heap := s.heap.setDataBlock d (some { db with base := some bytes }) }
    else none

def live (s : BlockSys) : List MessageBlock := s.chains.flatten ++ s.lost

end BlockSys

end Atcd.Message.Sharing
