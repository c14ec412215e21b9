import Atcd.Core.Run
/-!
# `ACE_Malloc_T`: a first-fit allocator over a memory pool

The free blocks are a ring in ascending order of addresses, with the dummy header `base_`
at the end of the control block as its anchor. A search begins where the last one ended.
A freed block goes to its place and is joined with its neighbours if they touch.

Pointers are addresses in bytes, and header fields are maps from the addresses of headers;
what is in the blocks is not modelled. What the pool replies is part of the call: it is
asked only when the search has come around, and has nothing more to give where the replies
end.

Beside the code's state the model has the chunks of the pool, the pointers that have been
handed out with the bytes that were asked for, and how often a block was put into the list.
-/
namespace Atcd.Malloc

open Function

/-- `sizeof (MALLOC_HEADER)`, `sizeof (ACE_CB)` and how many values `size_t` has. -/
structure Layout where
  header : Nat
  controlBlock : Nat
  sizes : Nat
  header_pos : 0 < header
  header_lt : header < controlBlock

/-- `&cb_ptr_->base_`, which comes last in the control block.
mirrors ACE/ace/Malloc.h:377-380 -/
def Layout.base (lay : Layout) (cb : Nat) : Nat := cb + (lay.controlBlock - lay.header)

/-- In `size_t`.
mirrors ACE/ace/Malloc_T.cpp:623-626 -/
def Layout.nunits (lay : Layout) (nbytes : Nat) : Nat :=
  (nbytes + lay.header - 1) % lay.sizes / lay.header + 1

/-- What the pool is asked for.
mirrors Malloc_T.cpp:685-687 -/
def Layout.request (lay : Layout) (nunits : Nat) : Nat := nunits * lay.header % lay.sizes

structure Heap where
  next : Nat → Nat
  size : Nat → Nat
  freep : Nat
  /-- How often a block was put into the list. -/
  inserted : Nat

namespace Heap

variable (lay : Layout)

/-- The loop of `shared_free`; fuel is for one round.
mirrors Malloc_T.cpp:790-800 -/
def place (h : Heap) (blockp : Nat) : Nat → Nat → Option Nat
  | 0, _ => none
  | fuel + 1, currp =>
    if blockp ≤ currp ∨ h.next currp ≤ blockp then
      if h.next currp ≤ currp ∧ (currp < blockp ∨ blockp < h.next currp) then some currp
      else h.place blockp fuel (h.next currp)
    else some currp

/-- mirrors Malloc_T.cpp:802-810 -/
def joinUpper (h : Heap) (blockp currp : Nat) : Heap :=
  if blockp + h.size blockp * lay.header = h.next currp then
    { h with
      size := update h.size blockp (h.size blockp + h.size (h.next currp))
      next := update h.next blockp (h.next (h.next currp)) }
  else { h with next := update h.next blockp (h.next currp) }

/-- mirrors Malloc_T.cpp:812-820 -/
def joinLower (h : Heap) (blockp currp : Nat) : Heap :=
  if currp + h.size currp * lay.header = blockp then
    { h with
      size := update h.size currp (h.size currp + h.size blockp)
      next := update h.next currp (h.next blockp) }
  else { h with next := update h.next currp blockp }

def insert (h : Heap) (blockp : Nat) : Option Heap :=
  (h.place blockp (h.inserted + 1) h.freep).map fun currp =>
    { (h.joinUpper lay blockp currp).joinLower lay blockp currp with
      freep := currp
      inserted := h.inserted + 1 }

/-- The search for a block that is big enough, until it has come around.
mirrors Malloc_T.cpp:647-731 -/
def scan (h : Heap) (nunits : Nat) : Nat → Nat → Nat → Option (Option (Nat × Nat))
  | 0, _, _ => none
  | fuel + 1, prevp, currp =>
    if nunits ≤ h.size currp then some (some (prevp, currp))
    else if currp = h.freep then some none
    else h.scan nunits fuel currp (h.next currp)

/-- With the block that is taken.
mirrors Malloc_T.cpp:654-676 -/
def take (h : Heap) (nunits prevp currp : Nat) : Heap × Nat :=
  if h.size currp = nunits then
    ({ h with
       next := update h.next prevp (h.next currp)
       freep := prevp }, currp)
  else
    let rest := h.size currp - nunits
    let tail := currp + rest * lay.header
    ({ h with
       next := update h.next tail 0
       size := update (update h.size currp rest) tail nunits
       freep := prevp }, tail)

end Heap

/-- What the pool has given, the control block's chunk among them. -/
structure Chunk where
  addr : Nat
  bytes : Nat
  control : Bool
deriving DecidableEq

structure State where
  /-- `cb_ptr_`. -/
  cb : Option Nat
  heap : Heap
  chunks : List Chunk
  /-- The pointers that have been handed out and the bytes that were asked for. -/
  allocated : List (Nat × Nat)

/-- What the pool replies: nothing, or a chunk and its bytes. -/
abbrev Reply := Option (Nat × Nat)

inductive Act
  | openPool (reply : Reply)
  | malloc (nbytes : Nat) (replies : List Reply)
  | calloc (nbytes : Nat) (replies : List Reply)
  | callocArray (n_elem elem_size : Nat) (replies : List Reply)
  | free (ptr : Nat)

namespace State

variable (lay : Layout)

/-- mirrors Malloc_T.cpp:771-828 -/
def sharedFree (s : State) (ap : Nat) : Option State :=
  if ap = 0 ∨ s.cb = none then some s
  else (s.heap.insert lay (ap - lay.header)).map fun h => { s with heap := h }

/-- A block whose header says where it ends goes to the list. -/
def addBlock (s : State) (p size : Nat) : Option State :=
  { s with heap := { s.heap with
      next := update s.heap.next p 0
      size := update s.heap.size p size } }.sharedFree lay (p + lay.header)

/-- mirrors Malloc_T.cpp:424-496 -/
def openPool (s : State) : Reply → Option State
  | none => some s
  | some (cb, rounded) =>
    let base := lay.base cb
    let s := { s with
      cb := some cb
      chunks := ⟨cb, rounded, true⟩ :: s.chunks
      heap := { s.heap with
        next := update s.heap.next base base
        size := update s.heap.size base 0
        freep := base } }
    if lay.controlBlock + lay.header < rounded then
      s.addBlock lay (base + lay.header) ((rounded - lay.controlBlock) / lay.header)
    else some s

/-- A new chunk of the pool.
mirrors Malloc_T.cpp:691-711 -/
def grow (s : State) (addr bytes : Nat) : Option State :=
  { s with chunks := ⟨addr, bytes, false⟩ :: s.chunks }.addBlock lay addr (bytes / lay.header)

def takeBlock (s : State) (nunits prevp currp : Nat) : State × Option Nat :=
  let (h, b) := s.heap.take lay nunits prevp currp
  ({ s with heap := h }, some (b + lay.header))

/-- The search begins anew after each chunk.
mirrors Malloc_T.cpp:628-731 -/
def search (nunits : Nat) : List Reply → State → Option (State × Option Nat)
  | replies, s =>
    (s.heap.scan nunits (s.heap.inserted + 1) s.heap.freep (s.heap.next s.heap.freep)).bind
      fun
      | some (prevp, currp) => some (s.takeBlock lay nunits prevp currp)
      | none =>
        match replies with
        | [] => some (s, none)
        | none :: _ => some (s, none)
        | some (addr, bytes) :: replies => (s.grow lay addr bytes).bind (search nunits replies)

/-- mirrors Malloc_T.cpp:614-627 -/
def sharedMalloc (s : State) (nbytes : Nat) (replies : List Reply) :
    Option (State × Option Nat) :=
  if s.cb = none then some (s, none) else search lay (lay.nunits nbytes) replies s

/-- What is filled is the contents of the block.
mirrors Malloc_T.cpp:746-757 -/
def calloc (s : State) (nbytes : Nat) (replies : List Reply) : Option (State × Option Nat) :=
  s.sharedMalloc lay nbytes replies

/-- mirrors Malloc_T.cpp:759-768 -/
def callocArray (s : State) (n_elem elem_size : Nat) (replies : List Reply) :
    Option (State × Option Nat) :=
  s.calloc lay (n_elem * elem_size % lay.sizes) replies

/-- A pointer is handed out for a request of `n` bytes. -/
def handOut (n : Nat) : State × Option Nat → State
  | (s, none) => s
  | (s, some p) => { s with allocated := (p, n) :: s.allocated }

end State

def step (lay : Layout) (s : State) : Act → Option State
  | .openPool reply => s.openPool lay reply
  | .malloc nbytes replies => (s.sharedMalloc lay nbytes replies).map (State.handOut nbytes)
  | .calloc nbytes replies => (s.calloc lay nbytes replies).map (State.handOut nbytes)
  | .callocArray n_elem elem_size replies =>
    (s.callocArray lay n_elem elem_size replies).map (State.handOut (n_elem * elem_size))
  | .free ptr => (s.sharedFree lay ptr).map fun s =>
    { s with allocated := s.allocated.filter fun e => e.1 ≠ ptr }

def init : State where
  cb := none
  heap := ⟨fun _ => 0, fun _ => 0, 0, 0⟩
  chunks := []
  allocated := []

end Atcd.Malloc
