import Atcd.Core.Run
import Atcd.Core.Store
/-!
# `generic_sequence`: CORBA sequences of strings and of values

A sequence has a buffer with room for `maximum_` elements, of which `length_` are visible,
and releases it if `release_` is set. The allocation traits say how buffers come about
(bounded or not), the element traits how elements are made, copied and released: a string
is a pointer to characters of its own, a value is stored in the buffer.

Allocation never fails. What is freed is gone, and freeing or reading it again is a step
that does not exist.

Beside the code's state the model has for every sequence the list it stands for, and for
every buffer of the caller what the caller has put there.
-/
namespace Atcd.Sequences
open Atcd.Core Function

/-- An element in a buffer: for strings a null pointer, the shared empty string or a string
of its own, for values a value or nothing yet. -/
inductive Cell (T : Type)
  | null
  | shared
  | str (k : Nat)
  | val (v : T)
  | unset
deriving DecidableEq

/-- The two traits of the template, the contents of the default element, `strlen`, whether
`new value_type[n]` initialises values, whether empty strings are shared
(`TAO_NO_SHARED_NULL_CORBA_STRING` is not defined), and the bound. -/
structure Traits (T : Type) where
  isString : Bool
  dflt : T
  strlen : T → Nat
  inits : Bool
  sharesNull : Bool
  bound : Option Nat

/-- `ACE_UINT32_MAX`. -/
def ulongMax : Nat := 2 ^ 32 - 1

structure Heap (T : Type) where
  strs : Nat → Option T
  nextStr : Nat
  bufs : Store Nat (Cell T)
  nextBuf : Nat

section
variable {T : Type}

namespace Heap

def newStr (h : Heap T) (v : T) : Heap T × Cell T :=
  ({ h with
     strs := update h.strs h.nextStr (some v)
     nextStr := h.nextStr + 1 }, .str h.nextStr)

def newBuf (h : Heap T) (cells : List (Cell T)) : Heap T × Nat :=
  ({ h with
     bufs := h.bufs.put h.nextBuf cells
     nextBuf := h.nextBuf + 1 }, h.nextBuf)

def write (h : Heap T) (b off : Nat) (cells : List (Cell T)) : Option (Heap T) :=
  (h.bufs.write b off cells).map fun bufs => { h with bufs := bufs }

/-- The contents of an element; a null pointer and a value that is not there yet have
none. -/
def look (t : Traits T) (h : Heap T) : Cell T → Option (Option T)
  | .null => some none
  | .shared => some (some t.dflt)
  | .str k => (h.strs k).map some
  | .val v => some (some v)
  | .unset => some none

end Heap

namespace Traits

variable (t : Traits T)

/-! ## The element traits -/

/-- `CORBA::string_dup` of contents; the length goes through a `ULong`.
mirrors TAO/tao/String_Alloc.cpp:19-59 -/
def stringDup [DecidableEq T] (h : Heap T) (v : T) : Option (Heap T × Cell T) :=
  if t.sharesNull = true ∧ v = t.dflt then some (h, .shared)
  else if t.strlen v < ulongMax then some (h.newStr v) else none

/-- mirrors TAO/tao/String_Traits_Base_T.h:50-53, TAO/tao/Value_Traits_T.h:40-44 -/
def defaultInitializer (h : Heap T) : Heap T × Cell T :=
  if t.isString then if t.sharesNull then (h, .shared) else h.newStr t.dflt
  else (h, .val t.dflt)

/-- mirrors String_Traits_Base_T.h:55-58, Value_Traits_T.h:51-56 -/
def duplicate [DecidableEq T] (h : Heap T) : Cell T → Option (Heap T × Cell T)
  | .shared => t.stringDup h t.dflt
  | .str k => (h.strs k).bind (t.stringDup h)
  | c => some (h, c)

/-- mirrors String_Alloc.cpp:78-85 -/
def release (h : Heap T) : Cell T → Option (Heap T)
  | .str k => (h.strs k).map fun _ => { h with strs := update h.strs k none }
  | .null => some h
  | .shared => some h
  | _ => none

/-- `n` elements by `default_initializer`.
mirrors TAO/tao/String_Traits_T.h:37-41, Value_Traits_T.h:40-44 -/
def initialized (h : Heap T) : Nat → Heap T × List (Cell T)
  | 0 => (h, [])
  | n + 1 =>
    let (h, c) := t.defaultInitializer h
    let (h, cells) := initialized h n
    (h, c :: cells)

/-- mirrors String_Traits_T.h:43-49, Value_Traits_T.h:51-56 -/
def copied [DecidableEq T] (h : Heap T) : List (Cell T) → Option (Heap T × List (Cell T))
  | [] => some (h, [])
  | c :: cells => (t.duplicate h c).bind fun (h, c) => (copied h cells).map fun (h, cells) =>
    (h, c :: cells)

def releaseAll (h : Heap T) : List (Cell T) → Option (Heap T)
  | [] => some h
  | c :: cells => (release h c).bind fun h => releaseAll h cells

/-- mirrors String_Traits_T.h:59-63, Value_Traits_T.h:46-49 -/
def releaseRange (h : Heap T) (cells : List (Cell T)) : Option (Heap T) :=
  if t.isString then releaseAll h cells else some h

/-- Strings are exchanged, values are copied.
mirrors String_Traits_T.h:51-57, Value_Traits_T.h:58-63 -/
def copySwapRange (h : Heap T) (old b length : Nat) : Option (Heap T) :=
  (h.bufs.read old 0 length).bind fun cells => (h.bufs.read b 0 length).bind fun new =>
    (if t.isString then h.write old 0 new else some h).bind fun h => h.write b 0 cells

/-! ## The allocation traits -/

/-- The elements of a new buffer for `maximum` elements. -/
def room (maximum : Nat) : Nat := t.bound.getD maximum

def refuses (maximum : Nat) : Bool := t.isString && t.bound.isNone && maximum == ulongMax

def fresh : Cell T := if t.inits then .val t.dflt else .unset

/-- mirrors TAO/tao/Unbounded_Reference_Allocation_Traits_T.h:46-57,
TAO/tao/Bounded_Reference_Allocation_Traits_T.h:46-52,
TAO/tao/Unbounded_Value_Allocation_Traits_T.h:41-44 -/
def allocbuf (h : Heap T) (maximum : Nat) : Heap T × Option Nat :=
  if t.refuses maximum then (h, none)
  else if t.isString then
    let (h, cells) := t.initialized h (t.room maximum)
    let (h, b) := h.newBuf cells
    (h, some b)
  else
    let (h, b) := h.newBuf (List.replicate (t.room maximum) t.fresh)
    (h, some b)

/-- mirrors Unbounded_Reference_Allocation_Traits_T.h:59-70,
Bounded_Reference_Allocation_Traits_T.h:54-60,
Unbounded_Value_Allocation_Traits_T.h:46-49 -/
def allocbufNoinit (h : Heap T) (maximum : Nat) : Heap T × Option Nat :=
  if t.refuses maximum then (h, none)
  else
    let (h, b) := h.newBuf
      (List.replicate (t.room maximum) (if t.isString then .null else t.fresh))
    (h, some b)

/-- The elements that `freebuf` releases: those up to the end that the header of a buffer
has, or as many as the bound says.
mirrors Unbounded_Reference_Allocation_Traits_T.h:72-84,
Bounded_Reference_Allocation_Traits_T.h:62-66,
Unbounded_Value_Allocation_Traits_T.h:51-54 -/
def freebuf (h : Heap T) (buffer : Option Nat) : Option (Heap T) :=
  match buffer with
  | none => if t.isString = true ∧ 0 < t.bound.getD 0 then none else some h
  | some b => (h.bufs b).bind fun cells =>
    (h.bufs.read b 0 (t.room cells.length)).bind fun cells =>
      (t.releaseRange h cells).bind fun h => (h.bufs.free b).map fun bufs => { h with bufs := bufs }

end Traits

/-- mirrors TAO/tao/Generic_Sequence_T.h:432-443 -/
structure Seq where
  maximum : Nat
  length : Nat
  buffer : Option Nat
  release : Bool
deriving DecidableEq

namespace Seq

variable (t : Traits T)

/-- mirrors Generic_Sequence_T.h:107-114 -/
def empty : Seq := ⟨t.bound.getD 0, 0, none, false⟩

/-- mirrors Generic_Sequence_T.h:116-123 -/
def ofMaximum (h : Heap T) (maximum : Nat) : Heap T × Seq :=
  let (h, b) := t.allocbuf h maximum
  (h, ⟨maximum, 0, b, true⟩)

/-- mirrors Generic_Sequence_T.h:137-161 -/
def copy [DecidableEq T] (h : Heap T) (rhs : Seq) : Option (Heap T × Seq) :=
  match rhs.buffer with
  | none => some (h, ⟨rhs.maximum, rhs.length, none, false⟩)
  | some src =>
    if rhs.maximum = 0 then some (h, ⟨rhs.maximum, rhs.length, none, false⟩)
    else do
      let (h, b) := t.allocbufNoinit h rhs.maximum
      let b ← b
      let (h, cells) := t.initialized h (rhs.maximum - rhs.length)
      let h ← h.write b rhs.length cells
      let cells ← h.bufs.read src 0 rhs.length
      let (h, cells) ← t.copied h cells
      let h ← h.write b 0 cells
      some (h, ⟨rhs.maximum, rhs.length, some b, true⟩)

/-- mirrors Generic_Sequence_T.h:171-177 -/
def destroy (h : Heap T) (s : Seq) : Option (Heap T) :=
  if s.release then t.freebuf h s.buffer else some h

/-- The old contents go with the temporary.
mirrors Generic_Sequence_T.h:163-169 -/
def assign [DecidableEq T] (h : Heap T) (s rhs : Seq) : Option (Heap T × Seq) := do
  let (h, tmp) ← copy t h rhs
  let h ← s.destroy t h
  some (h, tmp)

/-- The visible elements go to the new buffer.
mirrors Generic_Sequence_T.h:238-241 -/
def moveTo (h : Heap T) (s : Seq) (b : Nat) : Option (Heap T) :=
  if s.length = 0 then some h else s.buffer.bind fun old => t.copySwapRange h old b s.length

/-- The branch of `length` for a length beyond the maximum.
mirrors Generic_Sequence_T.h:229-244 -/
def grow (h : Heap T) (s : Seq) (length : Nat) : Option (Heap T × Seq) := do
  let (h, b) := t.allocbufNoinit h length
  let b ← b
  let (h, cells) := t.initialized h (length - s.length)
  let h ← h.write b s.length cells
  let h ← s.moveTo t h b
  let h ← s.destroy t h
  some (h, ⟨length, length, some b, true⟩)

/-- mirrors Generic_Sequence_T.h:197-245 -/
def setLength (h : Heap T) (s : Seq) (length : Nat) : Option (Heap T × Seq) :=
  if length ≤ s.maximum then
    match s.buffer with
    | none =>
      let (h, b) := t.allocbuf h s.maximum
      some (h, ⟨s.maximum, length, b, true⟩)
    | some b =>
      if length < s.length ∧ s.release = true then do
        let cells ← h.bufs.read b length (s.length - length)
        let h ← t.releaseRange h cells
        let (h, cells) := t.initialized h (s.length - length)
        let h ← h.write b length cells
        some (h, { s with length := length })
      else some (h, { s with length := length })
  else s.grow t h length

/-- mirrors Generic_Sequence_T.h:266-274 -/
def replace (h : Heap T) (s : Seq) (maximum length : Nat) (data : Option Nat) (release : Bool) :
    Option (Heap T × Seq) := do
  let h ← s.destroy t h
  some (h, ⟨maximum, length, data, release⟩)

/-- With the buffer that is returned.
mirrors Generic_Sequence_T.h:320-343 -/
def getBuffer (h : Heap T) (s : Seq) (orphan : Bool) : Heap T × Seq × Option Nat :=
  if orphan = true ∧ s.release = false then (h, s, none)
  else
    let (h, s) :=
      match s.buffer with
      | none =>
        let (h, b) := t.allocbuf h s.maximum
        (h, { s with
          buffer := b
          release := s.release || !orphan })
      | some _ => (h, s)
    if orphan = false then (h, s, s.buffer) else (h, empty t, s.buffer)

end Seq

/-- The sequences of a program, under names. -/
structure State (σ : Type*) (T : Type) where
  heap : Heap T
  seqs : σ → Option Seq
  /-- The list that the sequence stands for. -/
  value : σ → List (Option T)
  /-- The caller's buffers and what is in them. -/
  caller : Nat → Option (List (Cell T) × List (Option T))

/-- The operations, and a buffer that the caller makes. -/
inductive Act (σ : Type*) (T : Type)
  | callerBuffer (contents : List (Option T))
  | construct (a : σ)
  | constructMaximum (a : σ) (maximum : Nat)
  | constructWith (a : σ) (maximum length : Nat) (data : Option Nat) (release : Bool)
  | constructCopy (a b : σ)
  | destroy (a : σ)
  | assign (a b : σ)
  | length (a : σ) (length : Nat)
  | replace (a : σ) (maximum length : Nat) (data : Option Nat) (release : Bool)
  | swap (a b : σ)
  | getBuffer (a : σ) (orphan : Bool)

variable {σ : Type*} [DecidableEq σ]

namespace State

def put (s : State σ T) (a : σ) (h : Heap T) (x : Seq) (v : List (Option T)) : State σ T :=
  { s with
    heap := h
    seqs := update s.seqs a (some x)
    value := update s.value a v }

/-- The contents of the first elements of a caller's buffer. -/
def given (s : State σ T) (data : Option Nat) (length : Nat) : List (Option T) :=
  match data.bind s.caller with
  | some (_, contents) => contents.take length
  | none => []

/-- A buffer handed over with `release` is no longer the caller's. -/
def hand (s : State σ T) (data : Option Nat) (release : Bool) : State σ T :=
  match data with
  | some b => if release then { s with caller := update s.caller b none } else s
  | none => s

/-- The elements that a caller makes: for strings pointers, for values values. -/
def makeCells (t : Traits T) (h : Heap T) : List (Option T) → Heap T × List (Cell T)
  | [] => (h, [])
  | none :: contents =>
    let (h, cells) := makeCells t h contents
    (h, (if t.isString then .null else .unset) :: cells)
  | some v :: contents =>
    let (h, c) := if t.isString then h.newStr v else (h, .val v)
    let (h, cells) := makeCells t h contents
    (h, c :: cells)

/-- The list after `length`: default elements are added, in a buffer that is not the
sequence's the caller's next ones. -/
def resized (t : Traits T) (s : State σ T) (a : σ) (x : Seq) (length : Nat) :
    List (Option T) :=
  if x.release = false ∧ x.buffer.isSome = true ∧ length ≤ x.maximum then
    s.given x.buffer length
  else (s.value a).take length ++ List.replicate (length - (s.value a).length) (some t.dflt)

end State

/-- The caller's buffer as it is when a sequence has yielded it. -/
def yielded (t : Traits T) (h : Heap T) (b : Nat) : Option (List (Cell T) × List (Option T)) :=
  (h.bufs b).map fun cells => (cells, cells.map fun c => (h.look t c).getD none)

def step [DecidableEq T] (t : Traits T) (s : State σ T) : Act σ T → Option (State σ T)
  | .callerBuffer contents =>
    let (h, cells) := State.makeCells t s.heap contents
    let (h, b) := h.newBuf cells
    some { s with
      heap := h
      caller := update s.caller b (some (cells, contents)) }
  | .construct a =>
    if s.seqs a = none then some (s.put a s.heap (Seq.empty t) []) else none
  | .constructMaximum a maximum =>
    if s.seqs a = none then
      some (s.put a (Seq.ofMaximum t s.heap maximum).1 (Seq.ofMaximum t s.heap maximum).2 [])
    else none
  | .constructWith a maximum length data release =>
    if s.seqs a = none then
      some ((s.put a s.heap ⟨maximum, length, data, release⟩ (s.given data length)).hand data
        release)
    else none
  | .constructCopy a b => (s.seqs b).bind fun y =>
    if s.seqs a = none then (Seq.copy t s.heap y).map fun (h, x) => s.put a h x (s.value b)
    else none
  | .destroy a => (s.seqs a).bind fun x => (x.destroy t s.heap).map fun h =>
    { s with
      heap := h
      seqs := update s.seqs a none }
  | .assign a b => (s.seqs a).bind fun x => (s.seqs b).bind fun y =>
    (x.assign t s.heap y).map fun (h, x) => s.put a h x (s.value b)
  | .length a length => (s.seqs a).bind fun x =>
    (x.setLength t s.heap length).map fun (h, y) => s.put a h y (s.resized t a x length)
  | .replace a maximum length data release => (s.seqs a).bind fun x =>
    (x.replace t s.heap maximum length data release).map fun (h, y) =>
      (s.put a h y (s.given data length)).hand data release
  | .swap a b => (s.seqs a).bind fun x => (s.seqs b).bind fun y =>
    some ((s.put a s.heap y (s.value b)).put b s.heap x (s.value a))
  | .getBuffer a orphan => (s.seqs a).bind fun x =>
    let (h, y, b) := x.getBuffer t s.heap orphan
    if orphan = true ∧ x.release = true then
      some { s.put a h y [] with
        caller := match b with
          | some b => update s.caller b (yielded t h b)
          | none => s.caller }
    else some (s.put a h y (s.value a))

def init : State σ T where
  heap := ⟨fun _ => none, 0, fun _ => none, 0⟩
  seqs := fun _ => none
  value := fun _ => []
  caller := fun _ => none

end

end Atcd.Sequences
