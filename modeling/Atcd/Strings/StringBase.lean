import Atcd.Core.Run
import Atcd.Core.Store
/-!
# `ACE_String_Base`: strings over owned, adopted and shared buffers

A string points to its characters with `rep_`: to a buffer from the allocator, which it
releases (`release_`), to a buffer of the caller that `set` with `release == false` has
adopted, or to the shared `NULL_String_` of all empty strings. `buf_len_` is the number
of characters of the buffer and decides whether an operation writes in place.

A cell of a buffer is `none` until it is written. The allocator never fails and gives
every request a buffer of its own. Lengths of existing buffers are `Nat`; `fast_resize`
computes with the caller's number, in 64 bits.

Beside the code's state the model logs the places that are written, and has for every
string the sequence of characters it stands for and whether a copying operation was the
last to change it.
-/
namespace Atcd.Strings
open Atcd.Core

/-- Where a buffer is: `NULL_String_`, a caller's buffer, one from the allocator, and the
character that `operator+=` is given by value. -/
inductive Place
  | null
  | caller (i : Nat)
  | heap (k : Nat)
  | arg
deriving DecidableEq

def Place.isHeap : Place → Bool
  | .heap _ => true
  | _ => false

def Place.isCaller : Place → Bool
  | .caller _ => true
  | _ => false

structure Ptr where
  place : Place
  off : Nat
deriving DecidableEq

/-- What the template has of its character type: the terminator, `sizeof`, and the
character whose bytes `memset` writes. -/
structure CharType (χ : Type*) where
  nul : χ
  size : Nat
  fill : χ → χ

structure Heap (χ : Type*) where
  cells : Store Place (Option χ)
  next : Nat
  /-- The places of all writes so far. -/
  writes : List Place

namespace Heap

variable {χ : Type*}

def malloc (h : Heap χ) (n : Nat) : Heap χ × Ptr :=
  ({ h with
     cells := h.cells.put (.heap h.next) (List.replicate n none)
     next := h.next + 1 }, ⟨.heap h.next, 0⟩)

/-- Only what `malloc` has returned can be freed. -/
def free (h : Heap χ) : Ptr → Option (Heap χ)
  | ⟨.heap k, 0⟩ => (h.cells.free (.heap k)).map fun cells => { h with cells := cells }
  | _ => none

/-- Writes from `p + off` on. -/
def write (h : Heap χ) (p : Option Ptr) (off : Nat) (data : List (Option χ)) :
    Option (Heap χ) :=
  p.bind fun p => (h.cells.write p.place (p.off + off) data).map fun cells =>
    { h with
      cells := cells
      writes := p.place :: h.writes }

/-- `memcpy` to `p + off`; the ranges must not overlap. -/
def memcpy (h : Heap χ) (p : Option Ptr) (off : Nat) (s : Option Ptr) (n : Nat) :
    Option (Heap χ) :=
  p.bind fun q => s.bind fun s => (h.cells.read s.place s.off n).bind fun data =>
    if q.place = s.place ∧ s.off < q.off + off + n ∧ q.off + off < s.off + n then none
    else h.write p off data

def chars (h : Heap χ) (s : Option Ptr) (n : Nat) : List χ :=
  ((s.bind fun s => h.cells.read s.place s.off n).getD []).filterMap id

/-- There are characters from a pointer on. -/
def readable (h : Heap χ) (s : Ptr) (n : Nat) : Bool :=
  match h.cells.read s.place s.off n with
  | some data => data.all Option.isSome
  | none => false

/-- The number of cells before the terminator. -/
def scan [DecidableEq χ] (nul : χ) : List (Option χ) → Option Nat
  | [] => none
  | none :: _ => none
  | some c :: cells => if c = nul then some 0 else (scan nul cells).map (· + 1)

def strlen [DecidableEq χ] (h : Heap χ) (nul : χ) (s : Ptr) : Option Nat :=
  (h.cells s.place).bind fun cells => scan nul (cells.drop s.off)

/-- The length of a null-terminated argument, 0 where there is none. -/
def argLen [DecidableEq χ] (h : Heap χ) (nul : χ) : Option Ptr → Option Nat
  | none => some 0
  | some s => h.strlen nul s

end Heap

/-- mirrors ACE/ace/String_Base.h:565-586 -/
structure Str where
  len : Nat
  bufLen : Nat
  rep : Option Ptr
  release : Bool
deriving DecidableEq

namespace Str

variable {χ : Type*}

/-- mirrors ACE/ace/String_Base.cpp:25-34 -/
def null : Str := ⟨0, 0, some ⟨.null, 0⟩, false⟩

/-- The members before a constructor calls `set` or `resize`.
mirrors String_Base.cpp:38-48 -/
def raw : Str := ⟨0, 0, none, false⟩

/-- The constant for no position, `-1` as a `size_t`. -/
def npos : Nat := 2 ^ 64 - 1

/-- The release of the buffer in every operation that gives it up, and in the destructor.
mirrors String_Base.cpp:117-123 -/
def freeRep (x : Str) (h : Heap χ) : Option (Heap χ) :=
  if x.bufLen ≠ 0 ∧ x.release = true then x.rep.bind h.free else some h

/-- The copy with its terminator, at the end of both branches of `set`. -/
def copyIn (c : CharType χ) (x : Str) (h : Heap χ) (s : Option Ptr) (len : Nat) :
    Option (Heap χ) := do
  let h ← h.memcpy x.rep 0 s len
  h.write x.rep len [some c.nul]

/-- mirrors String_Base.cpp:126-182 -/
def set (c : CharType χ) (x : Str) (h : Heap χ) (s : Option Ptr) (len : Nat) (release : Bool) :
    Option (Heap χ × Str) :=
  if s ≠ none ∧ len ≠ 0 ∧ release = true ∧ x.bufLen < len + 1 then do
    let (h, temp) := h.malloc (len + 1)
    let h ← x.freeRep h
    let y : Str := ⟨len, len + 1, some temp, true⟩
    let h ← y.copyIn c h s len
    some (h, y)
  else if s = none ∨ len = 0 then do
    let h ← x.freeRep h
    some (h, null)
  else if release = false then do
    let h ← x.freeRep h
    some (h, ⟨len, len, s, false⟩)
  else do
    let h ← x.copyIn c h s len
    some (h, { x with len := len })

/-- mirrors String_Base.cpp:338-346 -/
def setZ [DecidableEq χ] (c : CharType χ) (x : Str) (h : Heap χ) (s : Option Ptr)
    (release : Bool) : Option (Heap χ × Str) :=
  (h.argLen c.nul s).bind fun len => x.set c h s len release

/-- The branch of `append` that allocates.
mirrors String_Base.cpp:224-244 -/
def grow (x : Str) (h : Heap χ) (s : Option Ptr) (slen : Nat) : Option (Heap χ × Str) := do
  let newBufLen := max (x.len + slen + 1) (x.bufLen + x.bufLen / 2)
  let (h, t) := h.malloc newBufLen
  let h ← h.memcpy (some t) 0 x.rep x.len
  let h ← h.memcpy (some t) x.len s slen
  let h ← x.freeRep h
  some (h, ⟨x.len, newBufLen, some t, true⟩)

/-- mirrors String_Base.cpp:210-251 -/
def append (c : CharType χ) (x : Str) (h : Heap χ) (s : Option Ptr) (slen : Nat) :
    Option (Heap χ × Str) :=
  if slen > 0 ∧ slen ≠ npos then do
    let (h, x) ←
      if x.bufLen ≥ x.len + slen + 1 then (h.memcpy x.rep x.len s slen).map fun h => (h, x)
      else x.grow h s slen
    let x := { x with len := x.len + slen }
    let h ← h.write x.rep x.len [some c.nul]
    some (h, x)
  else some (h, x)

/-- mirrors String_Base.cpp:633-640 -/
def appendZ [DecidableEq χ] (c : CharType χ) (x : Str) (h : Heap χ) (s : Option Ptr) :
    Option (Heap χ × Str) :=
  (h.argLen c.nul s).bind fun slen => x.append c h s slen

/-- mirrors String_Base.cpp:651-659 -/
def appendChar (c : CharType χ) (x : Str) (h : Heap χ) (ch : χ) : Option (Heap χ × Str) :=
  x.append c { h with cells := h.cells.put .arg [some ch] } (some ⟨.arg, 0⟩) 1

/-- The number of characters of the buffer that is asked for `n` characters. -/
def room (c : CharType χ) (n : Nat) : Nat := n * c.size % 2 ^ 64 / c.size

/-- mirrors String_Base.cpp:272-290 -/
def fastResize (c : CharType χ) (x : Str) (h : Heap χ) (len : Nat) : Option (Heap χ × Str) := do
  let (h, x) ←
    if x.bufLen ≤ len then do
      let h ← x.freeRep h
      let (h, t) := h.malloc (room c ((len + 1) % 2 ^ 64))
      some (h, ⟨x.len, (len + 1) % 2 ^ 64, some t, true⟩)
    else some (h, x)
  let x := { x with len := 0 }
  if len > 0 then do
    let h ← h.write x.rep 0 [some c.nul]
    some (h, x)
  else some (h, x)

/-- mirrors String_Base.cpp:262-270 -/
def resize (c : CharType χ) (x : Str) (h : Heap χ) (len : Nat) (ch : χ) :
    Option (Heap χ × Str) := do
  let (h, x) ← x.fastResize c h len
  let h ← h.write x.rep 0 (List.replicate x.bufLen (some (c.fill ch)))
  some (h, x)

/-- mirrors String_Base.cpp:348-364 -/
def fastClear (c : CharType χ) (x : Str) (h : Heap χ) : Option (Heap χ × Str) :=
  if x.release then
    if x.rep ≠ some ⟨.null, 0⟩ then do
      let h ← h.write x.rep 0 [some c.nul]
      some (h, { x with len := 0 })
    else some (h, { x with len := 0 })
  else
    some (h, { x with
      len := 0
      bufLen := 0
      rep := some ⟨.null, 0⟩ })

/-- mirrors String_Base.cpp:292-311 -/
def clear (c : CharType χ) (x : Str) (h : Heap χ) (release : Bool) : Option (Heap χ × Str) :=
  if release then do
    let h ← x.freeRep h
    some (h, null)
  else x.fastClear c h

end Str

/-- The strings of a program, under names. -/
structure State (σ χ : Type*) where
  heap : Heap χ
  strings : σ → Option Str
  /-- What the string stands for. -/
  value : σ → List χ
  /-- A copying operation was the last to change the string. -/
  copied : σ → Bool

/-- The operations; `Z` marks those with a null-terminated argument. -/
inductive Act (σ χ : Type*)
  | construct (a : σ)
  | constructWith (a : σ) (s : Option Ptr) (len : Nat) (release : Bool)
  | constructCopy (a b : σ)
  | constructRoom (a : σ) (len : Nat) (ch : χ)
  | destroy (a : σ)
  | set (a : σ) (s : Option Ptr) (len : Nat) (release : Bool)
  | setZ (a : σ) (s : Option Ptr) (release : Bool)
  | assign (a b : σ)
  | assignZ (a : σ) (s : Option Ptr)
  | append (a : σ) (s : Option Ptr) (slen : Nat)
  | appendZ (a : σ) (s : Option Ptr)
  | plus (a b : σ)
  | plusChar (a : σ) (ch : χ)
  | resize (a : σ) (len : Nat) (ch : χ)
  | fastResize (a : σ) (len : Nat)
  | clear (a : σ) (release : Bool)
  | fastClear (a : σ)
  | swap (a b : σ)

section
variable {σ χ : Type*} [DecidableEq σ]

/-- The result of an operation on the string with a name, what the string then stands
for, and whether it is copied. -/
def State.put (s : State σ χ) (a : σ) (r : Heap χ × Str) (v : List χ) (copied : Bool) :
    State σ χ where
  heap := r.1
  strings := Function.update s.strings a (some r.2)
  value := Function.update s.value a v
  copied := Function.update s.copied a copied

def State.create (s : State σ χ) (a : σ) (r : Option (Heap χ × Str)) (v : List χ)
    (copied : Bool) : Option (State σ χ) :=
  if s.strings a = none then r.map fun r => s.put a r v copied else none

def State.change (s : State σ χ) (a : σ) (f : Str → Option (Heap χ × Str)) (v : List χ)
    (copied : Bool) : Option (State σ χ) :=
  (s.strings a).bind fun x => (f x).map fun r => s.put a r v copied

/-- The characters before the terminator, none where there is no argument. -/
def State.charsZ [DecidableEq χ] (c : CharType χ) (s : State σ χ) (p : Option Ptr) : List χ :=
  s.heap.chars p ((s.heap.argLen c.nul p).getD 0)

/-- mirrors String_Base.cpp:25-123, 313-336, 465-473, 633-659 -/
def step [DecidableEq χ] (c : CharType χ) (s : State σ χ) : Act σ χ → Option (State σ χ)
  | .construct a => s.create a (some (s.heap, Str.null)) [] false
  | .constructWith a p len release =>
    s.create a (Str.raw.set c s.heap p len release) (s.heap.chars p len) release
  | .constructCopy a b => (s.strings b).bind fun y =>
    s.create a (Str.raw.set c s.heap y.rep y.len true) (s.value b) true
  | .constructRoom a len ch => s.create a (Str.raw.resize c s.heap len ch) [] false
  | .destroy a => (s.strings a).bind fun x => (x.freeRep s.heap).map fun h =>
    { s with
      heap := h
      strings := Function.update s.strings a none }
  | .set a p len release =>
    s.change a (·.set c s.heap p len release) (s.heap.chars p len) release
  | .setZ a p release => s.change a (·.setZ c s.heap p release) (s.charsZ c p) release
  | .assign a b => (s.strings b).bind fun y =>
    if a = b then some s else s.change a (·.set c s.heap y.rep y.len true) (s.value b) true
  | .assignZ a p =>
    if p = none then some s else s.change a (·.setZ c s.heap p true) (s.charsZ c p) true
  | .append a p slen =>
    s.change a (·.append c s.heap p slen)
      (if slen = Str.npos then s.value a else s.value a ++ s.heap.chars p slen)
      (s.copied a || slen != Str.npos && slen != 0)
  | .appendZ a p => s.change a (·.appendZ c s.heap p) (s.value a ++ s.charsZ c p)
      (s.copied a || (s.heap.argLen c.nul p).getD 0 != 0)
  | .plus a b => (s.strings b).bind fun y =>
    s.change a (·.append c s.heap y.rep y.len) (s.value a ++ s.value b)
      (s.copied a || y.len != 0)
  | .plusChar a ch => s.change a (·.appendChar c s.heap ch) (s.value a ++ [ch]) true
  | .resize a len ch => s.change a (·.resize c s.heap len ch) [] false
  | .fastResize a len => s.change a (·.fastResize c s.heap len) [] false
  | .clear a release => s.change a (·.clear c s.heap release) [] false
  | .fastClear a => s.change a (·.fastClear c s.heap) [] false
  | .swap a b => (s.strings a).bind fun x => (s.strings b).bind fun y =>
    some ((s.put a (s.heap, y) (s.value b) (s.copied b)).put b (s.heap, x) (s.value a)
      (s.copied a))

/-- No string yet, and the callers' buffers. -/
def init (c : CharType χ) (callers : Nat → List (Option χ)) : State σ χ where
  heap :=
    { cells := fun
        | .null => some [some c.nul]
        | .caller i => some (callers i)
        | _ => none
      next := 0
      writes := [] }
  strings := fun _ => none
  value := fun _ => []
  copied := fun _ => false

end

end Atcd.Strings
