import Atcd.Core.Ring
import Atcd.Core.Run
import Atcd.Core.Table
/-!
# `ACE_Hash_Map_Manager_Ex`: a hash map with chained buckets

The table has a sentinel for each bucket, from which a circular doubly linked list goes
through the entries of the bucket. An iterator has the index of a bucket and a pointer to
an entry; before the first entry the index is -1, behind the last one the size of the table.

A new entry's address is the allocator's choice and part of the call, none if it fails. An
out-parameter is passed with what the caller has in it. Reading or freeing an entry that has
been freed is a step that does not exist.

Beside the code's state the model has the finite map that the operations are to implement,
with the classes of equal keys as its keys.
-/
namespace Atcd.Maps
open Atcd.Core Function

/-- `HASH_KEY` and `COMPARE_KEYS`: equal keys have the same hash. -/
structure Keys (K : Type*) where
  hash : K → Nat
  equal : K → K → Bool
  equiv : Equivalence fun k k' => equal k k' = true
  respects : ∀ k k', equal k k' = true → hash k = hash k'

namespace Keys

variable {K : Type*} (c : Keys K)

def setoid : Setoid K := ⟨fun k k' => c.equal k k' = true, c.equiv⟩

/-- A key up to equality. -/
def Class : Type _ := Quotient c.setoid

def cls (k : K) : c.Class := Quotient.mk c.setoid k

instance : DecidableEq c.Class :=
  have : DecidableRel c.setoid.r := fun k k' => inferInstanceAs (Decidable (c.equal k k' = true))
  inferInstanceAs (DecidableEq (Quotient c.setoid))

end Keys

/-- `&table_[i]`, or an entry. -/
inductive Ptr
  | bucket (i : Nat)
  | entry (a : Nat)
deriving DecidableEq

/-- mirrors ACE/ace/Hash_Map_Manager_T.h:700-712 -/
structure Iter where
  index : Int
  next : Ptr
deriving DecidableEq

structure HashMap {K : Type*} (c : Keys K) (V : Type*) where
  /-- `next_` and `prev_` of the sentinels and the entries. -/
  links : Links Ptr
  /-- `ext_id_` and `int_id_` of the entries. -/
  node : Nat → Option (K × V)
  total_size : Nat
  cur_size : Nat
  /-- The map that is to be implemented, with the keys and values as they were passed. -/
  ref : Table c.Class (K × V)

/-- What a call returns, with the out-parameters that the overload has. -/
structure Out (K V : Type*) where
  result : Int
  int_id : Option V := none
  old_ext_id : Option K := none
  old_int_id : Option V := none
  entry : Option Nat := none
  pos : Option Iter := none

/-- The overloads. `entry` and the other out-parameters are what the caller has in them,
`alloc` is what the allocator returns if it is called. -/
inductive Call (K V : Type*)
  | bind (ext_id : K) (int_id : V) (alloc : Option Nat)
  | bindEntry (ext_id : K) (int_id : V) (entry : Nat) (alloc : Option Nat)
  | trybind (ext_id : K) (int_id : V) (alloc : Option Nat)
  | trybindEntry (ext_id : K) (int_id : V) (entry : Nat) (alloc : Option Nat)
  | rebind (ext_id : K) (int_id : V) (alloc : Option Nat)
  | rebindEntry (ext_id : K) (int_id : V) (entry : Nat) (alloc : Option Nat)
  | rebindInt (ext_id : K) (int_id old_int_id : V) (alloc : Option Nat)
  | rebindIntEntry (ext_id : K) (int_id old_int_id : V) (entry : Nat) (alloc : Option Nat)
  | rebindExt (ext_id : K) (int_id : V) (old_ext_id : K) (old_int_id : V) (alloc : Option Nat)
  | rebindExtEntry (ext_id : K) (int_id : V) (old_ext_id : K) (old_int_id : V) (entry : Nat)
      (alloc : Option Nat)
  | find (ext_id : K)
  | findInt (ext_id : K) (int_id : V)
  | findEntry (ext_id : K) (entry : Nat)
  | findPos (ext_id : K)
  | unbind (ext_id : K)
  | unbindInt (ext_id : K) (int_id : V)
  | unbindEntry (entry : Nat)
  | unbindPos (pos : Iter)
  | unbindAll

namespace HashMap

variable {K V : Type*} {c : Keys K}

/-- The size of the table goes through `size_t` when it is turned into bytes; of a table
that is too small for its sentinels nothing is said.
mirrors ACE/ace/Hash_Map_Manager_T.cpp:101-125 -/
def createBuckets (c : Keys K) (V : Type*) (entryBytes size : Nat) : Option (HashMap c V) :=
  if size * entryBytes % 2 ^ 64 = size * entryBytes then
    some ⟨⟨id, id⟩, fun _ => none, size, 0, []⟩
  else none

/-- The loop of `shared_find`; fuel is for the entries of the bucket.
mirrors Hash_Map_Manager_T.cpp:322-325 -/
def findFrom (s : HashMap c V) (ext_id : K) (loc : Nat) : Nat → Ptr → Option (Option Nat)
  | 0, _ => none
  | fuel + 1, temp =>
    if temp = .bucket loc then some none
    else
      match temp with
      | .bucket _ => none
      | .entry a => (s.node a).bind fun e =>
        if c.equal e.1 ext_id then some (some a) else s.findFrom ext_id loc fuel (s.links.next temp)

/-- With `entry` and `loc`.
mirrors Hash_Map_Manager_T.cpp:309-338 -/
def sharedFind (s : HashMap c V) (ext_id : K) (entry : Nat) : Option (Int × Nat × Nat) :=
  if s.total_size = 0 then some (-1, entry, 0)
  else
    let loc := c.hash ext_id % s.total_size
    (s.findFrom ext_id loc (s.cur_size + 1) (s.links.next (.bucket loc))).map fun
      | none => (-1, entry, loc)
      | some temp => (0, temp, loc)

/-- mirrors Hash_Map_Manager_T.cpp:229-237 -/
def link (s : HashMap c V) (loc a : Nat) (ext_id : K) (int_id : V) : HashMap c V :=
  { s with
    links := s.links.push (.bucket loc) (.entry a)
    node := update s.node a (some (ext_id, int_id))
    cur_size := s.cur_size + 1 }

/-- With `entry`. `trybind_i` does the same.
mirrors Hash_Map_Manager_T.cpp:216-268 -/
def bindI (s : HashMap c V) (ext_id : K) (int_id : V) (entry : Nat) (alloc : Option Nat) :
    Option (HashMap c V × Int × Nat) :=
  (s.sharedFind ext_id entry).map fun (result, entry, loc) =>
    if result = -1 then
      match alloc with
      | none => (s, -1, entry)
      | some a => (s.link loc a ext_id int_id, 0, a)
    else (s, 1, entry)

/-- With `int_id`, for the overload that sets it.
mirrors ACE/ace/Hash_Map_Manager_T.inl:117-127 -/
def trybindI (s : HashMap c V) (ext_id : K) (int_id : V) (alloc : Option Nat) :
    Option (HashMap c V × Int × V) :=
  (s.bindI ext_id int_id 0 alloc).bind fun (s, result, temp) =>
    if result = 1 then (s.node temp).map fun e => (s, result, e.2) else some (s, result, int_id)

/-- With `entry` and what was in it before. A key that is not found goes to the `bind_i`
without an entry.
mirrors Hash_Map_Manager_T.cpp:340-397 -/
def rebindI (s : HashMap c V) (ext_id : K) (int_id : V) (entry : Nat) (alloc : Option Nat) :
    Option (HashMap c V × Int × Nat × Option (K × V)) :=
  (s.sharedFind ext_id entry).bind fun (result, entry, _) =>
    if result = -1 then
      (s.bindI ext_id int_id 0 alloc).map fun (s, result, _) => (s, result, entry, none)
    else (s.node entry).map fun old =>
      ({ s with node := update s.node entry (some (ext_id, int_id)) }, 1, entry, some old)

/-- mirrors Hash_Map_Manager_T.cpp:291-304 -/
def unbindEntryI (s : HashMap c V) (a : Nat) : Option (HashMap c V) :=
  (s.node a).map fun _ =>
    { s with
      links := s.links.unlink (.entry a)
      node := update s.node a none
      cur_size := s.cur_size - 1 }

/-- With what `int_id` is set to.
mirrors Hash_Map_Manager_T.cpp:270-288 -/
def unbindI (s : HashMap c V) (ext_id : K) : Option (HashMap c V × Int × Option V) :=
  (s.sharedFind ext_id 0).bind fun (result, temp, _) =>
    if result = -1 then some (s, -1, none)
    else (s.node temp).bind fun e => (s.unbindEntryI temp).map fun s => (s, 0, some e.2)

/-- The entries of a bucket are freed.
mirrors Hash_Map_Manager_T.cpp:199-211 -/
def freeFrom (links : Links Ptr) (i : Nat) :
    Nat → Ptr → (Nat → Option (K × V)) → Option (Nat → Option (K × V))
  | 0, _, _ => none
  | fuel + 1, temp_ptr, node =>
    if temp_ptr = .bucket i then some node
    else
      match temp_ptr with
      | .bucket _ => none
      | .entry a => (node a).bind fun _ =>
        freeFrom links i fuel (links.next temp_ptr) (update node a none)

/-- mirrors Hash_Map_Manager_T.cpp:197-216 -/
def clearBuckets (s : HashMap c V) : List Nat → Option (HashMap c V)
  | [] => some s
  | i :: rest =>
    (freeFrom s.links i (s.cur_size + 1) (s.links.next (.bucket i)) s.node).bind fun node =>
      { s with
        links := ⟨update s.links.next (.bucket i) (.bucket i),
          update s.links.prev (.bucket i) (.bucket i)⟩
        node := node }.clearBuckets rest

/-- mirrors Hash_Map_Manager_T.cpp:191-221 -/
def unbindAllI (s : HashMap c V) : Option (HashMap c V) :=
  (s.clearBuckets (List.range s.total_size)).map fun s => { s with cur_size := 0 }

/-! ## Iterators -/

/-- The loop of `forward_i` over empty buckets.
mirrors Hash_Map_Manager_T.cpp:423-431 -/
def scanForward (s : HashMap c V) : Nat → Iter → Iter
  | 0, it => it
  | fuel + 1, it =>
    let index := it.index + 1
    if index < s.total_size then
      let next := s.links.next (.bucket index.toNat)
      if next ≠ .bucket index.toNat then ⟨index, next⟩ else s.scanForward fuel ⟨index, next⟩
    else ⟨index, it.next⟩

/-- mirrors Hash_Map_Manager_T.cpp:404-434 -/
def forward (s : HashMap c V) (it : Iter) : Iter :=
  let it := if it.index = -1 then { it with index := 0 } else it
  if (s.total_size : Int) ≤ it.index then it
  else
    let next := s.links.next it.next
    if next = .bucket it.index.toNat then s.scanForward s.total_size ⟨it.index, next⟩
    else ⟨it.index, next⟩

/-- The loop of `reverse_i` over empty buckets.
mirrors Hash_Map_Manager_T.cpp:453-461 -/
def scanReverse (s : HashMap c V) : Nat → Iter → Iter
  | 0, it => it
  | fuel + 1, it =>
    let index := it.index - 1
    if 0 ≤ index then
      let next := s.links.prev (.bucket index.toNat)
      if next ≠ .bucket index.toNat then ⟨index, next⟩ else s.scanReverse fuel ⟨index, next⟩
    else ⟨index, it.next⟩

/-- mirrors Hash_Map_Manager_T.cpp:436-464 -/
def reverse (s : HashMap c V) (it : Iter) : Iter :=
  let it := if it.index = s.total_size then { it with index := it.index - 1 } else it
  if it.index < 0 then it
  else
    let next := s.links.prev it.next
    if next = .bucket it.index.toNat then s.scanReverse s.total_size ⟨it.index, next⟩
    else ⟨it.index, next⟩

/-- mirrors Hash_Map_Manager_T.inl:475-497 -/
def iterator (s : HashMap c V) (head : Bool) : Iter :=
  ⟨if head then -1 else s.total_size, .bucket (if head then 0 else s.total_size - 1)⟩

/-- mirrors Hash_Map_Manager_T.inl:376-388, 688-697 -/
def begin (s : HashMap c V) : Iter := s.forward (s.iterator true)

def end_ (s : HashMap c V) : Iter := s.iterator false

/-- mirrors Hash_Map_Manager_T.inl:404-416, 1007-1014 -/
def rbegin (s : HashMap c V) : Iter := s.reverse (s.iterator false)

def rend (s : HashMap c V) : Iter := s.iterator true

/-- `next`, which `operator*` uses.
mirrors Hash_Map_Manager_T.inl:520-537 -/
def deref (s : HashMap c V) (it : Iter) : Option Ptr :=
  if it.index < s.total_size ∧ 0 ≤ it.index ∧ it.next ≠ .bucket it.index.toNat then some it.next
  else none

/-! ## Calls -/

/-- mirrors Hash_Map_Manager_T.inl:96-374, 438-472 -/
def exec (s : HashMap c V) : Call K V → Option (HashMap c V × Out K V)
  | .bind ext_id int_id alloc =>
    (s.bindI ext_id int_id 0 alloc).map fun (s, result, _) => (s, { result := result })
  | .bindEntry ext_id int_id entry alloc =>
    (s.bindI ext_id int_id entry alloc).map fun (s, result, entry) =>
      (s, { result := result, entry := some entry })
  | .trybind ext_id int_id alloc =>
    (s.trybindI ext_id int_id alloc).map fun (s, result, int_id) =>
      (s, { result := result, int_id := some int_id })
  | .trybindEntry ext_id int_id entry alloc =>
    (s.bindI ext_id int_id entry alloc).map fun (s, result, entry) =>
      (s, { result := result, int_id := some int_id, entry := some entry })
  | .rebind ext_id int_id alloc =>
    (s.rebindI ext_id int_id 0 alloc).map fun (s, result, _, _) => (s, { result := result })
  | .rebindEntry ext_id int_id entry alloc =>
    (s.rebindI ext_id int_id entry alloc).map fun (s, result, entry, _) =>
      (s, { result := result, entry := some entry })
  | .rebindInt ext_id int_id old_int_id alloc =>
    (s.rebindI ext_id int_id 0 alloc).map fun (s, result, _, old) =>
      (s, { result := result, old_int_id := some ((old.map Prod.snd).getD old_int_id) })
  | .rebindIntEntry ext_id int_id old_int_id entry alloc =>
    (s.rebindI ext_id int_id entry alloc).map fun (s, result, entry, old) =>
      (s, { result := result, old_int_id := some ((old.map Prod.snd).getD old_int_id),
            entry := some entry })
  | .rebindExt ext_id int_id old_ext_id old_int_id alloc =>
    (s.rebindI ext_id int_id 0 alloc).map fun (s, result, _, old) =>
      (s, { result := result, old_ext_id := some ((old.map Prod.fst).getD old_ext_id),
            old_int_id := some ((old.map Prod.snd).getD old_int_id) })
  | .rebindExtEntry ext_id int_id old_ext_id old_int_id entry alloc =>
    (s.rebindI ext_id int_id entry alloc).map fun (s, result, entry, old) =>
      (s, { result := result, old_ext_id := some ((old.map Prod.fst).getD old_ext_id),
            old_int_id := some ((old.map Prod.snd).getD old_int_id), entry := some entry })
  | .find ext_id => (s.sharedFind ext_id 0).map fun (result, _, _) => (s, { result := result })
  | .findInt ext_id int_id => (s.sharedFind ext_id 0).bind fun (result, entry, _) =>
    if result = -1 then some (s, { result := -1, int_id := some int_id })
    else (s.node entry).map fun e => (s, { result := 0, int_id := some e.2 })
  | .findEntry ext_id entry => (s.sharedFind ext_id entry).map fun (result, entry, _) =>
    (s, { result := result, entry := some entry })
  | .findPos ext_id => (s.sharedFind ext_id 0).map fun (result, entry, index) =>
    (s, { result := 0, pos := some (if result ≠ -1 then ⟨index, .entry entry⟩ else s.end_) })
  | .unbind ext_id => (s.unbindI ext_id).map fun (s, result, _) =>
    (s, { result := if result = -1 then -1 else 0 })
  | .unbindInt ext_id int_id => (s.unbindI ext_id).map fun (s, result, value) =>
    (s, { result := result, int_id := some (value.getD int_id) })
  | .unbindEntry entry => (s.unbindEntryI entry).map fun s => (s, { result := 0 })
  | .unbindPos pos => (s.deref pos).bind fun
    | .entry entry => (s.unbindEntryI entry).map fun s => (s, { result := 0 })
    | .bucket _ => none
  | .unbindAll => s.unbindAllI.map fun s => (s, { result := 0 })

/-! ## The finite map -/

/-- The map after a call; which key an entry has is read from the entry. -/
def refNext (s : HashMap c V) : Call K V → Table c.Class (K × V)
  | .bind k v alloc | .bindEntry k v _ alloc | .trybind k v alloc | .trybindEntry k v _ alloc =>
    if alloc.isSome then s.ref.bind (c.cls k) (k, v) else s.ref
  | .rebind k v alloc | .rebindEntry k v _ alloc | .rebindInt k v _ alloc
  | .rebindIntEntry k v _ _ alloc | .rebindExt k v _ _ alloc | .rebindExtEntry k v _ _ _ alloc =>
    if alloc.isSome then s.ref.rebind (c.cls k) (k, v) else s.ref.set (c.cls k) (k, v)
  | .unbind k | .unbindInt k _ => s.ref.unbind (c.cls k)
  | .unbindEntry entry =>
    match s.node entry with
    | some e => s.ref.unbind (c.cls e.1)
    | none => s.ref
  | .unbindPos pos =>
    match pos.next with
    | .entry entry =>
      match s.node entry with
      | some e => s.ref.unbind (c.cls e.1)
      | none => s.ref
    | .bucket _ => s.ref
  | .unbindAll => []
  | .find _ | .findInt _ _ | .findEntry _ _ | .findPos _ => s.ref

/-- The key of a call. -/
def keyOf : Call K V → Option K
  | .bind k _ _ | .bindEntry k _ _ _ | .trybind k _ _ | .trybindEntry k _ _ _ | .rebind k _ _
  | .rebindEntry k _ _ _ | .rebindInt k _ _ _ | .rebindIntEntry k _ _ _ _
  | .rebindExt k _ _ _ _ | .rebindExtEntry k _ _ _ _ _ | .find k | .findInt k _
  | .findEntry k _ | .findPos k | .unbind k | .unbindInt k _ => some k
  | .unbindEntry _ | .unbindPos _ | .unbindAll => none

/-- What a finite map returns: 1 for a key that is bound, else 0, or -1 where an allocation
fails. -/
def bound (found : Option (K × V)) (alloc : Option Nat) : Int :=
  if found.isSome then 1 else if alloc.isSome then 0 else -1

/-- The results of a finite map in which the key has `found`, without the pointers. -/
def refOut (found : Option (K × V)) : Call K V → Out K V
  | .bind _ _ alloc | .bindEntry _ _ _ alloc | .rebind _ _ alloc | .rebindEntry _ _ _ alloc =>
    { result := bound found alloc }
  | .trybind _ v alloc | .trybindEntry _ v _ alloc =>
    { result := bound found alloc, int_id := some ((found.map Prod.snd).getD v) }
  | .rebindInt _ _ v alloc | .rebindIntEntry _ _ v _ alloc =>
    { result := bound found alloc, old_int_id := some ((found.map Prod.snd).getD v) }
  | .rebindExt _ _ k v alloc | .rebindExtEntry _ _ k v _ alloc =>
    { result := bound found alloc, old_ext_id := some ((found.map Prod.fst).getD k),
      old_int_id := some ((found.map Prod.snd).getD v) }
  | .find _ | .findEntry _ _ | .unbind _ => { result := if found.isSome then 0 else -1 }
  | .findInt _ v | .unbindInt _ v =>
    { result := if found.isSome then 0 else -1, int_id := some ((found.map Prod.snd).getD v) }
  | .findPos _ | .unbindEntry _ | .unbindPos _ | .unbindAll => { result := 0 }

def step (s : HashMap c V) (call : Call K V) : Option (HashMap c V) :=
  (s.exec call).map fun (t, _) => { t with ref := s.refNext call }

/-- What a caller and the allocator keep to: a new entry is not in use, an entry that is to be
removed is. -/
def Legal (s : HashMap c V) : Call K V → Prop
  | .bind _ _ alloc | .bindEntry _ _ _ alloc | .trybind _ _ alloc | .trybindEntry _ _ _ alloc
  | .rebind _ _ alloc | .rebindEntry _ _ _ alloc | .rebindInt _ _ _ alloc
  | .rebindIntEntry _ _ _ _ alloc | .rebindExt _ _ _ _ alloc
  | .rebindExtEntry _ _ _ _ _ alloc => ∀ a ∈ alloc, s.node a = none
  | .unbindEntry a => (s.node a).isSome
  | .unbindPos pos =>
    match s.deref pos with
    | some (.entry a) => (s.node a).isSome
    | _ => False
  | .find _ | .findInt _ _ | .findEntry _ _ | .findPos _ | .unbind _ | .unbindInt _ _
  | .unbindAll => True

/-- A `rebind` with an entry is for a key that is bound, unless the caller's pointer happens to
be the new entry. A `trybind` with an entry is for a key that is not, or has the same value. -/
def Sound (s : HashMap c V) : Call K V → Prop
  | .rebindEntry k _ entry alloc | .rebindIntEntry k _ _ entry alloc
  | .rebindExtEntry k _ _ _ entry alloc =>
    s.ref.find (c.cls k) = none → ∀ a ∈ alloc, entry = a
  | .trybindEntry k v _ _ => ∀ e ∈ s.ref.find (c.cls k), e.2 = v
  | _ => True

/-- The call from `s` to `t` returns what a finite map does, the entry it returns is the one for
the key, and so is the position. -/
structure Agrees (s : HashMap c V) (call : Call K V) (t : HashMap c V) (out : Out K V) : Prop where
  data : { out with entry := none, pos := none } =
    refOut ((keyOf call).bind fun k => s.ref.find (c.cls k)) call
  entry : 0 ≤ out.result → ∀ a ∈ out.entry, ∃ k ∈ keyOf call, ∃ e,
    t.node a = some e ∧ t.ref.find (c.cls k) = some e
  pos : ∀ p ∈ out.pos, ∃ k ∈ keyOf call,
    s.ref.find (c.cls k) = none ∧ p = s.end_ ∨
      ∃ a e, s.deref p = some (.entry a) ∧ s.node a = some e ∧ s.ref.find (c.cls k) = some e

/-! ## Walking -/

/-- `++` or `--`. -/
def move (s : HashMap c V) (it : Iter) (fwd : Bool) : Iter :=
  if fwd then s.forward it else s.reverse it

/-- The same on positions, from -1 to the number of entries. -/
def movePos (n : Nat) (p : Int) (fwd : Bool) : Int :=
  if fwd then min (p + 1) n else max (p - 1) (-1)

/-- The iterator is before the first entry, behind the last one or at an entry. -/
def At (s : HashMap c V) (o : List Nat) (p : Int) (it : Iter) : Prop :=
  p = -1 ∧ it = s.rend ∨ p = o.length ∧ it = s.end_ ∨
    ∃ a, 0 ≤ p ∧ o[p.toNat]? = some a ∧ s.deref it = some (.entry a)

end HashMap

end Atcd.Maps
