import Atcd.Core.Ring
import Atcd.Core.Run
import Atcd.Core.Table
/-!
# `ACE_Active_Map_Manager`

The map keeps its entries in an array. Every slot is on the free or on the occupied list, both
doubly linked through the slots' indices, with the ids `~0` and `~1` for the list heads. `bind`
takes the first free slot and makes a key of its index and of a generation that goes up with
each use; `find` looks at the slot that the key names. An entry that is not bound has the
index `~0` in its key.

With `ACE_HAS_LAZY_MAP_MANAGER` (`lazyMap`) `unbind` only marks the slot, which stays on the
occupied list until a `bind` finds no free slot.

`ACE_UINT32` is a natural number with explicit `% 2 ^ 32`. `none` is undefined behaviour: an
access behind the array, or a loop that does not end. What `malloc` returns (nothing, or memory
with some content) is an argument.

Results:
* `links_sharedMove`: a move takes a slot out of one list and puts it first in the other.
-/
namespace Atcd.Maps

open Atcd.Core Function

/-- `ACE_Active_Map_Manager_Key`. -/
structure Key where
  slotIndex : Nat
  slotGeneration : Nat
deriving DecidableEq, Repr

/-- mirrors ACE/ace/Map_Manager.inl:235-242 -/
def freeListId : Nat := 2 ^ 32 - 1

/-- mirrors Map_Manager.inl:244-249 -/
def occupiedListId : Nat := 2 ^ 32 - 2

/-- `ACE_Map_Entry`. -/
structure Entry (V : Type*) where
  next : Nat
  prev : Nat
  extId : Key
  intId : V
  free : Bool

/-- What `free_list_` and `occupied_list_` use of an entry. -/
structure ListHead where
  next : Nat
  prev : Nat
deriving DecidableEq, Repr

structure MapManager (V : Type*) where
  searchStructure : Nat → Entry V
  totalSize : Nat
  curSize : Nat
  freeList : ListHead
  occupiedList : ListHead

inductive Which
  | free
  | occupied
deriving DecidableEq, Repr

namespace Which

def id : Which → Nat
  | free => freeListId
  | occupied => occupiedListId

def other : Which → Which
  | free => occupied
  | occupied => free

theorem id_ne_other (w : Which) : w.id ≠ w.other.id := by
  cases w <;> decide

@[simp] theorem other_other (w : Which) : w.other.other = w := by
  cases w <;> rfl

end Which

variable {V : Type*}

/-- What the constructor and `resize_i` make of slot `i`.
mirrors ACE/ace/Map_Manager.cpp:516-535 -/
def Entry.fresh [Inhabited V] (i : Nat) : Entry V where
  next := (i + 1) % 2 ^ 32
  prev := (i + (2 ^ 32 - 1)) % 2 ^ 32
  extId := ⟨freeListId, 0⟩
  intId := default
  free := false

namespace MapManager

def list (m : MapManager V) : Which → ListHead
  | .free => m.freeList
  | .occupied => m.occupiedList

def setList (m : MapManager V) (w : Which) (h : ListHead) : MapManager V :=
  match w with
  | .free => { m with freeList := h }
  | .occupied => { m with occupiedList := h }

def setEntry (m : MapManager V) (i : Nat) (e : Entry V) : MapManager V :=
  { m with searchStructure := Function.update m.searchStructure i e }

/-- `next` of an entry of list `w`, or of its head. -/
def setNext (m : MapManager V) (w : Which) (p q : Nat) : MapManager V :=
  if p = w.id then m.setList w { m.list w with next := q }
  else m.setEntry p { m.searchStructure p with next := q }

/-- `prev` of an entry of list `w`, or of its head. -/
def setPrev (m : MapManager V) (w : Which) (p q : Nat) : MapManager V :=
  if p = w.id then m.setList w { m.list w with prev := q }
  else m.setEntry p { m.searchStructure p with prev := q }

/-- mirrors Map_Manager.cpp:191-207 -/
def removeFromCurrent (m : MapManager V) (slot : Nat) (current : Which) : MapManager V :=
  let m' := m.setNext current (m.searchStructure slot).prev (m.searchStructure slot).next
  m'.setPrev current (m'.searchStructure slot).next (m'.searchStructure slot).prev

/-- mirrors Map_Manager.cpp:209-223 -/
def addToNew (m : MapManager V) (slot : Nat) (new : Which) : MapManager V :=
  let newListNext := (m.list new).next
  let m' := m.setEntry slot { m.searchStructure slot with
    next := newListNext
    prev := new.id }
  (m'.setList new { m'.list new with next := slot }).setPrev new newListNext slot

/-- mirrors Map_Manager.cpp:181-224 -/
def sharedMove (m : MapManager V) (slot : Nat) (current new : Which) : MapManager V :=
  (m.removeFromCurrent slot current).addToNew slot new

/-- The slots of a list, in order. -/
def slots (m : MapManager V) (w : Which) : Option (List Nat) :=
  walk (fun i => Links.stop w.id (m.searchStructure i).next) m.totalSize
    (Links.stop w.id (m.list w).next)

/-- The array after `resize_i`, if the lists hold the slots in `old`.
mirrors Map_Manager.cpp:501-541 -/
def resized [Inhabited V] (m : MapManager V) (newSize : Nat) (old : List Nat)
    (temp : Nat → Entry V) : Nat → Entry V :=
  let temp : Nat → Entry V := fun i =>
    if m.totalSize ≤ i ∧ i < newSize then .fresh i
    else if i ∈ old then m.searchStructure i
    else temp i
  let temp := Function.update temp (newSize - 1) { temp (newSize - 1) with next := freeListId }
  Function.update temp m.totalSize { temp m.totalSize with prev := freeListId }

/-- Whether there was memory for the new array.
mirrors Map_Manager.cpp:490-551 -/
def resizeI [Inhabited V] (m : MapManager V) (newSize : Nat) (memory : Option (Nat → Entry V)) :
    Option (MapManager V × Bool) :=
  match memory with
  | none => some (m, false)
  | some temp =>
    (m.slots .occupied).bind fun occupied =>
    (m.slots .free).bind fun free =>
      if m.totalSize < newSize ∧ ∀ i ∈ occupied ++ free, i < newSize then
        some ({ m with
          searchStructure := m.resized newSize (occupied ++ free) temp
          totalSize := newSize
          freeList := ⟨m.totalSize, newSize - 1⟩ }, true)
      else none

/-- `MAX_EXPONENTIAL` is `64 * 1024`, `LINEAR_INCREASE` is `32 * 1024`.
mirrors Map_Manager.cpp:553-568 -/
def newSize (m : MapManager V) : Nat :=
  if m.totalSize < 64 * 1024 then (m.totalSize * 2) % 2 ^ 32
  else (m.totalSize + 32 * 1024) % 2 ^ 32

/-- One turn of the loop of `move_all_free_slots_from_occupied_list`. -/
def moveIfFree (m : MapManager V) (i : Nat) : MapManager V :=
  if (m.searchStructure i).free then
    (m.setEntry i { m.searchStructure i with free := false }).sharedMove i .occupied .free
  else m

/-- The loop from slot `i` on. -/
def moveAllFrom (m : MapManager V) : Nat → Nat → Option (MapManager V)
  | fuel, i =>
    if i = occupiedListId then some m
    else match fuel with
      | 0 => none
      | fuel + 1 => moveAllFrom (m.moveIfFree i) fuel (m.searchStructure i).next

/-- mirrors Map_Manager.cpp:135-177 -/
def moveAllFreeSlots (m : MapManager V) : Option (MapManager V) :=
  m.moveAllFrom m.totalSize m.occupiedList.next

/-- The slot, if the call succeeds.
mirrors Map_Manager.cpp:98-131 -/
def nextFree [Inhabited V] (lazyMap : Bool) (m : MapManager V)
    (memory : Option (Nat → Entry V)) : Option (MapManager V × Option Nat) :=
  if m.freeList.next ≠ freeListId then some (m, some m.freeList.next)
  else
    (if lazyMap then m.moveAllFreeSlots else some m).bind fun m =>
      if m.freeList.next ≠ freeListId then some (m, some m.freeList.next)
      else (m.resizeI m.newSize memory).map fun r =>
        (r.1, if r.2 then some r.1.freeList.next else none)

/-- The entry of slot `i` gets a new key and the value.
mirrors ACE/ace/Active_Map_Manager_T.inl:16-28, 42-43 -/
def occupy (m : MapManager V) (i : Nat) (value : V) : MapManager V :=
  let m := m.sharedMove i .free .occupied
  let e := m.searchStructure i
  let m := m.setEntry i { e with
    extId := ⟨i, (e.extId.slotGeneration + 1) % 2 ^ 32⟩
    intId := value }
  { m with curSize := (m.curSize + 1) % 2 ^ 32 }

/-- The key, if the call succeeds.
mirrors Active_Map_Manager_T.inl:4-47 -/
def bind [Inhabited V] (lazyMap : Bool) (m : MapManager V) (value : V)
    (memory : Option (Nat → Entry V)) : Option (MapManager V × Option Key) :=
  (m.nextFree lazyMap memory).map fun r =>
    match r.2 with
    | none => (r.1, none)
    | some i => (r.1.occupy i value, some ((r.1.occupy i value).searchStructure i).extId)

/-- mirrors Active_Map_Manager_T.inl:56-103 -/
def find (lazyMap : Bool) (m : MapManager V) (key : Key) : Option (Option V) :=
  if key.slotIndex > m.totalSize then some none
  else if key.slotIndex = m.totalSize then none
  else
    let e := m.searchStructure key.slotIndex
    if (lazyMap ∧ e.free) ∨ e.extId.slotGeneration ≠ key.slotGeneration ∨
        e.extId.slotIndex = freeListId then some none
    else some (some e.intId)

/-- Whether the call succeeds.
mirrors Active_Map_Manager_T.inl:105-118 -/
def rebind (lazyMap : Bool) (m : MapManager V) (key : Key) (value : V) :
    Option (MapManager V × Bool) :=
  (m.find lazyMap key).map fun found =>
    match found with
    | none => (m, false)
    | some _ =>
      (m.setEntry key.slotIndex { m.searchStructure key.slotIndex with intId := value }, true)

/-- Slot `i` is given up.
mirrors Active_Map_Manager_T.inl:176-202 -/
def vacate (lazyMap : Bool) (m : MapManager V) (i : Nat) : MapManager V :=
  let m := if lazyMap then m.setEntry i { m.searchStructure i with free := true }
    else m.sharedMove i .occupied .free
  let e := m.searchStructure i
  let m := m.setEntry i { e with extId := { e.extId with slotIndex := freeListId } }
  { m with curSize := (m.curSize + (2 ^ 32 - 1)) % 2 ^ 32 }

/-- The value, if the call succeeds.
mirrors Active_Map_Manager_T.inl:167-223 -/
def unbind (lazyMap : Bool) (m : MapManager V) (key : Key) : Option (MapManager V × Option V) :=
  (m.find lazyMap key).map fun found =>
    match found with
    | none => (m, none)
    | some value => (m.vacate lazyMap key.slotIndex, some value)

/-- What the constructor and `close_i` leave.
mirrors Map_Manager.cpp:59-78 -/
def closed [Inhabited V] : MapManager V where
  searchStructure := .fresh
  totalSize := 0
  curSize := 0
  freeList := ⟨freeListId, freeListId⟩
  occupiedList := ⟨occupiedListId, occupiedListId⟩

/-- An open that succeeds, of sizes that pass its assertions.
mirrors Map_Manager.cpp:26-57 -/
def openMap [Inhabited V] (size : Nat) (temp : Nat → Entry V) : Option (MapManager V) :=
  if size ≠ 0 ∧ size ≤ 2 ^ 32 - 1 then (closed.resizeI size (some temp)).map Prod.fst else none

/-! ## The lists as links between indices -/

/-- The list heads are the nodes with the lists' ids. -/
def links (m : MapManager V) : Links Nat where
  next p :=
    if p = freeListId then m.freeList.next
    else if p = occupiedListId then m.occupiedList.next
    else (m.searchStructure p).next
  prev p :=
    if p = freeListId then m.freeList.prev
    else if p = occupiedListId then m.occupiedList.prev
    else (m.searchStructure p).prev

/-- The index of a slot is not the id of a list. -/
def Slot (p : Nat) : Prop := p ≠ freeListId ∧ p ≠ occupiedListId

theorem Slot.ne_id {p : Nat} (h : Slot p) (w : Which) : p ≠ w.id := by
  cases w
  · exact h.1
  · exact h.2

theorem slot_iff (w : Which) {p : Nat} : Slot p ↔ p ≠ w.id ∧ p ≠ w.other.id := by
  cases w
  · exact Iff.rfl
  · exact and_comm

theorem links_id (m : MapManager V) (w : Which) :
    m.links.next w.id = (m.list w).next ∧ m.links.prev w.id = (m.list w).prev := by
  cases w <;> exact ⟨rfl, rfl⟩

theorem links_slot (m : MapManager V) {p : Nat} (h : Slot p) :
    m.links.next p = (m.searchStructure p).next ∧ m.links.prev p = (m.searchStructure p).prev := by
  unfold links
  simp [h.1, h.2]

theorem links_setList (m : MapManager V) (w : Which) (h : ListHead) : (m.setList w h).links =
      ⟨update m.links.next w.id h.next, update m.links.prev w.id h.prev⟩ := by
  have hne : occupiedListId ≠ freeListId := by decide
  cases w with
  | free =>
    simp only [links, setList, Links.mk.injEq]
    constructor <;> funext p <;> by_cases hp : p = freeListId <;> simp [hp, Which.id]
  | occupied =>
    simp only [links, setList, Links.mk.injEq]
    constructor <;> funext p <;> by_cases hp : p = occupiedListId <;> simp [hp, hne, Which.id]

theorem links_setEntry (m : MapManager V) {i : Nat} (h : Slot i) (e : Entry V) :
    (m.setEntry i e).links = ⟨update m.links.next i e.next, update m.links.prev i e.prev⟩ := by
  simp only [links, setEntry, Links.mk.injEq]
  constructor <;> funext p
  · by_cases hp : p = i
    · subst hp
      simp [h.1, h.2]
    · simp [hp]
  · by_cases hp : p = i
    · subst hp
      simp [h.1, h.2]
    · simp [hp]

theorem links_setEntry_same (m : MapManager V) (i : Nat) {e : Entry V}
    (hnext : e.next = (m.searchStructure i).next) (hprev : e.prev = (m.searchStructure i).prev) :
    (m.setEntry i e).links = m.links := by
  simp only [links, setEntry, Links.mk.injEq]
  constructor <;> funext p
  · by_cases hp : p = i
    · subst hp
      simp [hnext]
    · simp [hp]
  · by_cases hp : p = i
    · subst hp
      simp [hprev]
    · simp [hp]

theorem links_setNext (m : MapManager V) {w : Which} {p : Nat} (q : Nat) (h : p ≠ w.other.id) :
    (m.setNext w p q).links = ⟨update m.links.next p q, m.links.prev⟩ := by
  unfold setNext
  split
  · rename_i hp
    subst hp
    rw [links_setList, (m.links_id w).2.symm, update_eq_self]
  · rename_i hp
    have hslot : Slot p := (slot_iff w).mpr ⟨hp, h⟩
    rw [links_setEntry m hslot, (m.links_slot hslot).2.symm, update_eq_self]

theorem links_setPrev (m : MapManager V) {w : Which} {p : Nat} (q : Nat) (h : p ≠ w.other.id) :
    (m.setPrev w p q).links = ⟨m.links.next, update m.links.prev p q⟩ := by
  unfold setPrev
  split
  · rename_i hp
    subst hp
    rw [links_setList, (m.links_id w).1.symm, update_eq_self]
  · rename_i hp
    have hslot : Slot p := (slot_iff w).mpr ⟨hp, h⟩
    rw [links_setEntry m hslot, (m.links_slot hslot).1.symm, update_eq_self]

theorem links_setListNext (m : MapManager V) (w : Which) (q : Nat) :
    (m.setList w { m.list w with next := q }).links =
      ⟨update m.links.next w.id q, m.links.prev⟩ := by
  rw [links_setList, ← (m.links_id w).2, update_eq_self]

theorem links_removeFromCurrent (m : MapManager V) (w : Which) {slot : Nat} (hslot : Slot slot)
    (hprev : m.links.prev slot ≠ w.other.id ∧ m.links.prev slot ≠ slot)
    (hnext : m.links.next slot ≠ w.other.id) :
    (m.removeFromCurrent slot w).links = m.links.unlink slot := by
  unfold removeFromCurrent
  rw [← (m.links_slot hslot).1, ← (m.links_slot hslot).2]
  generalize hm : m.setNext w (m.links.prev slot) (m.links.next slot) = m'
  have hlinks : m'.links = ⟨update m.links.next (m.links.prev slot) (m.links.next slot),
      m.links.prev⟩ := by
    rw [← hm]
    exact m.links_setNext _ hprev.1
  have hnext' : m'.links.next slot = m.links.next slot := by
    rw [hlinks]
    exact update_of_ne hprev.2.symm _ _
  have hprev' : m'.links.prev slot = m.links.prev slot := by rw [hlinks]
  dsimp only
  rw [← (m'.links_slot hslot).1, ← (m'.links_slot hslot).2, hnext', hprev',
    m'.links_setPrev _ hnext, hlinks]
  rfl

theorem links_addToNew (m : MapManager V) (w : Which) {slot : Nat} (hslot : Slot slot)
    (hfirst : m.links.next w.id ≠ w.other.id) :
    (m.addToNew slot w).links = m.links.push w.id slot := by
  unfold addToNew
  rw [← (m.links_id w).1]
  rw [links_setPrev _ _ hfirst, links_setListNext, links_setEntry _ hslot]
  rfl

/-- **A move** takes the slot out of its list and puts it first in the other. -/
theorem links_sharedMove (m : MapManager V) (w : Which) {slot : Nat} (hslot : Slot slot)
    (hprev : m.links.prev slot ≠ w.other.id ∧ m.links.prev slot ≠ slot)
    (hnext : m.links.next slot ≠ w.other.id)
    (hfirst : (m.links.unlink slot).next w.other.id ≠ w.id) :
    (m.sharedMove slot w w.other).links = (m.links.unlink slot).push w.other.id slot := by
  unfold sharedMove
  have hcut := m.links_removeFromCurrent w hslot hprev hnext
  rw [links_addToNew _ w.other hslot (by rwa [hcut, Which.other_other]), hcut]

/-- What `bind` and `unbind` write besides the links. -/
def SameData (m m' : MapManager V) : Prop :=
  m'.totalSize = m.totalSize ∧ m'.curSize = m.curSize ∧
    ∀ i, (m'.searchStructure i).extId = (m.searchStructure i).extId ∧
      (m'.searchStructure i).intId = (m.searchStructure i).intId ∧
      (m'.searchStructure i).free = (m.searchStructure i).free

theorem SameData.refl (m : MapManager V) : m.SameData m := ⟨rfl, rfl, fun _ => ⟨rfl, rfl, rfl⟩⟩

theorem SameData.trans {m m' m'' : MapManager V} (h : m.SameData m') (h' : m'.SameData m'') :
    m.SameData m'' := by
  refine ⟨h'.1.trans h.1, h'.2.1.trans h.2.1, fun i => ?_⟩
  obtain ⟨hk, hv, hf⟩ := h.2.2 i
  obtain ⟨hk', hv', hf'⟩ := h'.2.2 i
  exact ⟨hk'.trans hk, hv'.trans hv, hf'.trans hf⟩

theorem sameData_setList (m : MapManager V) (w : Which) (h : ListHead) :
    m.SameData (m.setList w h) := by
  cases w <;> exact .refl m

theorem sameData_setEntry (m : MapManager V) (i next prev : Nat) :
    m.SameData (m.setEntry i { m.searchStructure i with
      next := next
      prev := prev }) := by
  refine ⟨rfl, rfl, fun j => ?_⟩
  by_cases hj : j = i
  · subst hj
    simp [setEntry]
  · simp [setEntry, hj]

theorem sameData_setNext (m : MapManager V) (w : Which) (p q : Nat) :
    m.SameData (m.setNext w p q) := by
  unfold setNext
  split
  · exact sameData_setList m w _
  · exact sameData_setEntry m p q _

theorem sameData_setPrev (m : MapManager V) (w : Which) (p q : Nat) :
    m.SameData (m.setPrev w p q) := by
  unfold setPrev
  split
  · exact sameData_setList m w _
  · exact sameData_setEntry m p _ q

theorem sameData_addToNew (m : MapManager V) (slot : Nat) (new : Which) :
    m.SameData (m.addToNew slot new) := by
  have hset := sameData_setEntry m slot (m.list new).next new.id
  exact (hset.trans (sameData_setList _ new _)).trans (sameData_setPrev _ new _ _)

theorem sameData_sharedMove (m : MapManager V) (slot : Nat) (current new : Which) :
    m.SameData (m.sharedMove slot current new) := by
  have hcut : m.SameData (m.removeFromCurrent slot current) :=
    (sameData_setNext m current _ _).trans (sameData_setPrev _ current _ _)
  exact hcut.trans (sameData_addToNew _ slot new)

end MapManager

end Atcd.Maps
