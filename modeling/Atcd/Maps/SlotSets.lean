import Atcd.Core.Run
/-!
# `ACE_Fixed_Set` and `ACE_Bounded_Set`: sets in an array of slots

A removed item stays in its slot, which is marked free and used again. Both sets go wrong
where a search does not respect that:

* `insert` of the fixed set stops at the first free slot, so an item behind it is stored a
  second time;
* `remove` of the bounded set does not ask whether the slot is free, so it reports the
  removal of an item that is not there.

The bounded set's slots behind the active portion are never read and are left out.

* `sets_iff`: both are sets as long as none of this happens, and no longer.
-/
namespace Atcd.Maps.SlotSets
open Atcd.Core List

/-- mirrors ACE/ace/Containers_T.h:1170-1180, 1370-1380 (`Search_Structure`) -/
structure Slot (α : Type*) where
  item : α
  isFree : Bool
deriving DecidableEq

inductive Op (α : Type*)
  | insert (x : α)
  | remove (x : α)
  | find (x : α)

variable {α : Type*} [DecidableEq α]

def live (s : Slot α) : Bool := !s.isFree

def items (slots : List (Slot α)) : List α := (slots.filter live).map Slot.item

/-! ## The fixed set -/

/-- The slots of the array, and `cur_size_`. -/
structure FixedSet (α : Type*) where
  slots : List (Slot α)
  curSize : Nat
deriving DecidableEq

namespace FixedSet

def empty (fill : List α) : FixedSet α := ⟨fill.map fun x => ⟨x, true⟩, 0⟩

/-- The loop also ends when `cur_size_` items were looked at.
mirrors ACE/ace/Containers_T.cpp:934-949 -/
def findIn (x : α) : List (Slot α) → Nat → Int
  | [], _ => -1
  | _ :: _, 0 => -1
  | s :: slots, n + 1 =>
    if s.isFree then findIn x slots (n + 1)
    else if s.item = x then 0
    else findIn x slots n

def find (s : FixedSet α) (x : α) : Int := findIn x s.slots s.curSize

def insertIn (x : α) : List (Slot α) → Int × List (Slot α)
  | [] => (-1, [])
  | s :: slots =>
    if s.isFree then (0, ⟨x, false⟩ :: slots)
    else if s.item = x then (1, s :: slots)
    else ((insertIn x slots).1, s :: (insertIn x slots).2)

/-- mirrors Containers_T.cpp:951-987 -/
def insert (s : FixedSet α) (x : α) : Int × FixedSet α :=
  let r := insertIn x s.slots
  (r.1, ⟨r.2, if r.1 = 0 then s.curSize + 1 else s.curSize⟩)

def removeIn (x : α) : List (Slot α) → Nat → Option (List (Slot α))
  | [], _ => none
  | _ :: _, 0 => none
  | s :: slots, n + 1 =>
    if s.isFree then (removeIn x slots (n + 1)).map (s :: ·)
    else if s.item = x then some (⟨s.item, true⟩ :: slots)
    else (removeIn x slots n).map (s :: ·)

/-- mirrors Containers_T.cpp:989-1012 -/
def remove (s : FixedSet α) (x : α) : Int × FixedSet α :=
  match removeIn x s.slots s.curSize with
  | some slots => (0, ⟨slots, s.curSize - 1⟩)
  | none => (-1, s)

def apply (s : FixedSet α) : Op α → Int × FixedSet α
  | .insert x => s.insert x
  | .remove x => s.remove x
  | .find x => (s.find x, s)

def step (s : FixedSet α) (op : Op α) : Option (FixedSet α) := some (s.apply op).2

end FixedSet

/-! ## The bounded set -/

/-- The active portion (`cur_size_` is its length) and `max_size_`. -/
structure BoundedSet (α : Type*) where
  slots : List (Slot α)
  maxSize : Nat
deriving DecidableEq

/-- `static_cast<int>`. -/
def asInt (i : Nat) : Int := (i : Int).bmod (2 ^ 32)

namespace BoundedSet

def empty (maxSize : Nat) : BoundedSet α := ⟨[], maxSize⟩

/-- mirrors Containers_T.cpp:1274-1285 -/
def find (s : BoundedSet α) (x : α) : Int :=
  if s.slots.any fun s => s.item = x && !s.isFree then 0 else -1

/-- `first_free`, an `int`. -/
def firstFree : List (Slot α) → Nat → Int → Int
  | [], _, f => f
  | s :: slots, i, f => firstFree slots (i + 1) (if s.isFree && f == -1 then asInt i else f)

/-- mirrors Containers_T.cpp:1287-1323 -/
def insert (s : BoundedSet α) (x : α) : Int × BoundedSet α :=
  if s.slots.any fun s => s.item = x && !s.isFree then (1, s)
  else
    let f := firstFree s.slots 0 (-1)
    if -1 < f then (0, { s with slots := s.slots.set f.toNat ⟨x, false⟩ })
    else if s.slots.length < s.maxSize then (0, { s with slots := s.slots ++ [⟨x, false⟩] })
    else (-1, s)

/-- The last active slot was freed: the active portion ends at the last one in use. -/
def shrink (slots : List (Slot α)) : List (Slot α) := slots.rdropWhile Slot.isFree

/-- mirrors Containers_T.cpp:1325-1352 -/
def remove (s : BoundedSet α) (x : α) : Int × BoundedSet α :=
  match s.slots.findIdx? fun s => s.item = x with
  | none => (-1, s)
  | some i =>
    let slots := s.slots.modify i fun s => { s with isFree := true }
    (0, { s with slots := if i + 1 = s.slots.length then shrink slots else slots })

def apply (s : BoundedSet α) : Op α → Int × BoundedSet α
  | .insert x => s.insert x
  | .remove x => s.remove x
  | .find x => (s.find x, s)

def step (s : BoundedSet α) (op : Op α) : Option (BoundedSet α) := some (s.apply op).2

end BoundedSet

/-! ## What a set does -/

/-- What the operations answer, and the items afterwards: for `xs` before, `res` answered,
`ys` afterwards, `found` the answer of `find` afterwards, and a number of slots. -/
def Answers (cap : Nat) (xs : List α) (res : Int) (ys : List α) (found : α → Int) :
    Op α → Prop
  | .insert x => (res = 1 ↔ x ∈ xs) ∧ (res = -1 ↔ x ∉ xs ∧ xs.length = cap) ∧
      (res = 0 ↔ x ∉ xs ∧ xs.length ≠ cap) ∧ ∀ y, y ∈ ys ↔ y ∈ xs ∨ res = 0 ∧ y = x
  | .remove x => (res = 0 ↔ x ∈ xs) ∧ (res = -1 ↔ x ∉ xs) ∧ found x = -1 ∧
      ∀ y, y ∈ ys ↔ y ∈ xs ∧ y ≠ x
  | .find x => (res = 0 ↔ x ∈ xs) ∧ (res = -1 ↔ x ∉ xs) ∧ ∀ y, y ∈ ys ↔ y ∈ xs

def FixedSet.Right (s : FixedSet α) (op : Op α) : Prop :=
  Answers s.slots.length (items s.slots) (s.apply op).1 (items (s.apply op).2.slots)
    (s.apply op).2.find op ∧ (items (s.apply op).2.slots).Nodup

def BoundedSet.Right (s : BoundedSet α) (op : Op α) : Prop :=
  Answers s.maxSize (items s.slots) (s.apply op).1 (items (s.apply op).2.slots)
    (s.apply op).2.find op ∧ (items (s.apply op).2.slots).Nodup

/-- No item is inserted that is there, behind a free slot. -/
def FixedSet.Seen (s : FixedSet α) : Op α → Prop
  | .insert x => x ∉ items (s.slots.dropWhile live)
  | _ => True

/-- No item is removed that is not there, but still in a free slot of the active portion. -/
def BoundedSet.NoGhost (s : BoundedSet α) : Op α → Prop
  | .remove x => x ∉ items s.slots → ∀ t ∈ s.slots, t.item ≠ x
  | _ => True

/-- The index of the first free slot is an `int`. -/
def BoundedSet.Fits (s : BoundedSet α) (_ : Op α) : Prop :=
  (∀ t ∈ s.slots, t.isFree = false) ∨ (s.slots.takeWhile live).length < 2 ^ 31

instance (s : BoundedSet α) (op : Op α) : Decidable (s.Fits op) :=
  inferInstanceAs (Decidable (_ ∨ _))

/-! ## Items -/

section Items

omit [DecidableEq α]

@[simp] theorem items_nil : items ([] : List (Slot α)) = [] := rfl

theorem items_cons (s : Slot α) (slots : List (Slot α)) :
    items (s :: slots) = if s.isFree then items slots else s.item :: items slots := by
  cases h : s.isFree <;> simp [items, live, h]

@[simp] theorem items_append (s t : List (Slot α)) : items (s ++ t) = items s ++ items t := by
  simp [items]

variable {x : α} {cap : Nat} {xs ys : List α} {found : α → Int}

theorem mem_items {slots : List (Slot α)} :
    x ∈ items slots ↔ ∃ s ∈ slots, s.isFree = false ∧ s.item = x := by
  simp [items, live, and_assoc]

theorem items_length (slots : List (Slot α)) :
    (items slots).length = slots.length ↔ ∀ s ∈ slots, s.isFree = false := by
  simp [items, live, length_filter_eq_length_iff]

theorem split_free {slots : List (Slot α)} (h : ¬∀ s ∈ slots, s.isFree = false) :
    ∃ pre s post, slots = pre ++ s :: post ∧ s.isFree = true ∧ ∀ t ∈ pre, t.isFree = false := by
  obtain ⟨s, hs⟩ : ∃ s, slots.find? Slot.isFree = some s := by
    rw [← Option.isSome_iff_exists, find?_isSome]
    push Not at h
    obtain ⟨s, hmem, hfree⟩ := h
    exact ⟨s, hmem, by simpa using hfree⟩
  obtain ⟨hfree, pre, post, hslots, hpre⟩ := find?_eq_some_iff_append.mp hs
  refine ⟨pre, s, post, hslots, hfree, fun t ht => ?_⟩
  simpa using hpre t ht

theorem items_fill (x : α) (pre post : List (Slot α)) {s : Slot α} (hs : s.isFree = true) :
    (items (pre ++ ⟨x, false⟩ :: post)).Perm (x :: items (pre ++ s :: post)) := by
  have h : items (pre ++ ⟨x, false⟩ :: post) = items pre ++ x :: items post := by
    simp [items_cons]
  have h' : items (pre ++ s :: post) = items pre ++ items post := by simp [items_cons, hs]
  rw [h, h']
  exact perm_middle

theorem items_free (pre post : List (Slot α)) {s : Slot α} (hs : s.isFree = false) :
    (s.item :: items (pre ++ ⟨s.item, true⟩ :: post)).Perm (items (pre ++ s :: post)) := by
  have h : items (pre ++ s :: post) = items pre ++ s.item :: items post := by
    simp [items_cons, hs]
  have h' : items (pre ++ ⟨s.item, true⟩ :: post) = items pre ++ items post := by
    simp [items_cons]
  rw [h, h']
  exact perm_middle.symm

theorem answers_insert_full (hx : x ∉ xs)
    (hcap : xs.length = cap) : Answers cap xs (-1) xs found (.insert x) := by
  refine ⟨by simp [hx], by simp [hx, hcap], by simp [hcap], by simp⟩

theorem answers_insert_present (hx : x ∈ xs) : Answers cap xs 1 xs found (.insert x) := by
  refine ⟨by simp [hx], by simp [hx], by simp [hx], by simp⟩

theorem answers_insert_new (hx : x ∉ xs) (hcap : xs.length ≠ cap) (hys : ys.Perm (x :: xs)) :
    Answers cap xs 0 ys found (.insert x) := by
  refine ⟨by simp [hx], by simp [hcap], by simp [hx, hcap], fun y => ?_⟩
  rw [hys.mem_iff, mem_cons]
  simp [or_comm]

theorem answers_remove_absent
    (hx : x ∉ xs) (hfound : found x = -1) : Answers cap xs (-1) xs found (.remove x) := by
  refine ⟨by simp [hx], by simp [hx], hfound, fun y => ?_⟩
  constructor
  · intro hy
    exact ⟨hy, fun h => hx (h ▸ hy)⟩
  · exact fun h => h.1

theorem answers_remove_present
    (hxs : (x :: ys).Perm xs) (hnodup : xs.Nodup) (hfound : x ∉ ys → found x = -1) :
    Answers cap xs 0 ys found (.remove x) := by
  have hx : x ∉ ys := (nodup_cons.mp (hxs.nodup_iff.mpr hnodup)).1
  have hmem : x ∈ xs := hxs.mem_iff.mp mem_cons_self
  refine ⟨by simp [hmem], by simp [hmem], hfound hx, fun y => ?_⟩
  rw [← hxs.mem_iff, mem_cons]
  constructor
  · intro hy
    exact ⟨Or.inr hy, fun h => hx (h ▸ hy)⟩
  · rintro ⟨rfl | hy, hne⟩
    · exact absurd rfl hne
    · exact hy

end Items

theorem answers_find {cap : Nat} {xs : List α} {x : α} {found : α → Int} {res : Int}
    (hres : res = if x ∈ xs then 0 else -1) : Answers cap xs res xs found (.find x) := by
  subst hres
  refine ⟨?_, ?_, fun y => Iff.rfl⟩ <;> split <;> simp_all

/-! ## The fixed set's steps -/

namespace FixedSet

structure Inv (s : FixedSet α) : Prop where
  size : s.curSize = (items s.slots).length
  nodup : (items s.slots).Nodup

theorem findIn_eq (x : α) (slots : List (Slot α)) :
    findIn x slots (items slots).length = if x ∈ items slots then 0 else -1 := by
  induction slots with
  | nil => rfl
  | cons s slots ih =>
    rw [items_cons]
    cases hs : s.isFree with
    | true =>
      cases hn : (items slots).length with
      | zero =>
        rw [length_eq_zero_iff.mp hn]
        simp [findIn]
      | succ n => simp [findIn, hs, ← ih, hn]
    | false =>
      by_cases hx : s.item = x
      · simp [findIn, hs, hx]
      · have hx' : ¬x = s.item := fun h => hx h.symm
        simp [findIn, hs, hx, hx', ih]

variable {s s' : FixedSet α}

theorem find_eq (h : s.curSize = (items s.slots).length) (x : α) :
    s.find x = if x ∈ items s.slots then 0 else -1 := by
  rw [find, h, findIn_eq]

theorem removeIn_eq (x : α) (slots : List (Slot α)) :
    (x ∉ items slots ∧ removeIn x slots (items slots).length = none) ∨
      ∃ pre s post, slots = pre ++ s :: post ∧ s.isFree = false ∧ s.item = x ∧
        removeIn x slots (items slots).length = some (pre ++ ⟨s.item, true⟩ :: post) := by
  induction slots with
  | nil => exact Or.inl ⟨by simp, rfl⟩
  | cons t slots ih =>
    cases ht : t.isFree with
    | true =>
      have hstep : removeIn x (t :: slots) (items (t :: slots)).length =
          (removeIn x slots (items slots).length).map (t :: ·) := by
        rw [items_cons, ht]
        cases hn : (items slots).length with
        | zero => cases slots <;> simp [removeIn, hn]
        | succ n => simp [removeIn, ht, hn]
      rw [hstep]
      obtain ⟨hx, hnone⟩ | ⟨pre, s, post, rfl, hs, hx, hsome⟩ := ih
      · exact Or.inl ⟨by simpa [items_cons, ht] using hx, by rw [hnone]; rfl⟩
      · exact Or.inr ⟨t :: pre, s, post, rfl, hs, hx, by rw [hsome]; rfl⟩
    | false =>
      have hlen : (items (t :: slots)).length = (items slots).length + 1 := by
        simp [items_cons, ht]
      rw [hlen]
      by_cases hx : t.item = x
      · refine Or.inr ⟨[], t, slots, rfl, ht, hx, ?_⟩
        simp [removeIn, ht, hx]
      have hstep : removeIn x (t :: slots) ((items slots).length + 1) =
          (removeIn x slots (items slots).length).map (t :: ·) := by
        simp [removeIn, ht, hx]
      rw [hstep]
      obtain ⟨hnot, hnone⟩ | ⟨pre, s, post, rfl, hs, hsx, hsome⟩ := ih
      · refine Or.inl ⟨?_, by rw [hnone]; rfl⟩
        have hx' : ¬x = t.item := fun h => hx h.symm
        simp [items_cons, ht, hnot, hx']
      · exact Or.inr ⟨t :: pre, s, post, rfl, hs, hsx, by rw [hsome]; rfl⟩

theorem insertIn_append (x : α) {pre : List (Slot α)} (hpre : ∀ t ∈ pre, t.isFree = false)
    (post : List (Slot α)) : insertIn x (pre ++ post) = if x ∈ items pre then (1, pre ++ post)
      else ((insertIn x post).1, pre ++ (insertIn x post).2) := by
  induction pre with
  | nil => simp
  | cons t pre ih =>
    have ht := hpre t mem_cons_self
    have hrest := ih fun u hu => hpre u (mem_cons_of_mem _ hu)
    by_cases hx : t.item = x
    · simp [insertIn, ht, hx, items_cons]
    · have hx' : ¬x = t.item := fun h => hx h.symm
      simp only [cons_append, insertIn, ht, hx, hrest, items_cons, mem_cons, hx',
        false_or, if_false, Bool.false_eq_true]
      split <;> rfl

theorem right_of {op : Op α} {res : Int} (heq : s.apply op = (res, s'))
    (hans : Answers s.slots.length (items s.slots) res (items s'.slots) s'.find op)
    (hinv : Inv s') : s.Right op ∧ Inv (s.apply op).2 := by
  simp only [Right, heq]
  exact ⟨⟨hans, hinv.nodup⟩, hinv⟩

theorem insert_answers (h : Inv s) {x : α} (hseen : x ∉ items (s.slots.dropWhile live)) :
    s.Right (.insert x) ∧ Inv (s.apply (.insert x)).2 := by
  by_cases hall : ∀ t ∈ s.slots, t.isFree = false
  · have hfull := (items_length s.slots).mpr hall
    have hin := insertIn_append x hall []
    rw [append_nil] at hin
    by_cases hx : x ∈ items s.slots
    · have heq : s.insert x = (1, s) := by simp [insert, hin, hx]
      exact right_of heq (answers_insert_present hx) h
    · have heq : s.insert x = (-1, s) := by simp [insert, hin, hx, insertIn]
      exact right_of heq (answers_insert_full hx hfull) h
  · have hroom : (items s.slots).length ≠ s.slots.length := mt (items_length s.slots).mp hall
    obtain ⟨pre, t, post, hslots, ht, hpre⟩ := split_free hall
    have hlive : ∀ u ∈ pre, live u = true := fun u hu => by simp [live, hpre u hu]
    have hin := insertIn_append x hpre (t :: post)
    rw [← hslots] at hin
    have hdrop : s.slots.dropWhile live = t :: post := by
      rw [hslots, dropWhile_append_of_pos hlive]
      simp [live, ht]
    rw [hdrop] at hseen
    by_cases hx : x ∈ items pre
    · have hmem : x ∈ items s.slots := by
        rw [hslots, items_append]
        exact mem_append_left _ hx
      have heq : s.insert x = (1, s) := by simp [insert, hin, hx]
      exact right_of heq (answers_insert_present hmem) h
    · have hmem : x ∉ items s.slots := by
        rw [hslots, items_append, mem_append]
        exact not_or.mpr ⟨hx, hseen⟩
      have heq : s.insert x = (0, ⟨pre ++ ⟨x, false⟩ :: post, s.curSize + 1⟩) := by
        simp [insert, hin, hx, insertIn, ht]
      have hperm := items_fill x pre post ht
      rw [← hslots] at hperm
      have hnodup : (items (pre ++ ⟨x, false⟩ :: post)).Nodup :=
        hperm.nodup_iff.mpr (nodup_cons.mpr ⟨hmem, h.nodup⟩)
      refine right_of heq (answers_insert_new hmem hroom hperm) ⟨?_, hnodup⟩
      rw [hperm.length_eq, length_cons, h.size]

/-- An item behind a free slot is stored a second time. -/
theorem insert_twice (h : Inv s) {x : α} (hright : s.Right (.insert x)) :
    x ∉ items (s.slots.dropWhile live) := by
  intro hmem
  have hslots : s.slots.takeWhile live ++ s.slots.dropWhile live = s.slots :=
    takeWhile_append_dropWhile
  have hpre : ∀ t ∈ s.slots.takeWhile live, t.isFree = false := by
    intro t ht
    simpa [live] using mem_takeWhile_imp ht
  have hin := insertIn_append x hpre (s.slots.dropWhile live)
  have hnodup := h.nodup
  rw [← hslots, items_append] at hnodup
  have hx : x ∉ items (s.slots.takeWhile live) := fun hx =>
    disjoint_of_nodup_append hnodup hx hmem
  rw [hslots, if_neg hx] at hin
  have hall : x ∈ items s.slots := by
    rw [← hslots, items_append]
    exact mem_append_right _ hmem
  have hone : (s.insert x).1 = 1 := hright.1.1.mpr hall
  cases hdrop : s.slots.dropWhile live with
  | nil => simp [hdrop] at hmem
  | cons t post =>
    have ht : t.isFree = true := by
      have := head_dropWhile_not live (by rw [hdrop]; simp : s.slots.dropWhile live ≠ [])
      simpa [hdrop, live] using this
    simp [insert, hin, hdrop, insertIn, ht] at hone

theorem remove_answers (h : Inv s) (x : α) :
    s.Right (.remove x) ∧ Inv (s.apply (.remove x)).2 := by
  obtain ⟨hx, hnone⟩ | ⟨pre, t, post, hslots, ht, rfl, hsome⟩ := removeIn_eq x s.slots
  · have heq : s.remove x = (-1, s) := by simp [remove, h.size, hnone]
    exact right_of heq (answers_remove_absent hx (by rw [find_eq h.size, if_neg hx])) h
  · have heq : s.remove t.item = (0, ⟨pre ++ ⟨t.item, true⟩ :: post, s.curSize - 1⟩) := by
      simp [remove, h.size, hsome]
    have hperm := items_free pre post ht
    rw [← hslots] at hperm
    have hinv : Inv (⟨pre ++ ⟨t.item, true⟩ :: post, s.curSize - 1⟩ : FixedSet α) := by
      refine ⟨?_, (nodup_cons.mp (hperm.nodup_iff.mpr h.nodup)).2⟩
      have hlen := hperm.length_eq
      rw [length_cons, ← h.size] at hlen
      exact Nat.sub_eq_of_eq_add hlen.symm
    refine right_of heq (answers_remove_present hperm h.nodup fun hx => ?_) hinv
    rw [find_eq hinv.size, if_neg hx]

theorem right_iff (h : Inv s) (op : Op α) : s.Right op ↔ s.Seen op := by
  cases op with
  | insert x => exact ⟨insert_twice h, fun hseen => (insert_answers h hseen).1⟩
  | remove x => exact ⟨fun _ => trivial, fun _ => (remove_answers h x).1⟩
  | find x => exact ⟨fun _ => trivial, fun _ => ⟨answers_find (find_eq h.size x), h.nodup⟩⟩

theorem step_inv {op : Op α} (h : Inv s) (hseen : s.Seen op)
    (hstep : s.step op = some s') : Inv s' := by
  cases hstep
  cases op with
  | insert x => exact (insert_answers h hseen).2
  | remove x => exact (remove_answers h x).2
  | find x => exact h

omit [DecidableEq α] in
theorem inv_empty (fill : List α) : Inv (empty fill) := by
  have h : items (empty fill).slots = [] := by
    simp [empty, items, live]
  exact ⟨by rw [h]; rfl, by rw [h]; exact nodup_nil⟩

end FixedSet

/-! ## The bounded set's steps -/

namespace BoundedSet

structure Inv (s : BoundedSet α) : Prop where
  nodup : (items s.slots).Nodup
  /-- What a slot in use has is in no free slot before it. -/
  first : s.slots.Pairwise fun t u => t.isFree = true → u.isFree = false → t.item ≠ u.item
  /-- The active portion ends with a slot in use. -/
  last : ∀ t ∈ s.slots.getLast?, t.isFree = false
  room : s.slots.length ≤ s.maxSize

theorem any_eq (x : α) (slots : List (Slot α)) :
    (slots.any fun s => s.item = x && !s.isFree) = decide (x ∈ items slots) := by
  rw [Bool.eq_iff_iff]
  simp [mem_items, and_comm]

theorem find_eq (s : BoundedSet α) (x : α) :
    s.find x = if x ∈ items s.slots then 0 else -1 := by
  simp only [find, any_eq, decide_eq_true_eq]

omit [DecidableEq α] in
theorem firstFree_kept (slots : List (Slot α)) (i : Nat) {f : Int} (hf : f ≠ -1) :
    firstFree slots i f = f := by
  induction slots generalizing i with
  | nil => rfl
  | cons s slots ih => simp [firstFree, hf, ih]

variable {pre post : List (Slot α)} {s s' : BoundedSet α}

omit [DecidableEq α] in
theorem firstFree_append (hpre : ∀ t ∈ pre, t.isFree = false)
    (post : List (Slot α)) (i : Nat) (f : Int) :
    firstFree (pre ++ post) i f = firstFree post (i + pre.length) f := by
  induction pre generalizing i with
  | nil => rfl
  | cons t pre ih =>
    have ht := hpre t mem_cons_self
    simp only [cons_append, firstFree, ht, Bool.false_and, Bool.false_eq_true, if_false,
      length_cons]
    rw [ih fun u hu => hpre u (mem_cons_of_mem _ hu)]
    congr 1
    omega

theorem asInt_of_lt {i : Nat} (h : i < 2 ^ 31) : asInt i = i := by
  exact Int.bmod_eq_of_le (by omega) (by omega)

theorem right_of {op : Op α} {res : Int} (heq : s.apply op = (res, s'))
    (hans : Answers s.maxSize (items s.slots) res (items s'.slots) s'.find op)
    (hinv : Inv s') : s.Right op ∧ Inv (s.apply op).2 := by
  simp only [Right, heq]
  exact ⟨⟨hans, hinv.nodup⟩, hinv⟩

theorem insert_answers (h : Inv s) (x : α) (hfits : s.Fits (.insert x)) :
    s.Right (.insert x) ∧ Inv (s.apply (.insert x)).2 := by
  by_cases hx : x ∈ items s.slots
  · have heq : s.insert x = (1, s) := by simp only [insert, any_eq, hx, decide_true, if_true]
    exact right_of heq (answers_insert_present hx) h
  by_cases hall : ∀ t ∈ s.slots, t.isFree = false
  · have hfull := (items_length s.slots).mpr hall
    have hf := firstFree_append hall [] 0 (-1)
    rw [append_nil] at hf
    by_cases hroom : s.slots.length < s.maxSize
    · have heq : s.insert x = (0, { s with slots := s.slots ++ [⟨x, false⟩] }) := by
        simp [insert, any_eq, hx, hf, firstFree, hroom]
      have hperm : (items (s.slots ++ [⟨x, false⟩])).Perm (x :: items s.slots) := by
        rw [items_append]
        exact perm_append_comm
      have hnodup := hperm.nodup_iff.mpr (nodup_cons.mpr ⟨hx, h.nodup⟩)
      refine right_of heq (answers_insert_new hx (by omega) hperm) ⟨hnodup, ?_, by simp, ?_⟩
      · refine pairwise_append.mpr ⟨h.first, pairwise_singleton _ _, ?_⟩
        intro t ht u _ hfree
        rw [hall t ht] at hfree
        cases hfree
      · simp only [length_append, length_singleton]
        omega
    · have heq : s.insert x = (-1, s) := by
        simp [insert, any_eq, hx, hf, firstFree, hroom]
      have := h.room
      exact right_of heq (answers_insert_full hx (by omega)) h
  · have hlen : (items s.slots).length < s.slots.length :=
      lt_of_le_of_ne (by simpa [items] using length_filter_le live s.slots)
        (mt (items_length s.slots).mp hall)
    obtain ⟨pre, t, post, hslots, ht, hpre⟩ := split_free hall
    have hlive : ∀ u ∈ pre, live u = true := fun u hu => by simp [live, hpre u hu]
    have hsmall : pre.length < 2 ^ 31 := by
      have htake := hfits.resolve_left hall
      rw [hslots, takeWhile_append_of_pos hlive] at htake
      simpa [live, ht] using htake
    have hf : firstFree s.slots 0 (-1) = pre.length := by
      rw [hslots, firstFree_append hpre, firstFree, Nat.zero_add, ht, asInt_of_lt hsmall]
      simp only [Bool.true_and, beq_self_eq_true, if_true]
      exact firstFree_kept _ _ (by omega)
    have heq : s.insert x = (0, { s with slots := pre ++ ⟨x, false⟩ :: post }) := by
      have hpos : (-1 : Int) < pre.length := by omega
      have hset : s.slots.set pre.length ⟨x, false⟩ = pre ++ ⟨x, false⟩ :: post := by
        rw [hslots]
        simp
      simp [insert, any_eq, hx, hf, hpos, hset]
    have hperm := items_fill x pre post ht
    rw [← hslots] at hperm
    have hnodup := hperm.nodup_iff.mpr (nodup_cons.mpr ⟨hx, h.nodup⟩)
    have hroom := h.room
    have hne : (items s.slots).length ≠ s.maxSize := by omega
    have hfirst := h.first
    have hlast := h.last
    rw [hslots] at hfirst hlast hroom
    obtain ⟨hp, hq, hpq⟩ := pairwise_append.mp hfirst
    refine right_of heq (answers_insert_new hx hne hperm)
      ⟨hnodup, ?_, ?_, by simpa using hroom⟩
    · refine pairwise_append.mpr ⟨hp, pairwise_cons.mpr ⟨?_, ?_⟩, ?_⟩
      · intro u _ hfree
        cases hfree
      · exact (pairwise_cons.mp hq).2
      · intro u hu v _ hfree
        rw [hpre u hu] at hfree
        cases hfree
    · -- The slot filled is the last one only if nothing is behind it.
      cases post with
      | nil => simp
      | cons u post => simpa using hlast

omit [DecidableEq α] in
theorem live_of_mem (h : Inv s) {pre post : List (Slot α)} {t : Slot α}
    (hslots : s.slots = pre ++ t :: post) (hpre : ∀ u ∈ pre, u.item ≠ t.item)
    (hmem : t.item ∈ items s.slots) : t.isFree = false := by
  obtain ⟨u, hu, hlive, hitem⟩ := mem_items.mp hmem
  by_contra hfree
  have hfree : t.isFree = true := by simpa using hfree
  rw [hslots, mem_append, mem_cons] at hu
  obtain hu | rfl | hu := hu
  · exact hpre u hu hitem
  · rw [hlive] at hfree
    cases hfree
  · have hfirst := h.first
    rw [hslots] at hfirst
    have hq := (pairwise_append.mp hfirst).2.1
    exact (pairwise_cons.mp hq).1 u hu hfree hlive hitem.symm

omit [DecidableEq α] in
theorem items_shrink (slots : List (Slot α)) : items (shrink slots) = items slots := by
  induction slots using reverseRecOn with
  | nil => rfl
  | append_singleton slots s ih =>
    cases hs : s.isFree with
    | true =>
      rw [shrink, rdropWhile_concat_pos _ _ _ hs, items_append, items_cons, hs]
      simpa [shrink] using ih
    | false => rw [shrink, rdropWhile_concat_neg _ _ _ (by simp [hs])]

omit [DecidableEq α] in
theorem inv_freed (h : Inv s) {pre post : List (Slot α)} {t : Slot α}
    (hslots : s.slots = pre ++ t :: post) (ht : t.isFree = false) {slots : List (Slot α)}
    (heq : slots = if post = [] then shrink (pre ++ [⟨t.item, true⟩])
      else pre ++ ⟨t.item, true⟩ :: post) :
    (t.item :: items slots).Perm (items s.slots) ∧ Inv { s with slots := slots } := by
  have hitems : items slots = items (pre ++ ⟨t.item, true⟩ :: post) := by
    subst heq
    split
    · rename_i hpost
      rw [items_shrink, hpost]
    · rfl
  have hsub : slots <+: pre ++ ⟨t.item, true⟩ :: post := by
    subst heq
    split
    · rename_i hpost
      rw [hpost]
      exact rdropWhile_prefix _ _
    · exact prefix_refl _
  have hperm := items_free pre post ht
  rw [← hslots, ← hitems] at hperm
  have hnodup := nodup_cons.mp (hperm.nodup_iff.mpr h.nodup)
  refine ⟨hperm, hnodup.2, ?_, ?_, ?_⟩
  · -- The freed slot's item is in no slot in use any more.
    rw [hitems] at hnodup
    have hfirst := h.first
    rw [hslots] at hfirst
    obtain ⟨hp, hq, hpq⟩ := pairwise_append.mp hfirst
    refine Pairwise.sublist hsub.sublist
      (pairwise_append.mpr ⟨hp, pairwise_cons.mpr ⟨?_, ?_⟩, ?_⟩)
    · intro u hu _ hlive hitem
      refine hnodup.1 (mem_items.mpr ⟨u, ?_, hlive, hitem.symm⟩)
      exact mem_append_right _ (mem_cons_of_mem _ hu)
    · exact (pairwise_cons.mp hq).2
    · intro u hu v hv hfree hlive
      obtain rfl | hv := mem_cons.mp hv
      · cases hlive
      · exact hpq u hu v (mem_cons_of_mem _ hv) hfree hlive
  · subst heq
    have hlast := h.last
    rw [hslots] at hlast
    split
    · intro u hu
      have hne : shrink (pre ++ [⟨t.item, true⟩]) ≠ [] := by
        intro hnil
        rw [hnil] at hu
        cases hu
      have hnot := rdropWhile_last_not Slot.isFree _ hne
      rw [getLast?_eq_some_getLast hne] at hu
      cases hu
      simpa [shrink] using hnot
    · rename_i hpost
      cases post with
      | nil => exact absurd rfl hpost
      | cons v post => simpa using hlast
  · have hroom := h.room
    rw [hslots] at hroom
    refine le_trans hsub.length_le ?_
    simpa using hroom

omit [DecidableEq α] in
theorem findIdx?_split {p : Slot α → Bool} {t : Slot α}
    (hpre : ∀ u ∈ pre, p u = false) (ht : p t = true) :
    (pre ++ t :: post).findIdx? p = some pre.length := by
  induction pre with
  | nil => simp [findIdx?_cons, ht]
  | cons u pre ih =>
    have hu := hpre u mem_cons_self
    simp [findIdx?_cons, hu, ih fun v hv => hpre v (mem_cons_of_mem _ hv)]

omit [DecidableEq α] in
theorem modify_split {f : Slot α → Slot α} {t : Slot α} :
    (pre ++ t :: post).modify pre.length f = pre ++ f t :: post := by
  induction pre with
  | nil => rfl
  | cons u pre ih => simp [ih]

theorem remove_none {x : α} (h : ∀ t ∈ s.slots, t.item ≠ x) : s.remove x = (-1, s) := by
  have hidx : (s.slots.findIdx? fun t => t.item = x) = none := by
    simpa [findIdx?_eq_none_iff] using h
  simp only [remove, hidx]

theorem remove_found {t : Slot α}
    (hslots : s.slots = pre ++ t :: post) (hpre : ∀ u ∈ pre, u.item ≠ t.item) :
    s.remove t.item = (0, { s with slots := if post = [] then shrink (pre ++ [⟨t.item, true⟩])
      else pre ++ ⟨t.item, true⟩ :: post }) := by
  have hidx : (s.slots.findIdx? fun u => u.item = t.item) = some pre.length := by
    rw [hslots]
    exact findIdx?_split (by simpa using hpre) (by simp)
  have hmod : s.slots.modify pre.length (fun u => { u with isFree := true }) =
      pre ++ ⟨t.item, true⟩ :: post := by
    rw [hslots]
    exact modify_split
  have hend : pre.length + 1 = s.slots.length ↔ post = [] := by
    rw [hslots, ← length_eq_zero_iff, length_append, length_cons]
    omega
  simp only [remove, hidx, hmod, hend]
  split
  · rename_i hpost
    rw [hpost]
  · rfl

theorem split_item {slots : List (Slot α)} {x : α} (h : ¬∀ t ∈ slots, t.item ≠ x) :
    ∃ pre t post, slots = pre ++ t :: post ∧ t.item = x ∧ ∀ u ∈ pre, u.item ≠ x := by
  obtain ⟨t, ht⟩ : ∃ t, (slots.find? fun t => t.item = x) = some t := by
    rw [← Option.isSome_iff_exists, find?_isSome]
    simpa using h
  obtain ⟨hitem, pre, post, hslots, hpre⟩ := find?_eq_some_iff_append.mp ht
  exact ⟨pre, t, post, hslots, by simpa using hitem, fun u hu => by simpa using hpre u hu⟩

theorem remove_answers (h : Inv s) {x : α} (hghost : s.NoGhost (.remove x)) :
    s.Right (.remove x) ∧ Inv (s.apply (.remove x)).2 := by
  by_cases hnone : ∀ t ∈ s.slots, t.item ≠ x
  · have heq := remove_none hnone
    have hx : x ∉ items s.slots := by
      intro hx
      obtain ⟨t, ht, -, hitem⟩ := mem_items.mp hx
      exact hnone t ht hitem
    exact right_of heq (answers_remove_absent hx (by rw [find_eq, if_neg hx])) h
  · have hx : x ∈ items s.slots := by
      by_contra hx
      exact hnone (hghost hx)
    obtain ⟨pre, t, post, hslots, rfl, hpre⟩ := split_item hnone
    have heq := remove_found hslots hpre
    obtain ⟨hperm, hinv⟩ := inv_freed h hslots (live_of_mem h hslots hpre hx) rfl
    refine right_of heq (answers_remove_present hperm h.nodup fun hnot => ?_) hinv
    rw [find_eq, if_neg hnot]

theorem remove_ghost {x : α} (hright : s.Right (.remove x)) : s.NoGhost (.remove x) := by
  intro hx
  by_contra hnone
  obtain ⟨pre, t, post, hslots, rfl, hpre⟩ := split_item hnone
  have heq := remove_found hslots hpre
  exact hx (hright.1.1.mp (congrArg Prod.fst heq))

theorem right_iff (h : Inv s) (op : Op α) :
    s.Right op ∧ s.Fits op ↔ s.NoGhost op ∧ s.Fits op := by
  refine and_congr_left fun hfits => ?_
  cases op with
  | insert x => exact ⟨fun _ => trivial, fun _ => (insert_answers h x hfits).1⟩
  | remove x => exact ⟨remove_ghost, fun hghost => (remove_answers h hghost).1⟩
  | find x => exact ⟨fun _ => trivial, fun _ => ⟨answers_find (find_eq s x), h.nodup⟩⟩

theorem step_inv {op : Op α} (h : Inv s)
    (hok : s.NoGhost op ∧ s.Fits op) (hstep : s.step op = some s') : Inv s' := by
  cases hstep
  cases op with
  | insert x => exact (insert_answers h x hok.2).2
  | remove x => exact (remove_answers h hok.1).2
  | find x => exact h

omit [DecidableEq α] in
theorem inv_empty (maxSize : Nat) : Inv (empty maxSize : BoundedSet α) :=
  ⟨nodup_nil, Pairwise.nil, by simp [empty], by simp [empty]⟩

end BoundedSet

/-! ## Both sets -/

open BoundedSet

/-- **Both sets are sets as long as** no item that is there behind a free slot is inserted in
the fixed one, and no item that only a free slot has is removed from the bounded one, whose
free slots have indices that are ints. -/
theorem sets_iff (fill : List α) (maxSize : Nat) (ops : List (Op α))
    (hfits : AllSteps BoundedSet.step BoundedSet.Fits (.empty maxSize) ops) :
    (AllSteps FixedSet.step FixedSet.Right (.empty fill) ops ↔
      AllSteps FixedSet.step FixedSet.Seen (.empty fill) ops) ∧
    (AllSteps BoundedSet.step BoundedSet.Right (.empty maxSize) ops ↔
      AllSteps BoundedSet.step BoundedSet.NoGhost (.empty maxSize) ops) := by
  constructor
  · exact allSteps_congr (fun _ op h => FixedSet.right_iff h op)
      (fun _ _ _ h hseen hstep => FixedSet.step_inv h hseen hstep) (FixedSet.inv_empty fill)
  · have hboth : AllSteps BoundedSet.step (fun s op => s.Right op ∧ s.Fits op) (.empty maxSize) ops ↔
        AllSteps BoundedSet.step (fun s op => s.NoGhost op ∧ s.Fits op) (.empty maxSize) ops :=
      allSteps_congr (fun _ op h => right_iff h op)
        (fun _ _ _ h hok hstep => step_inv h hok hstep) (inv_empty maxSize)
    constructor
    · intro h
      exact (hboth.mp (h.and hfits)).mono fun _ _ hok => hok.1
    · intro h
      exact (hboth.mpr (h.and hfits)).mono fun _ _ hok => hok.1

/-- Two items, the first one removed and inserted again. -/
theorem sets_iff_reused :
    let ops : List (Op Nat) := [.insert 1, .insert 2, .remove 1, .insert 1, .find 2]
    AllSteps BoundedSet.step BoundedSet.Right (.empty 3) ops ↔
      AllSteps BoundedSet.step BoundedSet.NoGhost (.empty 3) ops :=
  (sets_iff [0, 0, 0] 3 [.insert 1, .insert 2, .remove 1, .insert 1, .find 2] (by decide)).2

/-- The fixed set has 2 twice, and the bounded one reports that it removed 1 twice. -/
theorem free_slots_mislead :
    ¬AllSteps FixedSet.step FixedSet.Right (.empty [0, 0, 0])
        [.insert 1, .insert 2, .remove 1, .insert 2] ∧
      ¬AllSteps BoundedSet.step BoundedSet.Right (.empty 3)
        [.insert 1, .insert 2, .remove 1, .remove 1] := by
  constructor
  · intro h
    obtain ⟨-, h⟩ := h.2 _ rfl
    obtain ⟨-, h⟩ := h _ rfl
    exact absurd (h _ rfl).1.2 (by decide)
  · intro h
    obtain ⟨-, h⟩ := h.2 _ rfl
    obtain ⟨-, h⟩ := h _ rfl
    exact absurd ((h _ rfl).1.1.1.mp (by decide)) (by decide)

end Atcd.Maps.SlotSets
