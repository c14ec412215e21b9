import Mathlib
/-!
# Handle sets and reactor masks

`ACE_Handle_Set` as the set of its bits: the bound and the count that the class
keeps beside them are functions of the set here. A handle is an `Int`, with -1 for
`ACE_INVALID_HANDLE`. A reactor keeps such sets in threes, one for each kind of event.
-/
namespace Atcd.Reactor

open Finset

/-- `ACE_Reactor_Mask` -/
abbrev Mask := UInt64

/-! ## Masks: mirrors ACE/ace/Event_Handler.h:54-82 -/

def nullMask : Mask := 0
def readMask : Mask := 1
def writeMask : Mask := 2
def exceptMask : Mask := 4
def acceptMask : Mask := 8
def connectMask : Mask := 16
def timerMask : Mask := 32
def qosMask : Mask := 64
def groupQosMask : Mask := 128
def signalMask : Mask := 256
def rweMask : Mask := readMask ||| writeMask ||| exceptMask
def allEventsMask : Mask := rweMask ||| acceptMask ||| connectMask ||| timerMask ||| qosMask |||
  groupQosMask ||| signalMask
def dontCall : Mask := 512

/-- `ACE_BIT_ENABLED` -/
def bitEnabled (word bit : Mask) : Bool := word &&& bit != 0

inductive IoEvent where
  | read | write | except
  deriving DecidableEq, Repr

/-- A handle and one of its events. -/
abbrev Key := Int × IoEvent

/-- The mask of the one event. -/
def IoEvent.toMask : IoEvent → Mask
  | .read => readMask
  | .write => writeMask
  | .except => exceptMask

/-- The events a mask stands for in `bit_ops`.
mirrors ACE/ace/Select_Reactor_Base.cpp:1035-1066 -/
def selects (mask : Mask) : IoEvent → Bool
  | .read => bitEnabled mask readMask || bitEnabled mask acceptMask || bitEnabled mask connectMask
  | .write => bitEnabled mask writeMask || bitEnabled mask connectMask
  | .except => bitEnabled mask exceptMask

/-- The events a mask stands for in `clear_dispatch_mask`, where `CONNECT_MASK` is none.
mirrors Select_Reactor_Base.cpp:1100-1112 -/
def clears (mask : Mask) : IoEvent → Bool
  | .read => bitEnabled mask readMask || bitEnabled mask acceptMask
  | .write => bitEnabled mask writeMask
  | .except => bitEnabled mask exceptMask

theorem selects_of_clears {mask : Mask} {e : IoEvent} (h : clears mask e = true) :
    selects mask e = true := by
  cases e with
  | read => simp only [selects, Bool.or_eq_true]; simpa [clears] using Or.inl h
  | write => simp only [selects, Bool.or_eq_true]; exact Or.inl h
  | except => exact h

@[simp] theorem selects_toMask (e f : IoEvent) : selects e.toMask f = decide (e = f) := by
  cases e <;> cases f <;> decide

@[simp] theorem clears_toMask (e f : IoEvent) : clears e.toMask f = decide (e = f) := by
  cases e <;> cases f <;> decide

@[simp] theorem clears_rweMask (e : IoEvent) : clears rweMask e = true := by
  cases e <;> decide

/-! ## One set -/

/-- `ACE_Handle_Set::max_set` -/
def maxSet (s : Finset Int) : Int := s.fold max (-1) id

theorem le_maxSet {s : Finset Int} {h : Int} (hm : h ∈ s) : h ≤ maxSet s :=
  (le_fold_max _).mpr (Or.inr ⟨h, hm, le_rfl⟩)

/-- What `ACE_Handle_Set_Iterator` gives first. -/
def firstHandle (s : Finset Int) : Option Int := s.min

theorem firstHandle_mem {s : Finset Int} {h : Int} (hs : firstHandle s = some h) : h ∈ s :=
  mem_of_min hs

theorem firstHandle_le {s : Finset Int} {h x : Int} (hs : firstHandle s = some h) (hx : x ∈ s) : h ≤ x :=
  min_le_of_eq hx hs

theorem firstHandle_eq_none {s : Finset Int} : firstHandle s = none ↔ s = ∅ := min_eq_top

/-! ## Three sets -/

/-- mirrors ACE/ace/Select_Reactor_Base.h (ACE_Select_Reactor_Handle_Set) -/
structure HandleSets where
  rdMask : Finset Int
  wrMask : Finset Int
  exMask : Finset Int
  deriving DecidableEq

namespace HandleSets

/-- The sets after `reset` of each. -/
def empty : HandleSets := ⟨∅, ∅, ∅⟩

def mask (s : HandleSets) : IoEvent → Finset Int
  | .read => s.rdMask
  | .write => s.wrMask
  | .except => s.exMask

def modify (s : HandleSets) (e : IoEvent) (f : Finset Int → Finset Int) : HandleSets :=
  match e with
  | .read => { s with rdMask := f s.rdMask }
  | .write => { s with wrMask := f s.wrMask }
  | .except => { s with exMask := f s.exMask }

/-- `is_set` -/
def IsSet (s : HandleSets) (h : Int) (e : IoEvent) : Prop := h ∈ s.mask e

instance (s : HandleSets) (h : Int) (e : IoEvent) : Decidable (s.IsSet h e) :=
  inferInstanceAs (Decidable (h ∈ s.mask e))

def setBit (s : HandleSets) (h : Int) (e : IoEvent) : HandleSets := s.modify e (insert h)

def clrBit (s : HandleSets) (h : Int) (e : IoEvent) : HandleSets := s.modify e (·.erase h)

def IsSetAny (s : HandleSets) (h : Int) : Prop := s.IsSet h .read ∨ s.IsSet h .write ∨ s.IsSet h .except

instance (s : HandleSets) (h : Int) : Decidable (s.IsSetAny h) :=
  inferInstanceAs (Decidable (_ ∨ _))

def numSet (s : HandleSets) : Nat := s.rdMask.card + s.wrMask.card + s.exMask.card

variable {s : HandleSets} {h h' : Int} {e e' : IoEvent}

theorem isSetAny_iff : s.IsSetAny h ↔ ∃ e, s.IsSet h e := by
  constructor
  · rintro (hr | hw | hx)
    · exact ⟨_, hr⟩
    · exact ⟨_, hw⟩
    · exact ⟨_, hx⟩
  · rintro ⟨e, he⟩
    cases e with
    | read => exact .inl he
    | write => exact .inr (.inl he)
    | except => exact .inr (.inr he)

@[simp] theorem not_isSet_empty : ¬ empty.IsSet h e := by
  cases e <;> simp [IsSet, empty, mask]

theorem mask_modify (s : HandleSets) (e e' : IoEvent) (f : Finset Int → Finset Int) :
    (s.modify e f).mask e' = if e' = e then f (s.mask e) else s.mask e' := by
  cases e <;> cases e' <;> rfl

@[simp] theorem isSet_setBit :
    (s.setBit h e).IsSet h' e' ↔ (h' = h ∧ e' = e) ∨ s.IsSet h' e' := by
  unfold IsSet setBit
  rw [mask_modify]
  split
  · next he => subst he; simp
  · next he => simp [he]

@[simp] theorem isSet_clrBit :
    (s.clrBit h e).IsSet h' e' ↔ ¬ (h' = h ∧ e' = e) ∧ s.IsSet h' e' := by
  unfold IsSet clrBit
  rw [mask_modify]
  split
  · next he => subst he; simp
  · next he => simp [he]

def keys (s : HandleSets) : Finset Key :=
  s.rdMask.image (·, .read) ∪ (s.wrMask.image (·, .write) ∪ s.exMask.image (·, .except))

theorem mem_keys {s : HandleSets} {k : Key} : k ∈ s.keys ↔ s.IsSet k.1 k.2 := by
  obtain ⟨h, e⟩ := k
  cases e <;> simp [keys, IsSet, mask]

theorem card_keys (s : HandleSets) : s.keys.card = s.numSet := by
  have hinj : ∀ e : IoEvent, Function.Injective fun h : Int => (h, e) := fun e a b hab => by
    simpa using hab
  unfold keys numSet
  rw [card_union_of_disjoint, card_union_of_disjoint,
    card_image_of_injective _ (hinj .read), card_image_of_injective _ (hinj .write),
    card_image_of_injective _ (hinj .except), Nat.add_assoc]
  · rw [disjoint_left]
    simp
  · rw [disjoint_left]
    simp

end HandleSets

end Atcd.Reactor
