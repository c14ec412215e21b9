import Atcd.Reactor.HandleSets
/-!
# Select reactor: registration

The tables of `ACE_Select_Reactor` and the operations on them: the array of event
handlers with `max_handlep1_`, the wait and suspend sets that say which events of
a handle are wanted, the ready set, and the dispatch set of the pass under way.
The thread-pool reactor has the same tables and its own `clear_dispatch_mask`.

`find` answers from the array below `max_handlep1_`, and all operations go by it or
by that bound: an entry at or above the bound is out of reach.
-/
namespace Atcd.Reactor

/-- What the reactor asks of an `ACE_Event_Handler`. -/
structure EventHandler where
  id : Nat
  getHandle : Int
  /-- `reference_counting_policy ()` is `ENABLED` -/
  counted : Bool
  /-- `resume_handler ()` is `ACE_REACTOR_RESUMES_HANDLER` -/
  reactorResumes : Bool
  deriving DecidableEq, Repr

/-- A call the reactor makes to a handler, with the handle it makes it for. -/
inductive Call where
  | addReference (handle : Int) (eh : EventHandler)
  | removeReference (handle : Int) (eh : EventHandler)
  | handleClose (handle : Int) (eh : EventHandler) (mask : Mask)
  deriving DecidableEq, Repr

/-- The two classes of reactor, for the virtual `clear_dispatch_mask`. -/
inductive Kind where
  | select | tp
  deriving DecidableEq, Repr

structure SelectReactor where
  kind : Kind
  size : Int
  eventHandlers : Int → Option EventHandler
  maxHandlep1 : Int
  waitSet : HandleSets
  suspendSet : HandleSets
  readySet : HandleSets
  dispatchSet : HandleSets
  stateChanged : Bool
  calls : List Call

/-- The second argument of `mask_ops`. -/
inductive MaskOp where
  | get | set | add | clr | unknown
  deriving DecidableEq, Repr

/-- The sets that `bit_ops` is called with. -/
inductive WhichSet where
  | wait | suspend
  deriving DecidableEq, Repr

namespace HandleSets

/-- One of the three parts of `bit_ops`. -/
def opBit (s : HandleSets) (h : Int) (mask : Mask) (ops : MaskOp) (e : IoEvent) : HandleSets :=
  if selects mask e then (if ops = .clr then s.clrBit h e else s.setBit h e)
  else if ops = .set then s.clrBit h e
  else s

/-- mirrors ACE/ace/Select_Reactor_Base.cpp:1033-1068 -/
def opBits (s : HandleSets) (h : Int) (mask : Mask) (ops : MaskOp) : HandleSets :=
  ((s.opBit h mask ops .read).opBit h mask ops .write).opBit h mask ops .except

/-- The bits of the handle as a mask. -/
def oldMask (s : HandleSets) (h : Int) : Mask :=
  (if s.IsSet h .read then readMask else nullMask) |||
    (if s.IsSet h .write then writeMask else nullMask) |||
    (if s.IsSet h .except then exceptMask else nullMask)

def moveBit (h : Int) (p : HandleSets × HandleSets) (e : IoEvent) : HandleSets × HandleSets :=
  if p.1.IsSet h e then (p.1.clrBit h e, p.2.setBit h e) else p

def moveBits (src dst : HandleSets) (h : Int) : HandleSets × HandleSets :=
  moveBit h (moveBit h (moveBit h (src, dst) .read) .write) .except

end HandleSets

namespace SelectReactor

/-- mirrors Select_Reactor_Base.cpp:78-101 -/
def opened (kind : Kind) (size : Int) : SelectReactor :=
  ⟨kind, size, fun _ => none, 0, .empty, .empty, .empty, .empty, false, []⟩

/-- mirrors Select_Reactor_Base.cpp:34-54 -/
def InvalidHandle (r : SelectReactor) (handle : Int) : Prop := handle < 0 ∨ r.size ≤ handle

instance (r : SelectReactor) (handle : Int) : Decidable (r.InvalidHandle handle) :=
  inferInstanceAs (Decidable (_ ∨ _))

/-- mirrors Select_Reactor_Base.cpp:58-77 -/
def HandleInRange (r : SelectReactor) (handle : Int) : Prop := 0 ≤ handle ∧ handle < r.maxHandlep1

instance (r : SelectReactor) (handle : Int) : Decidable (r.HandleInRange handle) :=
  inferInstanceAs (Decidable (_ ∧ _))

/-- mirrors ACE/ace/Select_Reactor_Base.inl:40-68 -/
def find (r : SelectReactor) (handle : Int) : Option EventHandler :=
  if r.HandleInRange handle then r.eventHandlers handle else none

/-- mirrors ACE/ace/Select_Reactor_T.cpp:977-989 -/
def IsSuspendedI (r : SelectReactor) (handle : Int) : Prop :=
  r.find handle ≠ none ∧ r.suspendSet.IsSetAny handle

instance (r : SelectReactor) (handle : Int) : Decidable (r.IsSuspendedI handle) :=
  inferInstanceAs (Decidable (_ ∧ _))

/-- The bits that the mask clears in the dispatch set. -/
def clearedDispatch (s : HandleSets) (handle : Int) (mask : Mask) : HandleSets :=
  let clearBit (s : HandleSets) (e : IoEvent) := if clears mask e then s.clrBit handle e else s
  clearBit (clearBit (clearBit s .read) .write) .except

/-- The thread-pool reactor drops its remembered ready bits.
mirrors Select_Reactor_Base.cpp:1075-1118, ACE/ace/TP_Reactor.inl:107-114 -/
def clearDispatchMask (r : SelectReactor) (handle : Int) (mask : Mask) : SelectReactor :=
  match r.kind with
  | .select =>
    { r with dispatchSet := clearedDispatch r.dispatchSet handle mask, stateChanged := true }
  | .tp => { r with readySet := .empty }

def sets (r : SelectReactor) : WhichSet → HandleSets
  | .wait => r.waitSet
  | .suspend => r.suspendSet

def putSets (r : SelectReactor) (which : WhichSet) (s : HandleSets) : SelectReactor :=
  match which with
  | .wait => { r with waitSet := s }
  | .suspend => { r with suspendSet := s }

/-- The old mask, or no result for -1.
mirrors Select_Reactor_Base.cpp:983-1073 -/
def bitOps (r : SelectReactor) (handle : Int) (mask : Mask) (which : WhichSet) (ops : MaskOp) :
    SelectReactor × Option Mask :=
  if ¬ r.HandleInRange handle then (r, none)
  else
    let omask := (r.sets which).oldMask handle
    match ops with
    | .get => (r, some omask)
    | .clr =>
      ((r.clearDispatchMask handle mask).putSets which ((r.sets which).opBits handle mask .clr),
        some omask)
    | .set => (r.putSets which ((r.sets which).opBits handle mask .set), some omask)
    | .add => (r.putSets which ((r.sets which).opBits handle mask .add), some omask)
    | .unknown => (r, none)

/-- mirrors Select_Reactor_T.cpp:850-866 -/
def maskOps (r : SelectReactor) (handle : Int) (mask : Mask) (ops : MaskOp) :
    SelectReactor × Option Mask :=
  if r.IsSuspendedI handle then r.bitOps handle mask .suspend ops
  else r.bitOps handle mask .wait ops

/-- mirrors ACE/ace/Select_Reactor_T.inl:165-171 -/
def scheduleWakeup (r : SelectReactor) (handle : Int) (mask : Mask) : SelectReactor × Option Mask :=
  r.maskOps handle mask .add

/-- mirrors Select_Reactor_T.inl:173-179 -/
def cancelWakeup (r : SelectReactor) (handle : Int) (mask : Mask) : SelectReactor × Option Mask :=
  r.maskOps handle mask .clr

def log (r : SelectReactor) (c : Call) : SelectReactor := { r with calls := r.calls ++ [c] }

/-- The entry is set, and the bound covers it. -/
def enter (r : SelectReactor) (handle : Int) (eh : EventHandler) : SelectReactor :=
  { r with
    eventHandlers := Function.update r.eventHandlers handle (some eh)
    maxHandlep1 := if r.maxHandlep1 < handle + 1 then handle + 1 else r.maxHandlep1 }

/-- The part of `bind` that follows the checks. -/
def bindAt (r : SelectReactor) (handle : Int) (eh : EventHandler) (mask : Mask) : SelectReactor :=
  let existingHandle := (r.eventHandlers handle).isSome
  let r := r.enter handle eh
  let r :=
    if r.IsSuspendedI handle then (r.bitOps handle mask .suspend .add).1
    else (r.bitOps handle mask .wait .add).1
  if existingHandle then r else r.log (.addReference handle eh)

/-- `register_handler_i`; 0 or -1.
mirrors Select_Reactor_Base.cpp:185-283 -/
def bind (r : SelectReactor) (handle : Int) (eventHandler : Option EventHandler) (mask : Mask) :
    SelectReactor × Int :=
  match eventHandler with
  | none => (r, -1)
  | some eh =>
    let handle := if handle = -1 then eh.getHandle else handle
    if r.InvalidHandle handle then (r, -1)
    -- another handler has the handle
    else if r.eventHandlers handle ≠ none ∧ r.eventHandlers handle ≠ some eh then (r, -1)
    else (r.bindAt handle eh mask, 0)

/-- The largest handle with a bit in the wait or suspend set.
mirrors Select_Reactor_Base.cpp:342-372 -/
def maxOfSix (r : SelectReactor) : Int :=
  max (max (max (max (max (maxSet r.waitSet.rdMask) (maxSet r.waitSet.wrMask))
    (maxSet r.waitSet.exMask)) (maxSet r.suspendSet.rdMask)) (maxSet r.suspendSet.wrMask))
    (maxSet r.suspendSet.exMask)

/-- The entry is cleared, and the bound recomputed if it was the last one. -/
def drop (r : SelectReactor) (handle : Int) : SelectReactor :=
  { r with
    eventHandlers := Function.update r.eventHandlers handle none
    maxHandlep1 := if r.maxHandlep1 = handle + 1 then r.maxOfSix + 1 else r.maxHandlep1 }

def HasBits (r : SelectReactor) (handle : Int) : Prop :=
  r.waitSet.IsSetAny handle ∨ r.suspendSet.IsSetAny handle

instance (r : SelectReactor) (handle : Int) : Decidable (r.HasBits handle) :=
  inferInstanceAs (Decidable (_ ∨ _))

def clearBits (r : SelectReactor) (handle : Int) (mask : Mask) : SelectReactor :=
  ((r.bitOps handle mask .wait .clr).1.bitOps handle mask .suspend .clr).1

/-- The calls to the handler at the end of `unbind`. -/
def closeHandler (r : SelectReactor) (handle : Int) (eh : EventHandler) (mask : Mask)
    (completeRemoval : Bool) : SelectReactor :=
  let r := if bitEnabled mask dontCall then r else r.log (.handleClose handle eh mask)
  if completeRemoval && eh.counted then r.log (.removeReference handle eh) else r

/-- `remove_handler_i`; 0 or -1.
mirrors Select_Reactor_Base.cpp:285-400, Select_Reactor_Base.inl:26-37 -/
def unbind (r : SelectReactor) (handle : Int) (mask : Mask) : SelectReactor × Int :=
  if ¬ r.HandleInRange handle then (r, -1)
  else
    let eventHandler := r.eventHandlers handle
    let r := r.clearBits handle mask
    let completeRemoval := !decide (r.HasBits handle)
    let r := if completeRemoval then r.drop handle else r
    match eventHandler with
    | none => (r, -1)
    | some eh => (r.closeHandler handle eh mask completeRemoval, 0)

/-- mirrors Select_Reactor_T.cpp:918-940 -/
def resumeI (r : SelectReactor) (handle : Int) : SelectReactor × Int :=
  if r.find handle = none then (r, -1)
  else
    let (suspendSet, waitSet) := r.suspendSet.moveBits r.waitSet handle
    ({ r with suspendSet, waitSet }, 0)

/-- mirrors Select_Reactor_T.cpp:944-973 -/
def suspendI (r : SelectReactor) (handle : Int) : SelectReactor × Int :=
  if r.find handle = none then (r, -1)
  else
    let (waitSet, suspendSet) := r.waitSet.moveBits r.suspendSet handle
    (SelectReactor.clearDispatchMask { r with waitSet, suspendSet } handle rweMask, 0)

end SelectReactor

end Atcd.Reactor
