import Atcd.Reactor.Pass
/-!
# What a pass serves

Results:
* `pass_serves`: a pass ends, and every ready bit has one turn unless an upcall withdraws
  it first, if no more messages are dispatched from the notification pipe than ready bits
  are withdrawn before the handles' turn, and no upcall withdraws a pending bit by
  `CONNECT_MASK` alone.
* `pass_starves`: one message in the pipe, and a ready handle is not served. The
  notifications are taken off the count of active handles in two places.
-/
namespace Atcd.Reactor

open SelectReactor Finset HandleSets

/-! ## Requests and ready bits -/

namespace SelectReactor

/-- The operation takes the event off the handle. -/
def Withdraws (r : SelectReactor) (op : SelectOp) (k : Key) : Prop :=
  match op with
  | .removeHandler handle mask | .cancelWakeup handle mask | .maskOps handle mask .clr =>
    handle = k.1 ∧ r.HandleInRange handle ∧ selects mask k.2 = true
  | .suspendHandler handle => handle = k.1 ∧ r.find handle ≠ none
  | _ => False

/-- The operation sets the mask of the handle to one without the event. -/
def Masks (r : SelectReactor) (op : SelectOp) (k : Key) : Prop :=
  match op with
  | .maskOps handle mask .set => handle = k.1 ∧ r.HandleInRange handle ∧ ¬ selects mask k.2 = true
  | _ => False

/-- The operation clears the bit in the dispatch set. -/
def ClearsBit (r : SelectReactor) (op : SelectOp) (k : Key) : Prop :=
  match op with
  | .removeHandler handle mask | .cancelWakeup handle mask | .maskOps handle mask .clr =>
    handle = k.1 ∧ r.HandleInRange handle ∧ clears mask k.2 = true
  | .suspendHandler handle => handle = k.1 ∧ r.find handle ≠ none
  | _ => False

instance (r : SelectReactor) (op : SelectOp) (k : Key) : Decidable (r.Withdraws op k) := by
  unfold Withdraws
  split <;> infer_instance

instance (r : SelectReactor) (op : SelectOp) (k : Key) : Decidable (r.Masks op k) := by
  unfold Masks
  split <;> infer_instance

instance (r : SelectReactor) (op : SelectOp) (k : Key) : Decidable (r.ClearsBit op k) := by
  unfold ClearsBit
  split <;> infer_instance

/-- The request is one to take the event off the handle. -/
def SelectOp.Takes (op : SelectOp) (k : Key) : Prop :=
  match op with
  | .removeHandler handle mask | .cancelWakeup handle mask | .maskOps handle mask .clr =>
    handle = k.1 ∧ selects mask k.2 = true
  | .suspendHandler handle => handle = k.1
  | _ => False

/-- The request takes the event off the handle by `CONNECT_MASK` alone, and leaves the bit. -/
def SelectOp.LeavesStale (op : SelectOp) (k : Key) : Prop :=
  match op with
  | .removeHandler handle mask | .cancelWakeup handle mask | .maskOps handle mask .clr =>
    handle = k.1 ∧ selects mask k.2 = true ∧ ¬ clears mask k.2 = true
  | _ => False

instance (op : SelectOp) (k : Key) : Decidable (op.LeavesStale k) := by
  unfold SelectOp.LeavesStale
  split <;> infer_instance

variable {r : SelectReactor} {h : Int} {k : Key} {e : IoEvent} {mask : Mask} {w : WhichSet}
  {ops : MaskOp} {op : SelectOp} {eh : EventHandler}

theorem ClearsBit.takes (hc : r.ClearsBit op k) : op.Takes k := by
  unfold ClearsBit at hc
  split at hc
  · exact ⟨hc.1, selects_of_clears hc.2.2⟩
  · exact ⟨hc.1, selects_of_clears hc.2.2⟩
  · exact ⟨hc.1, selects_of_clears hc.2.2⟩
  · exact hc.1
  · exact hc.elim

theorem Withdraws.clearsBit (hw : r.Withdraws op k) (hs : ¬ op.LeavesStale k) : r.ClearsBit op k := by
  unfold Withdraws at hw
  split at hw
  · exact ⟨hw.1, hw.2.1, not_not.mp fun hc => hs ⟨hw.1, hw.2.2, hc⟩⟩
  · exact ⟨hw.1, hw.2.1, not_not.mp fun hc => hs ⟨hw.1, hw.2.2, hc⟩⟩
  · exact ⟨hw.1, hw.2.1, not_not.mp fun hc => hs ⟨hw.1, hw.2.2, hc⟩⟩
  · exact hw
  · exact hw.elim

theorem ClearsBit.withdraws (hc : r.ClearsBit op k) : r.Withdraws op k := by
  unfold ClearsBit at hc
  split at hc
  · exact ⟨hc.1, hc.2.1, selects_of_clears hc.2.2⟩
  · exact ⟨hc.1, hc.2.1, selects_of_clears hc.2.2⟩
  · exact ⟨hc.1, hc.2.1, selects_of_clears hc.2.2⟩
  · exact hc
  · exact hc.elim

/-! ## The dispatch set under the operations -/

theorem isSet_clearedDispatch {s : HandleSets} :
    (clearedDispatch s h mask).IsSet k.1 k.2 ↔ s.IsSet k.1 k.2 ∧ ¬ (h = k.1 ∧ clears mask k.2 = true) := by
  have hone : ∀ (s : HandleSets) (e : IoEvent),
      ((if clears mask e then s.clrBit h e else s).IsSet k.1 k.2 ↔
        s.IsSet k.1 k.2 ∧ ¬ (k.1 = h ∧ k.2 = e ∧ clears mask e = true)) := by
    intro s e
    by_cases hc : clears mask e = true
    · rw [if_pos hc, isSet_clrBit]
      simp only [hc, and_true]
      exact and_comm
    · rw [if_neg hc]
      simp [hc]
  unfold clearedDispatch
  rw [hone, hone, hone]
  obtain ⟨h', e⟩ := k
  by_cases hh : h = h'
  · subst hh
    cases e <;> simp
  · simp [hh, Ne.symm hh]

/-- What a pass sees of an operation: it clears certain bits of the dispatch set. -/
structure Effect (C : Key → Prop) (r r' : SelectReactor) : Prop where
  kind : r'.kind = .select
  readySet : r'.readySet = r.readySet
  bits : ∀ k : Key, r'.dispatchSet.IsSet k.1 k.2 ↔ r.dispatchSet.IsSet k.1 k.2 ∧ ¬ C k

variable {C C' : Key → Prop} {r' r'' : SelectReactor}

theorem Effect.same (hk : r.kind = .select) (hkind : r'.kind = r.kind) (hready : r'.readySet = r.readySet)
    (hdispatch : r'.dispatchSet = r.dispatchSet) : Effect (fun _ => False) r r' :=
  ⟨hkind.trans hk, hready, fun k => by rw [hdispatch]; simp⟩

theorem Effect.congr (he : Effect C r r') (hC : ∀ k, C k ↔ C' k) : Effect C' r r' :=
  ⟨he.kind, he.readySet, fun k => (he.bits k).trans (and_congr_right fun _ => not_congr (hC k))⟩

theorem Effect.trans (h₁ : Effect C r r') (h₂ : Effect C' r' r'') : Effect (fun k => C k ∨ C' k) r r'' := by
  refine ⟨h₂.kind, h₂.readySet.trans h₁.readySet, fun k => ?_⟩
  rw [h₂.bits, h₁.bits, and_assoc, not_or]

theorem effect_clearDispatchMask (hk : r.kind = .select) :
    Effect (fun k => h = k.1 ∧ clears mask k.2 = true) r (r.clearDispatchMask h mask) := by
  unfold clearDispatchMask
  rw [hk]
  exact ⟨rfl, rfl, fun k => isSet_clearedDispatch⟩

open Effect

theorem effect_putSets (hk : r.kind = .select) {s : HandleSets} :
    Effect (fun _ => False) r (r.putSets w s) := by
  cases w <;> exact same hk rfl rfl rfl

theorem effect_bitOps (hk : r.kind = .select) :
    Effect (fun k => ops = .clr ∧ h = k.1 ∧ r.HandleInRange h ∧ clears mask k.2 = true) r
      (r.bitOps h mask w ops).1 := by
  unfold bitOps
  by_cases hr : r.HandleInRange h
  · rw [if_neg (not_not_intro hr)]
    cases ops with
    | get => exact (same hk rfl rfl rfl).congr (by simp)
    | set => exact (effect_putSets hk).congr (by simp)
    | add => exact (effect_putSets hk).congr (by simp)
    | unknown => exact (same hk rfl rfl rfl).congr (by simp)
    | clr =>
      have hclear : Effect (fun k => h = k.1 ∧ clears mask k.2 = true) r (r.clearDispatchMask h mask) :=
        effect_clearDispatchMask hk
      exact (hclear.trans (effect_putSets hclear.kind)).congr (by simp [hr])
  · rw [if_pos hr]
    exact (same hk rfl rfl rfl).congr (by simp [hr])

theorem effect_maskOps (hk : r.kind = .select) :
    Effect (fun k => ops = .clr ∧ h = k.1 ∧ r.HandleInRange h ∧ clears mask k.2 = true) r
      (r.maskOps h mask ops).1 := by
  unfold maskOps
  split <;> exact effect_bitOps hk

theorem effect_bindAt (hk : r.kind = .select) : Effect (fun _ => False) r (r.bindAt h eh mask) := by
  have henter : Effect (fun _ => False) r (r.enter h eh) := same hk rfl rfl rfl
  have hbits : Effect (fun _ => False) r ((r.enter h eh).withBits h mask) :=
    (henter.trans (effect_maskOps henter.kind)).congr (by simp)
  rw [bindAt_eq]
  split
  · exact hbits
  · exact ⟨hbits.kind, hbits.readySet, hbits.bits⟩

theorem effect_clearBits (hk : r.kind = .select) (hr : r.HandleInRange h) :
    Effect (fun k => h = k.1 ∧ clears mask k.2 = true) r (r.clearBits h mask) := by
  have hr' : (r.bitOps h mask .wait .clr).1.HandleInRange h := (bitsAt_bitOps.inRange h).mpr hr
  have hwait : Effect _ r (r.bitOps h mask .wait .clr).1 := effect_bitOps hk
  exact (hwait.trans (effect_bitOps hwait.kind)).congr (by simp [hr, hr'])

theorem effect_unbind (hk : r.kind = .select) :
    Effect (fun k => h = k.1 ∧ r.HandleInRange h ∧ clears mask k.2 = true) r (r.unbind h mask).1 := by
  by_cases hr : r.HandleInRange h
  · have hclear : Effect (fun k => h = k.1 ∧ r.HandleInRange h ∧ clears mask k.2 = true) r
        (r.clearBits h mask) := (effect_clearBits hk hr).congr (by simp [hr])
    have hunbound : Effect (fun k => h = k.1 ∧ r.HandleInRange h ∧ clears mask k.2 = true) r
        (r.unbound h mask) := by
      unfold unbound
      split
      · exact hclear
      · exact ⟨hclear.kind, hclear.readySet, hclear.bits⟩
    rw [unbind_eq hr]
    split
    · exact hunbound
    · unfold closeHandler
      split <;> split <;> exact ⟨hunbound.kind, hunbound.readySet, hunbound.bits⟩
  · unfold unbind
    rw [if_pos hr]
    exact (same hk rfl rfl rfl).congr (by simp [hr])

theorem effect_suspendI (hk : r.kind = .select) :
    Effect (fun k => h = k.1 ∧ r.find h ≠ none) r (r.suspendI h).1 := by
  unfold suspendI
  by_cases hf : r.find h = none
  · rw [if_pos hf]
    exact (same hk rfl rfl rfl).congr (by simp [hf])
  · rw [if_neg hf]
    have hmove : Effect (fun _ => False) r { r with
        waitSet := (r.waitSet.moveBits r.suspendSet h).1
        suspendSet := (r.waitSet.moveBits r.suspendSet h).2 } := same hk rfl rfl rfl
    exact (hmove.trans (effect_clearDispatchMask hmove.kind)).congr (by simp [hf])

theorem effect_resumeI (hk : r.kind = .select) : Effect (fun _ => False) r (r.resumeI h).1 := by
  unfold resumeI
  split <;> exact same hk rfl rfl rfl

/-- What a pass sees of a request. -/
theorem effect_apply (hk : r.kind = .select) : Effect (r.ClearsBit op) r (r.apply op) := by
  cases op with
  | registerHandler handle eventHandler mask =>
    refine congr (C := fun _ => False) ?_ fun k => Iff.rfl
    cases eventHandler with
    | none => exact same hk rfl rfl rfl
    | some eh =>
      simp only [apply, bind]
      generalize (if handle = -1 then eh.getHandle else handle) = h
      split
      · exact same hk rfl rfl rfl
      · split
        · exact same hk rfl rfl rfl
        · exact effect_bindAt hk
  | removeHandler handle mask => exact effect_unbind hk
  | maskOps handle mask ops =>
    refine (effect_maskOps hk).congr fun k => ?_
    cases ops <;> simp [ClearsBit]
  | scheduleWakeup handle mask => exact (effect_maskOps hk).congr fun k => by simp [ClearsBit]
  | cancelWakeup handle mask => exact (effect_maskOps hk).congr fun k => by simp [ClearsBit]
  | suspendHandler handle => exact effect_suspendI hk
  | resumeHandler handle => exact effect_resumeI hk

/-! ## A bit that no request touches -/

/-- The event is waited for, and its handler is found. -/
def Waits (r : SelectReactor) (k : Key) : Prop :=
  r.waitSet.IsSet k.1 k.2 ∧ r.HandleInRange k.1 ∧ r.eventHandlers k.1 ≠ none

theorem Waits.find (hw : r.Waits k) : r.find k.1 ≠ none := by
  unfold SelectReactor.find
  rw [if_pos hw.2.1]
  exact hw.2.2

theorem BitsAt.waits (hb : BitsAt h r r') (hw : r.Waits k) (hown : h = k.1 → r'.waitSet.IsSet k.1 k.2) :
    r'.Waits k := by
  refine ⟨?_, (hb.inRange k.1).mpr hw.2.1, ?_⟩
  · by_cases hh : k.1 = h
    · exact hown hh.symm
    · exact (hb.bits .wait k.1 k.2 hh).mpr hw.1
  · rw [hb.eventHandlers]
    exact hw.2.2

theorem waits_maskOps (hw : r.Waits k)
    (hop : h = k.1 → OpResult ops (selects mask k.2 = true) (r.waitSet.IsSet k.1 k.2)) :
    (r.maskOps h mask ops).1.Waits k := by
  refine bitsAt_maskOps.waits hw fun hh => ?_
  subst hh
  unfold maskOps
  split
  · exact (isSet_bitOps hw.2.1 .wait).mpr hw.1
  · exact (isSet_bitOps hw.2.1 .wait).mpr (hop rfl)

theorem waits_bindAt (hw : r.Waits k) : (r.bindAt h eh mask).Waits k := by
  have henter : (r.enter h eh).Waits k := by
    refine ⟨hw.1, ⟨hw.2.1.1, Int.lt_of_lt_of_le hw.2.1.2 (lt_enter r h eh).2⟩, ?_⟩
    by_cases hh : k.1 = h
    · rw [hh, enter_registered]
      simp
    · simpa only [enter, Function.update_of_ne hh] using hw.2.2
  have hbits : ((r.enter h eh).withBits h mask).Waits k :=
    waits_maskOps henter fun _ => .inr henter.1
  rw [bindAt_eq]
  split
  · exact hbits
  · exact hbits

theorem waits_drop (hw : r.Waits k) (hne : k.1 ≠ h) : (r.drop h).Waits k := by
  have hwait : (r.sets .wait).IsSet k.1 k.2 := hw.1
  have hle := le_maxOfSix hwait
  obtain ⟨hset, ⟨h0, hmax⟩, hn⟩ := hw
  refine ⟨hset, ⟨h0, ?_⟩, ?_⟩
  · simp only [drop]
    split <;> omega
  · simpa only [drop, Function.update_of_ne hne] using hn

theorem waits_closeHandler (hw : r.Waits k) (complete : Bool) :
    (r.closeHandler h eh mask complete).Waits k := by
  unfold closeHandler
  split <;> split <;> exact hw

theorem waits_unbind (hw : r.Waits k)
    (hne : ¬ (h = k.1 ∧ r.HandleInRange h ∧ selects mask k.2 = true)) : (r.unbind h mask).1.Waits k := by
  by_cases hr : r.HandleInRange h
  · have hclear : (r.clearBits h mask).Waits k := by
      refine bitsAt_clearBits.waits hw fun hh => ?_
      subst hh
      exact (isSet_clearBits hr .wait).mpr ⟨fun hs => hne ⟨rfl, hr, hs⟩, hw.1⟩
    have hunbound : (r.unbound h mask).Waits k := by
      unfold unbound
      split
      · exact hclear
      · next hb =>
        refine waits_drop hclear fun hh => hb ?_
        exact hasBits_iff.mpr ⟨.wait, k.2, hh ▸ hclear.1⟩
    rw [unbind_eq hr]
    split
    · exact hunbound
    · exact waits_closeHandler hunbound _
  · unfold unbind
    rwa [if_pos hr]

/-- A request that neither withdraws the event nor masks it leaves the handle waiting
for it. -/
theorem waits_apply (hw : r.Waits k) (hwith : ¬ r.Withdraws op k) (hmask : ¬ r.Masks op k) :
    (r.apply op).Waits k := by
  cases op with
  | registerHandler handle eventHandler mask =>
    cases eventHandler with
    | none => exact hw
    | some eh =>
      simp only [apply, bind]
      generalize (if handle = -1 then eh.getHandle else handle) = h
      split
      · exact hw
      · split
        · exact hw
        · exact waits_bindAt hw
  | removeHandler handle mask => exact waits_unbind hw hwith
  | maskOps handle mask ops =>
    refine waits_maskOps hw fun hh => ?_
    have hr : r.HandleInRange handle := hh ▸ hw.2.1
    cases ops with
    | get => exact hw.1
    | set => exact not_not.mp fun hs => hmask ⟨hh, hr, hs⟩
    | add => exact .inr hw.1
    | clr => exact ⟨fun hs => hwith ⟨hh, hr, hs⟩, hw.1⟩
    | unknown => exact hw.1
  | scheduleWakeup handle mask => exact waits_maskOps hw fun _ => .inr hw.1
  | cancelWakeup handle mask =>
    refine waits_maskOps hw fun hh => ⟨fun hs => hwith ⟨hh, hh ▸ hw.2.1, hs⟩, hw.1⟩
  | suspendHandler handle =>
    refine bitsAt_suspendI.waits hw fun hh => ?_
    exact absurd ⟨hh, hh ▸ hw.find⟩ hwith
  | resumeHandler handle =>
    refine bitsAt_resumeI.waits hw fun hh => ?_
    subst hh
    exact (isSet_resumeI hw.find).1.mpr (.inl hw.1)

end SelectReactor

/-! ## Traces -/

/-- The bit had its turn. -/
def Turned : List PassEvent → Key → Prop
  | [], _ => False
  | .turn k' _ :: t, k => k' = k ∨ Turned t k
  | _ :: t, k => Turned t k

/-- The bit was served by an upcall. -/
def Called : List PassEvent → Key → Prop
  | [], _ => False
  | .turn k' upcall :: t, k => (k' = k ∧ upcall = true) ∨ Called t k
  | _ :: t, k => Called t k

/-- A request withdrew the bit. -/
def Withdrawn : List PassEvent → Key → Prop
  | [], _ => False
  | .request before op :: t, k => before.Withdraws op k ∨ Withdrawn t k
  | _ :: t, k => Withdrawn t k

/-- A request set the mask of the handle to one without the event. -/
def Masked : List PassEvent → Key → Prop
  | [], _ => False
  | .request before op :: t, k => before.Masks op k ∨ Masked t k
  | _ :: t, k => Masked t k

/-- A bit has at most one turn, and none once it was withdrawn. -/
def TurnsInOrder : List PassEvent → Prop
  | [] => True
  | .turn k _ :: t => (¬ Turned t k ∧ ¬ Withdrawn t k) ∧ TurnsInOrder t
  | _ :: t => TurnsInOrder t

section Traces

variable {t : List PassEvent} {k : Key}

instance decidableWithdrawn : ∀ t k, Decidable (Withdrawn t k)
  | [], _ => .isFalse id
  | .turn _ _ :: t, k => decidableWithdrawn t k
  | .request before op :: t, k =>
    have := decidableWithdrawn t k
    inferInstanceAs (Decidable (before.Withdraws op k ∨ Withdrawn t k))

instance decidableCalled : ∀ t k, Decidable (Called t k)
  | [], _ => .isFalse id
  | .turn k' upcall :: t, k =>
    have := decidableCalled t k
    inferInstanceAs (Decidable ((k' = k ∧ upcall = true) ∨ Called t k))
  | .request _ _ :: t, k => decidableCalled t k

instance decidableMasked : ∀ t k, Decidable (Masked t k)
  | [], _ => .isFalse id
  | .turn _ _ :: t, k => decidableMasked t k
  | .request before op :: t, k =>
    have := decidableMasked t k
    inferInstanceAs (Decidable (before.Masks op k ∨ Masked t k))

end Traces

/-! ## The conditions -/

/-- The order in which `dispatch_io_handlers` takes the sets. -/
def IoEvent.rank : IoEvent → Nat
  | .write => 0
  | .except => 1
  | .read => 2

/-- Of two pending bits the first has its turn first. -/
def TurnsBefore (k k' : Key) : Prop := k.2.rank < k'.2.rank ∨ k.2 = k'.2 ∧ k.1 < k'.1

/-- No upcall for one of the bits makes such a request for a bit whose turn is still to come. -/
def Spares (P : SelectOp → Key → Prop) (keys : Finset Key) (input : PassInput) : Prop :=
  ∀ k ∈ keys, ∀ i, ∀ op ∈ (input.upcalls k i).ops ++ (input.upcalls k i).closeOps,
    ∀ k' ∈ keys, TurnsBefore k k' → ¬ P op k'

namespace Pass

/-- The bits that are ready, but that of the notification pipe. -/
def readyKeys (n : Notify) (input : PassInput) : Finset Key :=
  (input.selected.getD .empty).keys.erase (n.readHandle, .read)

/-- The reactor behind the first upcalls of the timers. -/
def afterTimers (input : PassInput) (r : SelectReactor) : SelectReactor :=
  (input.timers 0).2.foldl apply
    { r with dispatchSet := input.selected.getD .empty, stateChanged := false }

def PipeReady (n : Notify) (input : PassInput) (r : SelectReactor) : Prop :=
  (afterTimers input r).dispatchSet.IsSet n.readHandle .read

instance (n : Notify) (input : PassInput) (r : SelectReactor) : Decidable (PipeReady n input r) :=
  inferInstanceAs (Decidable (HandleSets.IsSet ..))

/-- The messages that `handle_input` dispatches. -/
def dispatchedMessages (n : Notify) (messages : List (List SelectOp)) : List (List SelectOp) :=
  if 0 < n.maxNotifyIterations then messages.take n.maxNotifyIterations.toNat else messages

def notified (n : Notify) (input : PassInput) (r : SelectReactor) : List (List SelectOp) :=
  if PipeReady n input r then dispatchedMessages n input.messages else []

def pipeOps (n : Notify) (input : PassInput) (r : SelectReactor) : List SelectOp :=
  if PipeReady n input r then (notified n input r).flatten ++ input.renewOps else []

/-- The reactor when the handles' turn comes. -/
def beforeHandles (n : Notify) (input : PassInput) (r : SelectReactor) : SelectReactor :=
  (pipeOps n input r).foldl apply { afterTimers input r with
    dispatchSet := (afterTimers input r).dispatchSet.clrBit n.readHandle .read }

/-- The ready bits that are not withdrawn before. -/
def leftKeys (n : Notify) (input : PassInput) (r : SelectReactor) : Finset Key :=
  (readyKeys n input).filter fun k => (beforeHandles n input r).dispatchSet.IsSet k.1 k.2

/-- The timers and the messages withdraw at least as many ready bits as messages are dispatched,
or all of them. -/
def WithinBudget (n : Notify) (input : PassInput) (r : SelectReactor) : Prop :=
  leftKeys n input r = ∅ ∨
    (leftKeys n input r).card + (notified n input r).length ≤ (readyKeys n input).card

instance (n : Notify) (input : PassInput) (r : SelectReactor) : Decidable (WithinBudget n input r) :=
  inferInstanceAs (Decidable (_ ∨ _))

/-- No request withdraws a ready bit before its turn by `CONNECT_MASK` alone. -/
structure NoneStale (n : Notify) (input : PassInput) (r : SelectReactor) : Prop where
  before : ∀ op ∈ (input.timers 0).2 ++ pipeOps n input r, ∀ k ∈ readyKeys n input, ¬ op.LeavesStale k
  upcalls : Spares SelectOp.LeavesStale (readyKeys n input) input

/-! ## The invariant of a pass -/

def Dispatches (p : Pass) (k : Key) : Prop := p.reactor.dispatchSet.IsSet k.1 k.2

instance (p : Pass) (k : Key) : Decidable (p.Dispatches k) :=
  inferInstanceAs (Decidable (p.reactor.dispatchSet.IsSet k.1 k.2))

/-- What holds between the turns of a pass, with the bit whose upcall is under way, if
no pending bit was withdrawn without being cleared. -/
structure Sound (ready : HandleSets) (pipe : Key) (cur : Option Key) (p : Pass) : Prop where
  turned : ∀ k, Turned p.trace k → ready.IsSet k.1 k.2 ∧ k ≠ pipe
  pending : ∀ k, p.Dispatches k → k ≠ pipe → cur ≠ some k → ¬ Turned p.trace k ∧ ¬ Withdrawn p.trace k
  covered : ∀ k, ready.IsSet k.1 k.2 → k ≠ pipe → ¬ p.Dispatches k ∨ cur = some k →
    Turned p.trace k ∨ Withdrawn p.trace k
  order : TurnsInOrder p.trace
  called : ∀ k, Turned p.trace k → Called p.trace k ∨ Masked p.trace k
  waits : ∀ k, ready.IsSet k.1 k.2 → ¬ Withdrawn p.trace k → ¬ Masked p.trace k → p.reactor.Waits k

/-- The invariant, where `N` is that no request leaves a stale bit. -/
structure Good (N : Prop) (ready : HandleSets) (pipe : Key) (cur : Option Key) (p : Pass) : Prop where
  kind : p.reactor.kind = .select
  readySet : p.reactor.readySet = .empty
  sub : ∀ k, p.Dispatches k → ready.IsSet k.1 k.2
  sound : N → Sound ready pipe cur p

/-- Requests were made, and nothing else. -/
structure Quiet (ops : List SelectOp) (p q : Pass) : Prop where
  turned : ∀ k, Turned q.trace k ↔ Turned p.trace k
  shrinks : ∀ k, q.Dispatches k → p.Dispatches k
  keeps : ∀ k, (∀ op ∈ ops, ¬ op.Takes k) → p.Dispatches k → q.Dispatches k

variable {N : Prop} {ready : HandleSets} {pipe k : Key} {cur : Option Key} {p q : Pass}
  {op : SelectOp} {ops : List SelectOp} {input : PassInput} {e : IoEvent} {n : Notify}
  {r : SelectReactor} {fuel : Nat}

theorem Quiet.trans {p' : Pass} (h₁ : Quiet ops p q) (h₂ : Quiet ops q p') : Quiet ops p p' :=
  ⟨fun k => (h₂.turned k).trans (h₁.turned k), fun k hd => h₁.shrinks k (h₂.shrinks k hd),
    fun k hops hd => h₂.keeps k hops (h₁.keeps k hops hd)⟩

/-- The two agree on what the invariant is about. -/
structure Alike (p q : Pass) : Prop where
  kind : q.reactor.kind = p.reactor.kind
  readySet : q.reactor.readySet = p.reactor.readySet
  dispatchSet : q.reactor.dispatchSet = p.reactor.dispatchSet
  waits : ∀ k, p.reactor.Waits k → q.reactor.Waits k
  trace : q.trace = p.trace

theorem Alike.dispatches (ha : Alike p q) (k : Key) : q.Dispatches k ↔ p.Dispatches k := by
  unfold Dispatches
  rw [ha.dispatchSet]

theorem Alike.good (ha : Alike p q) (hg : Good N ready pipe cur p) : Good N ready pipe cur q := by
  have hd := ha.dispatches
  refine ⟨ha.kind.trans hg.kind, ha.readySet.trans hg.readySet, fun k hk => hg.sub k ((hd k).mp hk),
    fun hn => ?_⟩
  have hs := hg.sound hn
  refine ⟨?_, fun k hk hpipe hcur => ?_, fun k hready hpipe hnot => ?_, ?_, ?_,
    fun k hready hwith hmask => ?_⟩
  · rw [ha.trace]
    exact hs.turned
  · rw [ha.trace]
    exact hs.pending k ((hd k).mp hk) hpipe hcur
  · rw [ha.trace]
    rw [hd] at hnot
    exact hs.covered k hready hpipe hnot
  · rw [ha.trace]
    exact hs.order
  · rw [ha.trace]
    exact hs.called
  · rw [ha.trace] at hwith hmask
    exact ha.waits k (hs.waits k hready hwith hmask)

theorem Alike.quiet (ha : Alike p q) : Quiet ops p q :=
  ⟨fun k => by rw [ha.trace], fun k => (ha.dispatches k).mp, fun k _ => (ha.dispatches k).mpr⟩

theorem alike_log (p : Pass) (c : Call) : Alike p (p.log c) := ⟨rfl, rfl, rfl, fun _ hw => hw, rfl⟩

/-- The requests leave no pending bit stale. -/
def Calm (pipe : Key) (cur : Option Key) (p : Pass) (ops : List SelectOp) : Prop :=
  ∀ op ∈ ops, ∀ k, p.Dispatches k → k ≠ pipe → cur ≠ some k → ¬ op.LeavesStale k

theorem good_request (hg : Good N ready pipe cur p) (hcalm : N → Calm pipe cur p (op :: ops)) :
    Good N ready pipe cur (p.request op) ∧ Quiet (op :: ops) p (p.request op) := by
  have heff : Effect (p.reactor.ClearsBit op) p.reactor (p.reactor.apply op) := effect_apply hg.kind
  refine ⟨⟨heff.kind, heff.readySet.trans hg.readySet, fun k hd => hg.sub k ((heff.bits k).mp hd).1, ?_⟩,
    fun _ => Iff.rfl, fun k hd => ((heff.bits k).mp hd).1,
    fun k hops hd => (heff.bits k).mpr ⟨hd, fun hc => hops op List.mem_cons_self hc.takes⟩⟩
  intro hn
  have hs := hg.sound hn
  refine ⟨hs.turned, fun k hd hpipe hcur => ?_, fun k hready hpipe hnot => ?_, hs.order, fun k ht => ?_,
    fun k hready hwith hmask => ?_⟩
  · obtain ⟨hd', hkeep⟩ := (heff.bits k).mp hd
    obtain ⟨ht, hw⟩ := hs.pending k hd' hpipe hcur
    refine ⟨ht, ?_⟩
    rintro (hnow | hbefore)
    · exact hkeep (hnow.clearsBit (hcalm hn op List.mem_cons_self k hd' hpipe hcur))
    · exact hw hbefore
  · by_cases hd : p.Dispatches k ∧ cur ≠ some k
    · -- pending before, so cleared by this request
      have hcleared : p.reactor.ClearsBit op k := by
        by_contra hnot'
        rcases hnot with hgone | hcur
        · exact hgone ((heff.bits k).mpr ⟨hd.1, hnot'⟩)
        · exact hd.2 hcur
      exact .inr (.inl hcleared.withdraws)
    · have hcov : ¬ p.Dispatches k ∨ cur = some k := by
        rcases not_and_or.mp hd with hgone | hcur
        · exact .inl hgone
        · exact .inr (not_not.mp hcur)
      rcases hs.covered k hready hpipe hcov with ht | hw
      · exact .inl ht
      · exact .inr (.inr hw)
  · rcases hs.called k ht with hc | hm
    · exact .inl hc
    · exact .inr (.inr hm)
  · have hw := hs.waits k hready (fun hw => hwith (.inr hw)) fun hm => hmask (.inr hm)
    exact waits_apply hw (fun hw => hwith (.inl hw)) fun hm => hmask (.inl hm)

theorem good_requests (hg : Good N ready pipe cur p) (hcalm : N → Calm pipe cur p ops) :
    Good N ready pipe cur (p.requests ops) ∧ Quiet ops p (p.requests ops) := by
  induction ops generalizing p with
  | nil => exact ⟨hg, fun _ => Iff.rfl, fun _ hd => hd, fun _ _ hd => hd⟩
  | cons op ops ih =>
    obtain ⟨hg', hq⟩ := good_request hg hcalm
    obtain ⟨hg'', hq'⟩ := ih hg' fun hn op' hop k hd =>
      hcalm hn op' (List.mem_cons_of_mem _ hop) k (hq.shrinks k hd)
    exact ⟨hg'', hq.trans ⟨hq'.turned, hq'.shrinks, fun k hops =>
      hq'.keeps k fun op' hop => hops op' (List.mem_cons_of_mem _ hop)⟩⟩

theorem requests_reactor (p : Pass) (ops : List SelectOp) :
    (p.requests ops).reactor = ops.foldl apply p.reactor := by
  induction ops generalizing p with
  | nil => rfl
  | cons op ops ih => exact ih (p.request op)

theorem requests_append (p : Pass) (ops ops' : List SelectOp) :
    p.requests (ops ++ ops') = (p.requests ops).requests ops' := List.foldl_append

/-- A pending bit has its turn; without a handler, some request must have masked it. -/
theorem good_turn {upcall : Bool} (hg : Good N ready pipe none p) (hd : p.Dispatches k) (hk : k ≠ pipe)
    (hfound : upcall = false → ¬ p.reactor.Waits k) : Good N ready pipe (some k) (p.turn k upcall) := by
  refine ⟨hg.kind, hg.readySet, hg.sub, fun hn => ?_⟩
  have hs := hg.sound hn
  obtain ⟨ht, hw⟩ := hs.pending k hd hk (by simp)
  refine ⟨?_, fun k' hd' hpipe hcur => ?_, fun k' hready hpipe hnot => ?_, ⟨⟨ht, hw⟩, hs.order⟩,
    ?_, hs.waits⟩
  · rintro k' (rfl | ht')
    · exact ⟨hg.sub _ hd, hk⟩
    · exact hs.turned k' ht'
  · obtain ⟨ht', hw'⟩ := hs.pending k' hd' hpipe (by simp)
    exact ⟨fun h => h.elim (fun he => hcur (congrArg some he)) ht', hw'⟩
  · rcases hnot with hgone | hcur
    · rcases hs.covered k' hready hpipe (.inl hgone) with h | h
      · exact .inl (.inr h)
      · exact .inr h
    · exact .inl (.inl (Option.some.inj hcur))
  · rintro k' (rfl | ht')
    · cases upcall with
      | true => exact .inl (.inl ⟨rfl, rfl⟩)
      | false =>
        refine .inr ?_
        by_contra hm
        exact hfound rfl (hs.waits _ (hg.sub _ hd) hw hm)
    · rcases hs.called k' ht' with hc | hm
      · exact .inl (.inr hc)
      · exact .inr hm

theorem good_clear (hg : Good N ready pipe (some k) p) (ht : Turned p.trace k) :
    Good N ready pipe none (p.clear k) ∧ ∀ k', (p.clear k).Dispatches k' ↔ p.Dispatches k' ∧ k' ≠ k := by
  have heff : Effect _ p.reactor (p.reactor.clearDispatchMask k.1 k.2.toMask) :=
    effect_clearDispatchMask hg.kind
  have hd : ∀ k', (p.clear k).Dispatches k' ↔ p.Dispatches k' ∧ k' ≠ k := by
    intro k'
    refine (heff.bits k').trans (and_congr_right fun _ => not_congr ?_)
    rw [clears_toMask, decide_eq_true_iff, Prod.ext_iff, eq_comm, @eq_comm _ k.2]
  have hb : BitsAt k.1 p.reactor (p.reactor.clearDispatchMask k.1 k.2.toMask) :=
    bitsAt_clearDispatchMask p.reactor k.1 k.2.toMask
  refine ⟨⟨heff.kind, heff.readySet.trans hg.readySet, fun k' hk' => hg.sub k' ((hd k').mp hk').1,
    fun hn => ?_⟩, hd⟩
  have hs := hg.sound hn
  refine ⟨hs.turned, fun k' hk' hpipe _ => ?_, fun k' hready hpipe hnot => ?_, hs.order, hs.called,
    fun k' hready hwith hmask => ?_⟩
  · obtain ⟨hk', hne⟩ := (hd k').mp hk'
    exact hs.pending k' hk' hpipe fun he => hne (Option.some.inj he).symm
  · by_cases hkk : k' = k
    · rw [hkk]
      exact .inl ht
    · refine hs.covered k' hready hpipe (.inl fun hk' => ?_)
      rcases hnot with hgone | hcur
      · exact hgone ((hd k').mpr ⟨hk', hkk⟩)
      · cases hcur
  · have hw := hs.waits k' hready hwith hmask
    have hwait := sets_clearDispatchMask p.reactor k.1 k.2.toMask .wait
    refine hb.waits hw fun _ => ?_
    simp only [sets] at hwait
    rw [hwait]
    exact hw.1

/-- The requests of an upcall that returns 0 or -1, with the removal. -/
def upcallOps (k : Key) (u : Upcall) : List SelectOp :=
  u.ops ++ if u.status < 0 then .removeHandler k.1 k.2.toMask :: u.closeOps else []

theorem afterUpcall_eq (p : Pass) {u : Upcall} (hu : u.status ≤ 0) :
    (p.requests u.ops).afterUpcall k u = p.requests (upcallOps k u) := by
  unfold afterUpcall upcallOps
  rw [requests_append]
  split
  · rfl
  · rw [if_neg (by omega)]
    rfl

theorem mem_upcallOps {u : Upcall} (h : op ∈ upcallOps k u) :
    op ∈ u.ops ++ u.closeOps ∨ op = .removeHandler k.1 k.2.toMask := by
  rcases List.mem_append.mp h with h | h
  · exact .inl (List.mem_append_left _ h)
  · split at h
    · rcases List.mem_cons.mp h with h | h
      · exact .inr h
      · exact .inl (List.mem_append_right _ h)
    · cases h

/-- The turn, the requests of the upcall and what follows; the reference calls around it
change nothing a pass looks at. -/
theorem notifyHandle_found (input : PassInput) {eh : EventHandler} (hf : p.reactor.find k.1 = some eh)
    (hu : (input.upcalls k p.upcallsMade).status ≤ 0) :
    ∃ start, Alike (p.turn k true) start ∧
      Alike (start.requests (upcallOps k (input.upcalls k p.upcallsMade))) (p.notifyHandle input k) := by
  unfold notifyHandle
  rw [hf]
  cases hc : eh.counted with
  | true =>
    refine ⟨{ (p.log (.addReference k.1 eh)).turn k true with upcallsMade := p.upcallsMade + 1 },
      ⟨rfl, rfl, rfl, fun _ hw => hw, rfl⟩, ?_⟩
    simp only [hc, if_true]
    rw [← afterUpcall_eq _ hu]
    exact alike_log _ _
  | false =>
    refine ⟨{ p.turn k true with upcallsMade := p.upcallsMade + 1 },
      ⟨rfl, rfl, rfl, fun _ hw => hw, rfl⟩, ?_⟩
    simp only [hc]
    rw [← afterUpcall_eq _ hu]
    exact ⟨rfl, rfl, rfl, fun _ hw => hw, rfl⟩

/-- One round of the loop of `dispatch_io_set`, for the bit that comes first. -/
theorem good_round (hg : Good N ready pipe none p) (hd : p.Dispatches k) (hpipe : ¬ p.Dispatches pipe)
    (hu : ∀ k i, (input.upcalls k i).status ≤ 0)
    (hstale : N → Spares SelectOp.LeavesStale (ready.keys.erase pipe) input)
    (hfirst : ∀ k', p.Dispatches k' → k' ≠ k → TurnsBefore k k') :
    Good N ready pipe none ((p.notifyHandle input k).clear k) ∧
      (∀ k', ((p.notifyHandle input k).clear k).Dispatches k' → p.Dispatches k' ∧ k' ≠ k) ∧
      (Spares SelectOp.Takes (ready.keys.erase pipe) input → ∀ k', p.Dispatches k' → k' ≠ k →
        ((p.notifyHandle input k).clear k).Dispatches k') := by
  have hkeys : ∀ k', p.Dispatches k' → k' ∈ ready.keys.erase pipe := fun k' hd' =>
    mem_erase.mpr ⟨fun he => hpipe (he ▸ hd'), mem_keys.mpr (hg.sub k' hd')⟩
  have hk : k ≠ pipe := fun he => hpipe (he ▸ hd)
  have hmid : Good N ready pipe (some k) (p.notifyHandle input k) ∧ ∃ upcall,
      Quiet (upcallOps k (input.upcalls k p.upcallsMade)) (p.turn k upcall) (p.notifyHandle input k) := by
    cases hf : p.reactor.find k.1 with
    | none =>
      unfold notifyHandle
      rw [hf]
      exact ⟨good_turn hg hd hk fun _ hw => hw.find hf, false, fun _ => Iff.rfl, fun _ hd => hd,
        fun _ _ hd => hd⟩
    | some eh =>
      have hturn : Good N ready pipe (some k) (p.turn k true) := good_turn hg hd hk (by simp)
      obtain ⟨start, hstart, hend⟩ := notifyHandle_found input hf (hu k p.upcallsMade)
      have hcalm : N → Calm pipe (some k) start (upcallOps k (input.upcalls k p.upcallsMade)) := by
        intro hn op hop k' hd' _ hcur
        have hd'' : p.Dispatches k' := (hstart.dispatches k').mp hd'
        have hne : k' ≠ k := fun he => hcur (congrArg some he.symm)
        rcases mem_upcallOps hop with hop | rfl
        · exact hstale hn k (hkeys k hd) _ op hop k' (hkeys k' hd'') (hfirst k' hd'' hne)
        · -- the removal selects what it clears
          rintro ⟨-, hsel, hclr⟩
          rw [selects_toMask] at hsel
          rw [clears_toMask] at hclr
          exact hclr hsel
      obtain ⟨hg', hq⟩ := good_requests (hstart.good hturn) hcalm
      exact ⟨hend.good hg', true, hstart.quiet.trans (hq.trans hend.quiet)⟩
  obtain ⟨hg', upcall, hq⟩ := hmid
  obtain ⟨hg'', hclear⟩ := good_clear hg' ((hq.turned k).mpr (.inl rfl))
  refine ⟨hg'', fun k' hk' => ?_, fun hspares k' hd' hne => (hclear k').mpr ⟨hq.keeps k' ?_ hd', hne⟩⟩
  · obtain ⟨hk', hne⟩ := (hclear k').mp hk'
    exact ⟨hq.shrinks k' hk', hne⟩
  · intro op hop
    rcases mem_upcallOps hop with hop | rfl
    · exact hspares k (hkeys k hd) _ op hop k' (hkeys k' hd') (hfirst k' hd' hne)
    · rintro ⟨hh, hsel⟩
      rw [selects_toMask, decide_eq_true_iff] at hsel
      exact hne (Prod.ext hh.symm hsel.symm)

/-- The number of pending bits. -/
def left (p : Pass) : Nat := p.reactor.dispatchSet.keys.card

theorem left_eq_zero : p.left = 0 ↔ ∀ k, ¬ p.Dispatches k := by
  rw [left, card_eq_zero, eq_empty_iff_forall_notMem]
  exact forall_congr' fun k => not_congr mem_keys

/-- Bits were served under the budget, from `m` handlers dispatched to `m'`. -/
structure Served (N : Prop) (ready : HandleSets) (pipe : Key) (input : PassInput) (active : Int)
    (p : Pass) (m : Int) (q : Pass) (m' : Int) : Prop where
  good : Good N ready pipe none q
  le : m ≤ m'
  bound : m' ≤ max m active
  shrinks : ∀ k, q.Dispatches k → p.Dispatches k
  count : q.left + m' ≤ p.left + m
  exact : Spares SelectOp.Takes (ready.keys.erase pipe) input → q.left + m' = p.left + m

variable {active m m' : Int}

theorem Served.refl (hg : Good N ready pipe none p) : Served N ready pipe input active p m p m :=
  ⟨hg, le_rfl, le_max_left _ _, fun _ hd => hd, le_rfl, fun _ => rfl⟩

theorem Served.trans {p' : Pass} {m'' : Int} (h₁ : Served N ready pipe input active p m q m')
    (h₂ : Served N ready pipe input active q m' p' m'') : Served N ready pipe input active p m p' m'' := by
  have hb₁ := h₁.bound
  have hb₂ := h₂.bound
  refine ⟨h₂.good, h₁.le.trans h₂.le, by omega, fun k hd => h₁.shrinks k (h₂.shrinks k hd),
    h₂.count.trans h₁.count, fun hs => (h₂.exact hs).trans (h₁.exact hs)⟩

/-- One turn. -/
theorem served_round (hg : Good N ready pipe none p) (hd : p.Dispatches k) (hpipe : ¬ p.Dispatches pipe)
    (hu : ∀ k i, (input.upcalls k i).status ≤ 0)
    (hstale : N → Spares SelectOp.LeavesStale (ready.keys.erase pipe) input)
    (hfirst : ∀ k', p.Dispatches k' → k' ≠ k → TurnsBefore k k') (hlt : m < active) :
    Served N ready pipe input active p m ((p.notifyHandle input k).clear k) (m + 1) ∧
      ¬ ((p.notifyHandle input k).clear k).Dispatches k := by
  obtain ⟨hg', hshrink, hkeep⟩ := good_round hg hd hpipe hu hstale hfirst
  have hone : (p.reactor.dispatchSet.keys.erase k).card + 1 = p.left :=
    card_erase_add_one (mem_keys.mpr hd)
  have hsub : ((p.notifyHandle input k).clear k).reactor.dispatchSet.keys ⊆
      p.reactor.dispatchSet.keys.erase k := fun k' hk' => by
    obtain ⟨hd', hne⟩ := hshrink k' (mem_keys.mp hk')
    exact mem_erase.mpr ⟨hne, mem_keys.mpr hd'⟩
  refine ⟨⟨hg', by omega, by omega, fun k' hk' => (hshrink k' hk').1, ?_, fun hspares => ?_⟩,
    fun hk' => (hshrink k hk').2 rfl⟩
  · have hle := card_le_card hsub
    unfold left at hone ⊢
    omega
  · have heq := hsub.antisymm fun k' hk' => by
      obtain ⟨hne, hk'⟩ := mem_erase.mp hk'
      exact mem_keys.mpr (hkeep hspares k' (mem_keys.mp hk') hne)
    unfold left at hone ⊢
    rw [heq]
    omega

theorem rank_inj {e e' : IoEvent} (h : e.rank = e'.rank) : e = e' := by
  cases e <;> cases e' <;> first | rfl | cases h

theorem dispatchIoSet_spec (e : IoEvent) (active : Int) (hg : Good N ready pipe none p)
    (hpipe : ¬ p.Dispatches pipe) (hu : ∀ k i, (input.upcalls k i).status ≤ 0)
    (hstale : N → Spares SelectOp.LeavesStale (ready.keys.erase pipe) input)
    (hord : m < active → ∀ k, p.Dispatches k → e.rank ≤ k.2.rank) (hfuel : p.left < fuel) :
    ∃ q m', dispatchIoSet input e active fuel p m = some (q, m') ∧
      Served N ready pipe input active p m q m' ∧ (q.reactor.dispatchSet.mask e = ∅ ∨ active ≤ m') := by
  induction fuel generalizing p m with
  | zero => omega
  | succ fuel ih =>
    unfold dispatchIoSet
    cases hh : firstHandle (p.reactor.dispatchSet.mask e) with
    | none => exact ⟨p, m, rfl, .refl hg, .inl (firstHandle_eq_none.mp hh)⟩
    | some h =>
      by_cases hlt : m < active
      · have hd : p.Dispatches (h, e) := firstHandle_mem hh
        have hfirst : ∀ k, p.Dispatches k → k ≠ (h, e) → TurnsBefore (h, e) k := by
          rintro ⟨x, f⟩ hk hne
          rcases Nat.lt_or_eq_of_le (hord hlt _ hk) with hrank | hrank
          · exact .inl hrank
          · obtain rfl := rank_inj hrank
            have hle := firstHandle_le hh hk
            exact .inr ⟨rfl, lt_of_le_of_ne hle fun he => hne (Prod.ext he.symm rfl)⟩
        obtain ⟨hserved, hgone⟩ := served_round hg hd hpipe hu hstale hfirst hlt
        have hcount := hserved.count
        obtain ⟨q, m', hrun, hrest, hend⟩ := ih hserved.good (fun hd' => hpipe (hserved.shrinks _ hd'))
          (m := m + 1) (fun hlt' k hk => hord (by omega) k (hserved.shrinks k hk)) (by omega)
        refine ⟨q, m', ?_, hserved.trans hrest, hend⟩
        simp only [if_pos hlt]
        exact hrun
      · exact ⟨p, m, by simp only [if_neg hlt], .refl hg, .inr (by omega)⟩

/-- The three loops in a row. -/
theorem dispatchIoHandlers_spec (active : Int) (hg : Good N ready pipe none p)
    (hpipe : ¬ p.Dispatches pipe) (hu : ∀ k i, (input.upcalls k i).status ≤ 0)
    (hstale : N → Spares SelectOp.LeavesStale (ready.keys.erase pipe) input) (hfuel : p.left < fuel) :
    ∃ q m', dispatchIoHandlers input fuel p active m = some (q, m') ∧
      Served N ready pipe input active p m q m' ∧ (q.left = 0 ∨ active ≤ m') := by
  have hfuel' : ∀ {q : Pass} {m'}, Served N ready pipe input active p m q m' → q.left < fuel := by
    intro q m' hs
    have hle := hs.le
    have hcount := hs.count
    omega
  obtain ⟨q₁, m₁, hrun₁, hs₁, hend₁⟩ := dispatchIoSet_spec (m := m) .write active hg hpipe hu hstale
    (fun _ _ _ => Nat.zero_le _) hfuel
  -- no bit of a set that was emptied comes back
  have hwrite : ∀ {k}, m₁ < active → q₁.Dispatches k → k.2 ≠ .write := by
    rintro ⟨x, f⟩ hlt hk rfl
    have hempty := hend₁.resolve_right (by omega)
    exact absurd hk (by simp [Dispatches, HandleSets.IsSet, hempty])
  obtain ⟨q₂, m₂, hrun₂, hs₂, hend₂⟩ := dispatchIoSet_spec (m := m₁) .except active hs₁.good
    (fun hd => hpipe (hs₁.shrinks _ hd)) hu hstale
    (fun hlt k hk => by
      have hne := hwrite hlt hk
      cases h : k.2 <;> simp_all [IoEvent.rank]) (hfuel' hs₁)
  have hexcept : ∀ {k}, m₂ < active → q₂.Dispatches k → k.2 = .read := by
    rintro ⟨x, f⟩ hlt hk
    have hle := hs₂.le
    have hne := hwrite (by omega) (hs₂.shrinks _ hk)
    have hempty := hend₂.resolve_right (by omega)
    cases f with
    | read => rfl
    | write => exact absurd rfl hne
    | except => exact absurd hk (by simp [Dispatches, HandleSets.IsSet, hempty])
  have hs₁₂ := hs₁.trans hs₂
  obtain ⟨q₃, m₃, hrun₃, hs₃, hend₃⟩ := dispatchIoSet_spec (m := m₂) .read active hs₂.good
    (fun hd => hpipe (hs₁₂.shrinks _ hd)) hu hstale
    (fun hlt k hk => by rw [hexcept hlt hk]) (hfuel' hs₁₂)
  refine ⟨q₃, m₃, ?_, hs₁₂.trans hs₃, ?_⟩
  · unfold dispatchIoHandlers
    rw [hrun₁]
    simp only [Option.bind_eq_bind, Option.bind_some]
    rw [hrun₂]
    exact hrun₃
  · by_cases hlast : active ≤ m₃
    · exact .inr hlast
    · have hle := hs₃.le
      have hempty := hend₃.resolve_right hlast
      refine .inl (left_eq_zero.mpr ?_)
      rintro ⟨x, f⟩ hk
      obtain rfl : f = .read := hexcept (by omega) (hs₃.shrinks _ hk)
      exact absurd hk (by simp [Dispatches, HandleSets.IsSet, hempty])

theorem dispatchIoHandlers_empty {active n : Int} (hd : ∀ k, ¬ p.Dispatches k) :
    dispatchIoHandlers input (fuel + 1) p active n = some (p, n) := by
  have hset : ∀ e, dispatchIoSet input e active (fuel + 1) p n = some (p, n) := by
    intro e
    have hnone : firstHandle (p.reactor.dispatchSet.mask e) = none :=
      firstHandle_eq_none.mpr (eq_empty_of_forall_notMem fun x hx => hd (x, e) hx)
    unfold dispatchIoSet
    rw [hnone]
  unfold dispatchIoHandlers
  rw [hset]
  simp only [Option.bind_eq_bind, Option.bind_some]
  rw [hset]
  exact hset .read

/-! ## The notifications -/

/-- With `d` messages dispatched before. -/
theorem handleInput_from (n : Notify) (messages : List (List SelectOp)) (p : Pass) {d : Int}
    (hd : 0 ≤ d) (hmax : n.maxNotifyIterations ≤ 0 ∨ d < n.maxNotifyIterations) :
    p.handleInput n messages d =
      let taken := if 0 < n.maxNotifyIterations then
        messages.take (n.maxNotifyIterations - d).toNat else messages
      (p.requests taken.flatten, d + taken.length) := by
  induction messages generalizing p d with
  | nil => simp [handleInput, requests]
  | cons message messages ih =>
    unfold handleInput
    split
    · next hlast =>
      have hone : (n.maxNotifyIterations - d).toNat = 1 := by omega
      rw [if_pos (by omega), hone]
      simp [hlast]
    · next hlast =>
      rw [ih _ (by omega) (by omega)]
      by_cases hpos : 0 < n.maxNotifyIterations
      · have hsucc : (n.maxNotifyIterations - d).toNat = (n.maxNotifyIterations - (d + 1)).toNat + 1 := by
          omega
        rw [if_pos hpos, if_pos hpos, hsucc, List.take_succ_cons]
        simp only [List.flatten_cons, requests_append, List.length_cons]
        congr 1
        push_cast
        omega
      · rw [if_neg hpos, if_neg hpos]
        simp only [List.flatten_cons, requests_append, List.length_cons]
        congr 1
        push_cast
        omega

theorem handleInput_eq (n : Notify) (messages : List (List SelectOp)) (p : Pass) :
    p.handleInput n messages 0 = (p.requests (dispatchedMessages n messages).flatten,
      ((dispatchedMessages n messages).length : Int)) := by
  rw [handleInput_from n messages p le_rfl (by omega), dispatchedMessages]
  simp

theorem good_clearPipe (hg : Good N ready k none p) {p' : Pass} (hp' : p' = { p with reactor :=
      { p.reactor with dispatchSet := p.reactor.dispatchSet.clrBit k.1 k.2 } }) :
    Good N ready k none p' ∧ ∀ k', p'.Dispatches k' ↔ k' ≠ k ∧ p.Dispatches k' := by
  subst hp'
  have hd : ∀ k', Dispatches { p with reactor :=
      { p.reactor with dispatchSet := p.reactor.dispatchSet.clrBit k.1 k.2 } } k' ↔
      k' ≠ k ∧ p.Dispatches k' := by
    intro k'
    refine isSet_clrBit.trans (and_congr_left fun _ => not_congr ?_)
    exact Prod.ext_iff.symm
  refine ⟨⟨hg.kind, hg.readySet, fun k' hk' => hg.sub k' ((hd k').mp hk').2, fun hn => ?_⟩, hd⟩
  have hs := hg.sound hn
  refine ⟨hs.turned, fun k' hk' => hs.pending k' ((hd k').mp hk').2, fun k' hready hne hnot => ?_,
    hs.order, hs.called, hs.waits⟩
  refine hs.covered k' hready hne ?_
  rcases hnot with hgone | hcur
  · exact .inl fun hk' => hgone ((hd k').mpr ⟨hne, hk'⟩)
  · exact .inr hcur

/-- The notifications of the first round: the bit of the pipe is cleared, and the budget goes
down by one more than the messages that were dispatched. -/
theorem dispatchNotificationHandlers_spec (hg : Good N ready (n.readHandle, .read) none p)
    (hp : p.reactor = afterTimers input r) (hnonneg : ∀ k, p.Dispatches k → 0 ≤ k.1)
    (hstale : N → Calm (n.readHandle, .read) none p (pipeOps n input r)) (active : Int) :
    ∃ q, p.dispatchNotificationHandlers n input active =
        (q, active - (if PipeReady n input r then 1 + ((notified n input r).length : Int) else 0),
          ((notified n input r).length : Int)) ∧
      Good N ready (n.readHandle, .read) none q ∧ ∀ k, q.Dispatches k ↔
        k ≠ (n.readHandle, .read) ∧ (beforeHandles n input r).dispatchSet.IsSet k.1 k.2 := by
  obtain ⟨hg₁, hd₁⟩ := good_clearPipe hg rfl
  obtain ⟨hg₂, hq⟩ := good_requests hg₁ fun hn op hop k hd => hstale hn op hop k ((hd₁ k).mp hd).2
  have hbits : ∀ k, Dispatches (requests _ (pipeOps n input r)) k ↔
      k ≠ (n.readHandle, .read) ∧ (beforeHandles n input r).dispatchSet.IsSet k.1 k.2 := fun k => by
    refine ⟨fun hk => ⟨((hd₁ k).mp (hq.shrinks k hk)).1, ?_⟩, fun hk => ?_⟩
    · rw [Dispatches, requests_reactor, hp] at hk
      exact hk
    · rw [Dispatches, requests_reactor, hp]
      exact hk.2
  unfold dispatchNotificationHandlers
  by_cases hready : PipeReady n input r
  · have hd : p.Dispatches (n.readHandle, .read) := by
      rw [Dispatches, hp]
      exact hready
    have hne : n.readHandle ≠ -1 := fun he => by
      have := hnonneg _ hd
      omega
    rw [if_pos ⟨hne, hd⟩]
    refine ⟨_, ?_, hg₂, hbits⟩
    simp only [handleInput_eq, pipeOps, notified, if_pos hready, requests_append]
    congr 2
    omega
  · have hd : ¬ p.Dispatches (n.readHandle, .read) := by
      rw [Dispatches, hp]
      exact hready
    rw [if_neg fun h => hd h.2]
    refine ⟨p, by simp [notified, hready], hg, fun k => ?_⟩
    rw [← hbits k, pipeOps, if_neg hready]
    refine ⟨fun hk => (hd₁ k).mpr ⟨fun he => hd (he ▸ hk), hk⟩, fun hk => ((hd₁ k).mp hk).2⟩

theorem anyReady_empty {r : SelectReactor} (hr : r.readySet = .empty) : r.anyReady = (r, 0) := by
  unfold anyReady
  rw [hr]
  rfl

theorem reevaluate_spec (initial active : Int) (hr : p.reactor.readySet = .empty) :
    reevaluate p initial active = (p, 0) ∨
      (initial ≠ active ∧ reevaluate p initial active = (p, active)) := by
  unfold reevaluate
  rw [anyReady_empty hr]
  by_cases h : initial = active ∨ p.reactor.stateChanged = true
  · exact .inl (if_pos h)
  · exact .inr ⟨fun he => h (.inl he), if_neg h⟩

/-! ## The do-while loop -/

theorem alike_unchanged (p : Pass) :
    Alike p { p with reactor := { p.reactor with stateChanged := false } } :=
  ⟨rfl, rfl, rfl, fun _ hw => hw, rfl⟩

/-- **The loop ends**, within as many rounds as there are active handles, once no bit is left. -/
theorem dispatch_idle (n : Notify) (input : PassInput) (setFuel iteration : Nat) (io other : Int)
    (hg : Good N ready (n.readHandle, .read) none p) (hnone : ∀ k, ¬ p.Dispatches k) (hio : 0 ≤ io)
    (h0 : 0 ≤ active) (hfuel : active < fuel) :
    ∃ q result, dispatch n input (setFuel + 1) fuel iteration p active io other = some (q, result) ∧
      Good N ready (n.readHandle, .read) none q ∧ ∀ k, ¬ q.Dispatches k := by
  induction fuel generalizing iteration p active other with
  | zero => omega
  | succ fuel ih =>
    have hstart := alike_unchanged p
    obtain ⟨hg₁, hq⟩ := good_requests (hstart.good hg)
      (show N → Calm _ none _ (input.timers iteration).2 from fun _ op _ k hd => absurd hd (hnone k))
    have hnone₁ : ∀ k, ¬ Dispatches _ k := fun k hd => hnone k (hq.shrinks k hd)
    unfold dispatch
    simp only
    rw [if_neg (by omega)]
    by_cases hzero : active = 0
    · rw [if_pos hzero]
      exact ⟨_, _, rfl, hg₁, hnone₁⟩
    · rw [if_neg hzero, dispatchNotificationHandlers, if_neg fun h => hnone₁ (n.readHandle, .read) h.2]
      simp only [Option.bind_eq_bind]
      rw [dispatchIoHandlers_empty hnone₁, Option.bind_some]
      rcases reevaluate_spec active (active - io) hg₁.readySet with he | ⟨hne, he⟩
      · rw [he]
        exact ⟨_, _, rfl, hg₁, hnone₁⟩
      · rw [he]
        by_cases hpos : 0 < active - io
        · rw [if_pos hpos]
          exact ih _ _ hg₁ hnone₁ (by omega) (by omega)
        · rw [if_neg hpos]
          exact ⟨_, _, rfl, hg₁, hnone₁⟩

/-- Only ready bits are served, each at most once and not after it was withdrawn; and
those that no request withdrew or masked are served. -/
structure ServesOnce (keys : Finset Key) (t : List PassEvent) : Prop where
  order : TurnsInOrder t
  ready : ∀ k, Turned t k → k ∈ keys
  served : ∀ k ∈ keys, Called t k ∨ Withdrawn t k ∨ Masked t k

/-- What holds when the loop ends. -/
structure Ended (N : Prop) (n : Notify) (input : PassInput) (r : SelectReactor) (ready : HandleSets)
    (p : Pass) : Prop where
  good : Good N ready (n.readHandle, .read) none p
  finished : WithinBudget n input r → ∀ k, ¬ p.Dispatches k
  starved : Spares SelectOp.Takes (readyKeys n input) input → ¬ WithinBudget n input r →
    ∃ k ∈ readyKeys n input, p.Dispatches k

/-- The handles of the first round: as many turns as the budget allows. -/
theorem Served.ended {sets : HandleSets} (hsel : input.selected = some sets)
    (hbits : ∀ k, p.Dispatches k ↔
      k ≠ (n.readHandle, .read) ∧ (beforeHandles n input r).dispatchSet.IsSet k.1 k.2)
    (hsub : ∀ k, p.Dispatches k → sets.IsSet k.1 k.2)
    (hpipe : PipeReady n input r → sets.IsSet n.readHandle .read) {total : Int}
    (htotal : total = (sets.numSet : Int) -
      if PipeReady n input r then 1 + ((notified n input r).length : Int) else 0)
    (hs : Served N sets (n.readHandle, .read) input total p 0 q m)
    (hend : q.left = 0 ∨ total ≤ m) : Ended N n input r sets q := by
  have hkeys : readyKeys n input = sets.keys.erase (n.readHandle, .read) := by
    rw [readyKeys, hsel]
    rfl
  have hleft : p.left = (leftKeys n input r).card := by
    refine congrArg card (ext fun k => ?_)
    rw [mem_keys, leftKeys, mem_filter, hkeys, mem_erase, mem_keys]
    exact ⟨fun hd => ⟨⟨((hbits k).mp hd).1, hsub k hd⟩, ((hbits k).mp hd).2⟩,
      fun h => (hbits k).mpr ⟨h.1.1, h.2⟩⟩
  have hready : (leftKeys n input r).card ≤ (readyKeys n input).card := card_le_card (filter_subset _ _)
  have hnum : (readyKeys n input).card ≤ sets.numSet ∧
      (PipeReady n input r → (readyKeys n input).card + 1 = sets.numSet) := by
    rw [hkeys, ← card_keys]
    exact ⟨card_erase_le, fun h => card_erase_add_one (mem_keys.mpr (hpipe h))⟩
  have hnone : ¬ PipeReady n input r → (notified n input r).length = 0 := fun h => by
    rw [notified, if_neg h]
    rfl
  have hcount := hs.count
  have hle := hs.le
  have hbound := hs.bound
  refine ⟨hs.good, fun hwithin => left_eq_zero.mp ?_, fun hspares hwithin => ?_⟩
  · rcases hend with hzero | hover
    · exact hzero
    · rcases hwithin with hempty | hlen
      · rw [hempty, card_empty] at hleft
        omega
      · by_cases hp : PipeReady n input r
        · have := hnum.2 hp
          rw [if_pos hp] at htotal
          omega
        · rw [if_neg hp] at htotal
          omega
  · unfold WithinBudget at hwithin
    rw [not_or, ← card_eq_zero, not_le] at hwithin
    have hexact := hs.exact (hkeys ▸ hspares)
    have hp : PipeReady n input r := by
      by_contra hp
      have := hnone hp
      omega
    have := hnum.2 hp
    rw [if_pos hp] at htotal
    have hpos : q.left ≠ 0 := by omega
    rw [Ne, left_eq_zero, not_forall] at hpos
    obtain ⟨k, hk⟩ := hpos
    have hk' := hs.shrinks k (not_not.mp hk)
    refine ⟨k, ?_, not_not.mp hk⟩
    rw [hkeys]
    exact mem_erase.mpr ⟨((hbits k).mp hk').1, mem_keys.mpr (hsub k hk')⟩

/-- The first round, and those after it. -/
theorem dispatch_spec {sets : HandleSets} (hsel : input.selected = some sets)
    (hg : Good (NoneStale n input r) sets (n.readHandle, .read) none p)
    (hp : { p.reactor with stateChanged := false } =
      { r with dispatchSet := input.selected.getD .empty, stateChanged := false })
    (hnonneg : ∀ k : Key, sets.IsSet k.1 k.2 → 0 ≤ k.1) (hu : ∀ k i, (input.upcalls k i).status ≤ 0)
    (hfuel : sets.numSet + 1 < fuel) :
    ∃ q result, dispatch n input fuel fuel 0 p sets.numSet 0 0 = some (q, result) ∧
      Ended (NoneStale n input r) n input r sets q := by
  obtain ⟨fuel, rfl⟩ : ∃ f, fuel = f + 1 := ⟨fuel - 1, by omega⟩
  have hkeys : readyKeys n input = sets.keys.erase (n.readHandle, .read) := by
    rw [readyKeys, hsel]
    rfl
  -- no request before the handles' turn leaves a ready bit stale
  have hcalm : ∀ {p : Pass} {ops}, Good (NoneStale n input r) sets (n.readHandle, .read) none p →
      (∀ op ∈ ops, op ∈ (input.timers 0).2 ++ pipeOps n input r) →
      NoneStale n input r → Calm (n.readHandle, .read) none p ops := by
    intro p ops hg hops hn op hop k hd hne _
    refine hn.before op (hops op hop) k ?_
    rw [hkeys]
    exact mem_erase.mpr ⟨hne, mem_keys.mpr (hg.sub k hd)⟩
  have hstart := (alike_unchanged p).good hg
  have hquiet := hcalm hstart fun op => List.mem_append_left _
  obtain ⟨hg₁, hq₁⟩ := good_requests hstart (show _ → Calm _ none _ (input.timers 0).2 from hquiet)
  have hreactor : (requests { p with reactor := { p.reactor with stateChanged := false } }
      (input.timers 0).2).reactor = afterTimers input r := by
    rw [requests_reactor, afterTimers, ← hp]
  have hpipe : PipeReady n input r → sets.IsSet n.readHandle .read := fun h =>
    hg₁.sub (n.readHandle, .read) (by rw [Dispatches, hreactor]; exact h)
  obtain ⟨q, hrun, hg₂, hbits⟩ := dispatchNotificationHandlers_spec hg₁ hreactor
    (fun k hd => hnonneg k (hg₁.sub k hd)) (hcalm hg₁ fun op => List.mem_append_right _) sets.numSet
  have hleft : q.left < fuel + 1 := by
    have hle : q.left ≤ sets.keys.card :=
      card_le_card fun k hk => mem_keys.mpr (hg₂.sub k (mem_keys.mp hk))
    rw [card_keys] at hle
    omega
  obtain ⟨total, htotal⟩ : ∃ total : Int, total = (sets.numSet : Int) -
      if PipeReady n input r then 1 + ((notified n input r).length : Int) else 0 := ⟨_, rfl⟩
  rw [← htotal] at hrun
  obtain ⟨q', io, hrun', hserved, hend⟩ := dispatchIoHandlers_spec (m := 0) total hg₂
    (fun hd => ((hbits _).mp hd).1 rfl) hu (fun hn => hkeys ▸ hn.upcalls) hleft
  have hended := hserved.ended hsel hbits (fun k hd => hg₂.sub k hd) hpipe htotal hend
  unfold dispatch
  simp only
  rw [if_neg (by omega)]
  by_cases hzero : (sets.numSet : Int) = 0
  · -- nothing is ready at all
    rw [if_pos hzero]
    have hnone : ∀ k : Key, ¬ sets.IsSet k.1 k.2 := fun k hk => by
      have hpos := card_pos.mpr ⟨k, mem_keys.mpr hk⟩
      rw [card_keys] at hpos
      omega
    refine ⟨_, _, rfl, hg₁, fun _ k hd => hnone k (hg₁.sub k hd), fun hspares hwithin => ?_⟩
    obtain ⟨k, -, hk⟩ := hended.starved hspares hwithin
    exact absurd (hserved.good.sub k hk) (hnone k)
  · rw [if_neg hzero, hrun]
    simp only [Option.bind_eq_bind]
    rw [hrun', Option.bind_some]
    have hact : total ≤ sets.numSet := by
      rw [htotal]
      split <;> omega
    have hio := hserved.le
    rcases reevaluate_spec (sets.numSet : Int) (total - io) hserved.good.readySet with he | ⟨hne, he⟩
    · rw [he]
      exact ⟨_, _, rfl, hended⟩
    · rw [he]
      split
      · next hpos =>
        have hnone := left_eq_zero.mp (hend.resolve_right (by omega))
        obtain ⟨p', result, hrun'', hg₃, hnone₃⟩ := dispatch_idle n input fuel 1 io
          (0 + (input.timers 0).1 + (notified n input r).length) hserved.good hnone hio
          (Int.le_of_lt hpos) (show total - io < (fuel : Int) by omega)
        refine ⟨p', result, hrun'', hg₃, fun _ => hnone₃, fun hspares hwithin => ?_⟩
        obtain ⟨k, -, hk⟩ := hended.starved hspares hwithin
        exact absurd hk (hnone k)
      · exact ⟨_, _, rfl, hended⟩

theorem dispatch_interrupted (n : Notify) (input : PassInput) (setFuel iteration : Nat) (io other : Int)
    (hr : p.reactor.readySet = .empty) :
    ∃ q result, dispatch n input setFuel (fuel + 1) iteration p (-1) io other = some (q, result) ∧
      q.trace = p.trace := by
  unfold dispatch
  simp only [if_pos]
  split
  · have hany : anyReady { p.reactor with stateChanged := false } =
        ({ p.reactor with stateChanged := false }, 0) := anyReady_empty hr
    rw [hany]
    have hr' : (Pass.mk { p.reactor with stateChanged := false } p.upcallsMade p.trace).reactor.readySet =
        .empty := hr
    rcases reevaluate_spec (-1) 0 hr' with he | ⟨_, he⟩
    · rw [he]
      exact ⟨_, _, rfl, rfl⟩
    · rw [he]
      exact ⟨_, _, rfl, rfl⟩
  · exact ⟨_, _, rfl, rfl⟩

/-! ## What a pass serves -/

theorem good_start {sets : HandleSets} (ht : r.Tables) (hk : r.kind = .select)
    (hr : r.readySet = .empty) (hsel : ∀ k : Key, sets.IsSet k.1 k.2 → r.waitSet.IsSet k.1 k.2) :
    Good N sets pipe none ⟨{ r with dispatchSet := sets }, 0, []⟩ ∧
      ∀ k : Key, sets.IsSet k.1 k.2 → 0 ≤ k.1 := by
  have hown : ∀ k : Key, sets.IsSet k.1 k.2 → r.Waits k := fun k hs =>
    ⟨hsel k hs, (ht.owned .wait k.1 k.2 (hsel k hs)).1, (ht.owned .wait k.1 k.2 (hsel k hs)).2⟩
  refine ⟨⟨hk, hr, fun _ hd => hd, fun _ => ⟨fun _ h => h.elim, fun _ _ _ _ => ⟨id, id⟩,
    fun k hs _ hnot => ?_, trivial, fun _ h => h.elim, fun k hs _ _ => hown k hs⟩⟩,
    fun k hs => (hown k hs).2.1.1⟩
  rcases hnot with hgone | hcur
  · exact absurd hs hgone
  · cases hcur

theorem Ended.servesOnce {sets : HandleSets} (he : Ended N n input r sets p) (hn : N)
    (hwithin : WithinBudget n input r) :
    ServesOnce (sets.keys.erase (n.readHandle, .read)) p.trace := by
  have hs := he.good.sound hn
  refine ⟨hs.order, fun k hk => ?_, fun k hk => ?_⟩
  · rw [mem_erase, mem_keys]
    exact ⟨(hs.turned k hk).2, (hs.turned k hk).1⟩
  · rw [mem_erase, mem_keys] at hk
    rcases hs.covered k hk.2 hk.1 (.inl (he.finished hwithin k)) with ht | hw
    · rcases hs.called k ht with hc | hm
      · exact .inl hc
      · exact .inr (.inr hm)
    · exact .inr (.inl hw)

/-- A pass ends. Where no ready bit is withdrawn before its turn by `CONNECT_MASK` alone, it
serves every ready bit once if at least as many bits are withdrawn before the handles' turn as
messages are dispatched from the pipe. Otherwise, where the handles' upcalls withdraw none
either, one is left that nobody withdrew. -/
theorem pass_serves (n : Notify) (input : PassInput) (r : SelectReactor) (fuel : Nat)
    (hkind : r.kind = .select) (htables : r.Tables) (hready : r.readySet = .empty)
    (hselected : ∀ k : Key, (input.selected.getD .empty).IsSet k.1 k.2 → r.waitSet.IsSet k.1 k.2)
    (hstatus : ∀ k i, (input.upcalls k i).status = 0 ∨ (input.upcalls k i).status = -1)
    (hfuel : (input.selected.getD .empty).numSet + 2 ≤ fuel) :
    ∃ p result, handleEventsI n input fuel r = some (p, result) ∧
      (NoneStale n input r → WithinBudget n input r → ServesOnce (readyKeys n input) p.trace) ∧
      (NoneStale n input r → Spares SelectOp.Takes (readyKeys n input) input →
        ¬ WithinBudget n input r →
        ∃ k ∈ readyKeys n input, ¬ Turned p.trace k ∧ ¬ Withdrawn p.trace k) := by
  have hu : ∀ k i, (input.upcalls k i).status ≤ 0 := fun k i => by
    rcases hstatus k i with h | h <;> omega
  obtain ⟨fuel, rfl⟩ : ∃ m, fuel = m + 1 := ⟨fuel - 1, by omega⟩
  have hany : anyReady { r with dispatchSet := .empty } = ({ r with dispatchSet := .empty }, 0) :=
    anyReady_empty hready
  unfold handleEventsI waitForMultipleEvents
  rw [hany]
  cases hsel : input.selected with
  | none =>
    have hkeys : readyKeys n input = ∅ := by
      unfold readyKeys
      rw [hsel]
      exact erase_empty _
    have hempty : (Pass.mk { r with dispatchSet := .empty } 0 []).reactor.readySet = .empty := hready
    obtain ⟨p, result, hrun, htrace⟩ := dispatch_interrupted n input (fuel + 1) 0 0 0 hempty
    refine ⟨p, result, hrun, fun _ _ => ?_, fun _ _ hwithin => ?_⟩
    · rw [hkeys, htrace]
      exact ⟨trivial, fun _ h => h.elim, by simp⟩
    · exact absurd (.inl (by rw [leftKeys, hkeys, filter_empty])) hwithin
  | some sets =>
    rw [hsel] at hselected hfuel
    obtain ⟨hg, hnonneg⟩ : Good (NoneStale n input r) sets (n.readHandle, .read) none _ ∧ _ :=
      good_start htables hkind hready hselected
    obtain ⟨p, result, hrun, hend⟩ := dispatch_spec hsel hg (by rw [hsel]; rfl) hnonneg hu
      (show sets.numSet + 1 < fuel + 1 by simpa using hfuel)
    have hkeys : readyKeys n input = sets.keys.erase (n.readHandle, .read) := by
      rw [readyKeys, hsel]
      rfl
    refine ⟨p, result, hrun, fun hn hwithin => hkeys ▸ hend.servesOnce hn hwithin,
      fun hn hspares hwithin => ?_⟩
    obtain ⟨k, hk, hd⟩ := hend.starved hspares hwithin
    exact ⟨k, hk, (hend.good.sound hn).pending k hd (mem_erase.mp hk).1 (by simp)⟩

/-- Handles 0, the notification pipe, 1 and 2 are registered for reading. -/
def sampleReactor : SelectReactor :=
  (((opened .select 8).bindAt 0 ⟨0, 0, false, true⟩ readMask).bindAt 1 ⟨1, 1, true, true⟩ readMask).bindAt
    2 ⟨2, 2, true, true⟩ readMask

/-- All three are ready, and one message is in the pipe, whose upcall makes the requests. -/
def sampleInput (ops : List SelectOp) : PassInput where
  selected := some ⟨{0, 1, 2}, ∅, ∅⟩
  sigPending := false
  timers := fun _ => (0, [])
  messages := [ops]
  renewOps := []
  upcalls := fun _ _ => ⟨[], 0, []⟩

theorem tables_sampleReactor : sampleReactor.Tables := by
  have hpipe : ((opened .select 8).bindAt 0 ⟨0, 0, false, true⟩ readMask).Tables :=
    tables_bindAt (tables_opened .select 8) (by decide)
  have hone : (((opened .select 8).bindAt 0 ⟨0, 0, false, true⟩ readMask).bindAt 1 ⟨1, 1, true, true⟩
      readMask).Tables := tables_bindAt hpipe (by decide)
  exact tables_bindAt hone (by decide)

theorem sampleInput_selected (ops : List SelectOp) (k : Key)
    (hk : ((sampleInput ops).selected.getD .empty).IsSet k.1 k.2) :
    sampleReactor.waitSet.IsSet k.1 k.2 := by
  have hmem : k ∈ ((sampleInput ops).selected.getD .empty).keys := mem_keys.mpr hk
  have hall : ∀ k ∈ ((sampleInput ops).selected.getD .empty).keys,
      sampleReactor.waitSet.IsSet k.1 k.2 := by
    change ∀ k ∈ (HandleSets.mk {0, 1, 2} ∅ ∅).keys, sampleReactor.waitSet.IsSet k.1 k.2
    decide
  exact hall k hmem

/-- The message cancels handle 2, and handle 1 is served. -/
theorem pass_serves_sample : ∃ p result,
    handleEventsI ⟨0, -1⟩ (sampleInput [.cancelWakeup 2 readMask]) 5 sampleReactor = some (p, result) ∧
      ServesOnce {(1, .read), (2, .read)} p.trace ∧ Called p.trace (1, .read) := by
  have hrun : ∃ p result,
      handleEventsI ⟨0, -1⟩ (sampleInput [.cancelWakeup 2 readMask]) 5 sampleReactor =
        some (p, result) ∧ Called p.trace (1, .read) := by
    exact ⟨_, _, rfl, by decide⟩
  obtain ⟨p, result, hp, hcalled⟩ := hrun
  have hstale : NoneStale ⟨0, -1⟩ (sampleInput [.cancelWakeup 2 readMask]) sampleReactor :=
    ⟨by decide, fun _ _ _ op hop => absurd hop List.not_mem_nil⟩
  obtain ⟨q, res, hq, hserves, _⟩ := pass_serves ⟨0, -1⟩ (sampleInput [.cancelWakeup 2 readMask])
    sampleReactor 5 rfl tables_sampleReactor rfl (sampleInput_selected _) (fun _ _ => .inl rfl) (by decide)
  rw [hp] at hq
  cases hq
  exact ⟨p, result, hp, hserves hstale (by decide), hcalled⟩

/-- Nothing is withdrawn, and of the two handles only one is served. -/
theorem pass_starves : ∃ p result,
    handleEventsI ⟨0, -1⟩ (sampleInput []) 5 sampleReactor = some (p, result) ∧
      (2, .read) ∈ readyKeys ⟨0, -1⟩ (sampleInput []) ∧ ¬ Called p.trace (2, .read) ∧
      ¬ Withdrawn p.trace (2, .read) ∧ ¬ Masked p.trace (2, .read) := by
  exact ⟨_, _, rfl, by decide, by decide, by decide, by decide⟩

end Pass

end Atcd.Reactor
