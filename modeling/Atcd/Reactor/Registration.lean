import Atcd.Reactor.SelectReactor
import Atcd.Core.Run
/-!
# Registration tables over runs

What holds of the tables after any sequence of operations: the bits of the wait and
suspend sets belong to registered handles within reach, no handle has bits in both,
and the reference calls made for a handle alternate.

Results:
* `tables_of_keeps`: so it is in every reached state, and every entry is within reach,
  if no removal of the last handle leaves a handler without bits above all that have
  some.
* `remove_loses_handler`: such a removal. The bound is recomputed from the bits alone, and
  a handler whose events were all cancelled is lost.
-/
namespace Atcd.Reactor

open Atcd.Core Function HandleSets

/-! ## Bits -/

/-- What an operation makes of one bit. -/
def OpResult : MaskOp → Prop → Prop → Prop
  | .get, _, old => old
  | .set, selected, _ => selected
  | .add, selected, old => selected ∨ old
  | .clr, selected, old => ¬ selected ∧ old
  | .unknown, _, old => old

namespace HandleSets

variable {s src dst : HandleSets} {h h' : Int} {e : IoEvent} {mask : Mask} {ops : MaskOp}

theorem isSet_opBit {e' : IoEvent} (hops : ops = .set ∨ ops = .add ∨ ops = .clr) :
    (s.opBit h mask ops e').IsSet h' e ↔
      if h' = h ∧ e = e' then OpResult ops (selects mask e = true) (s.IsSet h e)
      else s.IsSet h' e := by
  by_cases hh : h' = h ∧ e = e'
  · obtain ⟨rfl, rfl⟩ := hh
    unfold opBit
    by_cases hs : selects mask e = true
    · rcases hops with rfl | rfl | rfl <;> simp [hs, OpResult]
    · rcases hops with rfl | rfl | rfl <;> simp [hs, OpResult]
  · rw [if_neg hh]
    unfold opBit
    split
    · split <;> simp [hh]
    · split <;> simp [hh]

/-- The three parts of `bit_ops` together. -/
theorem isSet_opBits (hops : ops = .set ∨ ops = .add ∨ ops = .clr) :
    (s.opBits h mask ops).IsSet h' e ↔
      if h' = h then OpResult ops (selects mask e = true) (s.IsSet h e) else s.IsSet h' e := by
  unfold opBits
  rw [isSet_opBit hops, isSet_opBit hops, isSet_opBit hops, isSet_opBit hops, isSet_opBit hops,
    isSet_opBit hops]
  cases e <;> by_cases hh : h' = h <;> simp [hh]

theorem isSet_moveBit {p : HandleSets × HandleSets} {e' : IoEvent} :
    ((moveBit h p e').1.IsSet h' e ↔ ¬ (h' = h ∧ e = e') ∧ p.1.IsSet h' e) ∧
    ((moveBit h p e').2.IsSet h' e ↔ (h' = h ∧ e = e' ∧ p.1.IsSet h e) ∨ p.2.IsSet h' e) := by
  unfold moveBit
  split
  · next hs =>
    refine ⟨isSet_clrBit, ?_⟩
    rw [isSet_setBit]
    constructor
    · rintro (⟨rfl, rfl⟩ | hd)
      · exact .inl ⟨rfl, rfl, hs⟩
      · exact .inr hd
    · rintro (⟨rfl, rfl, _⟩ | hd)
      · exact .inl ⟨rfl, rfl⟩
      · exact .inr hd
  · next hs =>
    constructor
    · constructor
      · intro hp
        refine ⟨?_, hp⟩
        rintro ⟨rfl, rfl⟩
        exact hs hp
      · exact fun hp => hp.2
    · constructor
      · exact .inr
      · rintro (⟨rfl, rfl, hp⟩ | hd)
        · exact absurd hp hs
        · exact hd

theorem isSet_moveBits_fst : (moveBits src dst h).1.IsSet h' e ↔ h' ≠ h ∧ src.IsSet h' e := by
  unfold moveBits
  rw [isSet_moveBit.1, isSet_moveBit.1, isSet_moveBit.1]
  cases e <;> by_cases hh : h' = h <;> simp [hh]

theorem isSet_moveBits_snd :
    (moveBits src dst h).2.IsSet h' e ↔ (h' = h ∧ src.IsSet h e) ∨ dst.IsSet h' e := by
  unfold moveBits
  rw [isSet_moveBit.2, isSet_moveBit.2, isSet_moveBit.2, isSet_moveBit.1, isSet_moveBit.1]
  cases e <;> by_cases hh : h' = h <;> simp [hh]

end HandleSets

namespace SelectReactor

variable {r r' r'' : SelectReactor} {h h' : Int} {e : IoEvent} {w : WhichSet} {mask : Mask}
  {ops : MaskOp} {eh : EventHandler}

/-! ## Operations on the bits of one handle -/

/-- The two differ at most in the bits of the handle and in what a pass under way keeps. -/
structure BitsAt (h : Int) (r r' : SelectReactor) : Prop where
  kind : r'.kind = r.kind
  size : r'.size = r.size
  eventHandlers : r'.eventHandlers = r.eventHandlers
  maxHandlep1 : r'.maxHandlep1 = r.maxHandlep1
  calls : r'.calls = r.calls
  bits : ∀ w h' e, h' ≠ h → ((r'.sets w).IsSet h' e ↔ (r.sets w).IsSet h' e)

theorem BitsAt.refl (h : Int) (r : SelectReactor) : BitsAt h r r :=
  ⟨rfl, rfl, rfl, rfl, rfl, fun _ _ _ _ => Iff.rfl⟩

theorem BitsAt.trans (h₁ : BitsAt h r r') (h₂ : BitsAt h r' r'') : BitsAt h r r'' where
  kind := h₂.kind.trans h₁.kind
  size := h₂.size.trans h₁.size
  eventHandlers := h₂.eventHandlers.trans h₁.eventHandlers
  maxHandlep1 := h₂.maxHandlep1.trans h₁.maxHandlep1
  calls := h₂.calls.trans h₁.calls
  bits w h' e hne := (h₂.bits w h' e hne).trans (h₁.bits w h' e hne)

theorem BitsAt.inRange (hb : BitsAt h r r') (h' : Int) : r'.HandleInRange h' ↔ r.HandleInRange h' := by
  unfold HandleInRange
  rw [hb.maxHandlep1]

@[simp] theorem sets_clearDispatchMask (r : SelectReactor) (h : Int) (mask : Mask) (w : WhichSet) :
    (r.clearDispatchMask h mask).sets w = r.sets w := by
  unfold clearDispatchMask
  cases w <;> split <;> rfl

theorem bitsAt_clearDispatchMask (r : SelectReactor) (h : Int) (mask : Mask) :
    BitsAt h r (r.clearDispatchMask h mask) := by
  refine ⟨?_, ?_, ?_, ?_, ?_, fun w h' e _ => by rw [sets_clearDispatchMask]⟩
  all_goals
    unfold clearDispatchMask
    split <;> rfl

theorem sets_putSets (r : SelectReactor) (w w' : WhichSet) (s : HandleSets) :
    (r.putSets w s).sets w' = if w' = w then s else r.sets w' := by
  cases w <;> cases w' <;> rfl

theorem bitsAt_putSets {s : HandleSets} (hs : ∀ h' e, h' ≠ h → (s.IsSet h' e ↔ (r.sets w).IsSet h' e)) :
    BitsAt h r (r.putSets w s) := by
  have hbits : ∀ w' h' e, h' ≠ h →
      (((r.putSets w s).sets w').IsSet h' e ↔ (r.sets w').IsSet h' e) := by
    intro w' h' e hne
    rw [sets_putSets]
    split
    · next hw => rw [hw]; exact hs h' e hne
    · rfl
  cases w with
  | wait => exact ⟨rfl, rfl, rfl, rfl, rfl, hbits⟩
  | suspend => exact ⟨rfl, rfl, rfl, rfl, rfl, hbits⟩

theorem bitsAt_bitOps : BitsAt h r (r.bitOps h mask w ops).1 := by
  have hput : ∀ ops, ops = .set ∨ ops = .add ∨ ops = .clr → ∀ r₁ : SelectReactor, r₁.sets w = r.sets w →
      BitsAt h r₁ (r₁.putSets w ((r.sets w).opBits h mask ops)) := by
    intro ops hops r₁ hr
    refine bitsAt_putSets fun h' e hne => ?_
    rw [isSet_opBits hops, if_neg hne, hr]
  unfold bitOps
  split
  · exact BitsAt.refl h r
  · cases ops with
    | get => exact BitsAt.refl h r
    | set => exact hput .set (.inl rfl) r rfl
    | add => exact hput .add (.inr (.inl rfl)) r rfl
    | clr =>
      have hclear := hput .clr (.inr (.inr rfl)) _ (sets_clearDispatchMask r h mask w)
      exact (bitsAt_clearDispatchMask r h mask).trans hclear
    | unknown => exact BitsAt.refl h r

theorem isSet_bitOps (hr : r.HandleInRange h) (w' : WhichSet) :
    (((r.bitOps h mask w ops).1.sets w').IsSet h e ↔
      if w' = w then OpResult ops (selects mask e = true) ((r.sets w).IsSet h e)
      else (r.sets w').IsSet h e) := by
  unfold bitOps
  rw [if_neg (not_not_intro hr)]
  cases ops with
  | get => split <;> simp_all [OpResult]
  | unknown => split <;> simp_all [OpResult]
  | set =>
    simp only [sets_putSets]
    split
    · rw [isSet_opBits (.inl rfl), if_pos rfl]
    · rfl
  | add =>
    simp only [sets_putSets]
    split
    · rw [isSet_opBits (.inr (.inl rfl)), if_pos rfl]
    · rfl
  | clr =>
    simp only [sets_putSets, sets_clearDispatchMask]
    split
    · rw [isSet_opBits (.inr (.inr rfl)), if_pos rfl]
    · rfl

theorem bitsAt_maskOps : BitsAt h r (r.maskOps h mask ops).1 := by
  unfold maskOps
  split <;> exact bitsAt_bitOps

theorem bitsAt_clearBits : BitsAt h r (r.clearBits h mask) := bitsAt_bitOps.trans bitsAt_bitOps

theorem isSet_clearBits (hr : r.HandleInRange h) (w : WhichSet) :
    ((r.clearBits h mask).sets w).IsSet h e ↔ ¬ selects mask e = true ∧ (r.sets w).IsSet h e := by
  have hr' : (r.bitOps h mask .wait .clr).1.HandleInRange h := (bitsAt_bitOps.inRange h).mpr hr
  unfold clearBits
  rw [isSet_bitOps hr', isSet_bitOps hr, isSet_bitOps hr]
  cases w <;> simp [OpResult]

theorem bitsAt_resumeI : BitsAt h r (r.resumeI h).1 := by
  unfold resumeI
  split
  · exact BitsAt.refl h r
  · refine ⟨rfl, rfl, rfl, rfl, rfl, fun w h' e hne => ?_⟩
    cases w with
    | wait => exact isSet_moveBits_snd.trans (by simp [hne, sets])
    | suspend => exact isSet_moveBits_fst.trans (by simp [hne, sets])

theorem bitsAt_suspendI : BitsAt h r (r.suspendI h).1 := by
  unfold suspendI
  split
  · exact BitsAt.refl h r
  · have hmove : BitsAt h r { r with
        waitSet := (r.waitSet.moveBits r.suspendSet h).1
        suspendSet := (r.waitSet.moveBits r.suspendSet h).2 } := by
      refine ⟨rfl, rfl, rfl, rfl, rfl, fun w h' e hne => ?_⟩
      cases w with
      | wait => exact isSet_moveBits_fst.trans (by simp [hne, sets])
      | suspend => exact isSet_moveBits_snd.trans (by simp [hne, sets])
    exact hmove.trans (bitsAt_clearDispatchMask _ h rweMask)

theorem isSet_resumeI (hf : r.find h ≠ none) :
    ((r.resumeI h).1.waitSet.IsSet h e ↔ r.waitSet.IsSet h e ∨ r.suspendSet.IsSet h e) ∧
    ¬ (r.resumeI h).1.suspendSet.IsSet h e := by
  unfold resumeI
  rw [if_neg hf]
  refine ⟨isSet_moveBits_snd.trans ?_, fun hs => ?_⟩
  · simp [or_comm]
  · exact (isSet_moveBits_fst.mp hs).1 rfl

theorem isSet_suspendI (hf : r.find h ≠ none) :
    ((r.suspendI h).1.suspendSet.IsSet h e ↔ r.waitSet.IsSet h e ∨ r.suspendSet.IsSet h e) ∧
    ¬ (r.suspendI h).1.waitSet.IsSet h e := by
  have hw := sets_clearDispatchMask { r with
    waitSet := (r.waitSet.moveBits r.suspendSet h).1
    suspendSet := (r.waitSet.moveBits r.suspendSet h).2 } h rweMask
  unfold suspendI
  rw [if_neg hf]
  refine ⟨?_, fun hs => ?_⟩
  · have hsusp := hw .suspend
    simp only [sets] at hsusp
    simp only [hsusp]
    exact isSet_moveBits_snd.trans (by simp)
  · have hwait := hw .wait
    simp only [sets] at hwait
    simp only [hwait] at hs
    exact (isSet_moveBits_fst.mp hs).1 rfl

/-! ## The tables -/

/-- What every operation keeps. -/
structure Tables (r : SelectReactor) : Prop where
  valid : ∀ h, r.eventHandlers h ≠ none → 0 ≤ h ∧ h < r.size
  owned : ∀ w h e, (r.sets w).IsSet h e → r.HandleInRange h ∧ r.eventHandlers h ≠ none
  apart : ∀ h e e', r.waitSet.IsSet h e → ¬ r.suspendSet.IsSet h e'

def Reaches (r : SelectReactor) : Prop := ∀ h, r.eventHandlers h ≠ none → h < r.maxHandlep1

theorem tables_opened (kind : Kind) (size : Int) : (opened kind size).Tables := by
  refine ⟨fun h hn => absurd rfl hn, fun w h e hs => ?_, fun h e _ hs => ?_⟩
  · cases w <;> exact absurd hs not_isSet_empty
  · exact absurd hs not_isSet_empty

theorem Tables.find_ne (ht : r.Tables) (hs : (r.sets w).IsSet h e) : r.find h ≠ none := by
  obtain ⟨hr, hn⟩ := ht.owned w h e hs
  unfold SelectReactor.find
  rwa [if_pos hr]

theorem Reaches.find (ht : r.Tables) (hreach : r.Reaches) (h : Int) : r.find h = r.eventHandlers h := by
  unfold SelectReactor.find
  by_cases hn : r.eventHandlers h = none
  · rw [hn, ite_self]
  · exact if_pos ⟨(ht.valid h hn).1, hreach h hn⟩

theorem BitsAt.tables (hb : BitsAt h r r') (ht : r.Tables)
    (howned : ∀ w e, (r'.sets w).IsSet h e → r.HandleInRange h ∧ r.eventHandlers h ≠ none)
    (hapart : ∀ e e', r'.waitSet.IsSet h e → ¬ r'.suspendSet.IsSet h e') : r'.Tables where
  valid h' hn := by
    rw [hb.eventHandlers] at hn
    rw [hb.size]
    exact ht.valid h' hn
  owned w h' e hs := by
    rw [hb.eventHandlers, hb.inRange]
    by_cases hh : h' = h
    · subst hh
      exact howned w e hs
    · exact ht.owned w h' e ((hb.bits w h' e hh).mp hs)
  apart h' e e' hs hs' := by
    by_cases hh : h' = h
    · subst hh
      exact hapart e e' hs hs'
    · exact ht.apart h' e e' ((hb.bits .wait h' e hh).mp hs) ((hb.bits .suspend h' e' hh).mp hs')

theorem BitsAt.reaches (hb : BitsAt h r r') (hr : r.Reaches) : r'.Reaches := by
  intro h' hn
  rw [hb.eventHandlers] at hn
  rw [hb.maxHandlep1]
  exact hr h' hn

theorem isSuspendedI_iff (ht : r.Tables) : r.IsSuspendedI h ↔ ∃ e, r.suspendSet.IsSet h e := by
  unfold IsSuspendedI
  rw [isSetAny_iff]
  exact ⟨fun hs => hs.2, fun ⟨e, hs⟩ => ⟨ht.find_ne (w := .suspend) hs, e, hs⟩⟩

theorem bitOps_of_not_inRange (hr : ¬ r.HandleInRange h) : (r.bitOps h mask w ops).1 = r := by
  unfold bitOps
  rw [if_pos hr]

theorem tables_maskOps (ht : r.Tables) (hn : r.eventHandlers h ≠ none) :
    (r.maskOps h mask ops).1.Tables := by
  by_cases hr : r.HandleInRange h
  · refine bitsAt_maskOps.tables ht (fun w e _ => ⟨hr, hn⟩) ?_
    unfold maskOps
    split
    · next hsusp =>
      -- suspended: the wait set has no bits of the handle, and gets none
      obtain ⟨f, hf⟩ := (isSuspendedI_iff ht).mp hsusp
      intro e e' hs
      have hs' := (isSet_bitOps hr .wait).mp hs
      exact absurd hf (ht.apart h e f hs')
    · next hsusp =>
      intro e e' _ hs
      have hs' := (isSet_bitOps hr .suspend).mp hs
      exact hsusp ((isSuspendedI_iff ht).mpr ⟨e', hs'⟩)
  · unfold maskOps
    split <;> rwa [bitOps_of_not_inRange hr]

theorem tables_resumeI (ht : r.Tables) : (r.resumeI h).1.Tables := by
  by_cases hf : r.find h = none
  · unfold resumeI
    rwa [if_pos hf]
  · refine bitsAt_resumeI.tables ht (fun w e hs => ?_) fun e e' _ => (isSet_resumeI hf).2
    cases w with
    | wait =>
      rcases (isSet_resumeI hf).1.mp hs with hw | hw
      · exact ht.owned .wait h e hw
      · exact ht.owned .suspend h e hw
    | suspend => exact absurd hs (isSet_resumeI hf).2

theorem tables_suspendI (ht : r.Tables) : (r.suspendI h).1.Tables := by
  by_cases hf : r.find h = none
  · unfold suspendI
    rwa [if_pos hf]
  · refine bitsAt_suspendI.tables ht (fun w e hs => ?_) fun e e' hs => absurd hs (isSet_suspendI hf).2
    cases w with
    | suspend =>
      rcases (isSet_suspendI hf).1.mp hs with hw | hw
      · exact ht.owned .wait h e hw
      · exact ht.owned .suspend h e hw
    | wait => exact absurd hs (isSet_suspendI hf).2

theorem tables_clearBits (ht : r.Tables) (hr : r.HandleInRange h) : (r.clearBits h mask).Tables := by
  refine bitsAt_clearBits.tables ht (fun w e hs => ?_) fun e e' hs hs' => ?_
  · exact ht.owned w h e ((isSet_clearBits hr w).mp hs).2
  · exact ht.apart h e e' ((isSet_clearBits hr .wait).mp hs).2 ((isSet_clearBits hr .suspend).mp hs').2

/-! ## Binding and unbinding -/

theorem sets_enter (r : SelectReactor) (h : Int) (eh : EventHandler) (w : WhichSet) :
    (r.enter h eh).sets w = r.sets w := by
  cases w <;> rfl

theorem sets_drop (r : SelectReactor) (h : Int) (w : WhichSet) : (r.drop h).sets w = r.sets w := by
  cases w <;> rfl

theorem lt_enter (r : SelectReactor) (h : Int) (eh : EventHandler) :
    h < (r.enter h eh).maxHandlep1 ∧ r.maxHandlep1 ≤ (r.enter h eh).maxHandlep1 := by
  simp only [enter]
  split <;> omega

theorem tables_enter (ht : r.Tables) (hv : ¬ r.InvalidHandle h) : (r.enter h eh).Tables := by
  have hlt := lt_enter r h eh
  refine ⟨fun h' hn => ?_, fun w h' e hs => ?_, fun h' e e' => ht.apart h' e e'⟩
  · by_cases hh : h' = h
    · subst hh
      unfold InvalidHandle at hv
      exact ⟨by omega, by change h' < r.size; omega⟩
    · simp only [enter, update_of_ne hh] at hn
      exact ht.valid h' hn
  · rw [sets_enter] at hs
    obtain ⟨⟨h0, hmax⟩, hn⟩ := ht.owned w h' e hs
    refine ⟨⟨h0, by omega⟩, ?_⟩
    by_cases hh : h' = h
    · simp [enter, hh]
    · simpa only [enter, update_of_ne hh] using hn

theorem tables_log (ht : r.Tables) (c : Call) : (r.log c).Tables := by
  refine ⟨ht.valid, fun w h e hs => ?_, ht.apart⟩
  exact ht.owned w h e hs

/-- The bits that `bind` sets, in the set that has those of the handle. -/
def withBits (r : SelectReactor) (h : Int) (mask : Mask) : SelectReactor :=
  (r.maskOps h mask .add).1

theorem bindAt_eq (r : SelectReactor) (h : Int) (eh : EventHandler) (mask : Mask) :
    r.bindAt h eh mask = if (r.eventHandlers h).isSome then (r.enter h eh).withBits h mask
      else ((r.enter h eh).withBits h mask).log (.addReference h eh) := by
  unfold bindAt withBits maskOps
  by_cases hs : (r.enter h eh).IsSuspendedI h
  · simp only [if_pos hs]
  · simp only [if_neg hs]

theorem enter_registered (r : SelectReactor) (h : Int) (eh : EventHandler) :
    (r.enter h eh).eventHandlers h = some eh := by
  simp [enter]

theorem tables_bindAt (ht : r.Tables) (hv : ¬ r.InvalidHandle h) : (r.bindAt h eh mask).Tables := by
  have hbits : ((r.enter h eh).withBits h mask).Tables :=
    tables_maskOps (tables_enter ht hv) (by rw [enter_registered]; simp)
  rw [bindAt_eq]
  split
  · exact hbits
  · exact tables_log hbits _

theorem reaches_bindAt (hr : r.Reaches) : (r.bindAt h eh mask).Reaches := by
  have hlt := lt_enter r h eh
  have hreach : (r.enter h eh).Reaches := by
    intro h' hn
    by_cases hh : h' = h
    · rw [hh]
      exact hlt.1
    · simp only [enter, update_of_ne hh] at hn
      exact Int.lt_of_lt_of_le (hr h' hn) hlt.2
  have hbits : ((r.enter h eh).withBits h mask).Reaches := bitsAt_maskOps.reaches hreach
  rw [bindAt_eq]
  split
  · exact hbits
  · exact hbits

theorem le_maxOfSix (hs : (r.sets w).IsSet h e) : h ≤ r.maxOfSix := by
  have hm := le_maxSet hs
  cases w <;> cases e <;> simp only [sets, mask] at hm <;>
    simp only [maxOfSix, le_max_iff, hm, true_or, or_true]

theorem hasBits_iff : r.HasBits h ↔ ∃ w e, (r.sets w).IsSet h e := by
  unfold HasBits
  rw [isSetAny_iff, isSetAny_iff]
  constructor
  · rintro (⟨e, he⟩ | ⟨e, he⟩)
    · exact ⟨.wait, e, he⟩
    · exact ⟨.suspend, e, he⟩
  · rintro ⟨w, e, he⟩
    cases w with
    | wait => exact .inl ⟨e, he⟩
    | suspend => exact .inr ⟨e, he⟩

/-- What still has bits is below the new bound: the bound is the largest such handle. -/
theorem tables_drop (ht : r.Tables) (hb : ¬ r.HasBits h) : (r.drop h).Tables := by
  refine ⟨fun h' hn => ?_, fun w h' e hs => ?_, fun h' e e' => ht.apart h' e e'⟩
  · by_cases hh : h' = h
    · simp [drop, hh] at hn
    · simp only [drop, update_of_ne hh] at hn
      exact ht.valid h' hn
  · rw [sets_drop] at hs
    have hh : h' ≠ h := fun hh => hb (hasBits_iff.mpr ⟨w, e, hh ▸ hs⟩)
    obtain ⟨⟨h0, hmax⟩, hn⟩ := ht.owned w h' e hs
    have hle := le_maxOfSix hs
    constructor
    · refine ⟨h0, ?_⟩
      simp only [drop]
      split <;> omega
    · simpa only [drop, update_of_ne hh] using hn

theorem closeHandler_tables (ht : r.Tables) (complete : Bool) :
    (r.closeHandler h eh mask complete).Tables := by
  unfold closeHandler
  split <;> split
  · exact tables_log ht _
  · exact ht
  · exact tables_log (tables_log ht _) _
  · exact tables_log ht _

/-- The handle has no bits left once those of the mask are cleared. -/
def LastBits (r : SelectReactor) (h : Int) (mask : Mask) : Prop :=
  ∀ w e, (r.sets w).IsSet h e → selects mask e = true

theorem not_hasBits_clearBits (hr : r.HandleInRange h) :
    ¬ (r.clearBits h mask).HasBits h ↔ r.LastBits h mask := by
  rw [hasBits_iff]
  constructor
  · intro hb w e hs
    by_contra hm
    exact hb ⟨w, e, (isSet_clearBits hr w).mpr ⟨hm, hs⟩⟩
  · rintro hl ⟨w, e, hs⟩
    obtain ⟨hm, hs'⟩ := (isSet_clearBits hr w).mp hs
    exact hm (hl w e hs')

/-- The tables after `unbind`, the calls to the handler apart. -/
def unbound (r : SelectReactor) (h : Int) (mask : Mask) : SelectReactor :=
  if (r.clearBits h mask).HasBits h then r.clearBits h mask else (r.clearBits h mask).drop h

theorem unbind_eq (hr : r.HandleInRange h) : (r.unbind h mask).1 = match r.eventHandlers h with
      | none => r.unbound h mask
      | some eh => (r.unbound h mask).closeHandler h eh mask (!decide ((r.clearBits h mask).HasBits h)) := by
  unfold unbind unbound
  rw [if_neg (not_not_intro hr)]
  by_cases hb : (r.clearBits h mask).HasBits h
  · simp only [hb, decide_true, Bool.not_true, if_true]
    cases r.eventHandlers h <;> rfl
  · simp only [hb, decide_false, Bool.not_false, if_true, if_false]
    cases r.eventHandlers h <;> rfl

theorem tables_unbound (ht : r.Tables) (hr : r.HandleInRange h) : (r.unbound h mask).Tables := by
  unfold unbound
  split
  · exact tables_clearBits ht hr
  · next hb => exact tables_drop (tables_clearBits ht hr) hb

theorem tables_unbind (ht : r.Tables) : (r.unbind h mask).1.Tables := by
  by_cases hr : r.HandleInRange h
  · rw [unbind_eq hr]
    split
    · exact tables_unbound ht hr
    · exact closeHandler_tables (tables_unbound ht hr) _
  · unfold unbind
    rwa [if_pos hr]

/-- A removal leaves every other entry within reach: if it takes the last bits of the
handle right below the bound, a handle with bits is left at or above each of them. -/
def KeepsReach (r : SelectReactor) (h : Int) (mask : Mask) : Prop :=
  r.maxHandlep1 = h + 1 → r.LastBits h mask → ∀ h', h' ≠ h → r.eventHandlers h' ≠ none →
    ∃ h'', h'' ≠ h ∧ h' ≤ h'' ∧ r.HasBits h''

theorem reaches_unbound (hr : r.HandleInRange h) (hreach : r.Reaches) (hk : r.KeepsReach h mask) :
    (r.unbound h mask).Reaches := by
  have hb : BitsAt h r (r.clearBits h mask) := bitsAt_clearBits
  have hclear : (r.clearBits h mask).Reaches := hb.reaches hreach
  unfold unbound
  split
  · exact hclear
  · next hlast =>
    have hl := (not_hasBits_clearBits hr).mp hlast
    intro h' hn
    by_cases hh : h' = h
    · simp [drop, hh] at hn
    · simp only [drop, update_of_ne hh] at hn ⊢
      split
      · next hmax =>
        rw [hb.eventHandlers] at hn
        rw [hb.maxHandlep1] at hmax
        obtain ⟨h'', hne, hle, hbits⟩ := hk hmax hl h' hh hn
        obtain ⟨w, e, hs⟩ := hasBits_iff.mp hbits
        have hs' := (hb.bits w h'' e hne).mpr hs
        have := le_maxOfSix hs'
        omega
      · exact hclear h' hn

theorem closeHandler_maxHandlep1 (complete : Bool) :
    (r.closeHandler h eh mask complete).maxHandlep1 = r.maxHandlep1 := by
  unfold closeHandler
  split <;> split <;> rfl

theorem closeHandler_eventHandlers (complete : Bool) :
    (r.closeHandler h eh mask complete).eventHandlers = r.eventHandlers := by
  unfold closeHandler
  split <;> split <;> rfl

theorem reaches_unbind (hreach : r.Reaches) (hk : r.KeepsReach h mask) :
    (r.unbind h mask).1.Reaches := by
  by_cases hr : r.HandleInRange h
  · have hu := reaches_unbound hr hreach hk
    rw [unbind_eq hr]
    split
    · exact hu
    · unfold Reaches
      rwa [closeHandler_maxHandlep1, closeHandler_eventHandlers]
  · unfold unbind
    rwa [if_pos hr]

/-! ## References -/

/-- The counted handler that the reactor has a reference to, for one handle; no result
where a call does not fit. -/
def refStep (h : Int) (cur : Option EventHandler) : Call → Option (Option EventHandler)
  | .addReference h' eh =>
    if h' = h ∧ eh.counted = true then (if cur = none then some (some eh) else none) else some cur
  | .removeReference h' eh =>
    if h' = h ∧ eh.counted = true then (if cur = some eh then some none else none) else some cur
  | .handleClose _ _ _ => some cur

/-- For each handle the reference calls alternate, and the last one is an
`add_reference` exactly while a counted handler is registered. -/
def Balanced (r : SelectReactor) : Prop :=
  ∀ h, run (refStep h) none r.calls = some ((r.eventHandlers h).filter (·.counted))

theorem Balanced.congr (hb : r.Balanced) (hc : r'.calls = r.calls)
    (he : r'.eventHandlers = r.eventHandlers) : r'.Balanced := by
  intro h
  rw [hc, he]
  exact hb h

theorem run_log {c : Call} {cur : Option EventHandler} (hc : run (refStep h) none r.calls = some cur) :
    run (refStep h) none (r.log c).calls = refStep h cur c := by
  cases hs : refStep h cur c with
  | some next => exact run_append hc (by rw [run_cons, hs]; rfl)
  | none =>
    have happ : ∀ (s : Option EventHandler) (l : List Call), run (refStep h) s l = some cur →
        run (refStep h) s (l ++ [c]) = none := by
      intro s l
      induction l generalizing s with
      | nil =>
        intro hl
        cases hl
        simp [run_cons, hs]
      | cons d l ih =>
        intro hl
        obtain ⟨t, ht, hl'⟩ := run_cons_some hl
        rw [List.cons_append, run_cons, ht]
        exact ih t hl'
    exact happ none r.calls hc

theorem balanced_bindAt (hb : r.Balanced) (he : r.eventHandlers h = none ∨ r.eventHandlers h = some eh) :
    (r.bindAt h eh mask).Balanced := by
  have hbits : BitsAt h (r.enter h eh) ((r.enter h eh).withBits h mask) := bitsAt_maskOps
  rw [bindAt_eq]
  rcases he with hn | hs
  · rw [if_neg (by simp [hn])]
    intro h'
    have hcur : run (refStep h') none ((r.enter h eh).withBits h mask).calls =
        some ((r.eventHandlers h').filter (·.counted)) := by
      rw [hbits.calls]
      exact hb h'
    rw [run_log hcur]
    change _ = some ((((r.enter h eh).withBits h mask).eventHandlers h').filter (·.counted))
    rw [hbits.eventHandlers]
    by_cases hh : h = h'
    · subst hh
      rw [enter_registered, hn]
      by_cases hcount : eh.counted = true <;> simp [refStep, hcount, Option.filter]
    · simp [refStep, hh, enter, update_of_ne (Ne.symm hh)]
  · rw [if_pos (by simp [hs])]
    refine hb.congr hbits.calls ?_
    rw [hbits.eventHandlers]
    exact update_eq_self_iff.mpr hs.symm

theorem unbound_eventHandlers : (r.unbound h mask).eventHandlers =
      if (r.clearBits h mask).HasBits h then r.eventHandlers
      else update r.eventHandlers h none := by
  have hb : BitsAt h r (r.clearBits h mask) := bitsAt_clearBits
  unfold unbound
  split
  · exact hb.eventHandlers
  · simp only [drop, hb.eventHandlers]

theorem unbound_calls : (r.unbound h mask).calls = r.calls := by
  have hb : BitsAt h r (r.clearBits h mask) := bitsAt_clearBits
  unfold unbound
  split <;> exact hb.calls

theorem run_closeHandler {cur : Option EventHandler} (complete : Bool)
    (hc : run (refStep h') none r.calls = some cur) :
    run (refStep h') none (r.closeHandler h eh mask complete).calls =
      if complete && eh.counted then refStep h' cur (.removeReference h eh) else some cur := by
  have hclose : run (refStep h') none (r.log (.handleClose h eh mask)).calls = some cur := run_log hc
  unfold closeHandler
  split <;> split
  · exact run_log hc
  · exact hc
  · exact run_log hclose
  · exact hclose

theorem balanced_unbind (hb : r.Balanced) : (r.unbind h mask).1.Balanced := by
  by_cases hr : r.HandleInRange h
  · rw [unbind_eq hr]
    cases hn : r.eventHandlers h with
    | none =>
      refine hb.congr unbound_calls ?_
      rw [unbound_eventHandlers]
      split
      · rfl
      · exact update_eq_self_iff.mpr hn.symm
    | some eh =>
      intro h'
      have hcur : run (refStep h') none (r.unbound h mask).calls =
          some ((r.eventHandlers h').filter (·.counted)) := by
        rw [unbound_calls]
        exact hb h'
      rw [run_closeHandler _ hcur, closeHandler_eventHandlers, unbound_eventHandlers]
      by_cases hbits : (r.clearBits h mask).HasBits h
      · simp [hbits]
      · by_cases hh : h = h'
        · subst hh
          by_cases hcount : eh.counted = true <;> simp [hbits, hcount, hn, refStep, Option.filter]
        · simp [hbits, refStep, hh, update_of_ne (Ne.symm hh)]
  · unfold unbind
    rwa [if_pos hr]

/-! ## Runs -/

/-- What a user of the reactor calls. -/
inductive SelectOp where
  | registerHandler (handle : Int) (eventHandler : Option EventHandler) (mask : Mask)
  | removeHandler (handle : Int) (mask : Mask)
  | maskOps (handle : Int) (mask : Mask) (ops : MaskOp)
  | scheduleWakeup (handle : Int) (mask : Mask)
  | cancelWakeup (handle : Int) (mask : Mask)
  | suspendHandler (handle : Int)
  | resumeHandler (handle : Int)
  deriving DecidableEq, Repr

/-- The reactor after the operation. -/
def apply (r : SelectReactor) : SelectOp → SelectReactor
  | .registerHandler handle eventHandler mask => (r.bind handle eventHandler mask).1
  | .removeHandler handle mask => (r.unbind handle mask).1
  | .maskOps handle mask ops => (r.maskOps handle mask ops).1
  | .scheduleWakeup handle mask => (r.scheduleWakeup handle mask).1
  | .cancelWakeup handle mask => (r.cancelWakeup handle mask).1
  | .suspendHandler handle => (r.suspendI handle).1
  | .resumeHandler handle => (r.resumeI handle).1

def step (r : SelectReactor) (op : SelectOp) : Option SelectReactor := some (r.apply op)

/-- The bits of handles are changed for registered handles only. -/
def OnRegistered (r : SelectReactor) : SelectOp → Prop
  | .maskOps handle _ _ | .scheduleWakeup handle _ | .cancelWakeup handle _ =>
    r.eventHandlers handle ≠ none
  | _ => True

instance : ∀ (r : SelectReactor) (op : SelectOp), Decidable (r.OnRegistered op)
  | _, .registerHandler _ _ _ | _, .removeHandler _ _ | _, .suspendHandler _ | _, .resumeHandler _ =>
    .isTrue trivial
  | r, .maskOps handle _ _ | r, .scheduleWakeup handle _ | r, .cancelWakeup handle _ =>
    inferInstanceAs (Decidable (r.eventHandlers handle ≠ none))

/-- No removal leaves an entry out of reach. -/
def Keeps (r : SelectReactor) : SelectOp → Prop
  | .removeHandler handle mask => r.KeepsReach handle mask
  | _ => True

structure Consistent (r : SelectReactor) : Prop where
  tables : r.Tables
  reaches : r.Reaches
  balanced : r.Balanced

theorem consistent_opened (kind : Kind) (size : Int) : (opened kind size).Consistent :=
  ⟨tables_opened kind size, fun _ hn => absurd rfl hn, fun _ => rfl⟩

theorem BitsAt.consistent (hb : BitsAt h r r') (hc : r.Consistent) (ht : r'.Tables) : r'.Consistent :=
  ⟨ht, hb.reaches hc.reaches, hc.balanced.congr hb.calls hb.eventHandlers⟩

theorem consistent_bind {eventHandler : Option EventHandler} (hc : r.Consistent) :
    (r.bind h eventHandler mask).1.Consistent := by
  cases eventHandler with
  | none => exact hc
  | some eh =>
    simp only [bind]
    generalize (if h = -1 then eh.getHandle else h) = handle
    by_cases hv : r.InvalidHandle handle
    · rwa [if_pos hv]
    · rw [if_neg hv]
      split
      · exact hc
      · next hother =>
        refine ⟨tables_bindAt hc.tables hv, reaches_bindAt hc.reaches, balanced_bindAt hc.balanced ?_⟩
        by_cases hn : r.eventHandlers handle = none
        · exact .inl hn
        · exact .inr (not_not.mp fun hs => hother ⟨hn, hs⟩)

theorem consistent_apply {op : SelectOp} (hc : r.Consistent) (hreg : r.OnRegistered op)
    (hk : r.Keeps op) : (r.apply op).Consistent := by
  cases op with
  | registerHandler handle eventHandler mask => exact consistent_bind hc
  | removeHandler handle mask =>
    exact ⟨tables_unbind hc.tables, reaches_unbind hc.reaches hk, balanced_unbind hc.balanced⟩
  | maskOps handle mask ops => exact bitsAt_maskOps.consistent hc (tables_maskOps hc.tables hreg)
  | scheduleWakeup handle mask => exact bitsAt_maskOps.consistent hc (tables_maskOps hc.tables hreg)
  | cancelWakeup handle mask => exact bitsAt_maskOps.consistent hc (tables_maskOps hc.tables hreg)
  | suspendHandler handle => exact bitsAt_suspendI.consistent hc (tables_suspendI hc.tables)
  | resumeHandler handle => exact bitsAt_resumeI.consistent hc (tables_resumeI hc.tables)

/-- The tables are consistent in every state that a run reaches whose removals leave no
handler out of reach: every registered handle is found, the bits belong to registered
handles, none has bits in both sets, and the references are balanced. -/
theorem tables_of_keeps (size : Int) (ops : List SelectOp) (r : SelectReactor)
    (hreg : AllSteps step OnRegistered (opened .select size) ops)
    (hkeeps : AllSteps step Keeps (opened .select size) ops)
    (hrun : run step (opened .select size) ops = some r) :
    (∀ h, r.eventHandlers h ≠ none → h < r.maxHandlep1 ∧ r.find h = r.eventHandlers h) ∧
    (∀ w h e, (r.sets w).IsSet h e → h < r.maxHandlep1 ∧ r.eventHandlers h ≠ none) ∧
    (∀ h e e', ¬ (r.waitSet.IsSet h e ∧ r.suspendSet.IsSet h e')) ∧
    r.Balanced := by
  have hc : r.Consistent := by
    refine run_inv_of (fun s op s' hs hop hstep => ?_) (consistent_opened .select size)
      (hreg.and hkeeps) hrun
    cases hstep
    exact consistent_apply hs hop.1 hop.2
  refine ⟨fun h hn => ⟨hc.reaches h hn, hc.reaches.find hc.tables h⟩, fun w h e hs => ?_, ?_, hc.balanced⟩
  · obtain ⟨hr, hn⟩ := hc.tables.owned w h e hs
    exact ⟨hr.2, hn⟩
  · rintro h e e' ⟨hw, hs⟩
    exact hc.tables.apart h e e' hw hs

/-- Two handlers, the one suspended, changed and resumed, the other removed. -/
def sampleOps : List SelectOp :=
  [.registerHandler 1 (some ⟨1, 1, true, true⟩) readMask,
    .registerHandler 2 (some ⟨2, 2, true, true⟩) (readMask ||| writeMask),
    .suspendHandler 1, .scheduleWakeup 1 writeMask, .cancelWakeup 1 readMask, .resumeHandler 1,
    .removeHandler 2 allEventsMask]

theorem tables_of_keeps_sample : ∃ r, run step (opened .select 8) sampleOps = some r ∧
    r.find 1 = some ⟨1, 1, true, true⟩ ∧ r.maxHandlep1 = 2 ∧ r.Balanced := by
  have hrun : ∃ r, run step (opened .select 8) sampleOps = some r ∧ r.maxHandlep1 = 2 ∧
      r.eventHandlers 1 = some ⟨1, 1, true, true⟩ := ⟨_, rfl, by decide, rfl⟩
  have hreg : AllSteps step OnRegistered (opened .select 8) sampleOps := by decide
  have hkeeps : AllSteps step Keeps (opened .select 8) sampleOps := by
    refine ⟨trivial, ?_⟩; rintro _ ⟨⟩
    refine ⟨trivial, ?_⟩; rintro _ ⟨⟩
    refine ⟨trivial, ?_⟩; rintro _ ⟨⟩
    refine ⟨trivial, ?_⟩; rintro _ ⟨⟩
    refine ⟨trivial, ?_⟩; rintro _ ⟨⟩
    refine ⟨trivial, ?_⟩; rintro _ ⟨⟩
    refine ⟨fun _ _ h' hne hn => ⟨1, by decide, ?_, by decide⟩, fun _ _ => trivial⟩
    change update (update (fun _ => none) 1 _) 2 _ h' ≠ none at hn
    by_contra hlt
    rw [update_of_ne hne, update_of_ne (by omega)] at hn
    exact hn rfl
  obtain ⟨r, hr, hmax, hentry⟩ := hrun
  obtain ⟨hfind, _, _, hbal⟩ := tables_of_keeps 8 sampleOps r hreg hkeeps hr
  exact ⟨r, hr, (hfind 1 (by simp [hentry])).2.trans hentry, hmax, hbal⟩

/-- The events of handle 1 are cancelled, and handle 2 is removed. -/
def losingOps : List SelectOp :=
  [.registerHandler 1 (some ⟨1, 1, true, true⟩) readMask,
    .registerHandler 2 (some ⟨2, 2, true, true⟩) readMask,
    .cancelWakeup 1 readMask, .removeHandler 2 readMask]

/-- Handle 1 is still registered, but neither found nor changed nor removed any more. -/
theorem remove_loses_handler : AllSteps step OnRegistered (opened .select 8) losingOps ∧
    ∃ r, run step (opened .select 8) losingOps = some r ∧
      r.eventHandlers 1 = some ⟨1, 1, true, true⟩ ∧ r.maxHandlep1 = 0 ∧ r.find 1 = none ∧
      (r.scheduleWakeup 1 readMask).2 = none ∧ (r.unbind 1 readMask).2 = -1 := by
  exact ⟨by decide, _, rfl, rfl, by decide, by decide, by decide, by decide⟩

end SelectReactor

end Atcd.Reactor
