import Atcd.Reactor.TpReactor
/-!
# Upcalls of the thread-pool reactor

Results:
* `exclusive_of_keeps`: no two threads are in upcalls for one handle, and a handle whose
  upcall returns 0 is resumed with the events last requested, if no upcall sets an event
  for its handle after it has cleared all of them.
* `rescheduled_handle_dispatched_twice`: such an upcall. A handle without events does not
  count as suspended, and the new event goes to the wait set.
-/
namespace Atcd.Reactor

open Atcd.Core Function Option HandleSets

namespace SelectReactor

variable {r r' : SelectReactor} {h h' : Int} {e : IoEvent} {mask : Mask} {w : WhichSet} {ops : MaskOp}
  {eh : EventHandler} {pipe : NotifyPipe}

/-! ## The ready set under the operations -/

def ReadyWaits (r : SelectReactor) : Prop := ∀ h e, r.readySet.IsSet h e → r.waitSet.IsSet h e

theorem readyWaits_of_empty (hr : r.readySet = .empty) : r.ReadyWaits := fun h e hs => by
  rw [hr] at hs
  exact absurd hs not_isSet_empty

theorem readySet_clearDispatchMask (hk : r.kind = .tp) :
    (r.clearDispatchMask h mask).readySet = .empty := by
  unfold clearDispatchMask
  rw [hk]

theorem readySet_bitOps (hk : r.kind = .tp) :
    (r.bitOps h mask w ops).1.readySet = r.readySet ∨ (r.bitOps h mask w ops).1.readySet = .empty := by
  have hput : ∀ (r : SelectReactor) (s : HandleSets), (r.putSets w s).readySet = r.readySet :=
    fun r s => by cases w <;> rfl
  unfold bitOps
  split
  · exact .inl rfl
  · cases ops with
    | get => exact .inl rfl
    | set => exact .inl (hput _ _)
    | add => exact .inl (hput _ _)
    | clr =>
      exact .inr ((hput _ _).trans (readySet_clearDispatchMask hk))
    | unknown => exact .inl rfl

theorem readySet_maskOps (hk : r.kind = .tp) :
    (r.maskOps h mask ops).1.readySet = r.readySet ∨ (r.maskOps h mask ops).1.readySet = .empty := by
  unfold maskOps
  split <;> exact readySet_bitOps hk

theorem readySet_suspendI (hk : r.kind = .tp) (hf : r.find h ≠ none) :
    (r.suspendI h).1.readySet = .empty := by
  unfold suspendI
  rw [if_neg hf]
  exact readySet_clearDispatchMask hk

theorem readySet_resumeI : (r.resumeI h).1.readySet = r.readySet := by
  unfold resumeI
  split <;> rfl

/-! ## Removal -/

theorem readySet_clearBits (hk : r.kind = .tp) (hr : r.HandleInRange h) :
    (r.clearBits h mask).readySet = .empty := by
  have hb : BitsAt h r (r.bitOps h mask .wait .clr).1 := bitsAt_bitOps
  have hr' : (r.bitOps h mask .wait .clr).1.HandleInRange h := (hb.inRange h).mpr hr
  unfold clearBits
  rw [bitOps, if_neg (not_not_intro hr')]
  exact readySet_clearDispatchMask (hb.kind.trans hk)

/-- What `unbind` makes of the tables, for a handle in range. -/
structure Unbound (h : Int) (mask : Mask) (r r' : SelectReactor) : Prop where
  kind : r'.kind = r.kind
  readySet : r'.readySet = .empty
  others : ∀ h', h' ≠ h → r'.eventHandlers h' = r.eventHandlers h'
  entry : r'.eventHandlers h = r.eventHandlers h ∨ r'.eventHandlers h = none
  bits : ∀ w h' e, (r'.sets w).IsSet h' e ↔
    (h' = h → ¬ selects mask e = true) ∧ (r.sets w).IsSet h' e

theorem Unbound.log (hu : Unbound h mask r r') (c : Call) : Unbound h mask r (r'.log c) := by
  refine ⟨hu.kind, hu.readySet, hu.others, hu.entry, fun w h' e => ?_⟩
  exact hu.bits w h' e

theorem unbound_unbind (hk : r.kind = .tp) (hr : r.HandleInRange h) :
    Unbound h mask r (r.unbind h mask).1 := by
  have hb : BitsAt h r (r.clearBits h mask) := bitsAt_clearBits
  have hbits : ∀ w h' e, ((r.clearBits h mask).sets w).IsSet h' e ↔
      (h' = h → ¬ selects mask e = true) ∧ (r.sets w).IsSet h' e := by
    intro w h' e
    by_cases hh : h' = h
    · subst hh
      rw [isSet_clearBits hr]
      simp
    · rw [hb.bits w h' e hh]
      simp [hh]
  have hunbound : Unbound h mask r (r.unbound h mask) := by
    unfold unbound
    split
    · exact ⟨hb.kind, readySet_clearBits hk hr, fun h' _ => by rw [hb.eventHandlers],
        .inl (by rw [hb.eventHandlers]), hbits⟩
    · refine ⟨hb.kind, readySet_clearBits hk hr, fun h' hne => ?_, .inr ?_, fun w h' e => ?_⟩
      · simp only [drop, update_of_ne hne, hb.eventHandlers]
      · simp [drop]
      · rw [sets_drop]
        exact hbits w h' e
  rw [unbind_eq hr]
  split
  · exact hunbound
  · unfold closeHandler
    split <;> split
    · exact hunbound.log _
    · exact hunbound
    · exact (hunbound.log _).log _
    · exact hunbound.log _

/-! ## Picking a handle -/

theorem resync_subset (s : Finset Int) : resync s ⊆ s := Finset.filter_subset _ _

theorem remembered_eq (r : SelectReactor) : ∃ ready changed,
    r.remembered = { r with readySet := ready, stateChanged := changed } ∧
      ∀ h e, ready.IsSet h e → r.readySet.IsSet h e := by
  unfold remembered
  split
  · exact ⟨_, _, rfl, fun h e hs => absurd hs not_isSet_empty⟩
  · refine ⟨_, r.stateChanged, rfl, fun h e hs => ?_⟩
    cases e with
    | read => exact resync_subset _ hs
    | write => exact resync_subset _ hs
    | except => exact resync_subset _ hs

theorem getEventForDispatching_eq {selected : Option HandleSets} (hr : r.ReadyWaits)
    (hsel : TpSys.Selects r selected) : ∃ ready changed,
    (r.getEventForDispatching selected).1 = { r with readySet := ready, stateChanged := changed } ∧
      ∀ h e, ready.IsSet h e → r.waitSet.IsSet h e := by
  obtain ⟨ready, changed, heq, hsub⟩ := remembered_eq r
  unfold getEventForDispatching
  rw [heq]
  by_cases hpos : 0 < ready.numSet
  · simp only [if_pos hpos]
    exact ⟨ready, changed, rfl, fun h e hs => hr h e (hsub h e hs)⟩
  · simp only [if_neg hpos]
    cases selected with
    | none => exact ⟨_, changed, rfl, fun h e hs => absurd hs not_isSet_empty⟩
    | some sets =>
      exact ⟨sets, changed, rfl, fun h e hs => hsel (h, e) (mem_keys.mpr hs)⟩

theorem firstReady_isSet {k : Key} (hk : r.firstReady e = some k) : r.readySet.IsSet k.1 k.2 := by
  obtain ⟨h, hh, rfl⟩ := map_eq_some_iff.mp hk
  exact (Finset.mem_filter.mp (firstHandle_mem hh)).1

theorem getSocketEventInfo_isSet {k : Key} (hk : r.getSocketEventInfo = some k) :
    r.readySet.IsSet k.1 k.2 := by
  unfold getSocketEventInfo at hk
  split at hk
  · next hf =>
    cases hk
    exact firstReady_isSet hf
  · split at hk
    · next hf =>
      cases hk
      exact firstReady_isSet hf
    · exact firstReady_isSet hk

/-- The handle was suspended with all its events. -/
structure Picked (h : Int) (r r' : SelectReactor) : Prop where
  kind : r'.kind = r.kind
  eventHandlers : r'.eventHandlers = r.eventHandlers
  tables : r'.Tables
  readySet : r'.readySet = .empty
  bits : ∀ w h' e, h' ≠ h → ((r'.sets w).IsSet h' e ↔ (r.sets w).IsSet h' e)
  waits : ∀ e, ¬ r'.waitSet.IsSet h e
  suspended : ∀ e, r'.suspendSet.IsSet h e ↔ r.waitSet.IsSet h e ∨ r.suspendSet.IsSet h e

theorem picked_suspendI (hk : r.kind = .tp) (ht : r.Tables) (hf : r.find h ≠ none) :
    Picked h r (r.suspendI h).1 := by
  have hb : BitsAt h r (r.suspendI h).1 := bitsAt_suspendI
  exact ⟨hb.kind, hb.eventHandlers, tables_suspendI ht, readySet_suspendI hk hf, hb.bits,
    fun e => (isSet_suspendI hf).2, fun e => (isSet_suspendI hf).1⟩

theorem Picked.log (hp : Picked h r r') (c : Call) : Picked h r (r'.log c) := by
  refine ⟨hp.kind, hp.eventHandlers, tables_log hp.tables c, hp.readySet, fun w h' e hne => ?_, hp.waits,
    hp.suspended⟩
  exact hp.bits w h' e hne

theorem tables_pass (ht : r.Tables) (ready : HandleSets) (changed : Bool) :
    Tables { r with readySet := ready, stateChanged := changed } := by
  refine ⟨ht.valid, fun w h e hs => ?_, ht.apart⟩
  cases w with
  | wait => exact ht.owned .wait h e hs
  | suspend => exact ht.owned .suspend h e hs

theorem Picked.of_pass {ready : HandleSets} {changed : Bool}
    (hp : Picked h { r with readySet := ready, stateChanged := changed } r') : Picked h r r' := by
  refine ⟨hp.kind, hp.eventHandlers, hp.tables, hp.readySet, fun w => ?_, hp.waits, hp.suspended⟩
  cases w with
  | wait => exact hp.bits .wait
  | suspend => exact hp.bits .suspend

/-- The handler of the pipe is registered there and nowhere else, for reading at most. -/
structure PipeOnly (pipe : NotifyPipe) (r : SelectReactor) : Prop where
  handler : ∀ h eh, r.eventHandlers h = some eh → (eh = pipe.handler ↔ h = pipe.handle)
  reads : ∀ e, r.waitSet.IsSet pipe.handle e → e = .read

theorem handleSocketEvents_spec (hk : r.kind = .tp) (ht : r.Tables) (hr : r.ReadyWaits)
    (hp : r.PipeOnly pipe) (hpipe : ¬ r.readySet.IsSet pipe.handle .read) :
    r.handleSocketEvents pipe = (r, none) ∨
    ∃ h e eh r', r.handleSocketEvents pipe = (r', some ⟨h, eh, e, r.waitedFor h⟩) ∧
      r.waitSet.IsSet h e ∧ r.eventHandlers h = some eh ∧ eh ≠ pipe.handler ∧ Picked h r r' := by
  unfold handleSocketEvents
  cases hfound : r.getSocketEventInfo with
  | none => exact .inl rfl
  | some k =>
    obtain ⟨h, e⟩ := k
    have hready : r.readySet.IsSet h e := getSocketEventInfo_isSet hfound
    have hwait : r.waitSet.IsSet h e := hr h e hready
    have htables : (r.clearHandleReadSet h).Tables := tables_pass ht _ r.stateChanged
    have hfind : (r.clearHandleReadSet h).find h ≠ none := htables.find_ne (w := .wait) hwait
    obtain ⟨eh, heh⟩ := ne_none_iff_exists'.mp hfind
    have hentry : r.eventHandlers h = some eh := by
      unfold SelectReactor.find at heh
      split at heh
      · exact heh
      · cases heh
    have hne : eh ≠ pipe.handler := by
      intro he
      have hh := (hp.handler h eh hentry).mp he
      subst hh
      have he' := hp.reads e hwait
      subst he'
      exact hpipe hready
    have hpicked : Picked h (r.clearHandleReadSet h) ((r.clearHandleReadSet h).suspendI h).1 :=
      picked_suspendI hk htables hfind
    have hsame : Picked h r ((r.clearHandleReadSet h).suspendI h).1 := hpicked.of_pass
    refine .inr ⟨h, e, eh, if eh.counted then
        ((r.clearHandleReadSet h).suspendI h).1.log (.addReference h eh)
      else ((r.clearHandleReadSet h).suspendI h).1, ?_, hwait, hentry, hne, ?_⟩
    · simp only [heh, if_neg hne]
      rfl
    · split
      · exact hsame.log _
      · exact hsame

theorem handleNotifyEvents_eq (r : SelectReactor) (pipe : NotifyPipe) (message : Bool) : ∃ ready,
    (r.handleNotifyEvents pipe message).1 = { r with readySet := ready } ∧
      (∀ h e, ready.IsSet h e → r.readySet.IsSet h e) ∧
      (pipe.handle ≠ -1 → ¬ ready.IsSet pipe.handle .read) := by
  unfold handleNotifyEvents
  split
  · refine ⟨_, rfl, fun h e hs => (isSet_clrBit.mp hs).2, fun _ hs => ?_⟩
    exact (isSet_clrBit.mp hs).1 ⟨rfl, rfl⟩
  · next hn =>
    exact ⟨r.readySet, rfl, fun _ _ hs => hs, fun hne hs => hn ⟨hne, hs⟩⟩

/-- What a thread does under the token: at most the ready set changes, or a handle is
picked. -/
theorem dispatchI_spec {input : TpInput} (hk : r.kind = .tp) (ht : r.Tables) (hr : r.ReadyWaits)
    (hp : r.PipeOnly pipe) (hsel : TpSys.Selects r input.selected) :
    (∃ ready changed, r.dispatchI pipe input = ({ r with readySet := ready, stateChanged := changed }, none) ∧
      ∀ h e, ready.IsSet h e → r.waitSet.IsSet h e) ∨
    ∃ h e eh r', r.dispatchI pipe input = (r', some ⟨h, eh, e, r.waitedFor h⟩) ∧
      r.waitSet.IsSet h e ∧ r.eventHandlers h = some eh ∧ eh ≠ pipe.handler ∧ Picked h r r' := by
  obtain ⟨ready, changed, heq, hsub⟩ := getEventForDispatching_eq hr hsel
  unfold dispatchI
  cases hget : r.getEventForDispatching input.selected with
  | mk r₁ count =>
    rw [hget] at heq
    subst heq
    simp only
    by_cases htimer : input.timer = true
    · rw [if_pos htimer]
      exact .inl ⟨ready, changed, rfl, hsub⟩
    · rw [if_neg htimer]
      by_cases hcount : 0 < count
      · simp only [if_pos hcount]
        obtain ⟨ready₂, hnotify, hsub₂, hpipe⟩ := handleNotifyEvents_eq
          { r with readySet := ready, stateChanged := changed } pipe input.message
        have hsub' : ∀ h e, ready₂.IsSet h e → r.waitSet.IsSet h e := fun h e hs =>
          hsub h e (hsub₂ h e hs)
        cases hrun : handleNotifyEvents pipe input.message
            { r with readySet := ready, stateChanged := changed } with
        | mk r₂ dispatched =>
          rw [hrun] at hnotify
          subst hnotify
          cases dispatched with
          | true => exact .inl ⟨ready₂, changed, rfl, hsub'⟩
          | false =>
            have hnone : ¬ ready₂.IsSet pipe.handle .read := by
              intro hs
              refine hpipe (fun he => ?_) hs
              have h0 := (ht.owned .wait _ _ (hsub' _ _ hs)).1.1
              omega
            have hpipe₂ : PipeOnly pipe { r with readySet := ready₂, stateChanged := changed } :=
              ⟨hp.handler, hp.reads⟩
            rcases handleSocketEvents_spec (r := { r with readySet := ready₂, stateChanged := changed }) hk
              (tables_pass ht _ _) hsub' hpipe₂ hnone with hidle | ⟨h, e, eh, r', hsock, hw, hentry, hne, hpick⟩
            · simp only [hidle]
              exact .inl ⟨ready₂, true, by simp [show count ≠ 0 by omega], hsub'⟩
            · simp only [hsock]
              exact .inr ⟨h, e, eh, r', by simp; rfl, hw, hentry, hne, hpick.of_pass⟩
      · simp only [if_neg hcount]
        by_cases hzero : count = 0
        · exact .inl ⟨ready, changed, by simp [hzero], hsub⟩
        · exact .inl ⟨ready, true, by simp [hzero], hsub⟩

/-! ## Post processing -/

/-- What follows an upcall: entries of other handles and their bits stay, and the handle
is not suspended any more. -/
structure Resumed (info : DispatchInfo) (r r' : SelectReactor) : Prop where
  kind : r'.kind = r.kind
  tables : r'.Tables
  entries : ∀ h eh, r'.eventHandlers h = some eh → r.eventHandlers h = some eh
  others : ∀ h, h ≠ info.handle → r'.eventHandlers h = r.eventHandlers h
  bits : ∀ w h e, h ≠ info.handle → ((r'.sets w).IsSet h e ↔ (r.sets w).IsSet h e)
  ready : r'.ReadyWaits
  suspended : ∀ e, ¬ r'.suspendSet.IsSet info.handle e

theorem Resumed.log {info : DispatchInfo} (hr : Resumed info r r') (c : Call) :
    Resumed info r (r'.log c) := by
  refine ⟨hr.kind, tables_log hr.tables c, hr.entries, hr.others, fun w h e hne => ?_, hr.ready, hr.suspended⟩
  exact hr.bits w h e hne

theorem resumed_resumeI {info : DispatchInfo} (hkind : r'.kind = r.kind) (ht : r'.Tables)
    (hentries : ∀ h eh, r'.eventHandlers h = some eh → r.eventHandlers h = some eh)
    (hothers : ∀ h, h ≠ info.handle → r'.eventHandlers h = r.eventHandlers h)
    (hbits : ∀ w h e, h ≠ info.handle → ((r'.sets w).IsSet h e ↔ (r.sets w).IsSet h e))
    (hready : r'.ReadyWaits) : Resumed info r (r'.resumeI info.handle).1 := by
  have hb : BitsAt info.handle r' (r'.resumeI info.handle).1 := bitsAt_resumeI
  refine ⟨hb.kind.trans hkind, tables_resumeI ht, ?_, ?_, fun w h e hne => (hb.bits w h e hne).trans
    (hbits w h e hne), ?_, ?_⟩
  · rw [hb.eventHandlers]
    exact hentries
  · rw [hb.eventHandlers]
    exact hothers
  · intro h e hs
    rw [readySet_resumeI] at hs
    have hw := hready h e hs
    by_cases hh : h = info.handle
    · subst hh
      exact (isSet_resumeI (ht.find_ne (w := .wait) hw)).1.mpr (.inl hw)
    · exact (hb.bits .wait h e hh).mpr hw
  · intro e hs
    by_cases hf : r'.find info.handle = none
    · have hsame : (r'.resumeI info.handle).1 = r' := by
        unfold resumeI
        rw [if_pos hf]
      rw [hsame] at hs
      exact ht.find_ne (w := .suspend) hs hf
    · exact (isSet_resumeI hf).2 hs

theorem postProcess_spec {info : DispatchInfo} {status : Int} (hk : r.kind = .tp) (ht : r.Tables)
    (hr : r.ReadyWaits) (hentry : r.eventHandlers info.handle = some info.eventHandler)
    (hpipe : info.eventHandler ≠ pipe.handler) (hresumes : info.eventHandler.reactorResumes = true) :
    Resumed info r (r.postProcessSocketEvent pipe info status) := by
  have hmain : Resumed info r (if r.find info.handle = some info.eventHandler then
      ((if status < 0 then (r.unbind info.handle info.event.toMask).1 else r).resumeI info.handle).1
      else r) := by
    split
    · next hf =>
      split
      · have hrange : r.HandleInRange info.handle := by
          by_contra hrange
          unfold SelectReactor.find at hf
          rw [if_neg hrange] at hf
          cases hf
        have hu : Unbound info.handle info.event.toMask r (r.unbind info.handle info.event.toMask).1 :=
          unbound_unbind hk hrange
        refine resumed_resumeI hu.kind (tables_unbind ht) (fun h eh he => ?_) hu.others
          (fun w h e hne => (hu.bits w h e).trans (by simp [hne])) (readyWaits_of_empty hu.readySet)
        by_cases hh : h = info.handle
        · subst hh
          rcases hu.entry with hsame | hnone
          · rwa [hsame] at he
          · rw [hnone] at he
            cases he
        · rwa [hu.others h hh] at he
      · exact resumed_resumeI rfl ht (fun _ _ he => he) (fun _ _ => rfl) (fun _ _ _ _ => Iff.rfl) hr
    · next hf =>
      refine ⟨rfl, ht, fun _ _ he => he, fun _ _ => rfl, fun _ _ _ _ => Iff.rfl, hr, fun e hs => hf ?_⟩
      obtain ⟨hrange, _⟩ := ht.owned .suspend info.handle e hs
      unfold SelectReactor.find
      rw [if_pos hrange]
      exact hentry
  unfold postProcessSocketEvent
  simp only [hpipe, hresumes, ne_eq, not_false_eq_true, and_self, or_true, if_true]
  split
  · exact hmain.log _
  · exact hmain

theorem waits_postProcess {info : DispatchInfo} (ht : r.Tables)
    (hentry : r.eventHandlers info.handle = some info.eventHandler)
    (hpipe : info.eventHandler ≠ pipe.handler) (hresumes : info.eventHandler.reactorResumes = true) :
    (r.postProcessSocketEvent pipe info 0).waitSet.IsSet info.handle e ↔
      r.waitSet.IsSet info.handle e ∨ r.suspendSet.IsSet info.handle e := by
  have hmain : (if r.find info.handle = some info.eventHandler then (r.resumeI info.handle).1
      else r).waitSet.IsSet info.handle e ↔
      r.waitSet.IsSet info.handle e ∨ r.suspendSet.IsSet info.handle e := by
    split
    · next hf => exact (isSet_resumeI (by rw [hf]; simp)).1
    · next hf =>
      refine ⟨.inl, fun hs => hs.resolve_right fun hs => hf ?_⟩
      obtain ⟨hrange, _⟩ := ht.owned .suspend info.handle e hs
      unfold SelectReactor.find
      rw [if_pos hrange]
      exact hentry
  unfold postProcessSocketEvent
  simp only [hpipe, hresumes, ne_eq, not_false_eq_true, and_self, or_true, if_true, Int.lt_irrefl,
    if_false]
  split
  · exact hmain
  · exact hmain

end SelectReactor

/-! ## Runs -/

namespace TpSys

open SelectReactor

variable {pipe : NotifyPipe} {s s' : TpSys} {t : Nat} {info : DispatchInfo} {mask : Mask} {ops : MaskOp}

/-- The reactor before its threads start: every handler but that of the pipe is resumed
by the reactor, none is suspended, and no thread is in an upcall. -/
structure Start (pipe : NotifyPipe) (s : TpSys) : Prop where
  kind : s.reactor.kind = .tp
  tables : s.reactor.Tables
  ready : s.reactor.ReadyWaits
  resumes : ∀ h eh, s.reactor.eventHandlers h = some eh → eh ≠ pipe.handler → eh.reactorResumes = true
  pipeOnly : PipeOnly pipe s.reactor
  resumed : ∀ h e, ¬ s.reactor.suspendSet.IsSet h e
  idle : ∀ t, s.upcalls t = none

/-- A handle in an upcall waits for nothing, and its requested events are suspended; only
such handles are suspended. -/
structure Inv (pipe : NotifyPipe) (s : TpSys) : Prop where
  kind : s.reactor.kind = .tp
  tables : s.reactor.Tables
  ready : s.reactor.ReadyWaits
  resumes : ∀ h eh, s.reactor.eventHandlers h = some eh → eh ≠ pipe.handler → eh.reactorResumes = true
  pipeOnly : PipeOnly pipe s.reactor
  entry : ∀ t info, s.upcalls t = some info →
    s.reactor.eventHandlers info.handle = some info.eventHandler ∧ info.eventHandler ≠ pipe.handler
  quiet : ∀ t info, s.upcalls t = some info → ∀ e, ¬ s.reactor.waitSet.IsSet info.handle e
  requested : ∀ t info, s.upcalls t = some info → ∀ e,
    s.reactor.suspendSet.IsSet info.handle e ↔ info.requested e = true
  exclusive : ∀ t t' info info', s.upcalls t = some info → s.upcalls t' = some info' →
    info.handle = info'.handle → t = t'
  suspended : ∀ h, (∀ t info, s.upcalls t = some info → info.handle ≠ h) →
    ∀ e, ¬ s.reactor.suspendSet.IsSet h e

theorem Start.inv (hs : Start pipe s) : Inv pipe s := by
  have hnone : ∀ {t info}, s.upcalls t ≠ some info := fun {t info} he => by
    rw [hs.idle t] at he
    cases he
  exact ⟨hs.kind, hs.tables, hs.ready, hs.resumes, hs.pipeOnly, fun _ _ he => absurd he hnone,
    fun _ _ he => absurd he hnone, fun _ _ he => absurd he hnone, fun _ _ _ _ he => absurd he hnone,
    fun h _ => hs.resumed h⟩

/-- No upcall sets an event for its handle while the handle has no event left. -/
def KeepsSuspended (s : TpSys) : TpStep → Prop
  | .maskOps thread mask ops => ∀ info ∈ s.upcalls thread,
    s.reactor.suspendSet.IsSetAny info.handle ∨
      ∀ e ∈ [IoEvent.read, .write, .except], ¬ OpResult ops (selects mask e = true) False
  | .scheduleWakeup thread mask => ∀ info ∈ s.upcalls thread,
    s.reactor.suspendSet.IsSetAny info.handle ∨
      ∀ e ∈ [IoEvent.read, .write, .except], ¬ selects mask e = true
  | _ => True

theorem upcalls_setUpcall (s : TpSys) (t : Nat) (i : Option DispatchInfo) (t' : Nat) :
    (s.setUpcall t i).upcalls t' = if t' = t then i else s.upcalls t' := by
  exact update_apply _ _ _ _

theorem opResult_congr {p q q' : Prop} (hq : q ↔ q') : OpResult ops p q ↔ OpResult ops p q' := by
  cases ops <;> simp [OpResult, hq]

theorem own_bits (hi : Inv pipe s) (hu : s.upcalls t = some info)
    (hk : s.reactor.suspendSet.IsSetAny info.handle ∨ ∀ e, ¬ OpResult ops (selects mask e = true) False)
    (e : IoEvent) : ¬ (s.reactor.maskOps info.handle mask ops).1.waitSet.IsSet info.handle e ∧
    ((s.reactor.maskOps info.handle mask ops).1.suspendSet.IsSet info.handle e ↔
      OpResult ops (selects mask e = true) (info.requested e = true)) := by
  have hquiet := hi.quiet t info hu
  have hreq := hi.requested t info hu
  unfold maskOps
  by_cases hsusp : s.reactor.IsSuspendedI info.handle
  · rw [if_pos hsusp]
    obtain ⟨f, hf⟩ := (isSuspendedI_iff hi.tables).mp hsusp
    have hr := (hi.tables.owned .suspend info.handle f hf).1
    have hwait : ((s.reactor.bitOps info.handle mask .suspend ops).1.sets .wait).IsSet info.handle e ↔ _ :=
      isSet_bitOps hr .wait
    have hbits : ((s.reactor.bitOps info.handle mask .suspend ops).1.sets .suspend).IsSet info.handle e ↔
        _ := isSet_bitOps hr .suspend
    refine ⟨fun hs => hquiet e (hwait.mp hs), hbits.trans ?_⟩
    exact opResult_congr (hreq e)
  · rw [if_neg hsusp]
    have hnone : ∀ e, ¬ s.reactor.suspendSet.IsSet info.handle e := fun e he =>
      hsusp ((isSuspendedI_iff hi.tables).mpr ⟨e, he⟩)
    have hadds : ∀ e, ¬ OpResult ops (selects mask e = true) False :=
      hk.resolve_left fun h => by
        obtain ⟨f, hf⟩ := isSetAny_iff.mp h
        exact hnone f hf
    have hreq' : ¬ OpResult ops (selects mask e = true) (info.requested e = true) := fun h =>
      hadds e ((opResult_congr (by rw [← hreq e]; simp [hnone e])).mp h)
    by_cases hr : s.reactor.HandleInRange info.handle
    · have hwait : ((s.reactor.bitOps info.handle mask .wait ops).1.sets .wait).IsSet info.handle e ↔ _ :=
        isSet_bitOps hr .wait
      have hbits : ((s.reactor.bitOps info.handle mask .wait ops).1.sets .suspend).IsSet info.handle e ↔
          _ := isSet_bitOps hr .suspend
      refine ⟨fun hs => hadds e ?_, ⟨fun hs => absurd (hbits.mp hs) (hnone e), fun h => absurd h hreq'⟩⟩
      exact (opResult_congr (iff_false_intro (hquiet e))).mp (hwait.mp hs)
    · rw [bitOps_of_not_inRange hr]
      exact ⟨hquiet e, ⟨fun hs => absurd hs (hnone e), fun h => absurd h hreq'⟩⟩

instance : ∀ (s : TpSys) (l : TpStep), Decidable (s.KeepsSuspended l)
  | s, .maskOps thread mask ops => inferInstanceAs (Decidable (∀ info ∈ s.upcalls thread,
      s.reactor.suspendSet.IsSetAny info.handle ∨
        ∀ e ∈ [IoEvent.read, .write, .except], ¬ OpResult ops (selects mask e = true) False))
  | s, .scheduleWakeup thread mask => inferInstanceAs (Decidable (∀ info ∈ s.upcalls thread,
      s.reactor.suspendSet.IsSetAny info.handle ∨
        ∀ e ∈ [IoEvent.read, .write, .except], ¬ selects mask e = true))
  | _, .handleEvents _ _ | _, .cancelWakeup _ _ | _, .again _ | _, .finish _ _ => .isTrue trivial

theorem inv_request (hi : Inv pipe s) (hu : s.upcalls t = some info)
    (hk : s.reactor.suspendSet.IsSetAny info.handle ∨ ∀ e, ¬ OpResult ops (selects mask e = true) False) :
    Inv pipe (({ s with reactor := (s.reactor.maskOps info.handle mask ops).1 }).setUpcall t
      (some (info.request mask ops))) := by
  obtain ⟨hentry, hpipe⟩ := hi.entry t info hu
  have hb : BitsAt info.handle s.reactor (s.reactor.maskOps info.handle mask ops).1 := bitsAt_maskOps
  have hown := own_bits hi hu hk
  have hother : ∀ t' info', t' ≠ t → s.upcalls t' = some info' → info'.handle ≠ info.handle :=
    fun t' info' hne hu' he => hne (hi.exclusive t' t info' info hu' hu he)
  have hcases : ∀ t' info', (setUpcall { s with
      reactor := (s.reactor.maskOps info.handle mask ops).1 } t (some (info.request mask ops))).upcalls t' =
      some info' → (t' = t ∧ info' = info.request mask ops) ∨ (t' ≠ t ∧ s.upcalls t' = some info') := by
    intro t' info' hu'
    rw [upcalls_setUpcall] at hu'
    split at hu'
    · next he => exact .inl ⟨he, (some.inj hu').symm⟩
    · next he => exact .inr ⟨he, hu'⟩
  have hhandle : info.handle ≠ pipe.handle := fun he =>
    hpipe ((hi.pipeOnly.handler _ _ hentry).mpr he)
  refine ⟨hb.kind.trans hi.kind, tables_maskOps hi.tables (by rw [hentry]; simp), ?_, ?_, ⟨?_, ?_⟩, ?_, ?_, ?_,
    ?_, ?_⟩
  · intro h e hs
    have hready : (s.reactor.maskOps info.handle mask ops).1.readySet = s.reactor.readySet ∨ _ :=
      readySet_maskOps hi.kind
    rcases hready with hsame | hempty
    · change (s.reactor.maskOps info.handle mask ops).1.readySet.IsSet h e at hs
      rw [hsame] at hs
      have hw := hi.ready h e hs
      have hne : h ≠ info.handle := fun he => hi.quiet t info hu e (he ▸ hw)
      exact (hb.bits .wait h e hne).mpr hw
    · exact readyWaits_of_empty hempty h e hs
  · change ∀ h eh, (s.reactor.maskOps info.handle mask ops).1.eventHandlers h = some eh → _
    rw [hb.eventHandlers]
    exact hi.resumes
  · change ∀ h eh, (s.reactor.maskOps info.handle mask ops).1.eventHandlers h = some eh → _
    rw [hb.eventHandlers]
    exact hi.pipeOnly.handler
  · exact fun e hs => hi.pipeOnly.reads e ((hb.bits .wait _ e (Ne.symm hhandle)).mp hs)
  · intro t' info' hu'
    change (s.reactor.maskOps info.handle mask ops).1.eventHandlers info'.handle = _ ∧ _
    rw [hb.eventHandlers]
    rcases hcases t' info' hu' with ⟨_, rfl⟩ | ⟨_, hold⟩
    · exact ⟨hentry, hpipe⟩
    · exact hi.entry t' info' hold
  · intro t' info' hu' e
    rcases hcases t' info' hu' with ⟨_, rfl⟩ | ⟨hne, hold⟩
    · exact (hown e).1
    · exact fun hs => hi.quiet t' info' hold e ((hb.bits .wait _ e (hother t' info' hne hold)).mp hs)
  · intro t' info' hu' e
    rcases hcases t' info' hu' with ⟨_, rfl⟩ | ⟨hne, hold⟩
    · refine (hown e).2.trans ?_
      simp only [DispatchInfo.request, decide_eq_true_iff]
    · exact (hb.bits .suspend _ e (hother t' info' hne hold)).trans (hi.requested t' info' hold e)
  · intro t₁ t₂ i₁ i₂ h₁ h₂ he
    rcases hcases t₁ i₁ h₁ with ⟨rfl, rfl⟩ | ⟨hne₁, hold₁⟩ <;>
      rcases hcases t₂ i₂ h₂ with ⟨rfl, rfl⟩ | ⟨hne₂, hold₂⟩
    · rfl
    · exact absurd he.symm (hother t₂ i₂ hne₂ hold₂)
    · exact absurd he (hother t₁ i₁ hne₁ hold₁)
    · exact hi.exclusive t₁ t₂ i₁ i₂ hold₁ hold₂ he
  · intro h hidle e hs
    have hne : h ≠ info.handle := fun he => by
      have := hidle t (info.request mask ops) (by rw [upcalls_setUpcall, if_pos rfl])
      exact this he.symm
    refine hi.suspended h (fun t' info' hu' he => ?_) e ((hb.bits .suspend h e hne).mp hs)
    by_cases ht : t' = t
    · subst ht
      rw [hu] at hu'
      cases hu'
      exact hne he.symm
    · exact hidle t' info' (by rw [upcalls_setUpcall, if_neg ht]; exact hu') he

theorem inv_idle {ready : HandleSets} {changed : Bool} (hi : Inv pipe s) (hu : s.upcalls t = none)
    (hsub : ∀ h e, ready.IsSet h e → s.reactor.waitSet.IsSet h e) :
    Inv pipe (({ s with reactor := { s.reactor with readySet := ready, stateChanged := changed } }).setUpcall t
      none) := by
  have hsame : update s.upcalls t none = s.upcalls := update_eq_self_iff.mpr hu.symm
  unfold setUpcall
  rw [hsame]
  exact ⟨hi.kind, tables_pass hi.tables _ _, hsub, hi.resumes, ⟨hi.pipeOnly.handler, hi.pipeOnly.reads⟩,
    hi.entry, hi.quiet, hi.requested, hi.exclusive, hi.suspended⟩

theorem inv_pick {h : Int} {e : IoEvent} {eh : EventHandler} {r' : SelectReactor} (hi : Inv pipe s)
    (hu : s.upcalls t = none) (hw : s.reactor.waitSet.IsSet h e)
    (hentry : s.reactor.eventHandlers h = some eh) (hne : eh ≠ pipe.handler)
    (hp : Picked h s.reactor r') :
    Inv pipe (({ s with reactor := r' }).setUpcall t (some ⟨h, eh, e, s.reactor.waitedFor h⟩)) := by
  have hother : ∀ t' info', s.upcalls t' = some info' → info'.handle ≠ h := fun t' info' hu' he =>
    hi.quiet t' info' hu' e (he ▸ hw)
  have hcases : ∀ t' info', (setUpcall { s with reactor := r' } t
      (some ⟨h, eh, e, s.reactor.waitedFor h⟩)).upcalls t' = some info' →
      (t' = t ∧ info' = ⟨h, eh, e, s.reactor.waitedFor h⟩) ∨ (t' ≠ t ∧ s.upcalls t' = some info') := by
    intro t' info' hu'
    rw [upcalls_setUpcall] at hu'
    split at hu'
    · next he => exact .inl ⟨he, (some.inj hu').symm⟩
    · next he => exact .inr ⟨he, hu'⟩
  have hhandle : h ≠ pipe.handle := fun he => hne ((hi.pipeOnly.handler _ _ hentry).mpr he)
  refine ⟨hp.kind.trans hi.kind, hp.tables, readyWaits_of_empty hp.readySet, ?_, ⟨?_, ?_⟩, ?_, ?_, ?_, ?_, ?_⟩
  · change ∀ h eh, r'.eventHandlers h = some eh → _
    rw [hp.eventHandlers]
    exact hi.resumes
  · change ∀ h eh, r'.eventHandlers h = some eh → _
    rw [hp.eventHandlers]
    exact hi.pipeOnly.handler
  · exact fun e hs => hi.pipeOnly.reads e ((hp.bits .wait _ e (Ne.symm hhandle)).mp hs)
  · intro t' info' hu'
    change r'.eventHandlers info'.handle = _ ∧ _
    rw [hp.eventHandlers]
    rcases hcases t' info' hu' with ⟨_, rfl⟩ | ⟨_, hold⟩
    · exact ⟨hentry, hne⟩
    · exact hi.entry t' info' hold
  · intro t' info' hu' e'
    rcases hcases t' info' hu' with ⟨_, rfl⟩ | ⟨_, hold⟩
    · exact hp.waits e'
    · exact fun hs => hi.quiet t' info' hold e' ((hp.bits .wait _ e' (hother t' info' hold)).mp hs)
  · intro t' info' hu' e'
    rcases hcases t' info' hu' with ⟨_, rfl⟩ | ⟨_, hold⟩
    · refine (hp.suspended e').trans ?_
      simp only [waitedFor, decide_eq_true_iff]
      exact ⟨fun hs => hs.resolve_right (hi.tables.apart h e e' hw), .inl⟩
    · exact (hp.bits .suspend _ e' (hother t' info' hold)).trans (hi.requested t' info' hold e')
  · intro t₁ t₂ i₁ i₂ h₁ h₂ he
    rcases hcases t₁ i₁ h₁ with ⟨rfl, rfl⟩ | ⟨_, hold₁⟩ <;>
      rcases hcases t₂ i₂ h₂ with ⟨rfl, rfl⟩ | ⟨_, hold₂⟩
    · rfl
    · exact absurd he.symm (hother t₂ i₂ hold₂)
    · exact absurd he (hother t₁ i₁ hold₁)
    · exact hi.exclusive t₁ t₂ i₁ i₂ hold₁ hold₂ he
  · intro h' hidle e' hs
    have hh : h' ≠ h := fun he => by
      have := hidle t ⟨h, eh, e, s.reactor.waitedFor h⟩ (by rw [upcalls_setUpcall, if_pos rfl])
      exact this he.symm
    refine hi.suspended h' (fun t' info' hu' => ?_) e' ((hp.bits .suspend h' e' hh).mp hs)
    have ht : t' ≠ t := fun he => by
      subst he
      rw [hu] at hu'
      cases hu'
    exact hidle t' info' (by rw [upcalls_setUpcall, if_neg ht]; exact hu')

/-- The end of an upcall. -/
theorem inv_finish {r' : SelectReactor} (hi : Inv pipe s) (hu : s.upcalls t = some info)
    (hr : Resumed info s.reactor r') : Inv pipe (({ s with reactor := r' }).setUpcall t none) := by
  have hold : ∀ t' info', (setUpcall { s with reactor := r' } t none).upcalls t' = some info' →
      t' ≠ t ∧ s.upcalls t' = some info' := by
    intro t' info' hu'
    rw [upcalls_setUpcall] at hu'
    split at hu'
    · cases hu'
    · next he => exact ⟨he, hu'⟩
  have hother : ∀ t' info', (setUpcall { s with reactor := r' } t none).upcalls t' = some info' →
      info'.handle ≠ info.handle := fun t' info' hu' he =>
    (hold t' info' hu').1 (hi.exclusive t' t info' info (hold t' info' hu').2 hu he)
  obtain ⟨hentry, hpipe⟩ := hi.entry t info hu
  have hhandle : info.handle ≠ pipe.handle := fun he =>
    hpipe ((hi.pipeOnly.handler _ _ hentry).mpr he)
  refine ⟨hr.kind.trans hi.kind, hr.tables, hr.ready, fun h eh he => hi.resumes h eh (hr.entries h eh he),
    ⟨fun h eh he => hi.pipeOnly.handler h eh (hr.entries h eh he),
      fun e hs => hi.pipeOnly.reads e ((hr.bits .wait _ e (Ne.symm hhandle)).mp hs)⟩, ?_, ?_, ?_, ?_, ?_⟩
  · intro t' info' hu'
    change r'.eventHandlers info'.handle = _ ∧ _
    rw [hr.others _ (hother t' info' hu')]
    exact hi.entry t' info' (hold t' info' hu').2
  · intro t' info' hu' e hs
    exact hi.quiet t' info' (hold t' info' hu').2 e ((hr.bits .wait _ e (hother t' info' hu')).mp hs)
  · intro t' info' hu' e
    exact (hr.bits .suspend _ e (hother t' info' hu')).trans (hi.requested t' info' (hold t' info' hu').2 e)
  · intro t₁ t₂ i₁ i₂ h₁ h₂ he
    exact hi.exclusive t₁ t₂ i₁ i₂ (hold t₁ i₁ h₁).2 (hold t₂ i₂ h₂).2 he
  · intro h hidle e hs
    by_cases hh : h = info.handle
    · subst hh
      exact hr.suspended e hs
    · refine hi.suspended h (fun t' info' hu' he => ?_) e ((hr.bits .suspend h e hh).mp hs)
      by_cases ht : t' = t
      · subst ht
        rw [hu] at hu'
        cases hu'
        exact hh he.symm
      · exact hidle t' info' (by rw [upcalls_setUpcall, if_neg ht]; exact hu') he

theorem inv_step {l : TpStep} (hi : Inv pipe s) (hk : s.KeepsSuspended l)
    (hstep : step pipe s l = some s') : Inv pipe s' := by
  have hevents : ∀ {P : IoEvent → Prop}, (∀ e ∈ [IoEvent.read, .write, .except], P e) → ∀ e, P e :=
    fun h e => h e (by cases e <;> simp)
  have hresumed : ∀ {t info status}, s.upcalls t = some info →
      Resumed info s.reactor (s.reactor.postProcessSocketEvent pipe info status) := by
    intro t info status hu
    obtain ⟨hentry, hpipe⟩ := hi.entry t info hu
    exact postProcess_spec hi.kind hi.tables hi.ready hentry hpipe (hi.resumes _ _ hentry hpipe)
  have hreq : ∀ {t mask ops}, s.request t mask ops = some s' →
      (∀ info ∈ s.upcalls t, s.reactor.suspendSet.IsSetAny info.handle ∨
        ∀ e, ¬ OpResult ops (selects mask e = true) False) → Inv pipe s' := by
    intro t mask ops hs hk
    obtain ⟨info, hu, rfl⟩ := map_eq_some_iff.mp hs
    exact inv_request hi hu (hk info hu)
  cases l with
  | handleEvents t input =>
    simp only [step] at hstep
    split at hstep
    · next hcond =>
      cases hstep
      rcases dispatchI_spec hi.kind hi.tables hi.ready hi.pipeOnly hcond.2 with
        ⟨ready, changed, hrun, hsub⟩ | ⟨h, e, eh, r', hrun, hw, hentry, hne, hp⟩
      · rw [hrun]
        exact inv_idle hi hcond.1 hsub
      · rw [hrun]
        exact inv_pick hi hcond.1 hw hentry hne hp
    · cases hstep
  | maskOps t mask ops =>
    exact hreq hstep fun info hu => (hk info hu).imp_right hevents
  | scheduleWakeup t mask =>
    refine hreq hstep fun info hu => (hk info hu).imp_right fun h e hop => ?_
    exact hevents h e (hop.resolve_right id)
  | cancelWakeup t mask =>
    exact hreq hstep fun info hu => .inr fun e hop => hop.2
  | again t =>
    simp only [step] at hstep
    split at hstep
    · cases hstep
      exact hi
    · cases hstep
  | finish t status =>
    simp only [step] at hstep
    split at hstep
    · cases hstep
    · obtain ⟨info, hu, rfl⟩ := map_eq_some_iff.mp hstep
      exact inv_finish hi hu (hresumed hu)

/-- No two threads are in upcalls for one handle; and when an upcall returns 0, its handle
is not suspended any more and waits for the events last requested. -/
theorem exclusive_of_keeps (pipe : NotifyPipe) (s₀ s : TpSys) (steps : List TpStep) (hs : Start pipe s₀)
    (hkeeps : AllSteps (step pipe) KeepsSuspended s₀ steps) (hrun : run (step pipe) s₀ steps = some s) :
    (∀ t t' info info', s.upcalls t = some info → s.upcalls t' = some info' →
      info.handle = info'.handle → t = t') ∧
    ∀ t info s', s.upcalls t = some info → step pipe s (.finish t 0) = some s' →
      ∀ e, ¬ s'.reactor.suspendSet.IsSet info.handle e ∧
        (s'.reactor.waitSet.IsSet info.handle e ↔ info.requested e = true) := by
  have hi : Inv pipe s := run_inv_of (fun _ _ _ hi hk hstep => inv_step hi hk hstep) hs.inv hkeeps hrun
  refine ⟨hi.exclusive, fun t info s' hu hstep e => ?_⟩
  obtain ⟨hentry, hpipe⟩ := hi.entry t info hu
  have hres := hi.resumes _ _ hentry hpipe
  simp only [step, Int.lt_irrefl, if_false, hu, map_some] at hstep
  cases hstep
  refine ⟨(postProcess_spec hi.kind hi.tables hi.ready hentry hpipe hres).suspended e, ?_⟩
  refine (waits_postProcess hi.tables hentry hpipe hres).trans ?_
  rw [hi.requested t info hu e]
  exact ⟨fun h => h.resolve_left (hi.quiet t info hu e), .inr⟩

/-- The pipe at handle 0, and handles 1 and 2, all registered for reading. -/
def samplePipe : NotifyPipe := ⟨0, ⟨0, 0, false, false⟩⟩

def sampleStart : TpSys where
  reactor := (((opened .tp 8).bindAt 0 ⟨0, 0, false, false⟩ readMask).bindAt 1 ⟨1, 1, true, true⟩
    readMask).bindAt 2 ⟨2, 2, true, true⟩ readMask
  upcalls := fun _ => none

theorem start_sampleStart : Start samplePipe sampleStart := by
  have hpipe : ((opened .tp 8).bindAt 0 ⟨0, 0, false, false⟩ readMask).Tables :=
    tables_bindAt (tables_opened .tp 8) (by decide)
  have hone : (((opened .tp 8).bindAt 0 ⟨0, 0, false, false⟩ readMask).bindAt 1 ⟨1, 1, true, true⟩
      readMask).Tables := tables_bindAt hpipe (by decide)
  have htwo : sampleStart.reactor.Tables := by
    refine tables_bindAt hone (h := 2) ?_
    decide
  have hentries : sampleStart.reactor.eventHandlers =
      update (update (update (fun _ => none) 0 (some ⟨0, 0, false, false⟩)) 1
        (some ⟨1, 1, true, true⟩)) 2 (some ⟨2, 2, true, true⟩) := rfl
  have hcases : ∀ h eh, sampleStart.reactor.eventHandlers h = some eh →
      (h = 0 ∧ eh = ⟨0, 0, false, false⟩) ∨ (h = 1 ∧ eh = ⟨1, 1, true, true⟩) ∨
        (h = 2 ∧ eh = ⟨2, 2, true, true⟩) := by
    intro h eh he
    rw [hentries] at he
    simp only [update_apply] at he
    split at he
    · next hh => cases he; exact .inr (.inr ⟨hh, rfl⟩)
    · split at he
      · next hh => cases he; exact .inr (.inl ⟨hh, rfl⟩)
      · split at he
        · next hh => cases he; exact .inl ⟨hh, rfl⟩
        · cases he
  refine ⟨rfl, htwo, readyWaits_of_empty rfl, fun h eh he hne => ?_,
    ⟨fun h eh he => ?_, fun e => ?_⟩, fun h e hs => ?_, fun _ => rfl⟩
  · rcases hcases h eh he with ⟨_, rfl⟩ | ⟨_, rfl⟩ | ⟨_, rfl⟩
    · exact absurd rfl hne
    · rfl
    · rfl
  · rcases hcases h eh he with ⟨rfl, rfl⟩ | ⟨rfl, rfl⟩ | ⟨rfl, rfl⟩ <;> decide
  · cases e <;> decide
  · exact absurd hs not_isSet_empty

/-- Handle 1 is in an upcall of thread 0, that asks for writing instead of reading, and
handle 2 in one of thread 1. -/
def sampleSteps : List TpStep :=
  [.handleEvents 0 ⟨some ⟨{1, 2}, ∅, ∅⟩, false, false⟩, .scheduleWakeup 0 writeMask,
    .cancelWakeup 0 readMask, .handleEvents 1 ⟨some ⟨{2}, ∅, ∅⟩, false, false⟩]

theorem exclusive_of_keeps_sample : ∃ s s', run (step samplePipe) sampleStart sampleSteps = some s ∧
    (s.upcalls 1).isSome ∧ step samplePipe s (.finish 0 0) = some s' ∧
    ¬ s'.reactor.suspendSet.IsSet 1 .write ∧ s'.reactor.waitSet.IsSet 1 .write ∧
    ¬ s'.reactor.waitSet.IsSet 1 .read := by
  have hrun : ∃ s s' info, run (step samplePipe) sampleStart sampleSteps = some s ∧
      (s.upcalls 1).isSome ∧ step samplePipe s (.finish 0 0) = some s' ∧ s.upcalls 0 = some info ∧
      info.handle = 1 ∧ info.requested .write = true ∧ info.requested .read = false :=
    ⟨_, _, _, rfl, rfl, rfl, rfl, by decide, by decide, by decide⟩
  have hkeeps : AllSteps (step samplePipe) KeepsSuspended sampleStart sampleSteps := by decide
  obtain ⟨s, s', info, hs, hone, hstep, hu, hh, hw, hr⟩ := hrun
  obtain ⟨_, hfinish⟩ := exclusive_of_keeps samplePipe sampleStart s sampleSteps start_sampleStart hkeeps hs
  have hwrite := hfinish 0 info s' hu hstep .write
  have hread := hfinish 0 info s' hu hstep .read
  rw [hh] at hwrite hread
  exact ⟨s, s', hs, hone, hstep, hwrite.1, hwrite.2.mpr hw, fun hr' => by simp [hread.2.mp hr'] at hr⟩

/-- The upcall of thread 0 cancels all events of handle 1, and asks for reading again. -/
def reschedulingSteps : List TpStep :=
  [.handleEvents 0 ⟨some ⟨{1}, ∅, ∅⟩, false, false⟩, .cancelWakeup 0 readMask, .scheduleWakeup 0 readMask,
    .handleEvents 1 ⟨some ⟨{1}, ∅, ∅⟩, false, false⟩]

/-- Both threads are in an upcall for handle 1. -/
theorem rescheduled_handle_dispatched_twice : Start samplePipe sampleStart ∧
    ∃ s i₀ i₁, run (step samplePipe) sampleStart reschedulingSteps = some s ∧
      s.upcalls 0 = some i₀ ∧ s.upcalls 1 = some i₁ ∧ i₀.handle = 1 ∧ i₁.handle = 1 :=
  ⟨start_sampleStart, _, _, _, rfl, rfl, rfl, by decide, by decide⟩

end TpSys

end Atcd.Reactor
