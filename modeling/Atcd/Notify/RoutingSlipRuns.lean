import Atcd.Notify.RoutingSlip
/-!
# Every routing slip ends cleanly

A slip's state says where the slip is: in the hands of the queue, of the storage, of nobody, or
of a thread that ends it. `Place` lists the states with the tokens that there are for the slip
then: frames that are about it, its place in the queue, its callback, and what has been done.

Results:
- `Place.deliver`, `Place.atFront`, `Place.persistComplete`: where a signal takes a slip;
- `InvWith.exec`: what every frame keeps;
- `slips_end_cleanly`: no signal is unexpected, a slip ends once and after its deliveries,
  what was stored is removed before, and when nothing is under way nothing is left to end.
-/
namespace Atcd.Notify
open Atcd.Core List Option RoutingSlip Notify.System

variable {s : RoutingSlip} {i j r : Nat} {kind : Kind}

def RoutingSlip.pending (s : RoutingSlip) : Nat := s.delivery_requests.countP Option.isSome

/-- What there is for one slip. -/
@[ext]
structure Tokens where
  /-- Frames that add it to the queue, its place in the queue, frames that say it is in front. -/
  waiting : Nat := 0
  storing : Nat := 0
  updating : Nat := 0
  removing : Nat := 0
  called : Nat := 0
  ending : Nat := 0
  fading : Nat := 0
  stores : Nat := 0
  removes : Nat := 0
  entered : Nat := 0

/-- The states with their tokens. -/
inductive Place (s : RoutingSlip) : Tokens → Prop
  | transient (h : s.state = .rssTRANSIENT) (hp : 0 < s.pending) (hs : s.is_safe = true) :
    Place s {}
  | new (h : s.state = .rssNEW) (hp : 0 < s.pending) : Place s { waiting := 1 }
  | whileNew (h : s.state = .rssCOMPLETE_WHILE_NEW) (hp : s.pending = 0)
    (hs : s.is_safe = true) : Place s { waiting := 1 }
  | whileNewEnding (h : s.state = .rssCOMPLETE_WHILE_NEW) (hp : s.pending = 0)
    (hs : s.is_safe = true) : Place s { ending := 1 }
  | saving (h : s.state = .rssSAVING) (hp : 0 < s.pending) (hr : s.rspm = true) :
    Place s { storing := 1 }
  | savingCalled (h : s.state = .rssSAVING) (hp : 0 < s.pending) (hr : s.rspm = true) :
    Place s { called := 1, stores := 1 }
  | saved (h : s.state = .rssSAVED) (hp : 0 < s.pending) (hr : s.rspm = true) :
    Place s { stores := 1 }
  | updating (h : s.state = .rssUPDATING) (hp : 0 < s.pending) (hr : s.rspm = true) :
    Place s { updating := 1, stores := 1 }
  | updatingCalled (h : s.state = .rssUPDATING) (hp : 0 < s.pending) (hr : s.rspm = true) :
    Place s { called := 1, stores := 1 }
  | changedSaving (h : s.state = .rssCHANGED_WHILE_SAVING) (hr : s.rspm = true) :
    Place s { storing := 1 }
  | changedUpdating (h : s.state = .rssCHANGED_WHILE_SAVING) (hr : s.rspm = true) :
    Place s { updating := 1, stores := 1 }
  | changedCalled (h : s.state = .rssCHANGED_WHILE_SAVING) (hr : s.rspm = true) :
    Place s { called := 1, stores := 1 }
  | changed (h : s.state = .rssCHANGED) (hp : 0 < s.pending) (hr : s.rspm = true) :
    Place s { waiting := 1, stores := 1 }
  | complete (h : s.state = .rssCOMPLETE) (hp : s.pending = 0) (hr : s.rspm = true) :
    Place s { waiting := 1, stores := 1 }
  | deleting (h : s.state = .rssDELETING) (hp : s.pending = 0) :
    Place s { removing := 1, stores := 1 }
  | deletingCalled (h : s.state = .rssDELETING) (hp : s.pending = 0) :
    Place s { called := 1, stores := 1, removes := 1 }
  | terminal (h : s.state = .rssTERMINAL) (hp : s.pending = 0) : Place s { entered := 1 }
  | terminalRemoved (h : s.state = .rssTERMINAL) (hp : s.pending = 0) :
    Place s { stores := 1, removes := 1, entered := 1 }

def Counted (s : RoutingSlip) : Prop :=
  s.complete_requests + s.pending = s.delivery_requests.length

theorem Counted.all_iff (h : Counted s) : s.allDeliveriesComplete = true ↔ s.pending = 0 := by
  unfold allDeliveriesComplete
  unfold Counted at h
  rw [beq_iff_eq]
  omega

/-- The tokens with what a call on slip `i` adds. -/
def Tokens.plus (k : Tokens) (i : Nat) (out : Out) : Tokens where
  waiting := k.waiting + out.frames.count (.add i) + out.frames.count (.atFront i)
  storing := k.storing + out.frames.count (.persist i .store)
  updating := k.updating + out.frames.count (.persist i .update)
  removing := k.removing + out.frames.count (.persist i .remove)
  called := k.called
  ending := k.ending + out.frames.count (.terminal i)
  fading := k.fading + out.frames.count (.transient i)
  stores := k.stores
  removes := k.removes
  entered := k.entered + if out.terminal then 1 else 0

/-- A frame that uses the queue's slot of a slip. -/
def Frame.busy : Frame → Bool
  | .atFront _ | .complete | .persist _ _ => true
  | .add _ | .terminal _ | .transient _ => false

/-- A frame is about slip `i`, or about the queue alone. -/
def Frame.Of (i : Nat) : Frame → Prop
  | .add j | .atFront j | .persist j _ | .terminal j | .transient j => j = i
  | .complete => True

/-- What holds after a call on a slip that had the tokens `k`. -/
structure Called (i : Nat) (k : Tokens) (busy : Nat) (result : RoutingSlip × Out) : Prop where
  place : Place result.1 (k.plus i result.2)
  counted : Counted result.1
  expected : result.2.unexpected = false
  busy_eq : result.2.frames.countP Frame.busy = busy
  of : ∀ frame ∈ result.2.frames, frame.Of i

namespace Place

variable {k : Tokens}

theorem pending_set (hr : s.delivery_requests[r]? = some (some kind)) :
    (s.delivery_requests.set r none).countP isSome + 1 = s.pending := by
  obtain ⟨hlt, heq⟩ := List.getElem?_eq_some_iff.mp hr
  have hpos : 0 < s.pending := countP_pos_iff.mpr
    ⟨some kind, mem_of_getElem? hr, rfl⟩
  rw [countP_set hlt, heq]
  unfold pending at hpos ⊢
  simp
  omega

theorem pending_pos (hr : s.delivery_requests[r]? = some (some kind)) : 0 < s.pending := by
  have := pending_set hr
  omega

theorem enterStateChanged (hc : Counted s) (hr : s.rspm = true) (i : Nat) :
    Place (s.enterStateChanged i).1 { waiting := 1, stores := 1 } ∧
      Counted (s.enterStateChanged i).1 ∧ (s.enterStateChanged i).2 = { frames := [.add i] } := by
  have hall : ({ s with state := .rssCHANGED } : RoutingSlip).allDeliveriesComplete = true ↔
      s.pending = 0 := Counted.all_iff (s := { s with state := .rssCHANGED }) hc
  unfold RoutingSlip.enterStateChanged
  dsimp only
  split
  · next h => exact ⟨.complete rfl (hall.mp h) hr, hc, rfl⟩
  · next h => exact ⟨.changed rfl (Nat.pos_of_ne_zero fun h0 => h (hall.mpr h0)) hr, hc, rfl⟩

/-- **A delivery is complete.** -/
theorem deliver (h : Place s k) (hc : Counted s)
    (hr : s.delivery_requests[r]? = some (some kind)) (i : Nat) :
    Called i k 0 (s.deliveryRequestComplete i r) := by
  have hpos := pending_pos hr
  unfold deliveryRequestComplete
  generalize ht : ({ s with
    delivery_requests := s.delivery_requests.set r none
    complete_requests := s.complete_requests + 1 } : RoutingSlip) = t
  have hstate : t.state = s.state := by rw [← ht]
  have hsafe : t.is_safe = s.is_safe := by rw [← ht]
  have hrspm : t.rspm = s.rspm := by rw [← ht]
  have hct : Counted t := by
    have hset := pending_set hr
    unfold Counted at hc ⊢
    rw [← ht]
    unfold pending at *
    dsimp only
    rw [length_set]
    omega
  have hall := hct.all_iff
  have hleft : ¬t.allDeliveriesComplete = true → 0 < t.pending := fun hno =>
    Nat.pos_of_ne_zero fun h0 => hno (hall.mpr h0)
  dsimp only
  rw [hstate]
  cases h with
  | transient h hp hs =>
    rw [h]
    dsimp only [continueStateTransient]
    split
    · next hcomplete =>
      have hend : t.is_safe = true := hsafe.trans hs
      exact ⟨.terminal rfl (hall.mp hcomplete), hct, by simp [enterStateTerminal, hend],
        rfl, nofun⟩
    · next hmore =>
      exact ⟨.transient (hstate.trans h) (hleft hmore) (hsafe.trans hs), hct, rfl, rfl, nofun⟩
  | new h hp =>
    rw [h]
    dsimp only [continueStateNew]
    split
    · next hcomplete => exact ⟨.whileNew rfl (hall.mp hcomplete) rfl, hct, rfl, rfl, nofun⟩
    · next hmore => exact ⟨.new (hstate.trans h) (hleft hmore), hct, rfl, rfl, nofun⟩
  | whileNew h hp hs => omega
  | whileNewEnding h hp hs => omega
  | saving h hp hr =>
    rw [h]
    exact ⟨.changedSaving rfl (hrspm.trans hr), hct, rfl, rfl, nofun⟩
  | savingCalled h hp hr =>
    rw [h]
    exact ⟨.changedCalled rfl (hrspm.trans hr), hct, rfl, rfl, nofun⟩
  | saved h hp hr =>
    rw [h]
    obtain ⟨hplace, hcounted, hout⟩ := enterStateChanged hct (hrspm.trans hr) i
    refine ⟨?_, hcounted, ?_, ?_, ?_⟩
    · rw [hout]
      simpa [Tokens.plus] using hplace
    · rw [hout]
    · rw [hout]
      rfl
    · rw [hout]
      simp [Frame.Of]
  | updating h hp hr =>
    rw [h]
    exact ⟨.changedUpdating rfl (hrspm.trans hr), hct, rfl, rfl, nofun⟩
  | updatingCalled h hp hr =>
    rw [h]
    exact ⟨.changedCalled rfl (hrspm.trans hr), hct, rfl, rfl, nofun⟩
  | changedSaving h hr =>
    rw [h]
    exact ⟨.changedSaving (hstate.trans h) (hrspm.trans hr), hct, rfl, rfl, nofun⟩
  | changedUpdating h hr =>
    rw [h]
    exact ⟨.changedUpdating (hstate.trans h) (hrspm.trans hr), hct, rfl, rfl, nofun⟩
  | changedCalled h hr =>
    rw [h]
    exact ⟨.changedCalled (hstate.trans h) (hrspm.trans hr), hct, rfl, rfl, nofun⟩
  | changed h hp hr =>
    rw [h]
    dsimp only [continueStateChanged]
    split
    · next hcomplete =>
      exact ⟨.complete rfl (hall.mp hcomplete) (hrspm.trans hr), hct, rfl, rfl, nofun⟩
    · next hmore =>
      exact ⟨.changed (hstate.trans h) (hleft hmore) (hrspm.trans hr), hct, rfl, rfl, nofun⟩
  | complete h hp hr => omega
  | deleting h hp => omega
  | deletingCalled h hp => omega
  | terminal h hp => omega
  | terminalRemoved h hp => omega

/-- A lookup finds another proxy. -/
theorem dispatch (h : Place s k) (hc : Counted s)
    (hr : s.delivery_requests[r]? = some (some kind)) (i : Nat) (has_shutdown : Bool) :
    Called i k 0 (s.dispatch has_shutdown) := by
  have hpos := pending_pos hr
  have hexpected : (s.state == .rssCREATING) = false := by cases h <;> simp_all
  cases has_shutdown with
  | true => exact ⟨h, hc, hexpected, rfl, nofun⟩
  | false =>
    refine ⟨?_, ?_, hexpected, rfl, nofun⟩
    · have hmore : (s.dispatch false).1.pending = s.pending + 1 := by
        simp [RoutingSlip.dispatch, RoutingSlip.pending]
      have hmore_pos : 0 < (s.dispatch false).1.pending := by omega
      cases h with
      | transient h _ hs => exact .transient h hmore_pos hs
      | new h _ => exact .new h hmore_pos
      | saving h _ hr => exact .saving h hmore_pos hr
      | savingCalled h _ hr => exact .savingCalled h hmore_pos hr
      | saved h _ hr => exact .saved h hmore_pos hr
      | updating h _ hr => exact .updating h hmore_pos hr
      | updatingCalled h _ hr => exact .updatingCalled h hmore_pos hr
      | changedSaving h hr => exact .changedSaving h hr
      | changedUpdating h hr => exact .changedUpdating h hr
      | changedCalled h hr => exact .changedCalled h hr
      | changed h _ hr => exact .changed h hmore_pos hr
      | whileNew h hp hs => omega
      | whileNewEnding h hp hs => omega
      | complete h hp hr => omega
      | deleting h hp => omega
      | deletingCalled h hp => omega
      | terminal h hp => omega
      | terminalRemoved h hp => omega
    · unfold Counted at hc ⊢
      simp [RoutingSlip.dispatch, RoutingSlip.pending] at hc ⊢
      omega

/-- **The queue has come to the slip.** -/
theorem atFront (h : Place s k) (hc : Counted s) (hk : 0 < k.waiting) (i : Nat) :
    Called i { k with waiting := k.waiting - 1 } 1 (s.atFrontOfPersistQueue i true) := by
  unfold atFrontOfPersistQueue
  cases h with
  | new h hp =>
    rw [h]
    dsimp only [enterStateSaving]
    rw [Bool.not_true, Bool.and_false, if_neg Bool.false_ne_true]
    refine ⟨?_, hc, rfl, rfl, by simp [Frame.Of]⟩
    have hplace : Place { s with rspm := true, state := .rssSAVING } { storing := 1 } :=
      .saving rfl hp rfl
    simpa [Tokens.plus] using hplace
  | whileNew h hp hs =>
    rw [h]
    refine ⟨?_, hc, rfl, rfl, by simp [Frame.Of]⟩
    simpa [Tokens.plus] using Place.whileNewEnding h hp hs
  | changed h hp hr =>
    rw [h]
    refine ⟨?_, hc, by simp [enterStateUpdating, hr], rfl, ?_⟩
    · have hplace : Place { s with state := .rssUPDATING } { updating := 1, stores := 1 } :=
        .updating rfl hp hr
      simpa [Tokens.plus, enterStateUpdating] using hplace
    · simp [enterStateUpdating, Frame.Of]
  | complete h hp hr =>
    rw [h]
    refine ⟨?_, hc, by simp [enterStateDeleting, hr], rfl, ?_⟩
    · have hplace : Place { s with state := .rssDELETING } { removing := 1, stores := 1 } :=
        .deleting rfl hp
      simpa [Tokens.plus, enterStateDeleting] using hplace
    · simp [enterStateDeleting, Frame.Of]
  | _ => cases hk

/-- **The storage has done what it was asked.** -/
theorem persistComplete (h : Place s k) (hc : Counted s) (hk : 0 < k.called) (i : Nat) :
    Called i { k with called := k.called - 1 } 1 (s.persistComplete i) := by
  unfold RoutingSlip.persistComplete
  cases h with
  | savingCalled h hp hr =>
    rw [h]
    exact ⟨.saved rfl hp hr, hc, rfl, rfl, by simp [enterStateSaved, Frame.Of]⟩
  | updatingCalled h hp hr =>
    rw [h]
    exact ⟨.saved rfl hp hr, hc, rfl, rfl, by simp [enterStateSaved, Frame.Of]⟩
  | changedCalled h hr =>
    have hchanged := enterStateChanged (s := { s with is_safe := true }) hc hr i
    dsimp only
    rw [h]
    rw [h] at hchanged
    obtain ⟨hplace, hcounted, hout⟩ := hchanged
    refine ⟨?_, hcounted, ?_, ?_, ?_⟩
    · rw [hout]
      simpa [Tokens.plus] using hplace
    · rw [hout]
    · rw [hout]
      rfl
    · rw [hout]
      simp [Frame.Of]
  | deletingCalled h hp =>
    rw [h]
    exact ⟨.terminalRemoved rfl hp, hc, rfl, rfl, by simp [enterStateTerminal, Frame.Of]⟩
  | _ => cases hk

/-- A slip that was complete before it was saved ends. -/
theorem enterStateTerminal (h : Place s k) (hc : Counted s) (hk : 0 < k.ending) (i : Nat) :
    Called i { k with ending := k.ending - 1 } 0 s.enterStateTerminal := by
  cases h with
  | whileNewEnding h hp hs =>
    exact ⟨.terminal rfl hp, hc, by simp [enterStateTerminal, hs], rfl, nofun⟩
  | _ => cases hk

theorem store (h : Place s k) (hk : 0 < k.storing) : Place s { k with
      storing := k.storing - 1, called := k.called + 1, stores := k.stores + 1 } := by
  cases h with
  | saving h hp hr => exact .savingCalled h hp hr
  | changedSaving h hr => exact .changedCalled h hr
  | _ => cases hk

theorem update (h : Place s k) (hk : 0 < k.updating) :
    Place s { k with updating := k.updating - 1, called := k.called + 1 } := by
  cases h with
  | updating h hp hr => exact .updatingCalled h hp hr
  | changedUpdating h hr => exact .changedCalled h hr
  | _ => cases hk

theorem remove (h : Place s k) (hk : 0 < k.removing) : Place s { k with
      removing := k.removing - 1, called := k.called + 1, removes := k.removes + 1 } := by
  cases h with
  | deleting h hp => exact .deletingCalled h hp
  | _ => cases hk

/-- What the tokens of a slip say about its end. -/
theorem terminal_iff (h : Place s k) :
    (s.state = .rssTERMINAL ↔ 0 < k.entered) ∧ k.entered ≤ 1 ∧
      (s.state = .rssTERMINAL → s.pending = 0 ∧ k.removes = k.stores) ∧ k.stores ≤ 1 := by
  cases h <;> simp_all

/-- A slip that is complete and that nothing is under way for has ended. -/
theorem ended (h : Place s k) (hp : s.pending = 0) (hwaiting : k.waiting = 0)
    (hstoring : k.storing = 0) (hupdating : k.updating = 0) (hremoving : k.removing = 0)
    (hcalled : k.called = 0) (hending : k.ending = 0) : s.state = .rssTERMINAL := by
  cases h <;> simp_all

theorem fading_eq_zero (h : Place s k) : k.fading = 0 := by cases h <;> rfl

theorem route (reliable_channel strategy : Bool) (reliable : Option Bool) (i : Nat) :
    Called i {} 0 (RoutingSlip.new.route i reliable_channel strategy reliable) := by
  have hnew : ∀ state safe, Counted ⟨state, [some .lookup], 0, safe, false⟩ := fun _ _ => rfl
  have htransient : Called i {} 0 (({ RoutingSlip.new with
      delivery_requests := [some .lookup] } : RoutingSlip).enterStateTransient) :=
    ⟨.transient rfl Nat.one_pos rfl, hnew _ _, rfl, rfl, nofun⟩
  have hreliable : Called i {} 0 (({ RoutingSlip.new with
      delivery_requests := [some .lookup] } : RoutingSlip).enterStateNew i) := by
    refine ⟨?_, hnew _ _, rfl, rfl, ?_⟩
    · have hplace : Place ⟨.rssNEW, [some .lookup], 0, false, false⟩ { waiting := 1 } :=
        .new rfl Nat.one_pos
      simpa [Tokens.plus, RoutingSlip.enterStateNew, RoutingSlip.addToPersistQueue,
        RoutingSlip.new] using hplace
    · simp [RoutingSlip.enterStateNew, RoutingSlip.addToPersistQueue, Frame.Of]
  unfold RoutingSlip.route
  rw [if_pos (show RoutingSlip.new.state = .rssCREATING from rfl)]
  split
  · exact htransient
  · split
    · exact hreliable
    · exact htransient

theorem reconnect {requests : List Kind} (h : requests ≠ []) :
    Place (.reconnect requests) { stores := 1 } ∧ Counted (.reconnect requests) := by
  have hcount : (requests.map some).countP isSome = requests.length := by
    rw [countP_map]
    exact countP_eq_length.mpr fun _ _ => rfl
  refine ⟨.saved rfl ?_ rfl, ?_⟩
  · show 0 < (requests.map some).countP isSome
    rw [hcount]
    exact length_pos_iff.mpr h
  · show 0 + _ = _
    rw [Nat.zero_add]
    exact hcount.trans (length_map _).symm

end Place

/-! ## The system -/

variable {σ σ' : System} {F G fs : List Frame} {allowed : Nat}
  {call : RoutingSlip → RoutingSlip × Out}

/-- The tokens of slip `i`, with the frames of all threads. -/
def tokens (σ : System) (frames : List Frame) (i : Nat) : Tokens where
  waiting := σ.queue.count i + frames.count (.add i) + frames.count (.atFront i)
  storing := frames.count (.persist i .store)
  updating := frames.count (.persist i .update)
  removing := frames.count (.persist i .remove)
  called := σ.callbacks.count i
  ending := frames.count (.terminal i)
  fading := frames.count (.transient i)
  stores := σ.log.count (i, .store)
  removes := σ.log.count (i, .remove)
  entered := σ.terminals.count i

/-- Every slip is in a place, the queue's slots are in use, and none is free while a slip
waits. -/
structure InvWith (allowed : Nat) (σ : System) (frames : List Frame) : Prop where
  slip : ∀ i s, σ.slips[i]? = some s → Place s (tokens σ frames i) ∧ Counted s
  absent : ∀ i, σ.slips[i]? = none → tokens σ frames i = {}
  active : σ.active = frames.countP Frame.busy + σ.callbacks.length
  full : σ.queue ≠ [] → 0 < allowed ∧ allowed ≤ σ.active
  expected : σ.unexpected = false

theorem tokens_perm (h : F.Perm G) (i : Nat) : tokens σ F i = tokens σ G i := by
  simp only [tokens, h.count_eq]

theorem tokens_append (out : Out) (i : Nat) :
    tokens (σ.note i out) (out.frames ++ G) i = (tokens σ G i).plus i out := by
  ext <;> simp only [tokens, Tokens.plus, note, count_append]
  case waiting => omega
  case entered => split <;> simp
  all_goals omega

theorem tokens_other (fs : List Frame) (hfs : ∀ frame ∈ fs, frame.Of i) (hij : j ≠ i) :
    tokens σ (fs ++ G) j = tokens σ G j := by
  have hzero : ∀ frame : Frame, ¬frame.Of i → fs.count frame = 0 := fun frame hno =>
    count_eq_zero.mpr fun hmem => hno (hfs frame hmem)
  simp only [tokens, count_append, hzero (.add j) hij, hzero (.atFront j) hij,
    hzero (.persist j .store) hij, hzero (.persist j .update) hij, hzero (.persist j .remove) hij,
    hzero (.terminal j) hij, hzero (.transient j) hij, Nat.zero_add]

namespace InvWith

theorem perm (h : InvWith allowed σ F) (hp : F.Perm G) : InvWith allowed σ G := by
  refine ⟨fun i s hs => tokens_perm hp i ▸ h.slip i s hs,
    fun i hi => tokens_perm hp i ▸ h.absent i hi, ?_, h.full, h.expected⟩
  rw [← hp.countP_eq]
  exact h.active

theorem present (h : InvWith allowed σ F) (hi : tokens σ F i ≠ {}) : ∃ s, σ.slips[i]? = some s := by
  cases hs : σ.slips[i]? with
  | none => exact absurd (h.absent i hs) hi
  | some s => exact ⟨s, rfl⟩

/-- **A call on a slip**, by a thread whose frame or callback it has used up. -/
theorem onSlip {busy : Nat} (h : InvWith allowed σ F) (callbacks : List Nat)
    (hs : σ.slips[i]? = some s)
    (hother : ∀ j ≠ i, tokens { σ with callbacks := callbacks } G j = tokens σ F j)
    (hbusy : G.countP Frame.busy + callbacks.length + busy =
      F.countP Frame.busy + σ.callbacks.length)
    (hcalled : Called i (tokens { σ with callbacks := callbacks } G i) busy (call s))
    (hcall : { σ with callbacks := callbacks }.onSlip i call = some (σ', fs)) :
    InvWith allowed σ' (fs ++ G) ∧ σ'.threads = σ.threads := by
  unfold System.onSlip at hcall
  rw [hs] at hcall
  cases hcall
  obtain ⟨hlt, -⟩ := List.getElem?_eq_some_iff.mp hs
  have hnote : ∀ j ≠ i, tokens ({ σ with
      callbacks := callbacks, slips := σ.slips.set i (call s).1 }.note i (call s).2)
        ((call s).2.frames ++ G) j = tokens σ F j := by
    intro j hj
    rw [tokens_other _ hcalled.of hj, ← hother j hj]
    simp only [tokens, note]
    split
    · rw [count_cons_of_ne (Ne.symm hj)]
    · rfl
  refine ⟨⟨fun j t ht => ?_, fun j hj => ?_, ?_, h.full, ?_⟩, rfl⟩
  · by_cases hji : j = i
    · subst hji
      have hset : (σ.slips.set j (call s).1)[j]? = some (call s).1 := getElem?_set_self hlt
      cases hset.symm.trans ht
      refine ⟨?_, hcalled.counted⟩
      have heq := tokens_append (σ := { σ with callbacks := callbacks }) (G := G) (call s).2 j
      exact heq ▸ hcalled.place
    · have hset : (σ.slips.set i (call s).1)[j]? = some t := ht
      rw [getElem?_set_ne (Ne.symm hji)] at hset
      rw [hnote j hji]
      exact h.slip j t hset
  · have hji : j ≠ i := by
      rintro rfl
      have hset : (σ.slips.set j (call s).1)[j]? = none := hj
      rw [getElem?_set_self hlt] at hset
      cases hset
    have hset : (σ.slips.set i (call s).1)[j]? = none := hj
    rw [getElem?_set_ne (Ne.symm hji)] at hset
    rw [hnote j hji]
    exact h.absent j hset
  · rw [countP_append, hcalled.busy_eq]
    show σ.active = _ + callbacks.length
    rw [h.active]
    omega
  · show (σ.unexpected || (call s).2.unexpected) = false
    rw [h.expected, hcalled.expected]
    rfl

/-- **The queue sends one slip on** if it has a slot. -/
theorem queueDispatch (hslip : ∀ i s, σ.slips[i]? = some s → Place s (tokens σ G i) ∧ Counted s)
    (habsent : ∀ i, σ.slips[i]? = none → tokens σ G i = {})
    (hactive : σ.active = G.countP Frame.busy + σ.callbacks.length)
    (hallowed : σ.queue ≠ [] → 0 < allowed)
    (hfull : σ.queue.tail ≠ [] → allowed ≤ σ.active + 1) (hexpected : σ.unexpected = false) :
    InvWith allowed (σ.queueDispatch allowed).1 ((σ.queueDispatch allowed).2 ++ G) := by
  unfold System.queueDispatch
  split
  · cases hq : σ.queue with
    | nil => exact ⟨hslip, habsent, hactive, fun hne => absurd hq hne, hexpected⟩
    | cons i queue =>
      have htokens : ∀ j, tokens { σ with queue := queue, active := σ.active + 1 }
          ([.atFront i] ++ G) j = tokens σ G j := by
        intro j
        ext <;> simp [tokens, hq, count_cons]
        omega
      refine ⟨fun j s hs => htokens j ▸ hslip j s hs, fun j hj => htokens j ▸ habsent j hj, ?_,
        fun hne => ⟨hallowed (hq ▸ cons_ne_nil i queue), ?_⟩, hexpected⟩
      · show σ.active + 1 = _
        rw [hactive, singleton_append, countP_cons_of_pos rfl]
        exact Nat.add_right_comm ..
      · rw [hq] at hfull
        exact hfull hne
  · next hno =>
    exact ⟨hslip, habsent, hactive, fun hne => ⟨hallowed hne, Nat.not_lt.mp hno⟩, hexpected⟩

theorem queueAdd (h : InvWith allowed σ (.add i :: G)) :
    InvWith allowed (σ.queueAdd allowed i).1 ((σ.queueAdd allowed i).2 ++ G) := by
  have hactive : σ.active = G.countP Frame.busy + σ.callbacks.length := h.active
  unfold System.queueAdd
  split
  · next hzero =>
    have htokens : ∀ j, tokens { σ with active := σ.active + 1 } ([.atFront i] ++ G) j =
        tokens σ (.add i :: G) j := by
      intro j
      ext <;> simp [tokens, count_cons]
      omega
    refine ⟨fun j s hs => htokens j ▸ h.slip j s hs, fun j hj => htokens j ▸ h.absent j hj, ?_,
      fun hne => ?_, h.expected⟩
    · show σ.active + 1 = _
      rw [hactive, singleton_append, countP_cons_of_pos rfl]
      exact Nat.add_right_comm ..
    · exact absurd hzero (Nat.ne_of_gt (h.full hne).1)
  · next hzero =>
    have htokens : ∀ j, tokens { σ with queue := σ.queue ++ [i] } G j =
        tokens σ (.add i :: G) j := by
      intro j
      ext <;> simp [tokens, count_cons]
      omega
    refine queueDispatch (fun j s hs => htokens j ▸ h.slip j s hs)
      (fun j hj => htokens j ▸ h.absent j hj) hactive (fun _ => Nat.pos_of_ne_zero hzero)
      (fun htail => ?_) h.expected
    have hne : σ.queue ≠ [] := by
      intro hq
      rw [hq] at htail
      exact htail rfl
    exact Nat.le_succ_of_le (h.full hne).2

theorem queueComplete (h : InvWith allowed σ (.complete :: G)) :
    InvWith allowed (σ.queueComplete allowed).1 ((σ.queueComplete allowed).2 ++ G) := by
  have hactive := h.active
  rw [countP_cons_of_pos rfl] at hactive
  have htokens : ∀ j, tokens { σ with
      active := σ.active - 1, unexpected := σ.unexpected || σ.active == 0 } G j =
        tokens σ (.complete :: G) j := by
    intro j
    ext <;> simp [tokens]
  refine queueDispatch (fun j s hs => htokens j ▸ h.slip j s hs)
    (fun j hj => htokens j ▸ h.absent j hj) ?_ (fun hne => (h.full hne).1) (fun htail => ?_) ?_
  · show σ.active - 1 = _
    dsimp only
    omega
  · have hne : σ.queue ≠ [] := by
      intro hq
      rw [hq] at htail
      exact htail rfl
    have hle := (h.full hne).2
    show allowed ≤ σ.active - 1 + 1
    omega
  · show (σ.unexpected || σ.active == 0) = false
    rw [h.expected, Bool.false_or, beq_eq_false_iff_ne]
    omega

/-- The frame of a slip is used up. -/
theorem tokens_cons_other {frame : Frame} (hframe : frame.Of i) (hij : j ≠ i) :
    tokens σ G j = tokens σ (frame :: G) j :=
  (tokens_other [frame] (fun _ hf => mem_singleton.mp hf ▸ hframe) hij).symm

theorem onFrame {frame : Frame} {busy : Nat} (h : InvWith allowed σ (frame :: G))
    (hframe : frame.Of i) (hbusy : [frame].countP Frame.busy = busy)
    (hcalled : ∀ s, σ.slips[i]? = some s → Place s (tokens σ (frame :: G) i) → Counted s →
      Called i (tokens σ G i) busy (call s))
    (hcall : σ.onSlip i call = some (σ', fs)) : InvWith allowed σ' (fs ++ G) := by
  cases hs : σ.slips[i]? with
  | none =>
    unfold System.onSlip at hcall
    rw [hs] at hcall
    cases hcall
  | some s =>
    obtain ⟨hplace, hcounted⟩ := h.slip i s hs
    refine (h.onSlip σ.callbacks hs (fun j hj => tokens_cons_other hframe hj) ?_
      (hcalled s hs hplace hcounted) hcall).1
    rw [← singleton_append, countP_append, hbusy]
    omega

/-- **Every frame** keeps the invariant. -/
theorem exec {frame : Frame} (h : InvWith allowed σ (frame :: G))
    (hexec : σ.exec allowed true frame = some (σ', fs)) : InvWith allowed σ' (fs ++ G) := by
  cases frame with
  | add i =>
    have heq : σ.queueAdd allowed i = (σ', fs) := some.inj hexec
    have hadd := h.queueAdd
    rwa [heq] at hadd
  | complete =>
    have heq : σ.queueComplete allowed = (σ', fs) := some.inj hexec
    have hcomplete := h.queueComplete
    rwa [heq] at hcomplete
  | atFront i =>
    refine h.onFrame rfl rfl (fun s _ hplace hcounted => ?_) hexec
    have hcalled := hplace.atFront hcounted (Nat.pos_of_ne_zero (by simp [tokens])) i
    have htokens : { tokens σ (.atFront i :: G) i with
        waiting := (tokens σ (.atFront i :: G) i).waiting - 1 } = tokens σ G i := by
      ext <;> simp [tokens]
    exact htokens ▸ hcalled
  | terminal i =>
    refine h.onFrame rfl rfl (fun s _ hplace hcounted => ?_) hexec
    have hcalled := hplace.enterStateTerminal hcounted (by simp [tokens]) i
    have htokens : { tokens σ (.terminal i :: G) i with
        ending := (tokens σ (.terminal i :: G) i).ending - 1 } = tokens σ G i := by
      ext <;> simp [tokens]
    exact htokens ▸ hcalled
  | transient i =>
    refine h.onFrame rfl rfl (fun s _ hplace _ => ?_) hexec
    have hzero := hplace.fading_eq_zero
    simp [tokens] at hzero
  | persist i op =>
    cases hexec
    obtain ⟨s, hs⟩ := h.present (i := i) fun hzero => by
      cases op <;> simp [tokens] at hzero
    obtain ⟨hplace, hcounted⟩ := h.slip i s hs
    have hother : ∀ j ≠ i, tokens { σ with
        callbacks := i :: σ.callbacks, log := (i, op) :: σ.log } G j =
          tokens σ (.persist i op :: G) j := by
      intro j hj
      ext <;> simp [tokens, Ne.symm hj]
    have hself : Place s (tokens { σ with
        callbacks := i :: σ.callbacks, log := (i, op) :: σ.log } G i) := by
      cases op with
      | store =>
        have hstore := hplace.store (by simp [tokens])
        simpa [tokens] using hstore
      | update =>
        have hupdate := hplace.update (by simp [tokens])
        simpa [tokens] using hupdate
      | remove =>
        have hremove := hplace.remove (by simp [tokens])
        simpa [tokens] using hremove
    refine ⟨fun j t ht => ?_, fun j hj => ?_, ?_, h.full, h.expected⟩
    · by_cases hji : j = i
      · subst hji
        cases hs.symm.trans ht
        exact ⟨hself, hcounted⟩
      · exact hother j hji ▸ h.slip j t ht
    · have hji : j ≠ i := by
        rintro rfl
        cases hs.symm.trans hj
      exact hother j hji ▸ h.absent j hj
    · have hactive := h.active
      rw [countP_cons_of_pos rfl] at hactive
      show σ.active = G.countP Frame.busy + (σ.callbacks.length + 1)
      omega

theorem queueDispatch_threads (σ : System) (allowed : Nat) :
    (σ.queueDispatch allowed).1.threads = σ.threads := by
  unfold System.queueDispatch
  split
  · split <;> rfl
  · rfl

theorem exec_threads {frame : Frame} {created : Bool}
    (hexec : σ.exec allowed created frame = some (σ', fs)) : σ'.threads = σ.threads := by
  have honSlip : ∀ {i : Nat} {call : RoutingSlip → RoutingSlip × Out},
      σ.onSlip i call = some (σ', fs) → σ'.threads = σ.threads := by
    intro i call hcall
    obtain ⟨s, -, heq⟩ := map_eq_some_iff.mp hcall
    cases heq
    rfl
  cases frame with
  | add i =>
    have heq : (σ.queueAdd allowed i).1 = σ' := congrArg Prod.fst (some.inj hexec)
    rw [← heq]
    unfold System.queueAdd
    split
    · rfl
    · exact queueDispatch_threads ..
  | complete =>
    have heq : (σ.queueComplete allowed).1 = σ' := congrArg Prod.fst (some.inj hexec)
    rw [← heq]
    exact queueDispatch_threads ..
  | atFront i => exact honSlip hexec
  | terminal i => exact honSlip hexec
  | transient i => exact honSlip hexec
  | persist i op =>
    cases hexec
    rfl

end InvWith

def Inv (allowed : Nat) (σ : System) : Prop := InvWith allowed σ σ.threads.flatten

theorem flatten_set {threads : List (List Frame)} {t : Nat} {frame : Frame} {rest : List Frame}
    (h : threads[t]? = some (frame :: rest)) :
    ∃ others, threads.flatten.Perm (frame :: others) ∧
      ∀ fs, (threads.set t (fs ++ rest)).flatten.Perm (fs ++ others) := by
  obtain ⟨hlt, heq⟩ := List.getElem?_eq_some_iff.mp h
  have hsplit : threads = threads.take t ++ (frame :: rest) :: threads.drop (t + 1) := by
    rw [← heq, getElem_cons_drop, take_append_drop]
  refine ⟨rest ++ ((threads.take t).flatten ++ (threads.drop (t + 1)).flatten), ?_, fun fs => ?_⟩
  · have hflat := congrArg flatten hsplit
    rw [flatten_append, flatten_cons] at hflat
    rw [hflat]
    exact perm_append_comm_assoc ..
  · rw [set_eq_take_append_cons_drop, if_pos hlt, flatten_append, flatten_cons,
      ← append_assoc fs]
    exact perm_append_comm_assoc ..

/-- A slip's call by a new thread. -/
theorem Inv.spawn (h : InvWith allowed σ' (fs ++ σ.threads.flatten))
    (hthreads : σ'.threads = σ.threads) : Inv allowed (σ'.spawn fs) := by
  have hflat : (σ'.threads ++ [fs]).flatten = σ.threads.flatten ++ fs := by
    rw [hthreads, flatten_append, flatten_singleton]
  have hperm := h.perm perm_append_comm
  show InvWith allowed (σ'.spawn fs) (σ'.threads ++ [fs]).flatten
  rw [hflat]
  exact ⟨hperm.slip, hperm.absent, hperm.active, hperm.full, hperm.expected⟩

theorem inv_call (h : Inv allowed σ)
    (hcalled : ∀ s, σ.slips[i]? = some s → Place s (tokens σ σ.threads.flatten i) → Counted s →
      Called i (tokens σ σ.threads.flatten i) 0 (call s))
    (hcall : (σ.onSlip i call).map (fun x => x.1.spawn x.2) = some σ') : Inv allowed σ' := by
  obtain ⟨⟨τ, fs⟩, hτ, rfl⟩ := map_eq_some_iff.mp hcall
  obtain ⟨s, hs, -⟩ := map_eq_some_iff.mp hτ
  obtain ⟨hplace, hcounted⟩ := h.slip i s hs
  obtain ⟨hinv, hthreads⟩ := InvWith.onSlip h σ.callbacks hs (fun _ _ => rfl) rfl
    (hcalled s hs hplace hcounted) hτ
  exact Inv.spawn hinv hthreads

theorem inv_newSlip {log : List (Nat × Op)} (h : Inv allowed σ) (out : Out)
    (hother : ∀ j ≠ σ.slips.length, tokens { σ with log := log } σ.threads.flatten j =
      tokens σ σ.threads.flatten j) (hcalled : Called σ.slips.length
      (tokens { σ with log := log } σ.threads.flatten σ.slips.length) 0 (s, out)) :
    InvWith allowed ({ σ with slips := σ.slips ++ [s], log := log }.note σ.slips.length out)
      (out.frames ++ σ.threads.flatten) := by
  have hnote : ∀ j ≠ σ.slips.length, tokens ({ σ with
      slips := σ.slips ++ [s], log := log }.note σ.slips.length out)
        (out.frames ++ σ.threads.flatten) j = tokens σ σ.threads.flatten j := by
    intro j hj
    rw [tokens_other _ hcalled.of hj, ← hother j hj]
    simp only [tokens, note]
    split
    · rw [count_cons_of_ne (Ne.symm hj)]
    · rfl
  refine ⟨fun j t ht => ?_, fun j hj => ?_, ?_, h.full, ?_⟩
  · have hget : (σ.slips ++ [s])[j]? = some t := ht
    rcases Nat.lt_trichotomy j σ.slips.length with hlt | rfl | hgt
    · rw [getElem?_append_left hlt] at hget
      rw [hnote j (Nat.ne_of_lt hlt)]
      exact h.slip j t hget
    · rw [getElem?_concat_length] at hget
      cases hget
      have heq := tokens_append (σ := { σ with log := log }) (G := σ.threads.flatten) out
        σ.slips.length
      exact ⟨heq ▸ hcalled.place, hcalled.counted⟩
    · rw [getElem?_eq_none (by simp; omega)] at hget
      cases hget
  · have hget : (σ.slips ++ [s])[j]? = none := hj
    have hle : σ.slips.length + 1 ≤ j := by simpa using hget
    rw [hnote j (by omega)]
    exact h.absent j (getElem?_eq_none (by omega))
  · rw [countP_append, hcalled.busy_eq, Nat.zero_add]
    exact h.active
  · show (σ.unexpected || out.unexpected) = false
    rw [h.expected, hcalled.expected]
    rfl

/-- The persistence strategy works: it makes the managers that it is asked for. -/
def Label.Works : Label → Prop
  | .resume _ created => created = true
  | _ => True

theorem requested_iff {p : Kind → Bool} (h : σ.requested i r p = true) {s : RoutingSlip}
    (hs : σ.slips[i]? = some s) : ∃ kind, s.delivery_requests[r]? = some (some kind) := by
  unfold requested at h
  rw [hs, any_some] at h
  obtain ⟨request, hrequest, hany⟩ := (any_eq_true _ _).mp h
  obtain ⟨kind, rfl, -⟩ := (any_eq_true _ _).mp hany
  exact ⟨kind, hrequest⟩

/-- **Step lemma.** -/
theorem step_inv {label : Label} (h : Inv allowed σ) (hworks : label.Works)
    (hstep : System.step allowed σ label = some σ') : Inv allowed σ' := by
  cases label with
  | route reliable_channel strategy reliable =>
    cases hstep
    refine Inv.spawn (σ := σ) (inv_newSlip h _ (fun _ _ => rfl) ?_) rfl
    have hnone : tokens σ σ.threads.flatten σ.slips.length = {} :=
      h.absent _ (getElem?_eq_none (Nat.le_refl _))
    exact hnone ▸ Place.route reliable_channel strategy reliable σ.slips.length
  | reconnect requests =>
    simp only [step] at hstep
    split at hstep
    · cases hstep
    · next hne =>
      cases hstep
      obtain ⟨hplace, hcounted⟩ := Place.reconnect hne
      have hnone : tokens σ σ.threads.flatten σ.slips.length = {} :=
        h.absent _ (getElem?_eq_none (Nat.le_refl _))
      have htokens : tokens { σ with log := (σ.slips.length, .store) :: σ.log } σ.threads.flatten
          σ.slips.length = { stores := 1 } := by
        have hlog : tokens { σ with log := (σ.slips.length, .store) :: σ.log }
            σ.threads.flatten σ.slips.length =
              { tokens σ σ.threads.flatten σ.slips.length with
                stores := (tokens σ σ.threads.flatten σ.slips.length).stores + 1 } := by
          ext <;> simp [tokens]
        rw [hlog, hnone]
      have hinv := inv_newSlip h {} (fun j hj => ?_) (s := .reconnect requests)
        ⟨htokens ▸ hplace, hcounted, rfl, rfl, nofun⟩
      · exact ⟨hinv.slip, hinv.absent, hinv.active, hinv.full, h.expected⟩
      · ext <;> simp [tokens, Ne.symm hj]
  | dispatch i request_id has_shutdown =>
    simp only [step] at hstep
    split at hstep
    · next hreq =>
      refine inv_call h (fun s hs hplace hcounted => ?_) hstep
      obtain ⟨kind, hkind⟩ := requested_iff hreq hs
      exact hplace.dispatch hcounted hkind i has_shutdown
    · cases hstep
  | deliveryRequestComplete i request_id =>
    simp only [step] at hstep
    split at hstep
    · next hreq =>
      refine inv_call h (fun s hs hplace hcounted => ?_) hstep
      obtain ⟨kind, hkind⟩ := requested_iff hreq hs
      exact hplace.deliver hcounted hkind i
    · cases hstep
  | persistComplete i =>
    simp only [step] at hstep
    split at hstep
    · next hmem =>
      obtain ⟨⟨τ, fs⟩, hτ, rfl⟩ := map_eq_some_iff.mp hstep
      obtain ⟨s, hs, -⟩ := map_eq_some_iff.mp hτ
      obtain ⟨hplace, hcounted⟩ := h.slip i s hs
      have hcalled := hplace.persistComplete hcounted (count_pos_iff.mpr hmem) i
      have htokens : { tokens σ σ.threads.flatten i with
          called := (tokens σ σ.threads.flatten i).called - 1 } =
            tokens { σ with callbacks := σ.callbacks.erase i } σ.threads.flatten i := by
        ext <;> simp [tokens, count_erase_self]
      rw [htokens] at hcalled
      have hother : ∀ j ≠ i, tokens { σ with callbacks := σ.callbacks.erase i }
          σ.threads.flatten j = tokens σ σ.threads.flatten j := by
        intro j hj
        have hcount : (σ.callbacks.erase i).count j = σ.callbacks.count j :=
          count_erase_of_ne hj
        simp only [tokens, hcount]
      have hlength : (σ.callbacks.erase i).length + 1 = σ.callbacks.length := by
        have hpos := length_pos_of_mem hmem
        rw [length_erase_of_mem hmem]
        omega
      obtain ⟨hinv, hthreads⟩ := InvWith.onSlip h _ hs hother (by omega) hcalled hτ
      exact Inv.spawn hinv hthreads
    · cases hstep
  | resume t created =>
    cases hworks
    simp only [step] at hstep
    split at hstep
    · next frame rest hthread =>
      obtain ⟨⟨τ, fs⟩, hexec, rfl⟩ := map_eq_some_iff.mp hstep
      obtain ⟨others, hperm, hset⟩ := flatten_set hthread
      have hinv := (h.perm hperm).exec hexec
      have hthreads := InvWith.exec_threads hexec
      have hdone := hinv.perm (hset fs).symm
      rw [← hthreads] at hdone
      exact ⟨hdone.slip, hdone.absent, hdone.active, hdone.full, hdone.expected⟩
    · cases hstep

theorem inv_init (allowed : Nat) : Inv allowed .init :=
  ⟨fun _ _ hs => by simp [init] at hs, fun _ _ => rfl, rfl, fun hne => absurd rfl hne, rfl⟩

theorem pending_eq_zero_iff : s.pending = 0 ↔ ∀ request ∈ s.delivery_requests, request = none := by
  unfold pending
  simp

/-- When nothing is under way nobody waits. -/
theorem Inv.quiet (h : Inv allowed σ) (hthreads : ∀ frames ∈ σ.threads, frames = [])
    (hcallbacks : σ.callbacks = []) (i : Nat) :
    (tokens σ σ.threads.flatten i).waiting = 0 ∧ (tokens σ σ.threads.flatten i).storing = 0 ∧
      (tokens σ σ.threads.flatten i).updating = 0 ∧ (tokens σ σ.threads.flatten i).removing = 0 ∧
      (tokens σ σ.threads.flatten i).called = 0 ∧ (tokens σ σ.threads.flatten i).ending = 0 := by
  have hflat : σ.threads.flatten = [] := flatten_eq_nil_iff.mpr hthreads
  have hactive := h.active
  have hfull := h.full
  rw [hflat, hcallbacks] at hactive
  have hqueue : σ.queue = [] := by
    by_contra hne
    obtain ⟨hpos, hle⟩ := hfull hne
    rw [hactive] at hle
    exact absurd (Nat.le_zero.mp hle) (Nat.ne_of_gt hpos)
  rw [hflat]
  simp [tokens, hqueue, hcallbacks]

/-- **Every routing slip ends cleanly.** No call meets an unexpected state; a slip enters
`rssTERMINAL` once, with its deliveries complete, and what was stored is removed by then, once;
when no thread has anything to do and no callback is due, every slip with its deliveries
complete has ended. -/
theorem slips_end_cleanly {labels : List Label} (hworks : ∀ label ∈ labels, label.Works)
    (hrun : run (System.step allowed) .init labels = some σ) :
    σ.unexpected = false ∧
      (∀ (i : Nat) (s : RoutingSlip), σ.slips[i]? = some s →
        (s.state = .rssTERMINAL ↔ i ∈ σ.terminals) ∧ σ.terminals.count i ≤ 1 ∧
          (s.state = .rssTERMINAL → (∀ request ∈ s.delivery_requests, request = none) ∧
            σ.log.count (i, .remove) = σ.log.count (i, .store)) ∧
          σ.log.count (i, .store) ≤ 1) ∧
      ((∀ frames ∈ σ.threads, frames = []) → σ.callbacks = [] →
        ∀ (i : Nat) (s : RoutingSlip), σ.slips[i]? = some s →
          (∀ request ∈ s.delivery_requests, request = none) → s.state = .rssTERMINAL) := by
  have hstep : ∀ σ label σ', Inv allowed σ → label.Works →
      step allowed σ label = some σ' → Inv allowed σ' := fun _ _ _ => step_inv
  have h : Inv allowed σ := run_inv_of hstep (inv_init allowed) (allSteps_of_forall hworks) hrun
  refine ⟨h.expected, fun i s hs => ?_, fun hthreads hcallbacks i s hs hcomplete => ?_⟩
  · obtain ⟨hplace, -⟩ := h.slip i s hs
    obtain ⟨hiff, honce, hend, hstores⟩ := hplace.terminal_iff
    refine ⟨hiff.trans count_pos_iff, honce, fun hstate => ?_, hstores⟩
    obtain ⟨hzero, hremoves⟩ := hend hstate
    exact ⟨pending_eq_zero_iff.mp hzero, hremoves⟩
  · obtain ⟨hplace, -⟩ := h.slip i s hs
    obtain ⟨h1, h2, h3, h4, h5, h6⟩ := h.quiet hthreads hcallbacks i
    exact hplace.ended (pending_eq_zero_iff.mpr hcomplete) h1 h2 h3 h4 h5 h6

/-- A slip that is updated while another one comes to its end in the queue. -/
def sampleLabels : List Label :=
  [.route true true none, .resume 0 true, .resume 0 true, .resume 0 true, .dispatch 0 0 false,
    .deliveryRequestComplete 0 0, .route true true (some true), .resume 3 true,
    .persistComplete 0, .deliveryRequestComplete 1 0, .resume 4 true, .resume 4 true,
    .resume 4 true, .resume 4 true, .resume 4 true, .resume 4 true, .persistComplete 0,
    .deliveryRequestComplete 0 1, .resume 7 true, .resume 6 true, .resume 6 true, .resume 6 true,
    .persistComplete 0, .resume 8 true, .resume 4 true]

theorem slips_end_cleanly_sampleLabels :
    ∃ σ, run (System.step 1) .init sampleLabels = some σ ∧ σ.unexpected = false ∧
      σ.slips.map RoutingSlip.state = [.rssTERMINAL, .rssTERMINAL] := by
  have hworks : ∀ label ∈ sampleLabels, label.Works := by
    unfold sampleLabels
    simp [Label.Works]
  have hsome : (run (step 1) .init sampleLabels).map (fun σ => σ.slips.map
      state) = some [.rssTERMINAL, .rssTERMINAL] := by decide_cbv
  obtain ⟨σ, hrun, hslips⟩ := map_eq_some_iff.mp hsome
  exact ⟨σ, hrun, (slips_end_cleanly hworks hrun).1, hslips⟩

end Atcd.Notify
