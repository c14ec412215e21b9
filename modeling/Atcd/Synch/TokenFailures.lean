import Atcd.Synch.TokenRuns
/-!
# Failing waits of `ACE_Token`

`my_entry.wait` can also fail with an error that is neither EINTR nor ETIME. Both
`shared_acquire` and `renew` then return -1 as after a time-out, but only the exit
for the time-out passes the token on when the thread had been chosen already.

Renewals that choose themselves are among these runs. Their owner waits without a
signal, which the invariant of the other runs excludes; it holds of the state in
which the owner has been signalled (`rouse`).

Results:
- `rouse_step`: every step but an error of a chosen thread keeps the invariant of
  the roused state;
- `giveUp_leaves`: an operation that gives up leaves the token with somebody;
- `failures_leave_iff`: the runs in which every failing operation does so are those
  without an error of a chosen thread;
- `error_keeps_owner`: a chosen thread whose wait fails stays the owner.
-/
namespace Atcd.Synch

open Token Function State

variable {Thread : Type*} [DecidableEq Thread]

/-- A step of the token, or a wait that ends by another error. -/
inductive Event (Thread : Type*)
  | act (a : Act Thread)
  | error (t : Thread)

/-- The wait has failed.
mirrors ACE/ace/Token.cpp:270-291, 309-313, 416-437, 455-459 -/
def fail (s : State Thread) (t : Thread) (kind : OpType) (saved : Option Nat) : State Thread where
  token := s.token.leave kind t
  phase := Function.update s.phase t .running
  holds := if saved.isSome then Function.update s.holds t 0 else s.holds

def stepEvent (s : State Thread) : Event Thread → Option (State Thread)
  | .act a => step s a
  | .error t =>
    match s.phase t with
    | .running => none
    | .waiting kind saved _ _ => some (fail s t kind saved)

/-- The thread whose operation returns -1 after waiting. -/
def Event.fails : Event Thread → Option Thread
  | .act (.wake t .etime) => some t
  | .error t => some t
  | _ => none

/-- The thread is out of the books, and whoever waits on is behind another thread
that has the token or has been chosen for it. -/
structure LeavesToSomebody (s s' : State Thread) (t : Thread) : Prop where
  owner : s'.token.owner ≠ some t
  queues : ∀ kind, t ∉ (s'.token.queue kind).map Entry.thread
  waiters : s'.token.waiters = s.token.waiters - 1
  passed : (∃ kind, s'.token.queue kind ≠ []) → s'.token.inUse ≠ none ∧
    ∃ o, o ≠ t ∧ s'.token.owner = some o ∧
      (Holding s' o ∨ ∃ kind, ⟨o, true⟩ ∈ s'.token.queue kind)

/-- An operation that fails in this step leaves the token with somebody. -/
def FailsWell (s : State Thread) (e : Event Thread) : Prop :=
  ∀ t, e.fails = some t → ∀ s', stepEvent s e = some s' → LeavesToSomebody s s' t

/-- No wait of a thread whose entry is runable ends by an error. -/
def NotChosen (s : State Thread) : Event Thread → Prop
  | .error t => ∀ kind, ⟨t, true⟩ ∉ s.token.queue kind
  | .act _ => True

/-! ## The roused state -/

def State.rouse (s : State Thread) : State Thread :=
  { s with phase := signal s.phase s.token.owner }

theorem signal_signal (phase : Thread → Phase) (o : Option Thread) :
    signal (signal phase o) o = signal phase o := by
  cases o with
  | none => rfl
  | some o =>
    cases hp : phase o with
    | running => simp only [signal, hp]
    | waiting kind saved timed g => simp [signal, hp]

/-- What a thread does itself replaces its signal. -/
theorem update_signal_self (phase : Thread → Phase) (t : Thread) (p : Phase) :
    update (signal phase (some t)) t p = update phase t p := by
  cases hp : phase t with
  | running => simp only [signal, hp]
  | waiting kind saved timed g => simp [signal, hp]

variable {t : Thread} {s : State Thread} {kind : OpType} {saved : Option Nat}

theorem update_signal {phase : Thread → Phase} {o : Option Thread} (h : o ≠ some t) (p : Phase) :
    update (signal phase o) t p = signal (update phase t p) o := by
  cases o with
  | none => rfl
  | some o => exact signal_update (fun hot => h (congrArg some hot)) p

theorem Inv.rouse_eq (hs : Inv s) : s.rouse = s := by
  unfold rouse
  by_cases hbusy : s.token.inUse = none
  · rw [(hs.idle hbusy).1]
    rfl
  · obtain ⟨o, ho, hserved⟩ := hs.busy hbusy
    have hphase : signal s.phase (some o) = s.phase := by
      unfold Served at hserved
      cases hp : s.phase o with
      | running => simp only [signal, hp]
      | waiting kind saved timed g =>
        rw [hp] at hserved
        simp only [signal, hp]
        rw [← hserved.1, ← hp, update_eq_self]
    rw [ho, hphase]

theorem rouse_of_running (howner : s.token.owner = some t) (ht : s.phase t = .running) :
    s.rouse = s := by
  unfold rouse
  rw [howner]
  simp only [signal, ht]

theorem rouse_running : s.rouse.phase t = .running ↔ s.phase t = .running := by
  unfold rouse
  cases s.token.owner with
  | none => exact Iff.rfl
  | some o => exact signal_running

theorem rouse_waiting {timed g : Bool} (h : s.phase t = .waiting kind saved timed g) :
    ∃ g, s.rouse.phase t = .waiting kind saved timed g := by
  unfold rouse
  cases s.token.owner with
  | none => exact ⟨g, h⟩
  | some o => exact signal_waiting.mpr ⟨g, h⟩

/-! ## Steps -/

theorem acquire_queued {patience : Patience} (hbusy : s.token.inUse ≠ none)
    (hnot : s.token.owner ≠ some t) (hpoll : patience ≠ .poll) :
    sharedAcquire s t kind patience = { s with
        token := s.token.enter kind ⟨t, false⟩ s.token.queueingStrategy.position
        phase := update s.phase t (.waiting kind none (patience = .timed) false) } := by
  unfold sharedAcquire
  rw [if_neg hbusy, if_neg hnot, if_neg hpoll]

theorem rouse_acquire (hs : Inv s.rouse) (ht : s.phase t = .running) (kind : OpType)
    (patience : Patience) : Inv (sharedAcquire s t kind patience).rouse := by
  have hkeeps : ∀ {s : State Thread}, Inv s → s.phase t = .running →
      Inv (sharedAcquire s t kind patience).rouse := by
    intro s hs ht
    have hinv := acquire_inv hs ht kind patience
    rwa [hinv.rouse_eq]
  by_cases hfree : s.token.inUse = none
  · have hnone : s.token.owner = none := (hs.idle hfree).1
    have heq : s.rouse = s := by
      unfold rouse
      rw [hnone]
      rfl
    rw [heq] at hs
    exact hkeeps hs ht
  by_cases howner : s.token.owner = some t
  · rw [rouse_of_running howner ht] at hs
    exact hkeeps hs ht
  by_cases hpoll : patience = .poll
  · unfold sharedAcquire
    rwa [if_neg hfree, if_neg howner, if_pos hpoll]
  -- the thread queues up behind an owner that it is not
  have hinv := acquire_inv hs (rouse_running.mpr ht) kind patience
  have hqueued : (sharedAcquire s t kind patience).rouse =
      sharedAcquire s.rouse t kind patience := by
    rw [acquire_queued hfree howner hpoll, acquire_queued (s := s.rouse) hfree howner hpoll]
    unfold rouse
    simp only [enter_owner]
    rw [update_signal howner]
  rwa [hqueued]

theorem rouse_renew (hs : Inv s) (ht : s.phase t = .running)
    (howner : s.token.owner = some t) (position : Int) (timed : Bool) :
    Inv (renew s t position timed).rouse := by
  by_cases hkeep : s.token.Keeps
  · unfold renew
    rw [if_pos hkeep, hs.rouse_eq]
    exact hs
  have heq : (renew s t position timed).rouse = (queuedUp s t position timed).wakeup := by
    rw [renew_eq hkeep]
    unfold rouse wakeup
    simp only [(wakeup_head _).2]
    have hphase : ∀ o, signal (update (signal s.phase o) t
        (.waiting s.token.ownKind (some s.token.nestingLevel) timed false)) o =
        signal (update s.phase t
          (.waiting s.token.ownKind (some s.token.nestingLevel) timed false)) o := by
      intro o
      by_cases ho : o = some t
      · rw [ho, update_signal_self]
      · rw [update_signal ho, signal_signal]
    rw [hphase]
    rfl
  rw [heq]
  exact wakeup_inv (queuedUp_vacant hs ht howner position timed)

theorem fail_eq_giveUp (saved : Option Nat) (h : ⟨t, true⟩ ∉ s.token.queue kind) :
    fail s t kind saved = giveUp s t kind saved := by
  have hnone : ¬(s.token.queue kind).any fun e => e.thread = t && e.runable := by
    intro hany
    obtain ⟨e, he, hpred⟩ := List.any_eq_true.mp hany
    simp only [Bool.and_eq_true, decide_eq_true_eq] at hpred
    refine h ?_
    rw [← hpred.1, ← hpred.2]
    exact he
  unfold giveUp
  simp only [if_neg hnone]
  rfl

theorem not_mem_of_not_owner (hs : Inv s.rouse) (howner : s.token.owner ≠ some t) (kind : OpType) :
    ⟨t, true⟩ ∉ s.token.queue kind := by
  intro hmem
  exact howner ((hs.runable kind _ hmem).mp rfl)

theorem rouse_giveUp (hs : Inv s.rouse) {timed g : Bool}
    (ht : s.phase t = .waiting kind saved timed g) : Inv (giveUp s t kind saved).rouse := by
  obtain ⟨g', ht'⟩ := rouse_waiting ht
  have hinv := giveUp_inv hs ht'
  by_cases howner : s.token.owner = some t
  · have heq : giveUp s.rouse t kind saved = giveUp s t kind saved := by
      unfold giveUp rouse
      rw [howner]
      simp only [update_signal_self]
    rw [heq] at hinv
    rwa [hinv.rouse_eq]
  · have hnot := not_mem_of_not_owner hs howner kind
    have hnot' : ⟨t, true⟩ ∉ s.rouse.token.queue kind := hnot
    rw [← fail_eq_giveUp saved hnot'] at hinv
    rw [← fail_eq_giveUp saved hnot]
    have heq : (fail s t kind saved).rouse = fail s.rouse t kind saved := by
      unfold fail rouse
      simp only [leave_owner]
      rw [update_signal howner]
    rwa [heq]

theorem rouse_wake (hs : Inv s.rouse) {timed g : Bool}
    (ht : s.phase t = .waiting kind saved timed g) (result : Wake) :
    Inv (wake s t kind saved timed result).rouse := by
  obtain ⟨g', ht'⟩ := rouse_waiting ht
  unfold wake
  split
  · exact rouse_giveUp hs ht
  split
  · rename_i howner
    have hinv := takeOver_inv hs ht' howner
    have heq : takeOver s.rouse t kind saved = takeOver s t kind saved := by
      unfold takeOver rouse
      rw [howner]
      simp only [update_signal_self]
    rw [heq] at hinv
    rwa [hinv.rouse_eq]
  · rename_i hnot
    have hinv := rewait_inv hs ht' hnot
    unfold rouse at hinv ⊢
    rwa [← update_signal hnot]

/-- **Every step but an error of a chosen thread** keeps the invariant of the
roused state. -/
theorem rouse_step {s' : State Thread} {e : Event Thread} (hs : Inv s.rouse) (hnot : NotChosen s e)
    (h : stepEvent s e = some s') : Inv s'.rouse := by
  cases e with
  | error t =>
    simp only [stepEvent] at h
    split at h
    · cases h
    · rename_i kind saved timed g ht
      cases h
      rw [fail_eq_giveUp saved (hnot kind)]
      exact rouse_giveUp hs ht
  | act a =>
    cases a with
    | acquire t kind patience =>
      simp only [stepEvent, step] at h
      split at h
      · rename_i ht
        cases h
        exact rouse_acquire hs ht kind patience
      · cases h
    | release t =>
      simp only [stepEvent, step] at h
      split at h
      · rename_i hcond
        cases h
        rw [rouse_of_running hcond.2.2 hcond.1] at hs
        have hinv := release_inv hs hcond.1 hcond.2.1 hcond.2.2
        rwa [hinv.rouse_eq]
      · cases h
    | renew t position timed =>
      simp only [stepEvent, step] at h
      split at h
      · rename_i hcond
        cases h
        rw [rouse_of_running hcond.2.2 hcond.1] at hs
        exact rouse_renew hs hcond.1 hcond.2.2 position timed
      · cases h
    | wake t result =>
      simp only [stepEvent, step] at h
      split at h
      · cases h
      rename_i kind saved timed g ht
      split at h
      · cases h
        exact rouse_wake hs ht result
      · cases h

/-! ## Operations that fail -/

/-- The thread that gives up runs without the token, and is out of the count. -/
theorem giveUp_self (hs : Inv s.rouse) {timed g : Bool}
    (ht : s.phase t = .waiting kind saved timed g) :
    (giveUp s t kind saved).phase t = .running ∧ (giveUp s t kind saved).holds t = 0 ∧
      (giveUp s t kind saved).token.waiters = s.token.waiters - 1 := by
  obtain ⟨g', ht'⟩ := rouse_waiting ht
  have hholds : (if saved.isSome then update s.holds t 0 else s.holds) t = 0 := by
    cases saved with
    | none => exact hs.saved t kind none timed g' ht'
    | some n => exact update_self ..
  have hwaiters : (s.token.leave kind t).waiters = s.token.waiters - 1 := rfl
  unfold giveUp
  dsimp only
  split
  · refine ⟨?_, hholds, ?_⟩
    · unfold wakeup
      cases (s.token.leave kind t).wakeupNextWaiter.2 with
      | none => exact update_self ..
      | some o => exact signal_running.mpr (update_self ..)
    · unfold wakeup
      rcases wakeup_cases (s.token.leave kind t) with ⟨-, hnone⟩ | ⟨kind', e, q, -, -, hsome⟩
      · rw [hnone]
        exact hwaiters
      · rw [hsome]
        exact (setQueue_waiters ..).trans hwaiters
  · exact ⟨update_self .., hholds, hwaiters⟩

/-- **An operation that gives up** leaves the token with somebody. -/
theorem giveUp_leaves (hs : Inv s.rouse) {timed g : Bool}
    (ht : s.phase t = .waiting kind saved timed g) :
    LeavesToSomebody s (giveUp s t kind saved) t := by
  have hinv := rouse_giveUp hs ht
  obtain ⟨hrunning, hholds, hwaiters⟩ := giveUp_self hs ht
  generalize giveUp s t kind saved = s' at hinv hrunning hholds hwaiters
  have hnot : s'.token.owner ≠ some t := by
    intro howner
    have hbusy : s'.token.inUse ≠ none := by
      intro hnone
      have hfree : s'.token.owner = none := (hinv.idle hnone).1
      rw [hfree] at howner
      cases howner
    obtain ⟨o, ho, hserved⟩ := hinv.busy hbusy
    obtain rfl : t = o := Option.some.inj (howner.symm.trans ho)
    unfold Served at hserved
    rw [rouse_running.mpr hrunning] at hserved
    have hpositive : s'.holds t = s'.token.nestingLevel + 1 := hserved
    omega
  refine ⟨hnot, ?_, hwaiters, ?_⟩
  · intro kind' hmem
    obtain ⟨e, he, heq⟩ := List.mem_map.mp hmem
    exact hinv.toBooks.not_queued (rouse_running.mpr hrunning) kind' he heq
  · rintro ⟨kind', hqueued⟩
    have hbusy : s'.token.inUse ≠ none := fun hnone => hqueued ((hinv.idle hnone).2.1 kind')
    obtain ⟨o, ho, hserved⟩ := hinv.busy hbusy
    refine ⟨hbusy, o, fun h => hnot (h ▸ ho), ho, ?_⟩
    cases hphase : s'.rouse.phase o with
    | running =>
      unfold Served at hserved
      rw [hphase] at hserved
      have hpositive : s'.holds o = s'.token.nestingLevel + 1 := hserved
      exact .inl ⟨rouse_running.mp hphase, by omega⟩
    | waiting kind'' saved' timed' g' => exact .inr ⟨kind'', takeOver_runable (s := s'.rouse) hinv hphase ho⟩

/-- A failing operation leaves the token with somebody exactly when the thread had
not been chosen, or its wait timed out. -/
theorem failsWell_iff (hs : Inv s.rouse) (e : Event Thread) :
    FailsWell s e ↔ NotChosen s e := by
  cases e with
  | error t =>
    constructor
    · intro hwell kind hmem
      obtain ⟨saved, timed, g, ht⟩ := (hs.queued t kind).mp (List.mem_map_of_mem hmem)
      have howner : s.token.owner = some t := (hs.runable kind _ hmem).mp rfl
      cases hphase : s.phase t with
      | running =>
        rw [rouse_running.mpr hphase] at ht
        cases ht
      | waiting kind' saved' timed' g' =>
        have hstep : stepEvent s (.error t) = some (fail s t kind' saved') := by
          simp only [stepEvent, hphase]
        exact (hwell t rfl _ hstep).owner ((leave_owner ..).trans howner)
    · intro hnot u hu s' hstep
      cases hu
      simp only [stepEvent] at hstep
      split at hstep
      · cases hstep
      · rename_i kind saved timed g ht
        cases hstep
        rw [fail_eq_giveUp saved (hnot kind)]
        exact giveUp_leaves hs ht
  | act a =>
    refine iff_of_true (fun t ht s' hstep => ?_) trivial
    cases a with
    | wake u result =>
      cases result with
      | etime =>
        cases ht
        simp only [stepEvent, step] at hstep
        split at hstep
        · cases hstep
        · rename_i kind saved timed g hphase
          split at hstep
          · cases hstep
            exact giveUp_leaves hs hphase
          · cases hstep
      | signal => cases ht
      | spurious => cases ht
      | eintr => cases ht
    | acquire u kind patience => cases ht
    | release u => cases ht
    | renew u position timed => cases ht

/-- **The runs in which every failing operation leaves the token with somebody**
are those without an error of a chosen thread. -/
theorem failures_leave_iff (strategy : QueueingStrategy) (events : List (Event Thread)) :
    Core.AllSteps stepEvent FailsWell (start strategy) events ↔
      Core.AllSteps stepEvent NotChosen (start strategy) events := by
  have hstart : Inv (start strategy : State Thread).rouse := by
    exact start_inv strategy
  have hiff : ∀ (s : State Thread) (e : Event Thread), Inv s.rouse →
      (FailsWell s e ↔ NotChosen s e) := fun _ e hs => failsWell_iff hs e
  exact Core.allSteps_congr hiff (fun _ _ _ => rouse_step) hstart

/-- Two threads wait for the token, and the first of them is chosen. -/
def chosen : List (Event Nat) :=
  [.act (.acquire 1 .writeToken .forever), .act (.acquire 2 .writeToken .forever),
    .act (.acquire 3 .writeToken .forever), .act (.release 1)]

/-- Its wait fails: it is the owner that has returned -1, and the other one waits. -/
theorem error_keeps_owner :
    (Core.run stepEvent (start .fifo) (chosen ++ [.error 2])).map
        (fun s => (s.token.owner, s.token.writers, s.phase 2)) =
      some (some 2, [⟨3, false⟩], .running) ∧
    ¬Core.AllSteps stepEvent FailsWell (start .fifo) (chosen ++ [.error 2]) := by
  refine ⟨by decide, fun hall => ?_⟩
  have hrun : (Core.run stepEvent (start .fifo) chosen).isSome := by decide
  obtain ⟨s, hs⟩ := Option.isSome_iff_exists.mp hrun
  have howner : ((Core.run stepEvent (start .fifo) chosen).bind
      (stepEvent · (.error 2))).map (·.token.owner) = some (some 2) := by decide
  rw [hs] at howner
  obtain ⟨s', hstep, hs'⟩ := Option.map_eq_some_iff.mp howner
  exact (hall.at hs 2 rfl s' hstep).owner hs'

end Atcd.Synch
