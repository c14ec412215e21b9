import Atcd.Core.Run
import Atcd.Synch.Token
/-!
# Runs of `ACE_Token`

A run is a sequence of calls and of ends of waits, in any order.

`renew` queues the caller's entry and wakes up the next waiter before it waits
itself. Where the entry is put at the head of its queue (position 0, or LIFO) and
that queue is the one to be served, the next waiter is the caller: the signal goes
to a condition variable that nobody waits on yet, and the caller waits for it.

Results:
- `wakeup_inv`: the hand-over of a token that nobody has;
- `step_inv`: a step in which no renewal chooses itself keeps the invariant;
- `renew_strands`: one that does leaves an owner that nobody will wake up;
- `token_sound_iff`: the runs without such a renewal are those in which one thread
  has the token, the waiters are counted and the owner gets to run.
-/
namespace Atcd.Synch

open Atcd.Core Token List Function Option Entry

variable {Thread : Type*} [DecidableEq Thread]

/-- The thread has the token. A thread that waits has not got it, or has given it
up. -/
def Holding (s : State Thread) (t : Thread) : Prop :=
  s.phase t = .running ∧ 0 < s.holds t

/-- The thread runs, or has been signalled since its wait began. -/
def Awake : Phase → Prop
  | .running => True
  | .waiting _ _ _ signalled => signalled = true

/-- One thread at most has the token, `waiters_` is the number of queued entries,
and the owner of a token in use gets to run. -/
structure Good (s : State Thread) : Prop where
  exclusive : ∀ t t', Holding s t → Holding s t' → t = t'
  counted : s.token.waiters = s.token.queueLength
  served : s.token.inUse ≠ none → ∃ o, s.token.owner = some o ∧ Awake (s.phase o)

/-- A renewal by the owner returns at once, or goes to the end of its queue, or
has the token for reading while a writer waits. -/
def Sound (s : State Thread) : Act Thread → Prop
  | .renew t position _ =>
    s.phase t = .running → s.token.inUse ≠ none → s.token.owner = some t →
      s.token.Keeps ∨ s.token.renewPosition position = -1 ∨
        s.token.inUse = some .readToken ∧ s.token.writers ≠ []
  | _ => True

/-! ## The invariant -/

/-- The queues, the waiting threads and their counts agree. -/
structure Books (s : State Thread) : Prop where
  counted : s.token.waiters = s.token.queueLength
  nodup : ∀ kind, ((s.token.queue kind).map Entry.thread).Nodup
  queued : ∀ t kind, t ∈ (s.token.queue kind).map Entry.thread ↔
    ∃ saved timed signalled, s.phase t = .waiting kind saved timed signalled
  saved : ∀ t kind saved timed signalled, s.phase t = .waiting kind saved timed signalled →
    s.holds t = match saved with
      | none => 0
      | some n => n + 1

/-- The token is nobody's, whatever `owner_` is. -/
structure Vacant (s : State Thread) : Prop extends Books s where
  level : s.token.nestingLevel = 0
  fresh : ∀ kind, ∀ e ∈ s.token.queue kind, e.runable = false
  free : ∀ t, s.phase t = .running → s.holds t = 0

/-- The owner has the token, nested as it says, or is about to run. -/
def Served (s : State Thread) (o : Thread) : Prop :=
  match s.phase o with
  | .running => s.holds o = s.token.nestingLevel + 1
  | .waiting _ _ _ signalled => signalled = true ∧ s.token.nestingLevel = 0

structure Inv (s : State Thread) : Prop extends Books s where
  idle : s.token.inUse = none →
    s.token.owner = none ∧ (∀ kind, s.token.queue kind = []) ∧ s.token.nestingLevel = 0
  busy : s.token.inUse ≠ none → ∃ o, s.token.owner = some o ∧ Served s o
  runable : ∀ kind, ∀ e ∈ s.token.queue kind,
    (e.runable = true ↔ s.token.owner = some e.thread)
  others : ∀ t, s.token.owner ≠ some t → s.phase t = .running → s.holds t = 0

omit [DecidableEq Thread] in
theorem start_inv (strategy : QueueingStrategy) : Inv (start strategy : State Thread) := by
  have hq : ∀ kind, (start strategy : State Thread).token.queue kind = [] := by
    intro kind
    cases kind <;> rfl
  refine ⟨⟨rfl, ?_, ?_, nofun⟩, fun _ => ⟨rfl, hq, rfl⟩, fun h => absurd rfl h, ?_, fun t _ _ => rfl⟩
  · intro kind
    rw [hq]
    exact nodup_nil
  · intro t kind
    rw [hq]
    refine ⟨fun h => absurd h not_mem_nil, ?_⟩
    rintro ⟨saved, timed, signalled, h⟩
    cases h
  · intro kind e he
    rw [hq] at he
    exact absurd he not_mem_nil

variable {s : State Thread} {kind : OpType} {saved : Option Nat} {t : Thread} {timed : Bool}
  {k : Token Thread}

omit [DecidableEq Thread] in
theorem Inv.inUse_of_owner (hs : Inv s) (howner : s.token.owner = some t) : s.token.inUse ≠ none := by
  intro h
  rw [(hs.idle h).1] at howner
  cases howner

omit [DecidableEq Thread] in
theorem Inv.served_owner (hs : Inv s) (howner : s.token.owner = some t) : Served s t := by
  obtain ⟨o, ho, hserved⟩ := hs.busy (hs.inUse_of_owner howner)
  obtain rfl : t = o := some.inj (howner.symm.trans ho)
  exact hserved

theorem Inv.good (hs : Inv s) : Good s where
  exclusive t t' ht ht' := by
    have howner : ∀ u, Holding s u → s.token.owner = some u := by
      intro u hu
      by_contra hne
      have := hs.others u hne hu.1
      have := hu.2
      omega
    have h := howner t ht
    rw [howner t' ht'] at h
    exact (some.inj h).symm
  counted := hs.counted
  served h := by
    obtain ⟨o, ho, hserved⟩ := hs.busy h
    refine ⟨o, ho, ?_⟩
    unfold Served at hserved
    unfold Awake
    split at hserved
    · trivial
    · exact hserved.1

/-! ## The hand-over -/

omit [DecidableEq Thread] in
theorem Books.congr {s' : State Thread} (hs : Books s) (hw : s'.token.waiters = s.token.waiters)
    (hq : ∀ kind, (s'.token.queue kind).map Entry.thread = (s.token.queue kind).map Entry.thread)
    (hp : ∀ t kind saved timed, (∃ g, s'.phase t = .waiting kind saved timed g) ↔
      ∃ g, s.phase t = .waiting kind saved timed g) (hh : s'.holds = s.holds) : Books s' where
  counted := by
    have hlen : ∀ kind, (s'.token.queue kind).length = (s.token.queue kind).length := by
      intro kind
      have := congrArg length (hq kind)
      rwa [length_map, length_map] at this
    have h₁ := hlen .writeToken
    have h₂ := hlen .readToken
    simp only [Token.queue] at h₁ h₂
    rw [hw, hs.counted, queueLength, queueLength, h₁, h₂]
  nodup kind := hq kind ▸ hs.nodup kind
  queued t kind := by
    rw [hq, hs.queued]
    exact exists_congr fun saved => exists_congr fun timed => (hp t kind saved timed).symm
  saved t kind saved timed signalled h := by
    obtain ⟨g, hg⟩ := (hp t kind saved timed).mp ⟨signalled, h⟩
    rw [hh]
    exact hs.saved t kind saved timed g hg

theorem signal_waiting {phase : Thread → Phase} {o : Thread} :
    (∃ g, signal phase (some o) t = .waiting kind saved timed g) ↔
      ∃ g, phase t = .waiting kind saved timed g := by
  cases hp : phase o with
  | running => simp only [signal, hp]
  | waiting kind' saved' timed' g' =>
    simp only [signal, hp]
    by_cases ht : t = o
    · subst ht
      rw [update_self, hp]
      simp
    · rw [update_of_ne ht]

theorem signal_running {phase : Thread → Phase} {o : Thread} :
    signal phase (some o) t = .running ↔ phase t = .running := by
  cases hp : phase o with
  | running => simp only [signal, hp]
  | waiting kind saved timed g =>
    simp only [signal, hp]
    by_cases ht : t = o
    · subst ht
      rw [update_self, hp]
      simp
    · rw [update_of_ne ht]

/-- **The hand-over of a token that nobody has.** -/
theorem wakeup_inv (hs : Vacant s) : Inv s.wakeup := by
  unfold State.wakeup
  rcases wakeup_cases s.token with ⟨hempty, hnone⟩ | ⟨kind, e, q, hq, -, hsome⟩
  · rw [hnone]
    refine ⟨?_, fun _ => ⟨rfl, hempty, hs.level⟩, fun h => absurd rfl h, ?_, ?_⟩
    · exact hs.toBooks.congr rfl (fun kind => rfl) (fun _ _ _ _ => Iff.rfl) rfl
    · intro kind e he
      have : e ∈ s.token.queue kind := he
      rw [hempty] at this
      exact absurd this not_mem_nil
    · intro t _ ht
      exact hs.free t ht
  · rw [hsome]
    have hself : ((s.token.select kind e q).queue kind) = { e with runable := true } :: q :=
      queue_setQueue_self ..
    have hother : ∀ kind', kind' ≠ kind →
        (s.token.select kind e q).queue kind' = s.token.queue kind' :=
      fun kind' h => queue_setQueue_of_ne _ h _
    obtain ⟨saved, timed, g, hphase⟩ := (hs.queued e.thread kind).mp (by
      rw [hq]
      exact mem_cons_self)
    refine ⟨?_, nofun, fun _ => ⟨e.thread, rfl, ?_⟩, ?_, ?_⟩
    · refine hs.toBooks.congr (setQueue_waiters ..) ?_ (fun _ _ _ _ => signal_waiting) rfl
      intro kind'
      by_cases hk : kind' = kind
      · subst hk
        rw [hself, hq]
        rfl
      · exact congrArg _ (hother kind' hk)
    · have hsig : signal s.phase (some e.thread) e.thread = .waiting kind saved timed true := by
        simp [signal, hphase]
      unfold Served
      simp only [hsig]
      exact ⟨trivial, (setQueue_nestingLevel ..).trans hs.level⟩
    · intro kind' e' he'
      have hnd := hs.nodup kind
      rw [hq, map_cons, nodup_cons] at hnd
      show e'.runable = true ↔ some e.thread = some e'.thread
      by_cases hk : kind' = kind
      · subst hk
        have hmem : e' ∈ { e with runable := true } :: q := hself ▸ he'
        rcases mem_cons.mp hmem with rfl | hmem
        · simp
        · have hfresh := hs.fresh kind' e' (by
            rw [hq]
            exact mem_cons_of_mem _ hmem)
          rw [hfresh]
          refine ⟨nofun, fun h => absurd ?_ hnd.1⟩
          rw [some.inj h]
          exact mem_map_of_mem hmem
      · have hmem : e' ∈ s.token.queue kind' := hother kind' hk ▸ he'
        rw [hs.fresh kind' e' hmem]
        refine ⟨nofun, fun h => ?_⟩
        -- a thread waits in one queue
        obtain ⟨_, _, _, hp⟩ := (hs.queued e'.thread kind').mp (mem_map_of_mem hmem)
        rw [← some.inj h, hphase] at hp
        cases hp
        exact absurd rfl hk
    · intro t _ ht
      exact hs.free t (signal_running.mp ht)

/-! ## Waiting and leaving -/

omit [DecidableEq Thread] in
theorem enter_queue_self (k : Token Thread) (kind : OpType) (e : Entry Thread) (position : Int) :
    (k.enter kind e position).queue kind = insertEntry (k.queue kind) e position :=
  queue_setQueue_self ..

omit [DecidableEq Thread] in
theorem enter_queue_of_ne (k : Token Thread) {kind' : OpType} (h : kind' ≠ kind) (e : Entry Thread)
    (position : Int) :
    (k.enter kind e position).queue kind' = k.queue kind' :=
  queue_setQueue_of_ne _ h _

omit [DecidableEq Thread] in
theorem enter_queueLength (k : Token Thread) (kind : OpType) (e : Entry Thread) (position : Int) :
    (k.enter kind e position).queueLength = k.queueLength + 1 := by
  have h := queueLength_setQueue k kind (insertEntry (k.queue kind) e position)
  rw [(insert_perm ..).length_eq, length_cons] at h
  show (k.setQueue kind _).queueLength = _
  omega

theorem leave_queue_self (k : Token Thread) (kind : OpType) (t : Thread) :
    (k.leave kind t).queue kind = removeEntry (k.queue kind) t :=
  queue_setQueue_self ..

theorem leave_queue_of_ne (k : Token Thread) {kind' : OpType} (h : kind' ≠ kind) (t : Thread) :
    (k.leave kind t).queue kind' = k.queue kind' :=
  queue_setQueue_of_ne _ h _

theorem leave_queueLength (ht : t ∈ (k.queue kind).map Entry.thread) :
    ((k.leave kind t).queueLength : Int) = k.queueLength - 1 := by
  have h := queueLength_setQueue k kind (removeEntry (k.queue kind) t)
  have hlen := length_removeEntry ht
  show ((k.setQueue kind _).queueLength : Int) = _
  omega

/-- The thread goes to wait. -/
theorem Books.enter (hs : Books s) (ht : s.phase t = .running) (kind : OpType) (position : Int)
    (level : Nat) (saved : Option Nat) (timed : Bool) (hsaved : s.holds t = match saved with
      | none => 0
      | some n => n + 1) :
    Books { s with
      token := { s.token.enter kind ⟨t, false⟩ position with nestingLevel := level }
      phase := update s.phase t (.waiting kind saved timed false) } := by
  have hout : ∀ kind, t ∉ (s.token.queue kind).map thread := by
    intro kind h
    obtain ⟨_, _, _, hp⟩ := (hs.queued t kind).mp h
    rw [ht] at hp
    cases hp
  have hperm : (((s.token.enter kind ⟨t, false⟩ position).queue kind).map thread).Perm
      (t :: (s.token.queue kind).map thread) := by
    rw [enter_queue_self]
    exact (insert_perm ..).map thread
  refine ⟨?_, ?_, ?_, ?_⟩
  · show s.token.waiters + 1 = ((s.token.enter kind ⟨t, false⟩ position).queueLength : Int)
    rw [enter_queueLength, hs.counted]
    rfl
  · intro kind'
    show (((s.token.enter kind ⟨t, false⟩ position).queue kind').map thread).Nodup
    by_cases hk : kind' = kind
    · rw [hk, hperm.nodup_iff, nodup_cons]
      exact ⟨hout kind, hs.nodup kind⟩
    · rw [enter_queue_of_ne _ hk]
      exact hs.nodup kind'
  · intro u kind'
    show u ∈ ((s.token.enter kind ⟨t, false⟩ position).queue kind').map thread ↔
      ∃ sv tm g, update s.phase t (.waiting kind saved timed false) u =
        .waiting kind' sv tm g
    by_cases hu : u = t
    · rw [hu, update_self]
      by_cases hk : kind' = kind
      · rw [hk, hperm.mem_iff]
        simp
      · rw [enter_queue_of_ne _ hk]
        refine ⟨fun h => absurd h (hout kind'), ?_⟩
        rintro ⟨_, _, _, h⟩
        cases h
        exact absurd rfl hk
    · rw [update_of_ne hu, ← hs.queued u kind']
      by_cases hk : kind' = kind
      · rw [hk, hperm.mem_iff, mem_cons]
        exact or_iff_right hu
      · rw [enter_queue_of_ne _ hk]
  · intro u kind' sv tm g h
    replace h : update s.phase t (.waiting kind saved timed false) u =
      .waiting kind' sv tm g := h
    by_cases hu : u = t
    · rw [hu, update_self] at h
      cases h
      rw [hu]
      exact hsaved
    · rw [update_of_ne hu] at h
      exact hs.saved u kind' sv tm g h

/-- The thread waits no more. -/
theorem Books.leave (hs : Books s) {g : Bool} (ht : s.phase t = .waiting kind saved timed g)
    (level : Nat) (holds : Thread → Nat) (hholds : ∀ u, u ≠ t → holds u = s.holds u) :
    Books {
      token := { s.token.leave kind t with nestingLevel := level }
      phase := update s.phase t .running
      holds := holds } := by
  have hmem : t ∈ (s.token.queue kind).map thread :=
    (hs.queued t kind).mpr ⟨saved, timed, g, ht⟩
  have hthreads : ∀ u, u ∈ ((s.token.leave kind t).queue kind).map thread ↔
      u ∈ (s.token.queue kind).map thread ∧ u ≠ t := by
    intro u
    rw [leave_queue_self, List.mem_map, List.mem_map]
    constructor
    · rintro ⟨e, he, rfl⟩
      obtain ⟨he, hne⟩ := (mem_removeEntry (hs.nodup kind)).mp he
      exact ⟨⟨e, he, rfl⟩, hne⟩
    · rintro ⟨⟨e, he, rfl⟩, hne⟩
      exact ⟨e, (mem_removeEntry (hs.nodup kind)).mpr ⟨he, hne⟩, rfl⟩
  refine ⟨?_, ?_, ?_, ?_⟩
  · show s.token.waiters - 1 = ((s.token.leave kind t).queueLength : Int)
    rw [leave_queueLength hmem, hs.counted]
  · intro kind'
    show (((s.token.leave kind t).queue kind').map thread).Nodup
    by_cases hk : kind' = kind
    · rw [hk, leave_queue_self]
      exact ((eraseP_sublist ..).map _).nodup (hs.nodup kind)
    · rw [leave_queue_of_ne _ hk]
      exact hs.nodup kind'
  · intro u kind'
    show u ∈ ((s.token.leave kind t).queue kind').map thread ↔
      ∃ sv tm g, update s.phase t .running u = .waiting kind' sv tm g
    by_cases hu : u = t
    · rw [hu, update_self]
      refine ⟨fun h => ?_, ?_⟩
      · exfalso
        by_cases hk : kind' = kind
        · rw [hk, hthreads] at h
          exact h.2 rfl
        · rw [leave_queue_of_ne _ hk] at h
          obtain ⟨_, _, _, hp⟩ := (hs.queued t kind').mp h
          rw [ht] at hp
          cases hp
          exact hk rfl
      · rintro ⟨_, _, _, h⟩
        cases h
    · rw [update_of_ne hu, ← hs.queued u kind']
      by_cases hk : kind' = kind
      · rw [hk, hthreads]
        exact and_iff_left hu
      · rw [leave_queue_of_ne _ hk]
  · intro u kind' sv tm g' h
    replace h : update s.phase t .running u = .waiting kind' sv tm g' := h
    show holds u = _
    by_cases hu : u = t
    · rw [hu, update_self] at h
      cases h
    · rw [update_of_ne hu] at h
      rw [hholds u hu]
      exact hs.saved u kind' sv tm g' h

omit [DecidableEq Thread] in
theorem mem_enter {kind' : OpType} {e e' : Entry Thread} {position : Int}
    (h : e' ∈ (k.enter kind e position).queue kind') : e' = e ∨ e' ∈ k.queue kind' := by
  by_cases hk : kind' = kind
  · rw [hk, enter_queue_self, (insert_perm ..).mem_iff, mem_cons] at h
    rw [hk]
    exact h
  · rw [enter_queue_of_ne _ hk] at h
    exact .inr h

theorem mem_leave {kind' : OpType} {e : Entry Thread} (h : e ∈ (k.leave kind t).queue kind') :
    e ∈ k.queue kind' := by
  by_cases hk : kind' = kind
  · rw [hk, leave_queue_self] at h
    rw [hk]
    exact mem_of_mem_eraseP h
  · rwa [leave_queue_of_ne _ hk] at h

omit [DecidableEq Thread] in
@[simp] theorem enter_nestingLevel (k : Token Thread) (kind : OpType) (e : Entry Thread)
    (position : Int) : (k.enter kind e position).nestingLevel = k.nestingLevel :=
  setQueue_nestingLevel ..

omit [DecidableEq Thread] in
@[simp] theorem enter_owner (k : Token Thread) (kind : OpType) (e : Entry Thread)
    (position : Int) : (k.enter kind e position).owner = k.owner :=
  setQueue_owner ..

omit [DecidableEq Thread] in
@[simp] theorem enter_inUse (k : Token Thread) (kind : OpType) (e : Entry Thread)
    (position : Int) : (k.enter kind e position).inUse = k.inUse :=
  setQueue_inUse ..

@[simp] theorem leave_nestingLevel (k : Token Thread) (kind : OpType) (t : Thread) :
    (k.leave kind t).nestingLevel = k.nestingLevel :=
  setQueue_nestingLevel ..

@[simp] theorem leave_owner (k : Token Thread) (kind : OpType) (t : Thread) :
    (k.leave kind t).owner = k.owner :=
  setQueue_owner ..

@[simp] theorem leave_inUse (k : Token Thread) (kind : OpType) (t : Thread) :
    (k.leave kind t).inUse = k.inUse :=
  setQueue_inUse ..

/-! ## Steps -/

omit [DecidableEq Thread] in
theorem Books.not_queued (hs : Books s) (ht : s.phase t = .running) (kind : OpType)
    {e : Entry Thread} (he : e ∈ s.token.queue kind) : e.thread ≠ t := by
  rintro rfl
  obtain ⟨_, _, _, hp⟩ := (hs.queued e.thread kind).mp (mem_map_of_mem he)
  rw [ht] at hp
  cases hp

/-- The acquisitions of a running thread and the rights of `owner_` do not touch
the queues. -/
theorem Books.owned (hs : Books s) (ht : s.phase t = .running) (k : Token Thread)
    (hw : k.waiters = s.token.waiters) (hq : ∀ kind, k.queue kind = s.token.queue kind) (n : Nat) :
    Books { s with token := k, holds := update s.holds t n } where
  counted := by
    have h₁ := hq .writeToken
    have h₂ := hq .readToken
    simp only [Token.queue] at h₁ h₂
    rw [hw, hs.counted, queueLength, queueLength, h₁, h₂]
  nodup kind := by
    rw [hq]
    exact hs.nodup kind
  queued t kind := by
    rw [hq]
    exact hs.queued t kind
  saved u kind sv tm g h := by
    have hu : u ≠ t := by
      rintro rfl
      rw [ht] at h
      cases h
    show update s.holds t n u = _
    rw [update_of_ne hu]
    exact hs.saved u kind sv tm g h

theorem acquire_inv (hs : Inv s) (ht : s.phase t = .running) (kind : OpType) (patience : Patience) :
    Inv (sharedAcquire s t kind patience) := by
  unfold sharedAcquire
  split
  · -- nobody has it
    rename_i hfree
    obtain ⟨hnone, hempty, hlevel⟩ := hs.idle hfree
    refine ⟨?_, nofun, fun _ => ⟨t, rfl, ?_⟩, ?_, ?_⟩
    · refine hs.toBooks.owned ht _ ?_ ?_ _
      · rfl
      · intro kind'
        cases kind' <;> rfl
    · have := hs.others t (by simp [hnone]) ht
      simp [Served, ht, hlevel, this]
    · intro kind' e he
      have hmem : e ∈ s.token.queue kind' := by cases kind' <;> exact he
      rw [hempty] at hmem
      exact absurd hmem not_mem_nil
    · intro u hu hrun
      have hne : u ≠ t := fun h => hu (by rw [h])
      show update s.holds t _ u = 0
      rw [update_of_ne hne]
      exact hs.others u (by simp [hnone]) hrun
  rename_i hbusy
  split
  · -- nested
    rename_i howner
    have hserved := hs.served_owner howner
    refine ⟨?_, fun h => absurd h hbusy, fun _ => ⟨t, howner, ?_⟩, ?_, ?_⟩
    · refine hs.toBooks.owned ht _ ?_ ?_ _
      · rfl
      · intro kind'
        cases kind' <;> rfl
    · simpa [Served, ht] using hserved
    · intro kind' e he
      exact hs.runable kind' e (by cases kind' <;> exact he)
    · intro u hu hrun
      have hne : u ≠ t := fun h => hu (h ▸ howner)
      show update s.holds t _ u = 0
      rw [update_of_ne hne]
      exact hs.others u hu hrun
  rename_i hnot
  split
  · exact hs
  · -- the thread waits
    have hzero := hs.others t hnot ht
    have hbooks := hs.toBooks.enter ht kind s.token.queueingStrategy.position
      (s.token.enter kind ⟨t, false⟩ s.token.queueingStrategy.position).nestingLevel none
      (patience = .timed) hzero
    refine ⟨hbooks, ?_, ?_, ?_, ?_⟩
    · intro h
      exact absurd ((enter_inUse ..).symm.trans h) hbusy
    · intro _
      obtain ⟨o, ho, hserved⟩ := hs.busy hbusy
      have hne : o ≠ t := fun h => hnot (h ▸ ho)
      refine ⟨o, (enter_owner ..).trans ho, ?_⟩
      unfold Served at hserved ⊢
      simp only [update_of_ne hne, enter_nestingLevel]
      exact hserved
    · intro kind' e he
      rw [enter_owner]
      rcases mem_enter he with rfl | he
      · exact ⟨nofun, fun h => absurd h hnot⟩
      · exact hs.runable kind' e he
    · intro u hu hrun
      have hne : u ≠ t := by
        rintro rfl
        simp at hrun
      refine hs.others u (fun h => hu ((enter_owner ..).trans h)) ?_
      simpa [hne] using hrun

theorem release_inv (hs : Inv s) (ht : s.phase t = .running) (hbusy : s.token.inUse ≠ none)
    (howner : s.token.owner = some t) : Inv (release s t) := by
  have hserved := hs.served_owner howner
  have hholds : s.holds t = s.token.nestingLevel + 1 := by
    simpa [Served, ht] using hserved
  have hother : ∀ u, u ≠ t → s.phase u = .running → s.holds u = 0 :=
    fun u hu => hs.others u fun h => hu (some.inj (h.symm.trans howner))
  unfold release
  dsimp only
  split
  · rename_i hlevel
    refine ⟨?_, fun h => absurd h hbusy, fun _ => ⟨t, howner, ?_⟩, ?_, ?_⟩
    · refine hs.toBooks.owned ht _ ?_ ?_ _
      · rfl
      · intro kind'
        cases kind' <;> rfl
    · simp only [Served, ht, update_self]
      omega
    · intro kind' e he
      exact hs.runable kind' e (by cases kind' <;> exact he)
    · intro u hu hrun
      have hne : u ≠ t := fun h => hu (h ▸ howner)
      show update s.holds t _ u = 0
      rw [update_of_ne hne]
      exact hother u hne hrun
  · rename_i hlevel
    refine wakeup_inv ⟨?_, by simpa using hlevel, ?_, ?_⟩
    · exact hs.toBooks.owned ht s.token rfl (fun _ => rfl) _
    · intro kind e he
      rw [← Bool.not_eq_true, hs.runable kind e he, howner]
      exact fun h => hs.toBooks.not_queued ht kind he (some.inj h).symm
    · intro u hrun
      show update s.holds t _ u = 0
      by_cases hu : u = t
      · rw [hu, update_self]
        omega
      · rw [update_of_ne hu]
        exact hother u hu hrun

/-! ### Renewing -/

/-- The state in which the caller waits and nobody is chosen yet. -/
def queuedUp (s : State Thread) (t : Thread) (position : Int) (timed : Bool) : State Thread :=
  { s with
    token := { s.token.enter s.token.ownKind ⟨t, false⟩ (s.token.renewPosition position) with
      nestingLevel := 0 }
    phase := Function.update s.phase t
      (.waiting s.token.ownKind (some s.token.nestingLevel) timed false) }

theorem queuedUp_vacant (hs : Inv s) (ht : s.phase t = .running) (howner : s.token.owner = some t)
    (position : Int) (timed : Bool) : Vacant (queuedUp s t position timed) := by
  have hserved := hs.served_owner howner
  have hholds : s.holds t = s.token.nestingLevel + 1 := by
    simpa [Served, ht] using hserved
  refine ⟨hs.toBooks.enter ht _ _ 0 (some s.token.nestingLevel) timed hholds, rfl, ?_, ?_⟩
  · intro kind e he
    rcases mem_enter he with rfl | he
    · rfl
    · rw [← Bool.not_eq_true, hs.runable kind e he, howner]
      exact fun h => hs.toBooks.not_queued ht kind he (some.inj h).symm
  · intro u hrun
    have hne : u ≠ t := by
      rintro rfl
      simp [queuedUp] at hrun
    refine hs.others u (fun h => hne (some.inj (h.symm.trans howner))) ?_
    simpa [queuedUp, hne] using hrun

theorem signal_update {phase : Thread → Phase} {o : Thread} (h : o ≠ t) (p : Phase) :
    update (signal phase (some o)) t p = signal (update phase t p) (some o) := by
  cases hp : phase o with
  | running => simp only [signal, update_of_ne h, hp]
  | waiting kind saved timed g =>
    simp only [signal, update_of_ne h, hp]
    rw [update_comm h]

omit [DecidableEq Thread] in
theorem renewPosition_cases (k : Token Thread) (position : Int) :
    k.renewPosition position = 0 ∨ k.renewPosition position = -1 := by
  unfold renewPosition
  split
  · exact .inl rfl
  · cases k.queueingStrategy
    · exact .inr rfl
    · exact .inl rfl

omit [DecidableEq Thread] in
/-- Who is chosen, in terms of the queues. -/
theorem wakeup_head (k : Token Thread) :
    k.wakeupNextWaiter.2 = (k.writers.head?.or k.readers.head?).map Entry.thread ∧
      k.wakeupNextWaiter.1.owner = k.wakeupNextWaiter.2 := by
  unfold wakeupNextWaiter
  cases k.writers with
  | nil =>
    cases k.readers with
    | nil => exact ⟨rfl, rfl⟩
    | cons e q => exact ⟨rfl, rfl⟩
  | cons e q =>
    cases k.readers <;> exact ⟨rfl, rfl⟩

omit [DecidableEq Thread] in
/-- The queue that a renewal leaves, when it waits: its own queue is not served
first, or has another thread. -/
theorem not_keeps_cases (hbusy : k.inUse ≠ none) (hkeep : ¬ k.Keeps) :
    (k.ownKind = .writeToken ∧ k.inUse ≠ some .readToken ∧ k.writers ≠ []) ∨
    (k.ownKind = .readToken ∧ k.inUse = some .readToken ∧
      (k.writers ≠ [] ∨ k.writers = [] ∧ k.readers ≠ [])) := by
  unfold Token.Keeps at hkeep
  unfold ownKind
  cases huse : k.inUse with
  | none => exact absurd huse hbusy
  | some kind =>
    rw [huse] at hkeep
    cases kind with
    | writeToken =>
      refine .inl ⟨rfl, nofun, fun h => hkeep ⟨h, .inl rfl⟩⟩
    | readToken =>
      refine .inr ⟨rfl, rfl, ?_⟩
      by_cases hw : k.writers = []
      · exact .inr ⟨hw, fun h => hkeep ⟨hw, .inr h⟩⟩
      · exact .inl hw

omit [DecidableEq Thread] in
theorem enter_queues (k : Token Thread) (e : Entry Thread) (position : Int) :
    (k.enter .writeToken e position).writers = insertEntry k.writers e position ∧
    (k.enter .writeToken e position).readers = k.readers ∧
    (k.enter .readToken e position).writers = k.writers ∧
    (k.enter .readToken e position).readers = insertEntry k.readers e position :=
  ⟨rfl, rfl, rfl, rfl⟩

omit [DecidableEq Thread] in
theorem head_insert_back {q : List (Entry Thread)} (hq : q ≠ []) (e : Entry Thread) :
    (insertEntry q e (-1)).head? = q.head? := by
  rw [insert_back hq, head?_append_of_ne_nil _ hq]

omit [DecidableEq Thread] in
theorem head_insert_front (q : List (Entry Thread)) (e : Entry Thread) :
    (insertEntry q e 0).head? = some e := by
  rw [insert_front, head?_cons]

omit [DecidableEq Thread] in
/-- A renewal at the back, or behind the writers, chooses the thread that would
have been next. -/
theorem chooses_other (hbusy : k.inUse ≠ none) (hkeep : ¬ k.Keeps) (t : Thread) {position : Int}
    (h : position = -1 ∨ k.inUse = some .readToken ∧ k.writers ≠ []) :
    (k.enter k.ownKind ⟨t, false⟩ position).wakeupNextWaiter.2 =
      (k.writers.head?.or k.readers.head?).map Entry.thread := by
  rw [(wakeup_head _).1]
  obtain ⟨hww, hwr, hrw, hrr⟩ := enter_queues k ⟨t, false⟩ position
  rcases not_keeps_cases hbusy hkeep with ⟨hown, hread, hw⟩ | ⟨hown, -, hw | ⟨hw, hr⟩⟩
  · obtain rfl := h.resolve_right fun h => hread h.1
    rw [hown, hww, hwr, head_insert_back hw]
  · obtain ⟨e, q, hq⟩ := exists_cons_of_ne_nil hw
    rw [hown, hrw, hrr, hq]
    rfl
  · obtain rfl := h.resolve_right fun h => h.2 hw
    rw [hown, hrw, hrr, head_insert_back hr]

omit [DecidableEq Thread] in
/-- A renewal at the front of the queue that is served chooses itself. -/
theorem chooses_itself (hbusy : k.inUse ≠ none) (hkeep : ¬ k.Keeps) (t : Thread)
    (h : ¬ (k.inUse = some .readToken ∧ k.writers ≠ [])) :
    (k.enter k.ownKind ⟨t, false⟩ 0).wakeupNextWaiter.2 = some t := by
  rw [(wakeup_head _).1]
  obtain ⟨hww, hwr, hrw, hrr⟩ := enter_queues k ⟨t, false⟩ 0
  rcases not_keeps_cases hbusy hkeep with ⟨hown, -, -⟩ | ⟨hown, huse, hw | ⟨hw, -⟩⟩
  · rw [hown, hww, hwr, head_insert_front]
    rfl
  · exact absurd ⟨huse, hw⟩ h
  · rw [hown, hrw, hrr, hw, head_insert_front]
    rfl

omit [DecidableEq Thread] in
theorem wakeup_level (k : Token Thread) (n : Nat) :
    ({ k with nestingLevel := n } : Token Thread).wakeupNextWaiter.2 = k.wakeupNextWaiter.2 := by
  rw [(wakeup_head k).1, (wakeup_head _).1]

/-- The token in which a renewal that waits chooses the next owner. -/
def renewing (k : Token Thread) (t : Thread) (position : Int) : Token Thread :=
  { k.enter k.ownKind ⟨t, false⟩ (k.renewPosition position) with nestingLevel := 0 }

theorem renew_eq (hkeep : ¬ s.token.Keeps) (t : Thread) (position : Int) (timed : Bool) :
    renew s t position timed =
      { token := (renewing s.token t position).wakeupNextWaiter.1
        phase := update (signal s.phase (renewing s.token t position).wakeupNextWaiter.2)
          t (.waiting s.token.ownKind (some s.token.nestingLevel) timed false)
        holds := s.holds } := by
  unfold renew
  rw [if_neg hkeep]
  rfl

theorem renew_inv (hs : Inv s) (ht : s.phase t = .running) (hbusy : s.token.inUse ≠ none)
    (howner : s.token.owner = some t) (position : Int) (timed : Bool)
    (hsound : s.token.Keeps ∨ s.token.renewPosition position = -1 ∨
      s.token.inUse = some .readToken ∧ s.token.writers ≠ []) :
    Inv (renew s t position timed) := by
  by_cases hkeep : s.token.Keeps
  · unfold renew
    rwa [if_pos hkeep]
  have hsel := chooses_other hbusy hkeep t (hsound.resolve_left hkeep)
  have hother : ∃ o, (renewing s.token t position).wakeupNextWaiter.2 = some o ∧ o ≠ t := by
    rw [renewing, wakeup_level, hsel]
    rcases hw : s.token.writers with _ | ⟨e, q⟩
    · rcases hr : s.token.readers with _ | ⟨e, q⟩
      · exact absurd ⟨hw, .inr hr⟩ hkeep
      · refine ⟨e.thread, rfl, hs.toBooks.not_queued ht .readToken ?_⟩
        rw [Token.queue, hr]
        exact mem_cons_self
    · refine ⟨e.thread, rfl, hs.toBooks.not_queued ht .writeToken ?_⟩
      rw [Token.queue, hw]
      exact mem_cons_self
  obtain ⟨o, ho, hne⟩ := hother
  have heq : renew s t position timed = (queuedUp s t position timed).wakeup := by
    rw [renew_eq hkeep, ho, signal_update hne, ← ho]
    rfl
  rw [heq]
  exact wakeup_inv (queuedUp_vacant hs ht howner position timed)

/-- **A renewal that chooses itself** has its signal go nowhere: the owner waits,
and has not been signalled. -/
theorem renew_strands (t : Thread) (hbusy : s.token.inUse ≠ none) (position : Int) (timed : Bool)
    (hkeep : ¬ s.token.Keeps) (hfront : s.token.renewPosition position ≠ -1)
    (hown : ¬ (s.token.inUse = some .readToken ∧ s.token.writers ≠ [])) :
    ¬ Good (renew s t position timed) := by
  have hzero := (renewPosition_cases s.token position).resolve_right hfront
  have hsel : (renewing s.token t position).wakeupNextWaiter.2 = some t := by
    rw [renewing, wakeup_level, hzero]
    exact chooses_itself hbusy hkeep t hown
  have howner : (renewing s.token t position).wakeupNextWaiter.1.owner = some t := by
    rw [(wakeup_head _).2, hsel]
  intro hgood
  rw [renew_eq hkeep] at hgood
  have huse : (renewing s.token t position).wakeupNextWaiter.1.inUse ≠ none := by
    rcases wakeup_cases (renewing s.token t position) with ⟨-, hnone⟩ | ⟨kind, e, q, -, -, hsome⟩
    · rw [hnone] at hsel
      cases hsel
    · rw [hsome]
      exact some_ne_none kind
  obtain ⟨o, ho, hawake⟩ := hgood.served huse
  obtain rfl : t = o := some.inj (howner.symm.trans ho)
  simp [Awake] at hawake

/-! ### The end of a wait -/

/-- The thread has the token, with its nesting level if it renews. -/
theorem takeOver_inv (hs : Inv s) {g : Bool} (ht : s.phase t = .waiting kind saved timed g)
    (howner : s.token.owner = some t) : Inv (takeOver s t kind saved) := by
  have hserved := hs.served_owner howner
  have hlevel : s.token.nestingLevel = 0 := by
    unfold Served at hserved
    rw [ht] at hserved
    exact hserved.2
  have hholds := hs.saved t kind saved timed g ht
  have hrest : ∀ (level : Nat) (holds : Thread → Nat), (∀ u, u ≠ t → holds u = s.holds u) →
      holds t = level + 1 → Inv
        { token := { s.token.leave kind t with nestingLevel := level }
          phase := update s.phase t .running
          holds := holds } := by
    intro level holds hother hself
    refine ⟨hs.toBooks.leave ht level holds hother, ?_, ?_, ?_, ?_⟩
    · exact fun h => absurd ((leave_inUse ..).symm.trans h) (hs.inUse_of_owner howner)
    · refine fun _ => ⟨t, (leave_owner ..).trans howner, ?_⟩
      simpa [Served] using hself
    · intro kind' e he
      rw [leave_owner]
      exact hs.runable kind' e (mem_leave he)
    · intro u hu hrun
      have hne : u ≠ t := fun h => hu (by rw [h]; exact (leave_owner ..).trans howner)
      show holds u = 0
      rw [hother u hne]
      refine hs.others u (fun h => hne (some.inj (h.symm.trans howner))) ?_
      simpa [hne] using hrun
  cases saved with
  | none =>
    have := hrest (s.token.leave kind t).nestingLevel (update s.holds t (s.holds t + 1))
      (fun u hu => update_of_ne hu ..) (by simp [hholds, hlevel])
    exact this
  | some n => exact hrest n s.holds (fun _ _ => rfl) hholds

omit [DecidableEq Thread] in
theorem takeOver_runable (hs : Inv s) {g : Bool} (ht : s.phase t = .waiting kind saved timed g)
    (howner : s.token.owner = some t) : ⟨t, true⟩ ∈ s.token.queue kind := by
  obtain ⟨e, he, rfl⟩ := mem_map.mp ((hs.queued t kind).mpr ⟨saved, timed, g, ht⟩)
  have := (hs.runable kind e he).mpr howner
  rw [← this]
  exact he

/-- The thread goes without the token, and passes it on if it has it already. -/
theorem giveUp_inv (hs : Inv s) {g : Bool} (ht : s.phase t = .waiting kind saved timed g) :
    Inv (giveUp s t kind saved) := by
  obtain ⟨holds, hdef⟩ : ∃ holds, holds =
    if saved.isSome then update s.holds t 0 else s.holds := ⟨_, rfl⟩
  have hother : ∀ u, u ≠ t → holds u = s.holds u := by
    intro u hu
    rw [hdef]
    split
    · exact update_of_ne hu ..
    · rfl
  have hself : holds t = 0 := by
    rw [hdef]
    cases saved with
    | none => exact hs.saved t kind none timed g ht
    | some n => exact update_self ..
  have hbooks := hs.toBooks.leave ht (s.token.leave kind t).nestingLevel holds hother
  have hmem : t ∈ (s.token.queue kind).map thread :=
    (hs.queued t kind).mpr ⟨saved, timed, g, ht⟩
  have hleft : ∀ kind', ∀ e ∈ (s.token.leave kind t).queue kind', e.thread ≠ t := by
    rintro kind' e he rfl
    have := (hbooks.queued e.thread kind').mp (mem_map_of_mem he)
    simp at this
  have hrunning : ∀ u, u ≠ t → update s.phase t .running u = .running →
      s.token.owner ≠ some u → holds u = 0 := by
    intro u hu hrun hnot
    rw [update_of_ne hu] at hrun
    rw [hother u hu]
    exact hs.others u hnot hrun
  unfold giveUp
  dsimp only
  rw [← hdef]
  split
  · rename_i hany
    -- it was selected: the token is nobody's once it has left
    obtain ⟨e, he, hpred⟩ := any_eq_true.mp hany
    simp only [Bool.and_eq_true, decide_eq_true_eq] at hpred
    have howner : s.token.owner = some t := by
      rw [← hpred.1]
      exact (hs.runable kind e he).mp hpred.2
    have hserved := hs.served_owner howner
    refine wakeup_inv ⟨hbooks, ?_, ?_, ?_⟩
    · unfold Served at hserved
      rw [ht] at hserved
      exact (leave_nestingLevel ..).trans hserved.2
    · intro kind' e' he'
      rw [← Bool.not_eq_true, hs.runable kind' e' (mem_leave he'), howner]
      exact fun h => hleft kind' e' he' (some.inj h).symm
    · intro u hrun
      by_cases hu : u = t
      · rw [hu]
        exact hself
      · exact hrunning u hu hrun fun h => hu (some.inj (h.symm.trans howner))
  · rename_i hany
    have hnot : s.token.owner ≠ some t := by
      intro howner
      refine hany (any_eq_true.mpr ⟨⟨t, true⟩, takeOver_runable hs ht howner, ?_⟩)
      simp
    refine ⟨hbooks, ?_, ?_, ?_, ?_⟩
    · intro h
      have := hs.idle ((leave_inUse ..).symm.trans h)
      rw [this.2.1] at hmem
      exact absurd hmem not_mem_nil
    · intro h
      obtain ⟨o, ho, hserved⟩ := hs.busy fun hnone => h ((leave_inUse ..).trans hnone)
      have hne : o ≠ t := fun h => hnot (h ▸ ho)
      refine ⟨o, (leave_owner ..).trans ho, ?_⟩
      unfold Served at hserved ⊢
      simp only [update_of_ne hne, leave_nestingLevel, hother o hne]
      exact hserved
    · intro kind' e he
      rw [leave_owner]
      exact hs.runable kind' e (mem_leave he)
    · intro u hu hrun
      by_cases hut : u = t
      · rw [hut]
        exact hself
      · exact hrunning u hut hrun fun h => hu ((leave_owner ..).trans h)

theorem rewait_inv (hs : Inv s) {g : Bool} (ht : s.phase t = .waiting kind saved timed g)
    (hnot : s.token.owner ≠ some t) :
    Inv { s with phase := update s.phase t (.waiting kind saved timed false) } := by
  refine ⟨?_, hs.idle, ?_, hs.runable, ?_⟩
  · refine hs.toBooks.congr rfl (fun _ => rfl) (fun u kind' sv tm => ?_) rfl
    show (∃ g, update s.phase t (.waiting kind saved timed false) u =
      .waiting kind' sv tm g) ↔ _
    by_cases hu : u = t
    · rw [hu, ht, update_self]
      simp
    · rw [update_of_ne hu]
  · intro hbusy
    obtain ⟨o, ho, hserved⟩ := hs.busy hbusy
    have hne : o ≠ t := fun h => hnot (h ▸ ho)
    refine ⟨o, ho, ?_⟩
    unfold Served at hserved ⊢
    simp only [update_of_ne hne]
    exact hserved
  · intro u hu hrun
    by_cases hut : u = t
    · subst hut
      simp at hrun
    · refine hs.others u hu ?_
      simpa [hut] using hrun

/-! ## Runs -/

/-- **A step in which no renewal chooses itself keeps the invariant.** -/
theorem step_inv {s' : State Thread} {a : Act Thread} (hs : Inv s) (hsound : Sound s a)
    (h : step s a = some s') : Inv s' := by
  cases a with
  | acquire t kind patience =>
    simp only [step] at h
    split at h
    · rename_i ht
      cases h
      exact acquire_inv hs ht kind patience
    · cases h
  | release t =>
    simp only [step] at h
    split at h
    · rename_i hcond
      cases h
      exact release_inv hs hcond.1 hcond.2.1 hcond.2.2
    · cases h
  | renew t position timed =>
    simp only [step] at h
    split at h
    · rename_i hcond
      cases h
      exact renew_inv hs hcond.1 hcond.2.1 hcond.2.2 position timed
        (hsound hcond.1 hcond.2.1 hcond.2.2)
    · cases h
  | wake t result =>
    simp only [step] at h
    split at h
    · cases h
    rename_i kind saved timed g ht
    split at h
    · cases h
      unfold wake
      split
      · exact giveUp_inv hs ht
      split
      · rename_i howner
        exact takeOver_inv hs ht howner
      · rename_i hnot
        exact rewait_inv hs ht hnot
    · cases h

/-- A step leads to a good state exactly when it is sound. -/
theorem step_good_iff (hs : Inv s) (a : Act Thread) :
    (∀ s', step s a = some s' → Good s') ↔ Sound s a := by
  constructor
  · intro hgood
    cases a with
    | renew t position timed =>
      intro ht hbusy howner
      by_contra hnot
      rw [not_or, not_or] at hnot
      refine renew_strands t hbusy position timed hnot.1 hnot.2.1 hnot.2.2 (hgood _ ?_)
      simp only [step]
      rw [if_pos ⟨ht, hbusy, howner⟩]
    | acquire => trivial
    | release => trivial
    | wake => trivial
  · intro hsound s' h
    exact (step_inv hs hsound h).good

/-- **The runs that reach good states only** are those in which no renewal
chooses itself. -/
theorem token_sound_iff (strategy : QueueingStrategy) (acts : List (Act Thread)) :
    (∀ pre s, pre <+: acts → run step (start strategy) pre = some s → Good s) ↔
      AllSteps step Sound (start strategy) acts := by
  rw [reached_iff, and_iff_right (start_inv strategy).good]
  exact allSteps_congr (fun _ a hs => step_good_iff hs a)
    (fun _ _ _ hs hsound h => step_inv hs hsound h) (start_inv strategy)

/-- The owner renews at the front of the writers while a writer waits. -/
def deaf : List (Act Nat) :=
  [.acquire 1 .writeToken .forever, .acquire 2 .writeToken .forever, .renew 1 0 false]

/-- The owner waits for a signal that it sent itself before it waited. -/
theorem renewer_waits_for_itself :
    ¬ ∀ (strategy : QueueingStrategy) (acts : List (Act Nat)) (s : State Nat),
      run step (start strategy) acts = some s → Good s := by
  intro h
  have hrun : (run step (start .fifo) deaf).map
      (fun s => (s.token.inUse, s.token.owner, s.phase 1)) =
      some (some .writeToken, some 1, .waiting .writeToken (some 0) false false) := by decide
  obtain ⟨s, hs, heq⟩ := map_eq_some_iff.mp hrun
  simp only [Prod.mk.injEq] at heq
  obtain ⟨huse, howner, hphase⟩ := heq
  obtain ⟨o, ho, hawake⟩ := (h .fifo deaf s hs).served (by simp [huse])
  obtain rfl : 1 = o := some.inj (howner.symm.trans ho)
  simp [Awake, hphase] at hawake

end Atcd.Synch
