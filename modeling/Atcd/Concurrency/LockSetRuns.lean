import Atcd.Concurrency.LockSet
/-!
# Runs of a lock set

Whether the modes counted are those of the threads (`Counted`) and whether the token wakes
the thread whose request was granted depends on the order in which the threads come to the
token, which does not know the requests (`Ordered`): as long as they come in the order in
which they queued their requests, its queue is the front of the lock set's.
It cannot count: a grant while the thread of another grant is still on its way is lost.
And it is recursive: its owner, the thread that came through last or else the one
that constructed the lock set, is let through at once.

Results:
- `inv_step`: what the lock set and the token keep in a step that meets the condition;
- `grants_reach`: in a run of such steps each grant reaches the thread of the request.
-/
namespace Atcd.Concurrency

open List Function Option State Synch.Token Synch
open Synch (OpType Patience Wake Phase Entry)

/-- Modes counted together are compatible, also two of one kind. -/
def LockSet.Compatible (s : LockSet) : Prop :=
  ∀ i j, 0 < s.lock i → 0 < s.lock j → (i = j → 1 < s.lock i) → compatibleModes i j = true

namespace LockSet

theorem compatible_iff {s : LockSet} {m : Mode} :
    s.compatible m = true ↔ ∀ i, 0 < s.lock i → compatibleModes i m = true := by
  simp only [compatible, List.all_eq_true, Bool.or_eq_true, Bool.not_eq_true',
    decide_eq_false_iff_not, ← imp_iff_not_or]
  constructor
  · exact fun h i hi => h i i.mem_all hi
  · exact fun h i _ hi => h i hi

theorem add_lock (s : LockSet) (m : Mode) (n : Int) (i : Mode) :
    (s.add m n).lock i = if i = m then s.lock i + n else s.lock i := by
  unfold add
  dsimp only
  rw [update_apply]
  split
  next h => rw [h]
  next => rfl

theorem Compatible.mono {s s' : LockSet} (hs : s.Compatible) (h : ∀ i, s'.lock i ≤ s.lock i) :
    s'.Compatible := by
  intro i j hi hj hij
  have hle := h i
  have hle' := h j
  refine hs i j (by omega) (by omega) fun he => ?_
  have hone := hij he
  omega

theorem Compatible.remove {s : LockSet} (hs : s.Compatible) (m : Mode) :
    (s.add m (-1)).Compatible := by
  refine hs.mono fun i => ?_
  rw [add_lock]
  split <;> omega

/-- A mode that passes the test may be counted. -/
theorem Compatible.add {s : LockSet} (hs : s.Compatible) {m : Mode} (hm : s.compatible m = true) :
    (s.add m 1).Compatible := by
  rw [compatible_iff] at hm
  intro i j hi hj hij
  rw [add_lock] at hi hj hij
  by_cases him : i = m
  · by_cases hjm : j = m
    · have htwo := hij (him.trans hjm.symm)
      rw [hjm]
      exact hm i (by omega)
    · rw [if_neg hjm] at hj
      rw [him, compatibleModes_comm]
      exact hm j hj
  · rw [if_neg him] at hi
    by_cases hjm : j = m
    · rw [hjm]
      exact hm i hi
    · rw [if_neg hjm] at hj
      refine hs i j hi hj fun he => ?_
      have hone := hij he
      rwa [if_neg him] at hone

end LockSet

/-! ## The counters -/

section counters
variable {Thread : Type*}

def Counts (lock : Mode → Int) (l : List (Thread × Mode)) : Prop :=
  ∀ m, lock m = ((l.map Prod.snd).count m : Int)

theorem Counts.perm {lock : Mode → Int} {l l' : List (Thread × Mode)} (h : Counts lock l)
    (hl : l.Perm l') : Counts lock l' := by
  intro m
  rw [h m, (hl.map Prod.snd).count_eq m]

theorem Counts.add {s : LockSet} {l : List (Thread × Mode)} (h : Counts s.lock l) (t : Thread)
    (m : Mode) : Counts (s.add m 1).lock ((t, m) :: l) := by
  intro i
  rw [LockSet.add_lock, map_cons, count_cons, h i]
  by_cases him : i = m
  · simp [him]
  · simp [him, Ne.symm him]

theorem Counts.remove {s : LockSet} {l : List (Thread × Mode)} {t : Thread} {m : Mode}
    (h : Counts s.lock ((t, m) :: l)) : Counts (s.add m (-1)).lock l := by
  intro i
  have hi := h i
  rw [map_cons, count_cons] at hi
  rw [LockSet.add_lock]
  by_cases him : i = m
  · simp only [him, beq_self_eq_true, if_true] at hi ⊢
    push_cast at hi
    omega
  · simp only [beq_iff_eq, Ne.symm him, if_false, him] at hi ⊢
    omega

end counters

namespace Pc

/-- The request that the thread waits for, or will wait for. -/
def request : Pc → Option Mode
  | .idle | .changing _ _ => none
  | .giving _ new => some new
  | .unlocking next => next
  | .acquiring m | .waiting m => some m

def waits : Pc → Bool
  | .waiting _ => true
  | _ => false

/-- The mode that a `change_mode` will give back. -/
def changes : Pc → Option Mode
  | .changing held _ | .giving held _ => some held
  | _ => none

end Pc

namespace State
variable {Thread : Type*} [DecidableEq Thread]

omit [DecidableEq Thread] in
/-- Requests that are not answered, oldest first. -/
def requests (s : State Thread) : List (Thread × Mode) := s.granted ++ s.queued

omit [DecidableEq Thread] in
/-- The counters with the mode that is about to be counted. -/
def counted (s : State Thread) : LockSet := s.underway.elim s.locks fun m => s.locks.add m 1

/-- Only the thread that has the mutex is in the loop of `unlock`, and no mode is about to be
counted when the mutex is free. -/
structure Guarded (s : State Thread) : Prop where
  inside : ∀ t next, s.pc t = .unlocking next → s.mlock = some t
  free : s.mlock = none → s.underway = none

/-- What the counters and the queue of the lock set say. -/
structure Counted (s : State Thread) : Prop where
  queue : s.locks.lockQueue = s.queued.map Prod.snd
  counts : Counts s.counted.lock (s.held ++ s.granted)
  compatible : s.counted.Compatible
  changes : ∀ t m, (s.pc t).changes = some m → (t, m) ∈ s.held

/-- The token's queue is the front of the requests. At most one request is granted and
not returned for; if it is, the token waits for its thread or is that thread's, and
else it is some thread's that does not wait. -/
structure Ordered (s : State Thread) : Prop where
  nodup : (s.requests.map Prod.fst).Nodup
  pending : ∀ t m, (t, m) ∈ s.requests ↔ (s.pc t).request = some m
  strays : s.strays = []
  arrived : s.semaphore.token.writers.map Entry.thread <+: s.requests.map Prod.fst
  waits : ∀ t, t ∈ s.semaphore.token.writers.map Entry.thread ↔ (s.pc t).waits = true
  phase : ∀ t, (s.pc t).waits = false → s.semaphore.phase t = .running
  asleep : ∀ t, (s.pc t).waits = true →
    ∃ signalled, s.semaphore.phase t = .waiting .writeToken none false signalled
  readers : s.semaphore.token.readers = []
  nesting : s.semaphore.token.nestingLevel = 0
  strategy : s.semaphore.token.queueingStrategy = .fifo
  idle : s.granted = [] → s.semaphore.token.inUse ≠ none ∧
    ∀ t, s.semaphore.token.owner = some t → (s.pc t).waits = false
  served : ∀ p ∈ s.granted, s.granted = [p] ∧
    ((s.pc p.1).waits = true → s.semaphore.token.inUse ≠ none ∧
      s.semaphore.token.owner = some p.1) ∧
    ((s.pc p.1).waits = false → s.semaphore.token.inUse = none ∧
      s.semaphore.token.owner = none)

/-! ### The mutex sections -/

variable {m : Mode} {s : State Thread} {t : Thread} {k : Synch.State Thread}

omit [DecidableEq Thread] in
theorem counted_eq (hfree : s.underway = none) : s.counted = s.locks := by
  rw [counted, hfree, elim_none]

omit [DecidableEq Thread] in
theorem Counted.of_free (hfree : s.underway = none) (hqueue : s.locks.lockQueue = s.queued.map Prod.snd)
    (hcounts : Counts s.locks.lock (s.held ++ s.granted)) (hcompatible : s.locks.Compatible)
    (hchanges : ∀ t m, (s.pc t).changes = some m → (t, m) ∈ s.held) : s.Counted :=
  ⟨hqueue, counted_eq hfree ▸ hcounts, counted_eq hfree ▸ hcompatible, hchanges⟩

omit [DecidableEq Thread] in
theorem Counted.counts_free (hs : s.Counted) (hfree : s.underway = none) :
    Counts s.locks.lock (s.held ++ s.granted) := counted_eq hfree ▸ hs.counts

omit [DecidableEq Thread] in
theorem Counted.compatible_free (hs : s.Counted) (hfree : s.underway = none) : s.locks.Compatible :=
  counted_eq hfree ▸ hs.compatible

omit [DecidableEq Thread] in
theorem Counted.take (hs : s.Counted) (hfree : s.underway = none) (hm : s.locks.compatible m = true) :
    ({ s with locks := s.locks.add m 1, held := (t, m) :: s.held } : State Thread).Counted :=
  .of_free hfree hs.queue ((hs.counts_free hfree).add t m) ((hs.compatible_free hfree).add hm)
    fun t' m' h => mem_cons_of_mem _ (hs.changes t' m' h)

theorem mem_changes (hs : s.Counted) {p : Pc} (hp : ∀ m, p.changes = some m → (t, m) ∈ s.held)
    (t' : Thread) (m : Mode) (h : ((s.setPc t p).pc t').changes = some m) : (t', m) ∈ s.held := by
  by_cases ht : t' = t
  · cases ht
    simp only [setPc, update_self] at h
    exact hp m h
  · simp only [setPc, update_of_ne ht] at h
    exact hs.changes t' m h

theorem Counted.setPc (hs : s.Counted) {p : Pc} (hp : ∀ m, p.changes = some m → (t, m) ∈ s.held) :
    (s.setPc t p).Counted where
  queue := hs.queue
  counts := hs.counts
  compatible := hs.compatible
  changes := mem_changes hs hp

/-- A request goes to the back of the queue. -/
theorem Counted.enqueue (hs : s.Counted) (hfree : s.underway = none) {p : Pc}
    (hp : ∀ m, p.changes = some m → (t, m) ∈ s.held) :
    ({ s.setPc t p with
      locks := { s.locks with lockQueue := s.locks.lockQueue ++ [m] }
      queued := s.queued ++ [(t, m)] } : State Thread).Counted := by
  refine .of_free hfree ?_ (hs.counts_free hfree) (hs.compatible_free hfree) (mem_changes hs hp)
  rw [map_append, ← hs.queue]
  rfl

omit [DecidableEq Thread] in
theorem Counted.lock_pos (hs : s.Counted) (hfree : s.underway = none) (hm : (t, m) ∈ s.held) :
    0 < s.locks.lock m := by
  rw [hs.counts_free hfree m]
  have hmem : m ∈ (s.held ++ s.granted).map Prod.snd :=
    mem_map.mpr ⟨(t, m), mem_append_left _ hm, rfl⟩
  exact_mod_cast count_pos_iff.mpr hmem

theorem perm_held {p : Thread × Mode} (hp : p ∈ s.held) :
    (s.held ++ s.granted).Perm (p :: (s.held.erase p ++ s.granted)) :=
  (perm_cons_erase hp).append_right s.granted

/-- What a thread gives back is not what another thread is about to change. -/
theorem mem_changes_erase (hs : s.Counted) {p : Pc} (hp : p.changes = none) (t' : Thread)
    (m' : Mode) (h : ((s.setPc t p).pc t').changes = some m') : (t', m') ∈ s.held.erase (t, m) := by
  by_cases ht : t' = t
  · cases ht
    simp only [setPc, update_self] at h
    rw [hp] at h
    cases h
  · simp only [setPc, update_of_ne ht] at h
    refine (mem_erase_of_ne ?_).mpr (hs.changes t' m' h)
    exact fun he => ht (congrArg Prod.fst he)

theorem Counted.give (hs : s.Counted) (hfree : s.underway = none) {next : Option Mode}
    (hm : (t, m) ∈ s.held) : (s.give t m next).Counted := by
  have hpos := hs.lock_pos hfree hm
  rw [State.give, if_neg (by omega)]
  refine .of_free hfree ?_ ?_ ?_ ?_
  · exact hs.queue
  · exact ((hs.counts_free hfree).perm (perm_held hm)).remove
  · exact (hs.compatible_free hfree).remove m
  · exact mem_changes_erase hs rfl

theorem Counted.lock (hs : s.Counted) (hfree : s.underway = none) (t : Thread) (m : Mode) :
    (s.lock t m).Counted := by
  unfold State.lock LockSet.lockI
  split
  · exact hs.enqueue hfree nofun
  next h =>
    refine hs.take hfree ?_
    by_contra hno
    exact h (.inl (by simpa using hno))

omit [DecidableEq Thread] in
theorem Counted.tryLock (hs : s.Counted) (hfree : s.underway = none) (t : Thread) (m : Mode) :
    (s.tryLock t m).Counted := by
  unfold State.tryLock LockSet.tryLockI
  split
  · exact hs
  next h => exact hs.take hfree (by simpa using h)

theorem Counted.changeMode (hs : s.Counted) (hfree : s.underway = none) {held new : Mode}
    (hheld : (t, held) ∈ s.held) : (s.changeMode t held new).Counted := by
  unfold State.changeMode LockSet.changeModeI
  split
  next h =>
    refine .of_free hfree ?_ ?_ ?_ ?_
    · exact hs.queue
    · exact ((hs.counts_free hfree).perm (perm_held hheld)).remove.add t new
    · exact ((hs.compatible_free hfree).remove held).add h
    · exact fun t' m' hc => mem_cons_of_mem _ (mem_changes_erase hs rfl t' m' hc)
  · refine hs.enqueue hfree fun m hm => ?_
    cases hm
    exact hheld

theorem Counted.grant (hs : s.Counted) (hfree : s.underway = none) {r : LockSet × Mode}
    (h : s.locks.grantNext = some r) (t : Thread) :
    (s.grant t r).Counted ∧ ∃ p q, s.queued = p :: q := by
  have hqueue := hs.queue
  unfold LockSet.grantNext at h
  split at h
  · cases h
  next a queue hlist =>
    split at h
    next hcompatible =>
      cases h
      rw [hlist] at hqueue
      obtain ⟨p, q, hq, hp, htail⟩ := map_eq_cons_iff.mp hqueue.symm
      refine ⟨?_, p, q, hq⟩
      rw [State.grant, hq]
      constructor
      · exact htail.symm
      · have hcounts := (hs.counts_free hfree).add p.1 a
        rw [← hp] at hcounts ⊢
        refine hcounts.perm ?_
        rw [← append_assoc]
        exact (perm_append_singleton p _).symm
      · exact (hs.compatible_free hfree).add hcompatible
      · exact hs.changes
    · cases h

omit [DecidableEq Thread] in
theorem Counted.count (hs : s.Counted) (hm : s.underway = some m) : (s.count m).Counted := by
  have hcounted : (s.count m).counted = s.counted := by
    rw [counted, counted, hm]
    rfl
  exact ⟨hs.queue, hcounted ▸ hs.counts, hcounted ▸ hs.compatible, hs.changes⟩

/-! ### The mutex -/

theorem Guarded.setPc (hs : s.Guarded) {s' : State Thread} {p : Pc} (hpc : s'.pc = update s.pc t p)
    (hp : ∀ next, p ≠ .unlocking next) (hmlock : s'.mlock = s.mlock)
    (hunderway : s'.underway = s.underway) : s'.Guarded := by
  refine ⟨fun t' next h => ?_, by rw [hmlock, hunderway]; exact hs.free⟩
  rw [hpc] at h
  rw [hmlock]
  by_cases ht : t' = t
  · cases ht
    exact absurd ((update_self ..).symm.trans h) (hp next)
  · exact hs.inside t' next ((update_of_ne ht ..).symm.trans h)

theorem Guarded.give (hs : s.Guarded) (hmlock : s.mlock = none) (next : Option Mode) :
    (s.give t m next).Guarded := by
  unfold State.give
  split
  · exact hs.setPc rfl nofun rfl rfl
  · refine ⟨fun t' next' h => ?_, nofun⟩
    by_cases ht : t' = t
    · rw [ht]
    · have hin := hs.inside t' next' ((update_of_ne ht ..).symm.trans h)
      rw [hmlock] at hin
      cases hin

theorem Guarded.leave (hs : s.Guarded) {next : Option Mode} (hpc : s.pc t = .unlocking next)
    (hfree : s.underway = none) : (s.leave t next).Guarded := by
  refine ⟨fun t' next' h => ?_, fun _ => hfree⟩
  by_cases ht : t' = t
  · cases ht
    have hout : next.elim .idle .acquiring = Pc.unlocking next' := (update_self ..).symm.trans h
    cases next <;> cases hout
  · have hin := hs.inside t' next' ((update_of_ne ht ..).symm.trans h)
    rw [hs.inside t next hpc] at hin
    exact absurd (some.inj hin).symm ht

/-- No step but those of the loop of `unlock` touches the mode that is about to be counted. -/
theorem guarded_step {l : Act Thread} {s' : State Thread} (hs : s.Guarded)
    (h : s.step l = some s') : s'.Guarded := by
  have hback {k : Synch.State Thread} {t : Thread} {m : Mode} : (s.afterToken k t m).Guarded := by
    unfold afterToken
    split
    · exact hs.setPc rfl nofun rfl rfl
    · exact hs.setPc rfl nofun rfl rfl
  cases l with
  | lock t m =>
    simp only [step, ite_none_right_eq_some, some.injEq] at h
    obtain ⟨-, rfl⟩ := h
    unfold State.lock
    split
    · exact hs.setPc rfl nofun rfl rfl
    · exact ⟨hs.inside, hs.free⟩
  | tryLock t m =>
    simp only [step, ite_none_right_eq_some, some.injEq] at h
    obtain ⟨-, rfl⟩ := h
    unfold State.tryLock
    split
    · exact ⟨hs.inside, hs.free⟩
    · exact hs
  | unlock t m =>
    simp only [step, ite_none_right_eq_some, some.injEq] at h
    obtain ⟨⟨-, hmlock, -⟩, rfl⟩ := h
    exact hs.give hmlock none
  | lockHeld t held new =>
    simp only [step, ite_none_right_eq_some, some.injEq] at h
    obtain ⟨-, rfl⟩ := h
    unfold State.lockHeld
    split
    · exact hs.setPc rfl nofun rfl rfl
    · exact hs
  | changeMode t =>
    simp only [step] at h
    split at h
    next held new hpc =>
      simp only [ite_none_right_eq_some, some.injEq] at h
      obtain ⟨-, rfl⟩ := h
      unfold State.changeMode
      split
      · exact hs.setPc rfl nofun rfl rfl
      · exact hs.setPc rfl nofun rfl rfl
    next => cases h
  | giveHeld t =>
    simp only [step] at h
    split at h
    next held new hpc =>
      simp only [ite_none_right_eq_some, some.injEq] at h
      obtain ⟨hmlock, rfl⟩ := h
      exact hs.give hmlock (some new)
    next => cases h
  | grant t =>
    simp only [step] at h
    split at h
    next next hpc hfree =>
      obtain ⟨r, -, rfl⟩ := map_eq_some_iff.mp h
      exact ⟨hs.inside, fun hmlock => nomatch (hs.inside t next hpc).symm.trans hmlock⟩
    next => cases h
  | count t =>
    simp only [step] at h
    split at h
    next =>
      cases h
      exact ⟨hs.inside, fun _ => rfl⟩
    next => cases h
  | leave t =>
    simp only [step] at h
    split at h
    next next hpc hfree =>
      simp only [ite_none_right_eq_some, some.injEq] at h
      obtain ⟨-, rfl⟩ := h
      exact hs.leave hpc hfree
    next => cases h
  | acquire t | wake t result =>
    simp only [step] at h
    split at h
    next m hpc =>
      obtain ⟨k, hk, rfl⟩ := map_eq_some_iff.mp h
      exact hback
    next => cases h

/-! ### What the token is not concerned with -/

omit [DecidableEq Thread] in
theorem Ordered.congr {s' : State Thread} (hs : s.Ordered)
    (hrequest : ∀ t, (s'.pc t).request = (s.pc t).request)
    (hwaits : ∀ t, (s'.pc t).waits = (s.pc t).waits) (hsemaphore : s'.semaphore = s.semaphore)
    (hgranted : s'.granted = s.granted) (hqueued : s'.queued = s.queued)
    (hstrays : s'.strays = s.strays) : s'.Ordered := by
  have hrequests : s'.requests = s.requests := by rw [requests, requests, hgranted, hqueued]
  constructor
  · rw [hrequests]
    exact hs.nodup
  · intro t m
    rw [hrequests, hrequest]
    exact hs.pending t m
  · rw [hstrays, hs.strays]
  · rw [hrequests, hsemaphore]
    exact hs.arrived
  · intro t
    rw [hsemaphore, hwaits]
    exact hs.waits t
  · intro t
    rw [hsemaphore, hwaits]
    exact hs.phase t
  · intro t
    rw [hsemaphore, hwaits]
    exact hs.asleep t
  · rw [hsemaphore, hs.readers]
  · rw [hsemaphore, hs.nesting]
  · rw [hsemaphore, hs.strategy]
  · rw [hsemaphore, hgranted]
    intro h
    refine ⟨(hs.idle h).1, fun t ht => ?_⟩
    rw [hwaits]
    exact (hs.idle h).2 t ht
  · intro p hp
    rw [hgranted] at hp
    rw [hsemaphore, hgranted, hwaits]
    exact hs.served p hp

/-- What the thread waits for stays the same. -/
theorem Ordered.setPc (hs : s.Ordered) {p : Pc} (hrequest : p.request = (s.pc t).request)
    (hwaits : p.waits = (s.pc t).waits) : (s.setPc t p).Ordered := by
  have hpc {α : Type} (f : Pc → α) (hf : f p = f (s.pc t)) (t' : Thread) :
      f ((s.setPc t p).pc t') = f (s.pc t') := by
    simp only [State.setPc, update_apply]
    split
    next h => rw [h, hf]
    next => rfl
  exact hs.congr (hpc Pc.request hrequest) (hpc Pc.waits hwaits) rfl rfl rfl rfl

theorem waits_request {p : Pc} (h : p.request = none) : p.waits = false := by
  cases p <;> first | rfl | cases h

/-- A new request is the youngest. -/
theorem Ordered.enqueue (hs : s.Ordered) {p : Pc} (ht : (s.pc t).request = none)
    (hp : p.request = some m) (hwaits : p.waits = false) :
    ({ s.setPc t p with queued := s.queued ++ [(t, m)] } : State Thread).Ordered := by
  have hrequests : ({ s.setPc t p with queued := s.queued ++ [(t, m)] } : State Thread).requests =
      s.requests ++ [(t, m)] := (append_assoc _ _ _).symm
  have hnew : ∀ m', (t, m') ∉ s.requests := by
    intro m' h
    rw [hs.pending, ht] at h
    cases h
  have hpc (t' : Thread) : ((s.setPc t p).pc t').waits = (s.pc t').waits := by
    simp only [State.setPc, update_apply]
    split
    next h => rw [h, hwaits, waits_request ht]
    next => rfl
  constructor
  · rw [hrequests, map_append]
    refine hs.nodup.append (nodup_singleton t) ?_
    intro t' h hone
    rw [map_singleton, mem_singleton] at hone
    obtain ⟨⟨t'', m'⟩, hmem, heq⟩ := mem_map.mp h
    have ht'' : t'' = t := heq.trans hone
    exact hnew m' (ht'' ▸ hmem)
  · intro t' m'
    rw [hrequests, mem_append, mem_singleton]
    simp only [State.setPc, update_apply]
    split
    next h =>
      rw [h, hp]
      constructor
      · rintro (h | h)
        · exact absurd h (hnew m')
        · rw [(Prod.mk.inj h).2]
      · intro h
        cases h
        exact .inr rfl
    next h =>
      rw [← hs.pending]
      exact ⟨fun h' => h'.resolve_right fun he => h (Prod.mk.inj he).1, .inl⟩
  · exact hs.strays
  · rw [hrequests, map_append]
    exact hs.arrived.trans (prefix_append _ _)
  · intro t'
    exact (hs.waits t').trans (by rw [hpc])
  · exact fun t' h => hs.phase t' ((hpc t').symm.trans h)
  · exact fun t' h => hs.asleep t' ((hpc t').symm.trans h)
  · exact hs.readers
  · exact hs.nesting
  · exact hs.strategy
  · exact fun h => ⟨(hs.idle h).1, fun t' ht' => (hpc t').trans ((hs.idle h).2 t' ht')⟩
  · intro p' hp'
    obtain ⟨hone, hwaiting, haway⟩ := hs.served p' hp'
    exact ⟨hone, fun h => hwaiting ((hpc p'.1).symm.trans h),
      fun h => haway ((hpc p'.1).symm.trans h)⟩

/-! ### The token -/

theorem release_cases (hnesting : k.token.nestingLevel = 0) (hreaders : k.token.readers = [])
    (t : Thread) : (k.token.writers = [] ∧
      (Synch.release k t).token = { k.token with owner := none, inUse := none } ∧
      (Synch.release k t).phase = k.phase) ∨ ∃ e q, k.token.writers = e :: q ∧
      (Synch.release k t).token = { k.token with
        writers := { e with runable := true } :: q
        inUse := some .writeToken
        owner := some e.thread } ∧
      (Synch.release k t).phase = Synch.signal k.phase (some e.thread) := by
  have hrelease : (release k t).token = k.token.wakeupNextWaiter.1 ∧
      (release k t).phase = signal k.phase k.token.wakeupNextWaiter.2 := by
    simp [release, Synch.State.wakeup, hnesting]
  rcases k.token.wakeup_cases with ⟨hnone, hwakeup⟩ | ⟨kind, e, q, hqueue, -, hwakeup⟩
  · rw [hwakeup] at hrelease
    exact .inl ⟨hnone .writeToken, hrelease⟩
  · rw [hwakeup] at hrelease
    cases kind with
    | readToken =>
      rw [queue, hreaders] at hqueue
      cases hqueue
    | writeToken => exact .inr ⟨e, q, hqueue, hrelease⟩

theorem signal_phase {phase : Thread → Phase} {t' : Thread} :
    (phase t' = .running → Synch.signal phase (some t) t' = .running) ∧
    ((∃ signalled, phase t' = .waiting .writeToken none false signalled) →
      ∃ signalled, Synch.signal phase (some t) t' =
        .waiting .writeToken none false signalled) := by
  by_cases ht : t' = t
  · cases ht
    constructor
    · intro h
      simp only [signal, h]
    · rintro ⟨signalled, h⟩
      simp only [signal, h, update_self]
      exact ⟨true, rfl⟩
  · have hsame : signal phase (some t) t' = phase t' := by
      cases h : phase t <;> simp [signal, h, ht]
    rw [hsame]
    exact ⟨id, id⟩

/-- The queue, the level and the strategy stay, and who runs or waits does. -/
theorem release_keeps (hnesting : k.token.nestingLevel = 0) (hreaders : k.token.readers = [])
    (t : Thread) :
    (Synch.release k t).token.writers.map Entry.thread = k.token.writers.map Entry.thread ∧
      (Synch.release k t).token.readers = k.token.readers ∧
      (Synch.release k t).token.nestingLevel = k.token.nestingLevel ∧
      (Synch.release k t).token.queueingStrategy = k.token.queueingStrategy ∧
      ∀ t', (k.phase t' = .running → (Synch.release k t).phase t' = .running) ∧
        ((∃ signalled, k.phase t' = .waiting .writeToken none false signalled) →
          ∃ signalled, (Synch.release k t).phase t' = .waiting .writeToken none false signalled) := by
  rcases release_cases hnesting hreaders t with
    ⟨hwriters, htoken, hphase⟩ | ⟨e, w, hwriters, htoken, hphase⟩
  · rw [htoken, hphase]
    exact ⟨rfl, rfl, rfl, rfl, fun _ => ⟨id, id⟩⟩
  · rw [htoken, hphase, hwriters]
    exact ⟨rfl, rfl, rfl, rfl, fun _ => signal_phase⟩

/-- With no other grant on its way, the token goes to the thread of the request, or
waits for it. -/
theorem Ordered.grant (hs : s.Ordered) (hfree : s.granted = []) {p : Thread × Mode}
    {q : List (Thread × Mode)} (hqueued : s.queued = p :: q) (t : Thread) (locks : LockSet × Mode) :
    (s.grant t locks).Ordered := by
  have hrequests : (s.grant t locks).requests = s.requests := by
    simp [requests, State.grant, hfree, hqueued]
  have hgranted : (s.grant t locks).granted = [p] := by
    simp [State.grant, hfree, hqueued]
  have hfirst : s.requests = p :: q := by
    rw [requests, hfree, hqueued, nil_append]
  have harrived := hs.arrived
  rw [hfirst, map_cons] at harrived
  obtain ⟨hmap, hreaders, hnesting, hstrategy, hphase⟩ := release_keeps hs.nesting hs.readers t
  constructor
  · rw [hrequests]
    exact hs.nodup
  · intro t' m
    rw [hrequests]
    exact hs.pending t' m
  · exact hs.strays
  · rw [hrequests, State.grant, hmap]
    exact hs.arrived
  · intro t'
    rw [State.grant, hmap]
    exact hs.waits t'
  · exact fun t' h => (hphase t').1 (hs.phase t' h)
  · exact fun t' h => (hphase t').2 (hs.asleep t' h)
  · exact hreaders.trans hs.readers
  · exact hnesting.trans hs.nesting
  · exact hstrategy.trans hs.strategy
  · intro h
    rw [hgranted] at h
    cases h
  · intro p' hp'
    rw [hgranted, mem_singleton] at hp'
    rw [hgranted, hp']
    rcases release_cases hs.nesting hs.readers t with
      ⟨hwriters, htoken, -⟩ | ⟨e, w, hwriters, htoken, -⟩
    · have hnobody : ¬ (s.pc p.1).waits = true := fun h => by
        have hmem := (hs.waits p.1).mpr h
        rw [hwriters] at hmem
        cases hmem
      refine ⟨rfl, fun h => absurd h hnobody, fun _ => ?_⟩
      rw [State.grant, htoken]
      exact ⟨rfl, rfl⟩
    · rw [hwriters, map_cons] at harrived
      have hhead : e.thread = p.1 := (cons_prefix_cons.mp harrived).1
      have hwaits : (s.pc p.1).waits = true := by
        refine (hs.waits p.1).mp ?_
        rw [hwriters, ← hhead]
        exact mem_cons_self
      refine ⟨rfl, fun _ => ?_, fun h => absurd (hwaits.symm.trans h) nofun⟩
      rw [State.grant, htoken]
      exact ⟨nofun, congrArg some hhead⟩

/-- The oldest request whose thread is not at the token. -/
def next (s : State Thread) : Option (Thread × Mode) :=
  s.requests.find? fun p => !(s.pc p.1).waits

omit [DecidableEq Thread] in
/-- The requests are those whose threads are at the token and, behind them, the others. -/
theorem Ordered.split (hs : s.Ordered) : ∃ front rest, s.requests = front ++ rest ∧
      s.semaphore.token.writers.map Entry.thread = front.map Prod.fst ∧
      ∀ p ∈ rest, (s.pc p.1).waits = false := by
  obtain ⟨back, hback⟩ := hs.arrived
  obtain ⟨front, rest, hsplit, hfront, hrest⟩ := map_eq_append_iff.mp hback.symm
  refine ⟨front, rest, hsplit, hfront.symm, fun p hp => ?_⟩
  by_contra h
  have hwriter := (hs.waits p.1).mpr (by simpa using h)
  have hnodup := hs.nodup
  rw [hsplit, map_append, hfront] at hnodup
  exact (nodup_append.mp hnodup).2.2 p.1 hwriter p.1 (mem_map_of_mem hp) rfl

omit [DecidableEq Thread] in
theorem Ordered.next (hs : s.Ordered) {p : Thread × Mode} (hp : s.next = some p) :
    ∃ front rest, s.requests = front ++ p :: rest ∧
      s.semaphore.token.writers.map Entry.thread = front.map Prod.fst := by
  obtain ⟨front, rest, hsplit, hfront, hrest⟩ := hs.split
  have hnone : front.find? (fun p => !(s.pc p.1).waits) = none := by
    rw [find?_eq_none]
    intro p' hp'
    have hwriter : p'.1 ∈ s.semaphore.token.writers.map Entry.thread := by
      rw [hfront]
      exact mem_map_of_mem hp'
    simp [(hs.waits p'.1).mp hwriter]
  rw [State.next, hsplit, find?_append, hnone, none_or] at hp
  cases rest with
  | nil => cases hp
  | cons a rest =>
    rw [find?_cons_of_pos (by simp [hrest a mem_cons_self])] at hp
    cases hp
    exact ⟨front, rest, hsplit, hfront⟩

omit [DecidableEq Thread] in
theorem Ordered.nodup_writers (hs : s.Ordered) :
    (s.semaphore.token.writers.map Entry.thread).Nodup := hs.nodup.sublist hs.arrived.sublist

theorem Ordered.returned (hs : s.Ordered) (hgranted : s.granted = [(t, m)])
    (hwriters : k.token.writers.map Entry.thread =
      (s.semaphore.token.writers.map Entry.thread).erase t) (howner : k.token.owner = some t)
    (hinUse : k.token.inUse ≠ none) (hphase : k.phase = update s.semaphore.phase t .running)
    (hreaders : k.token.readers = []) (hnesting : k.token.nestingLevel = 0)
    (hstrategy : k.token.queueingStrategy = .fifo) :
    ({ s with semaphore := k }.returned t m).Ordered := by
  have hrequests : s.requests = (t, m) :: s.queued := by
    rw [requests, hgranted, singleton_append]
  have hleft : ({ s with semaphore := k }.returned t m).granted = [] := by
    simp [State.returned, hgranted]
  have hafter : ({ s with semaphore := k }.returned t m).requests = s.queued := by
    rw [requests, hleft, nil_append]
    rfl
  have hnodup := hs.nodup
  rw [hrequests, map_cons, nodup_cons] at hnodup
  have hpc (t' : Thread) : ({ s with semaphore := k }.returned t m).pc t' =
      if t' = t then .idle else s.pc t' := by
    simp only [State.returned, State.setPc, update_apply]
  constructor
  · rw [hafter]
    exact hnodup.2
  · intro t' m'
    rw [hafter, hpc]
    split
    next h =>
      rw [h]
      refine ⟨fun hmem => absurd (mem_map_of_mem hmem) hnodup.1, nofun⟩
    next h =>
      rw [← hs.pending, hrequests, mem_cons]
      exact ⟨.inr, fun h' => h'.resolve_left fun he => h (Prod.mk.inj he).1⟩
  · simp [State.returned, hgranted, State.setPc, hs.strays]
  · rw [hafter]
    have harrived := hs.arrived
    rw [hrequests, map_cons] at harrived
    refine (congrArg (· <+: _) hwriters).mpr ?_
    cases hlist : s.semaphore.token.writers.map Entry.thread with
    | nil => exact nil_prefix
    | cons a w =>
      rw [hlist] at harrived
      obtain ⟨rfl, htail⟩ := cons_prefix_cons.mp harrived
      rw [erase_cons_head]
      exact htail
  · intro t'
    refine (iff_of_eq (congrArg (t' ∈ ·) hwriters)).trans ?_
    rw [hs.nodup_writers.mem_erase_iff, hpc, hs.waits]
    split
    next h => simp [h, Pc.waits]
    next h => simp [h]
  · intro t' h
    rw [hpc] at h
    refine (congrFun hphase t').trans ?_
    rw [update_apply]
    split
    next => rfl
    next ht =>
      rw [if_neg ht] at h
      exact hs.phase t' h
  · intro t' h
    rw [hpc] at h
    have ht : t' ≠ t := by
      rintro rfl
      simp [Pc.waits] at h
    rw [if_neg ht] at h
    obtain ⟨signalled, hwaiting⟩ := hs.asleep t' h
    refine ⟨signalled, (congrFun hphase t').trans ?_⟩
    rw [update_of_ne ht, hwaiting]
  · exact hreaders
  · exact hnesting
  · exact hstrategy
  · refine fun _ => ⟨hinUse, fun t' ht' => ?_⟩
    have heq : t' = t := some.inj (ht'.symm.trans howner)
    rw [hpc, if_pos heq]
    rfl
  · intro p hp
    rw [hleft] at hp
    cases hp

/-- The thread next in order goes to the back of the token's queue. -/
theorem Ordered.entered (hs : s.Ordered) (hpc : s.pc t = .acquiring m)
    (hnext : s.next.map Prod.fst = some t) (hinUse : s.semaphore.token.inUse ≠ none)
    (howner : s.semaphore.token.owner ≠ some t)
    (htoken : k.token = s.semaphore.token.enter .writeToken ⟨t, false⟩ (-1))
    (hphase : k.phase = update s.semaphore.phase t (.waiting .writeToken none false false)) :
    ({ s with semaphore := k }.setPc t (.waiting m)).Ordered := by
  obtain ⟨p, hp, hpt⟩ := map_eq_some_iff.mp hnext
  obtain ⟨front, rest, hsplit, hfront⟩ := hs.next hp
  have hwriters : k.token.writers.map Entry.thread =
      s.semaphore.token.writers.map Entry.thread ++ [t] := by
    rw [htoken]
    cases hlist : s.semaphore.token.writers with
    | nil => simp [enter, setQueue, queue, hlist, insertEntry]
    | cons e w =>
      have hback := insert_back (cons_ne_nil e w) ⟨t, false⟩
      simp [enter, setQueue, queue, hlist, hback]
  have hwaits (t' : Thread) : (({ s with semaphore := k }.setPc t (.waiting m)).pc t').waits = true ↔
      t' = t ∨ (s.pc t').waits = true := by
    simp only [State.setPc, update_apply]
    split
    next h => simp [h, Pc.waits]
    next h => simp [h]
  have haway (t' : Thread)
      (h : (({ s with semaphore := k }.setPc t (.waiting m)).pc t').waits = false) :
      t' ≠ t ∧ (s.pc t').waits = false := by
    have hno := mt (hwaits t').mpr (by rw [h]; decide)
    exact ⟨fun he => hno (.inl he), by simpa using fun he => hno (.inr he)⟩
  constructor
  · exact hs.nodup
  · intro t' m'
    simp only [State.setPc, update_apply]
    split
    next h =>
      rw [h]
      refine (hs.pending t m').trans ?_
      rw [hpc]
      rfl
    next => exact hs.pending t' m'
  · exact hs.strays
  · refine (congrArg (· <+: _) hwriters).mpr ?_
    have hsame : (({ s with semaphore := k } : State Thread).setPc t (.waiting m)).requests =
      s.requests := rfl
    refine ⟨rest.map Prod.fst, ?_⟩
    rw [hsame, hsplit, hfront, map_append, map_cons, hpt, append_assoc, singleton_append]
  · intro t'
    refine (iff_of_eq (congrArg (t' ∈ ·) hwriters)).trans ?_
    rw [hwaits, mem_append, mem_singleton, hs.waits]
    exact or_comm
  · intro t' h
    obtain ⟨hne, haway'⟩ := haway t' h
    refine (congrFun hphase t').trans ?_
    rw [update_of_ne hne]
    exact hs.phase t' haway'
  · intro t' h
    by_cases ht : t' = t
    · refine ⟨false, (congrFun hphase t').trans ?_⟩
      rw [ht, update_self]
    · obtain ⟨signalled, hwaiting⟩ := hs.asleep t' (((hwaits t').mp h).resolve_left ht)
      refine ⟨signalled, (congrFun hphase t').trans ?_⟩
      rw [update_of_ne ht, hwaiting]
  · refine (congrArg Synch.Token.readers htoken).trans ?_
    exact hs.readers
  · refine (congrArg nestingLevel htoken).trans ?_
    exact hs.nesting
  · refine (congrArg queueingStrategy htoken).trans ?_
    exact hs.strategy
  · intro h
    refine ⟨fun hnone => hinUse ((congrArg inUse htoken).symm.trans hnone), ?_⟩
    intro t' ht'
    have hold : s.semaphore.token.owner = some t' := (congrArg owner htoken).symm.trans ht'
    by_contra hno
    rcases (hwaits t').mp (by simpa using hno) with rfl | hw
    · exact howner hold
    · exact absurd (((hs.idle h).2 t' hold).symm.trans hw) Bool.false_ne_true
  · intro p' hp'
    obtain ⟨hone, hwaiting, hnot⟩ := hs.served p' hp'
    have hthere : (s.pc p'.1).waits = true := by
      by_contra hno
      exact hinUse (hnot (by simpa using hno)).1
    refine ⟨hone, fun _ => ?_, fun h => absurd ((haway p'.1 h).2.symm.trans hthere) Bool.false_ne_true⟩
    obtain ⟨hused, howned⟩ := hwaiting hthere
    exact ⟨fun hnone => hused ((congrArg inUse htoken).symm.trans hnone),
      (congrArg owner htoken).trans howned⟩

/-- A thread that comes to the token in order, and not as its owner, goes through if its
request is granted and waits if it is not. -/
theorem Ordered.acquire (hs : s.Ordered) (hpc : s.pc t = .acquiring m)
    (hnext : s.next.map Prod.fst = some t) (howner : s.semaphore.token.owner ≠ some t) :
    (s.afterToken (Synch.sharedAcquire s.semaphore t .writeToken .forever) t m).Ordered := by
  have hrunning : s.semaphore.phase t = .running := hs.phase t (by rw [hpc]; rfl)
  by_cases hfree : s.semaphore.token.inUse = none
  · obtain ⟨p, hp, hpt⟩ := map_eq_some_iff.mp hnext
    cases hgranted : s.granted with
    | nil => exact absurd hfree (hs.idle hgranted).1
    | cons a rest =>
      obtain ⟨hone, hwaiting, -⟩ := hs.served a (by rw [hgranted]; exact mem_cons_self)
      -- The token is free for the thread of the grant, which is not there yet.
      have haway : (s.pc a.1).waits = false := by
        by_contra h
        exact (hwaiting (by simpa using h)).1 hfree
      have hfirst : s.next = some a := by
        rw [State.next, requests, hone, singleton_append, find?_cons_of_pos (by simp [haway])]
      have hat : a = (t, m) := by
        rw [hfirst, some.injEq] at hp
        have hmem : a ∈ s.requests := by
          rw [requests, hone]
          exact mem_cons_self
        have hm := (hs.pending a.1 a.2).mp hmem
        rw [hp, hpt, hpc] at hm
        exact Prod.ext (by rw [hp, hpt]) (by rw [hp]; exact (some.inj hm).symm)
      rw [hat] at hone
      rw [afterToken, sharedAcquire, if_pos hfree, if_pos hrunning]
      refine hs.returned hone ?_ rfl nofun ?_ hs.readers hs.nesting hs.strategy
      · refine (erase_of_not_mem fun h => ?_).symm
        have hw := (hs.waits t).mp h
        rw [hpc] at hw
        cases hw
      · rw [← hrunning, update_eq_self]
  · have hphase : (sharedAcquire s.semaphore t .writeToken .forever).phase t ≠ .running := by
      rw [sharedAcquire, if_neg hfree, if_neg howner, if_neg nofun]
      simp
    rw [afterToken, if_neg hphase]
    refine hs.entered hpc hnext hfree howner ?_ ?_
    · rw [sharedAcquire, if_neg hfree, if_neg howner, if_neg nofun, hs.strategy]
      rfl
    · rw [sharedAcquire, if_neg hfree, if_neg howner, if_neg nofun]
      rfl

theorem map_removeEntry (q : List (Entry Thread)) (t : Thread) :
    (Synch.removeEntry q t).map Entry.thread = (q.map Entry.thread).erase t := by
  unfold removeEntry
  induction q with
  | nil => rfl
  | cons e q ih =>
    by_cases he : e.thread = t
    · rw [eraseP_cons_of_pos (by simpa using he), map_cons, he, erase_cons_head]
    · rw [eraseP_cons_of_neg (by simpa using he), map_cons, map_cons, ih,
        erase_cons_tail (by simpa using he)]

omit [DecidableEq Thread] in
theorem Ordered.granted_of_owner (hs : s.Ordered) (hpc : s.pc t = .waiting m)
    (howner : s.semaphore.token.owner = some t) :
    s.granted = [(t, m)] ∧ s.semaphore.token.inUse ≠ none := by
  have hwaits : (s.pc t).waits = true := by
    rw [hpc]
    rfl
  cases hlist : s.granted with
  | nil => exact absurd (((hs.idle hlist).2 t howner).symm.trans hwaits) nofun
  | cons a rest =>
    have hmem : a ∈ s.granted := by
      rw [hlist]
      exact mem_cons_self
    obtain ⟨hone, hwaiting, haway⟩ := hs.served a hmem
    cases hw : (s.pc a.1).waits with
    | false =>
      rw [(haway hw).2] at howner
      cases howner
    | true =>
      obtain ⟨hused, howned⟩ := hwaiting hw
      have ha : a.1 = t := some.inj (howned.symm.trans howner)
      have hm := (hs.pending a.1 a.2).mp (mem_append_left _ hmem)
      rw [ha, hpc] at hm
      have hat : a = (t, m) := Prod.ext ha (some.inj hm).symm
      rw [← hlist, hone, hat]
      exact ⟨rfl, hused⟩

/-- A wait ends with the return of the thread if its request is granted, and goes on if
it is not. -/
theorem Ordered.wake (hs : s.Ordered) (hpc : s.pc t = .waiting m) {result : Wake}
    (hk : Synch.step s.semaphore (.wake t result) = some k) : (s.afterToken k t m).Ordered := by
  have hwaits : (s.pc t).waits = true := by
    rw [hpc]
    rfl
  obtain ⟨signalled, hasleep⟩ := hs.asleep t hwaits
  simp only [Synch.step, hasleep, Bool.false_eq_true, imp_false] at hk
  split at hk
  next hresult =>
    cases hk
    rw [wake, if_neg hresult.2]
    by_cases howner : s.semaphore.token.owner = some t
    · obtain ⟨hgranted, hused⟩ := hs.granted_of_owner hpc howner
      rw [if_pos howner, afterToken, if_pos (by simp [takeOver])]
      refine hs.returned hgranted ?_ howner hused rfl hs.readers hs.nesting hs.strategy
      exact map_removeEntry _ t
    · rw [if_neg howner, afterToken, if_neg (by simp)]
      have hsame (k : Synch.State Thread) :
          ({ s with semaphore := k } : State Thread).setPc t (.waiting m) =
            { s with semaphore := k } := by
        simp only [State.setPc, ← hpc, update_eq_self]
      rw [hsame]
      constructor
      · exact hs.nodup
      · exact hs.pending
      · exact hs.strays
      · exact hs.arrived
      · exact hs.waits
      · intro t' h
        have ht : t' ≠ t := by
          rintro rfl
          exact absurd (h.symm.trans hwaits) nofun
        exact (update_of_ne ht _ _).trans (hs.phase t' h)
      · intro t' h
        by_cases ht : t' = t
        · exact ⟨false, by rw [ht]; exact update_self _ _ _⟩
        · obtain ⟨signalled', hwaiting⟩ := hs.asleep t' h
          exact ⟨signalled', (update_of_ne ht _ _).trans hwaiting⟩
      · exact hs.readers
      · exact hs.nesting
      · exact hs.strategy
      · exact hs.idle
      · exact hs.served
  next => cases hk

/-! ### Steps and runs -/

/-- Threads come to the token in the order of their requests and not as its owner, and a
grant is made when no other one is on its way. -/
def Prompt (s : State Thread) : Act Thread → Prop
  | .acquire t => s.next.map Prod.fst = some t ∧ s.semaphore.token.owner ≠ some t
  | .grant _ => s.granted = []
  | _ => True

instance (s : State Thread) : ∀ l, Decidable (s.Prompt l)
  | .acquire _ => inferInstanceAs (Decidable (_ ∧ _))
  | .grant _ => inferInstanceAs (Decidable (_ = _))
  | .lock _ _ | .tryLock _ _ | .unlock _ _ | .lockHeld _ _ _ | .changeMode _ | .giveHeld _
  | .count _ | .leave _ | .wake _ _ => inferInstanceAs (Decidable True)

theorem Counted.back (hs : s.Counted) (hgranted : (t, m) ∈ s.granted) (k : Synch.State Thread) :
    ({ s with semaphore := k }.returned t m).Counted where
  queue := hs.queue
  counts := by
    refine hs.counts.perm ?_
    refine (Perm.append_left s.held (perm_cons_erase hgranted)).trans ?_
    exact perm_middle
  compatible := hs.compatible
  changes t' m' h := by
    refine mem_cons_of_mem _ ?_
    exact mem_changes (p := .idle) hs nofun t' m' h

/-- A thread that comes back keeps the counters right if it had a grant. -/
theorem Counted.afterToken (hs : s.Counted) (hstrays : (s.afterToken k t m).strays = []) :
    (s.afterToken k t m).Counted := by
  unfold State.afterToken at hstrays ⊢
  split
  next hrunning =>
    rw [if_pos hrunning] at hstrays
    refine hs.back ?_ k
    by_contra hno
    simp [returned, hno] at hstrays
  next =>
    have hk : ({ s with semaphore := k } : State Thread).Counted :=
      ⟨hs.queue, hs.counts, hs.compatible, hs.changes⟩
    exact hk.setPc nofun

theorem Ordered.lock (hs : s.Ordered) (ht : s.pc t = .idle) (m : Mode) : (s.lock t m).Ordered := by
  unfold State.lock
  split
  · refine (hs.enqueue (t := t) (p := .acquiring m) ?_ rfl rfl).congr (fun _ => rfl) (fun _ => rfl)
      rfl rfl rfl rfl
    rw [ht]
    rfl
  · exact hs.congr (fun _ => rfl) (fun _ => rfl) rfl rfl rfl rfl

omit [DecidableEq Thread] in
theorem Ordered.tryLock (hs : s.Ordered) (t : Thread) (m : Mode) : (s.tryLock t m).Ordered := by
  unfold State.tryLock
  split
  · exact hs.congr (fun _ => rfl) (fun _ => rfl) rfl rfl rfl rfl
  · exact hs

theorem Ordered.give (hs : s.Ordered) {next : Option Mode} (hpos : 0 < s.locks.lock m)
    (ht : (s.pc t).request = next) (hwaits : (s.pc t).waits = false) :
    (s.give t m next).Ordered := by
  rw [State.give, if_neg (by omega)]
  refine (hs.setPc (t := t) (p := .unlocking next) ht.symm hwaits.symm).congr (fun _ => rfl)
    (fun _ => rfl) rfl rfl rfl rfl

theorem Ordered.changeMode (hs : s.Ordered) {held new : Mode} (ht : s.pc t = .changing held new) :
    (s.changeMode t held new).Ordered := by
  unfold State.changeMode
  split
  · refine (hs.enqueue (t := t) (p := .giving held new) ?_ rfl rfl).congr (fun _ => rfl)
      (fun _ => rfl) rfl rfl rfl rfl
    rw [ht]
    rfl
  · refine (hs.setPc (t := t) (p := .idle) ?_ ?_).congr (fun _ => rfl) (fun _ => rfl)
      rfl rfl rfl rfl
    · rw [ht]
      rfl
    · rw [ht]
      rfl

theorem Ordered.leave (hs : s.Ordered) {next : Option Mode} (ht : s.pc t = .unlocking next) :
    (s.leave t next).Ordered := by
  refine (hs.setPc (t := t) (p := next.elim .idle .acquiring) ?_ ?_).congr (fun _ => rfl)
    (fun _ => rfl) rfl rfl rfl rfl
  · rw [ht]
    cases next <;> rfl
  · rw [ht]
    cases next <;> rfl

/-- **Step.** -/
theorem inv_step (s : State Thread) (l : Act Thread) (s' : State Thread)
    (hs : s.Guarded ∧ s.Counted ∧ s.Ordered) (hprompt : s.Prompt l) (h : s.step l = some s') :
    s'.Guarded ∧ s'.Counted ∧ s'.Ordered := by
  obtain ⟨hguarded, hcounted, hordered⟩ := hs
  refine ⟨guarded_step hguarded h, ?_⟩
  cases l with
  | lock t m =>
    simp only [step, ite_none_right_eq_some, some.injEq] at h
    obtain ⟨⟨hidle, hmlock⟩, rfl⟩ := h
    exact ⟨hcounted.lock (hguarded.free hmlock) t m, hordered.lock hidle m⟩
  | tryLock t m =>
    simp only [step, ite_none_right_eq_some, some.injEq] at h
    obtain ⟨⟨-, hmlock⟩, rfl⟩ := h
    exact ⟨hcounted.tryLock (hguarded.free hmlock) t m, hordered.tryLock t m⟩
  | unlock t m =>
    simp only [step, ite_none_right_eq_some, some.injEq] at h
    obtain ⟨⟨hidle, hmlock, hheld⟩, rfl⟩ := h
    have hfree := hguarded.free hmlock
    refine ⟨hcounted.give hfree hheld, hordered.give (hcounted.lock_pos hfree hheld) ?_ ?_⟩
    · rw [hidle]
      rfl
    · rw [hidle]
      rfl
  | lockHeld t held new =>
    simp only [step, ite_none_right_eq_some, some.injEq] at h
    obtain ⟨⟨hidle, hmlock, hheld⟩, rfl⟩ := h
    rw [lockHeld, if_pos (hcounted.lock_pos (hguarded.free hmlock) hheld)]
    constructor
    · refine hcounted.setPc fun m hm => ?_
      cases hm
      exact hheld
    · refine hordered.setPc ?_ ?_
      · rw [hidle]
        rfl
      · rw [hidle]
        rfl
  | changeMode t =>
    simp only [step] at h
    split at h
    next held new hpc =>
      simp only [ite_none_right_eq_some, some.injEq] at h
      obtain ⟨hmlock, rfl⟩ := h
      have hheld : (t, held) ∈ s.held := hcounted.changes t held (by rw [hpc]; rfl)
      exact ⟨hcounted.changeMode (hguarded.free hmlock) hheld, hordered.changeMode hpc⟩
    next => cases h
  | giveHeld t =>
    simp only [step] at h
    split at h
    next held new hpc =>
      simp only [ite_none_right_eq_some, some.injEq] at h
      obtain ⟨hmlock, rfl⟩ := h
      have hfree := hguarded.free hmlock
      have hheld : (t, held) ∈ s.held := hcounted.changes t held (by rw [hpc]; rfl)
      refine ⟨hcounted.give hfree hheld, hordered.give (hcounted.lock_pos hfree hheld) ?_ ?_⟩
      · rw [hpc]
        rfl
      · rw [hpc]
        rfl
    next => cases h
  | grant t =>
    simp only [step] at h
    split at h
    next next hpc hfree =>
      obtain ⟨r, hgrant, rfl⟩ := map_eq_some_iff.mp h
      obtain ⟨hcounted', p, q, hqueued⟩ := hcounted.grant hfree hgrant t
      exact ⟨hcounted', hordered.grant hprompt hqueued t r⟩
    next => cases h
  | count t =>
    simp only [step] at h
    split at h
    next next m hpc hm =>
      cases h
      exact ⟨hcounted.count hm, hordered.congr (fun _ => rfl) (fun _ => rfl) rfl rfl rfl rfl⟩
    next => cases h
  | leave t =>
    simp only [step] at h
    split at h
    next next hpc hfree =>
      simp only [ite_none_right_eq_some, some.injEq] at h
      obtain ⟨-, rfl⟩ := h
      have hleft := hcounted.setPc (t := t) (p := next.elim .idle .acquiring)
        fun m hm => by cases next <;> cases hm
      exact ⟨⟨hleft.queue, hleft.counts, hleft.compatible, hleft.changes⟩, hordered.leave hpc⟩
    next => cases h
  | acquire t =>
    simp only [step] at h
    split at h
    next m hpc =>
      obtain ⟨k, hk, rfl⟩ := map_eq_some_iff.mp h
      have hrunning : s.semaphore.phase t = .running := hordered.phase t (by rw [hpc]; rfl)
      rw [Synch.step, if_pos hrunning, some.injEq] at hk
      rw [← hk]
      have hafter := hordered.acquire hpc hprompt.1 hprompt.2
      exact ⟨hcounted.afterToken hafter.strays, hafter⟩
    next => cases h
  | wake t result =>
    simp only [step] at h
    split at h
    next m hpc =>
      obtain ⟨k, hk, rfl⟩ := map_eq_some_iff.mp h
      have hafter := hordered.wake hpc hk
      exact ⟨hcounted.afterToken hafter.strays, hafter⟩
    next => cases h

theorem inv_start (creator : Thread) :
    (start creator).Guarded ∧ (start creator).Counted ∧ (start creator).Ordered := by
  refine ⟨⟨nofun, fun _ => rfl⟩, ?_⟩
  constructor
  · constructor
    · rfl
    · exact fun _ => rfl
    · exact fun i j hi => absurd hi (Int.lt_irrefl 0)
    · nofun
  · constructor
    · exact nodup_nil
    · exact fun t m => ⟨nofun, nofun⟩
    · rfl
    · exact prefix_refl []
    · exact fun t => ⟨nofun, nofun⟩
    · exact fun t _ => rfl
    · nofun
    · rfl
    · rfl
    · rfl
    · exact fun _ => ⟨nofun, fun _ _ => rfl⟩
    · nofun

end State
end Atcd.Concurrency
