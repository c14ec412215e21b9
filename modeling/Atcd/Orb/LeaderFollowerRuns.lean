import Atcd.Core.Run
import Atcd.Orb.LeaderFollower
/-!
# Leadership over runs

Results:
* `leadership_of_keeps`: `leaders_` is the number of threads counted as leaders; and when
  all threads in these functions are blocked or in the reactor while it is 0, none is
  blocked for want of a leader. This holds as long as no thread that was elected leaves
  because its event is complete while others wait, and no leader is looked for while an
  event-loop thread waits for a client leader that waits as a follower itself.
* `elected_follower_loses_leadership`: such runs.
-/
namespace Atcd.Orb

open Atcd.Core List Function Option Thread

/-! ## Calls of one thread -/

/-- What the thread's part of the resources can be in the reactor under these calls. An
upcall gives up the event loops first, the leadership of a client after them, and a call
that ends takes back what it added. -/
def Fits : List Frame → Nat → Nat → Prop
  | [], el, cl => el = 0 ∧ cl = 0
  | .eventLoop _ .running :: rest, el, cl =>
    ∃ e c, Fits rest e c ∧ ((el ≤ e + 1 ∧ cl = c) ∨ (el = 0 ∧ cl ≤ c))
  | .wait _ _ _ .leader :: rest, el, cl =>
    ∃ e c, Fits rest e c ∧ ((el ≤ e ∧ cl = c + 1) ∨ (el = 0 ∧ cl ≤ c + 1))
  | .wait _ _ _ .leaving :: rest, el, cl =>
    ∃ e c, Fits rest e c ∧ ((el ≤ e ∧ cl = c + 1) ∨ (el = 0 ∧ cl ≤ c + 1))
  | _ :: rest, el, cl => Fits rest el cl

/-- Event loops can be given up, and the leadership of a client when there are none. -/
theorem Fits.fewer {stack : List Frame} {el el' cl cl' : Nat} (h : Fits stack el cl) (hel : el' ≤ el)
    (hcl : cl' = cl ∨ el' = 0 ∧ cl' ≤ cl) : Fits stack el' cl' := by
  induction stack generalizing el el' cl cl' with
  | nil =>
    obtain ⟨h0, h1⟩ := h
    exact ⟨by omega, by omega⟩
  | cons frame rest ih =>
    cases frame with
    | wait event timed result pc =>
      cases pc with
      | follower => exact ih h hel hcl
      | yielding => exact ih h hel hcl
      | leader =>
        obtain ⟨e, c, hr, hc⟩ := h
        exact ⟨e, c, hr, by omega⟩
      | leaving =>
        obtain ⟨e, c, hr, hc⟩ := h
        exact ⟨e, c, hr, by omega⟩
    | eventLoop timed pc =>
      cases pc with
      | pending => exact ih h hel hcl
      | failed => exact ih h hel hcl
      | running =>
        obtain ⟨e, c, hr, hc⟩ := h
        exact ⟨e, c, hr, by omega⟩

theorem Fits.loops {stack : List Frame} {el el' cl : Nat} (h : Fits stack el cl) (hle : el' ≤ el) :
    Fits stack el' cl := h.fewer hle (.inl rfl)

theorem Fits.leaders {stack : List Frame} {el cl cl' : Nat} (h : Fits stack el cl) (hle : cl' ≤ cl) :
    Fits stack 0 cl' := h.fewer (Nat.zero_le el) (.inr ⟨rfl, hle⟩)

/-- The end of the client leader's loop: what is left fits the calls below, and there is
nothing left to give back when the leadership was given up. -/
theorem Fits.leave {event : Nat} {timed : Bool} {result : Int} {rest : List Frame} {el cl : Nat}
    (h : Fits (.wait event timed result .leaving :: rest) el cl) :
    Fits rest el (cl - 1) ∧ (cl = 0 → el = 0) := by
  obtain ⟨e, c, hr, ⟨hel, hcl⟩ | ⟨hel, hcl⟩⟩ := h
  · refine ⟨?_, fun h0 => by omega⟩
    have hc : cl - 1 = c := by omega
    rw [hc]
    exact hr.loops hel
  · refine ⟨?_, fun _ => hel⟩
    rw [hel]
    exact hr.leaders (by omega)

theorem Fits.resetLoop {timed : Bool} {rest : List Frame} {el cl : Nat}
    (h : Fits (.eventLoop timed .running :: rest) el cl) : Fits rest (el - 1) cl := by
  obtain ⟨e, c, hr, ⟨hel, hcl⟩ | ⟨hel, hcl⟩⟩ := h
  · rw [hcl]
    exact hr.loops (by omega)
  · rw [hel]
    exact hr.leaders hcl

namespace LeaderFollower

variable {n : Nat} {σ : Type} {C : EventClass n σ} {s s' : LeaderFollower n σ} {t u : Fin n} {th : Thread}

/-! ## Sums over the threads -/

def total (f : Thread → Int) (s : LeaderFollower n σ) : Int := ∑ t, f (s.threads t)

open Finset

theorem total_update (f : Thread → Int) (threads : Fin n → Thread) (t : Fin n) (th : Thread) :
    ∑ u, f (update threads t th u) = ∑ u, f (threads u) - f (threads t) + f th := by
  rw [← add_sum_erase _ _ (mem_univ t), ← add_sum_erase _ (fun u => f (threads u)) (mem_univ t)]
  have hrest : ∀ u ∈ univ.erase t, f (update threads t th u) = f (threads u) := fun u hu => by
    rw [update_of_ne (ne_of_mem_erase hu)]
  rw [sum_congr rfl hrest, update_self]
  omega

end LeaderFollower

namespace Thread

variable {th : Thread} {wake : Wake}

/-- What the thread adds to the counters of the leader/followers. -/
def count (th : Thread) : Int := if th.counted then 1 else 0

def clients (th : Thread) : Int := th.clientLeaderThread

def pendings (th : Thread) : Int := if th.isPending then 1 else 0

/-- The resources fit the calls, and the calls are made from one another's upcalls. -/
structure FitsCalls (th : Thread) : Prop where
  fits : Fits th.stack th.eventLoopThread th.clientLeaderThread
  nested : ∀ frame ∈ th.stack.tail, frame.active = true

/-- The thread waits as a follower, and was not signaled. -/
def blocked (th : Thread) : Bool :=
  match th.stack with
  | .wait _ _ _ (.follower .blocked) :: _ => true
  | _ => false

/-- The thread runs in these functions, and will see to it that there is a leader. -/
def awake (th : Thread) : Bool :=
  match th.stack with
  | .wait _ _ _ .leaving :: _ => true
  | .wait _ _ _ .yielding :: _ => true
  | .wait _ _ _ (.follower .elected) :: _ => true
  | .wait _ _ _ (.follower .signaled) :: _ => th.leads
  | .eventLoop _ .failed :: _ => true
  | _ => false

/-- The thread waits for the client leader, and was signaled. -/
def roused (th : Thread) : Bool :=
  match th.stack with
  | .eventLoop _ (.pending true) :: _ => true
  | _ => false

theorem count_nonneg (th : Thread) : 0 ≤ th.count := by
  unfold count
  split <;> omega

theorem pendings_nonneg (th : Thread) : 0 ≤ th.pendings := by
  unfold pendings
  split <;> omega

theorem counted_of_active (h : th.active = true) : th.counted = th.leads := by
  unfold active at h
  unfold counted
  cases hs : th.stack with
  | nil => rfl
  | cons frame rest =>
    rw [hs] at h
    cases frame with
    | wait event timed result pc => cases pc <;> first | rfl | cases h
    | eventLoop timed pc => rfl

theorem count_of_active (h : th.active = true) : th.count = if th.leads then 1 else 0 := by
  rw [count, counted_of_active h]

theorem leads_eq (th : Thread) : th.leads = true ↔ ¬(th.eventLoopThread = 0 ∧ th.clientLeaderThread = 0) := by
  simp only [leads, Bool.or_eq_true, decide_eq_true_eq]
  omega

theorem pendings_eq (h : th.isPending = false) : th.pendings = 0 := by
  simp [pendings, h]

theorem pendings_of_wait {event : Nat} {timed : Bool} {result : Int} {pc : WaitPc} {rest : List Frame}
    (h : th.stack = .wait event timed result pc :: rest) : th.pendings = 0 := by
  simp [pendings, isPending, h]

theorem count_of_client {event : Nat} {timed : Bool} {result : Int} {pc : WaitPc} {rest : List Frame}
    (h : th.stack = .wait event timed result pc :: rest) (hpc : pc = .yielding ∨ ∃ wake, pc = .follower wake) :
    th.count = 0 := by
  rcases hpc with rfl | ⟨wake, rfl⟩ <;> simp [count, counted, h]

theorem count_of_loop {timed : Bool} {pc : LoopPc} {rest : List Frame} (h : th.stack = .eventLoop timed pc :: rest) :
    th.count = if th.leads then 1 else 0 := by
  simp [count, counted, h]

theorem not_of_active (h : th.active = true) : th.blocked = false ∧ th.isPending = false ∧ th.awake = false ∧
    th.roused = false ∧ th.follows = false := by
  unfold active at h
  unfold blocked isPending awake roused follows
  cases hs : th.stack with
  | nil => simp
  | cons frame rest =>
    rw [hs] at h
    cases frame with
    | wait event timed result pc => cases pc <;> first | exact ⟨rfl, rfl, rfl, rfl, rfl⟩ | cases h
    | eventLoop timed pc => cases pc <;> first | exact ⟨rfl, rfl, rfl, rfl, rfl⟩ | cases h

theorem not_awake_of_quiescent
    (h : th.active = true ∨ th.blocked = true ∨ (th.isPending = true ∧ th.roused = false)) :
    th.awake = false ∧ th.roused = false := by
  rcases h with ha | hb | ⟨hp, hr⟩
  · exact ⟨(not_of_active ha).2.2.1, (not_of_active ha).2.2.2.1⟩
  · unfold blocked at hb
    split at hb
    · next heq => simp [awake, roused, heq]
    · cases hb
  · refine ⟨?_, hr⟩
    unfold isPending at hp
    split at hp
    · next heq => simp [awake, heq]
    · cases hp

theorem FitsCalls.push (hf : th.FitsCalls) (ha : th.active = true) : ∀ frame ∈ th.stack, frame.active = true := by
  unfold active at ha
  have hnested := hf.nested
  cases hs : th.stack with
  | nil => simp
  | cons frame rest =>
    rw [hs] at ha hnested
    intro f hm
    rcases mem_cons.mp hm with rfl | hm
    · exact ha
    · exact hnested f hm

theorem active_of_nested {rest : List Frame} (el cl : Nat) (h : ∀ frame ∈ rest, frame.active = true) :
    (Thread.mk rest el cl).active = true ∧ ∀ frame ∈ rest.tail, frame.active = true := by
  refine ⟨?_, fun frame hm => h frame (mem_of_mem_tail hm)⟩
  cases rest with
  | nil => rfl
  | cons frame rest => exact h frame mem_cons_self

theorem signal_same (th : Thread) (wake : Wake) : (th.signal wake).count = th.count ∧
    (th.signal wake).clients = th.clients ∧ (th.signal wake).pendings = th.pendings ∧
    ((th.signal wake).FitsCalls ↔ th.FitsCalls) ∧ (th.signal wake).follows = th.follows ∧
    (th.signal wake).clientLeaderThread = th.clientLeaderThread ∧ (th.signal wake).roused = th.roused := by
  unfold signal
  split
  · next heq =>
    refine ⟨?_, rfl, ?_, ⟨fun hf => ⟨?_, ?_⟩, fun hf => ⟨?_, ?_⟩⟩, ?_, rfl, ?_⟩
    · simp [count, counted, heq]
    · simp [pendings, isPending, heq]
    · simpa [heq, Fits] using hf.fits
    · simpa [heq] using hf.nested
    · simpa [heq, Fits] using hf.fits
    · simpa [heq] using hf.nested
    · simp [follows, heq]
    · simp [roused, heq]
  · simp

theorem blocked_signal (hw : wake ≠ .blocked) : (th.signal wake).blocked = false := by
  unfold signal
  split
  · unfold blocked
    split
    · next heq =>
      cases heq
      exact absurd rfl hw
    · rfl
  · next hne =>
    unfold blocked
    split
    · next heq => exact absurd heq (hne _ _ _ _)
    · rfl

theorem awake_signal (h : th.awake = true) : (th.signal wake).awake = true := by
  unfold signal
  split
  · next heq => simp [awake, heq] at h
  · exact h

theorem awake_elected (h : th.blocked = true) : (th.signal .elected).awake = true := by
  unfold blocked at h
  split at h
  · next heq => simp [signal, awake, heq]
  · cases h

theorem broadcast_same (th : Thread) : th.broadcast.count = th.count ∧ th.broadcast.clients = th.clients ∧
    th.broadcast.pendings = th.pendings ∧ (th.broadcast.FitsCalls ↔ th.FitsCalls) ∧
    th.broadcast.follows = th.follows ∧ th.broadcast.clientLeaderThread = th.clientLeaderThread ∧
    th.broadcast.blocked = th.blocked ∧ th.broadcast.awake = th.awake := by
  unfold broadcast
  split
  · next heq =>
    refine ⟨?_, rfl, ?_, ⟨fun hf => ⟨?_, ?_⟩, fun hf => ⟨?_, ?_⟩⟩, ?_, rfl, ?_, ?_⟩
    · simp [count, counted, leads, heq]
    · simp [pendings, isPending, heq]
    · simpa [heq, Fits] using hf.fits
    · simpa [heq] using hf.nested
    · simpa [heq, Fits] using hf.fits
    · simpa [heq] using hf.nested
    · simp [follows, heq]
    · simp [blocked, heq]
    · simp [awake, heq]
  · simp

theorem roused_broadcast (h : th.isPending = true) : th.broadcast.roused = true := by
  unfold isPending at h
  split at h
  · next heq => simp [broadcast, roused, heq]
  · cases h

end Thread

namespace LeaderFollower

variable {n : Nat} {σ : Type} {C : EventClass n σ} {s s' : LeaderFollower n σ} {t u : Fin n} {th : Thread}

/-! ## The counters -/

structure Base (s : LeaderFollower n σ) : Prop where
  fits : ∀ t, (s.threads t).FitsCalls
  leaders : s.leaders = total Thread.count s
  clients : s.clientThreadIsLeader = total Thread.clients s
  waiting : s.eventLoopThreadsWaiting = total Thread.pendings s
  nodup : s.followerSet.Nodup
  set : ∀ t, t ∈ s.followerSet ↔ (s.threads t).blocked = true

theorem base_fresh (n : Nat) (events : σ) : (fresh n events).Base where
  fits _ := ⟨⟨rfl, rfl⟩, by simp [fresh]⟩
  leaders := by simp [fresh, total, Thread.count, Thread.counted, Thread.leads]
  clients := by simp [fresh, total, clients]
  waiting := by simp [fresh, total, pendings, isPending]
  nodup := nodup_nil
  set t := by simp [fresh, blocked]

theorem Base.update (hb : s.Base) (t : Fin n) (th : Thread)
    (hthreads : s'.threads = update s.threads t th) (hfits : th.FitsCalls)
    (hl : s'.leaders = s.leaders - (s.threads t).count + th.count)
    (hc : s'.clientThreadIsLeader = s.clientThreadIsLeader - (s.threads t).clients + th.clients)
    (hw : s'.eventLoopThreadsWaiting = s.eventLoopThreadsWaiting - (s.threads t).pendings + th.pendings)
    (hn : s'.followerSet.Nodup) (hother : ∀ u, u ≠ t → (u ∈ s'.followerSet ↔ u ∈ s.followerSet))
    (hself : t ∈ s'.followerSet ↔ th.blocked = true) : s'.Base where
  fits u := by
    rw [hthreads]
    by_cases hu : u = t
    · rw [hu, update_self]
      exact hfits
    · rw [update_of_ne hu]
      exact hb.fits u
  leaders := by
    rw [hl, hb.leaders, total, total, hthreads, total_update]
  clients := by
    rw [hc, hb.clients, total, total, hthreads, total_update]
  waiting := by
    rw [hw, hb.waiting, total, total, hthreads, total_update]
  nodup := hn
  set u := by
    rw [hthreads]
    by_cases hu : u = t
    · rw [hu, update_self]
      exact hself
    · rw [update_of_ne hu, hother u hu]
      exact hb.set u

theorem Base.below {frame : Frame} {rest : List Frame} (hb : s.Base) (ht : (s.threads t).stack = frame :: rest) :
    ∀ frame ∈ rest, frame.active = true := by
  have hnested := (hb.fits t).nested
  rwa [ht] at hnested

theorem Base.fitsBelow {timed : Bool} {pc : LoopPc} {rest : List Frame} (hb : s.Base)
    (ht : (s.threads t).stack = .eventLoop timed pc :: rest) (hpc : pc ≠ .running := by simp) :
    Fits rest (s.threads t).eventLoopThread (s.threads t).clientLeaderThread := by
  have hfits := (hb.fits t).fits
  rw [ht] at hfits
  cases pc with
  | pending => exact hfits
  | failed => exact hfits
  | running => exact absurd rfl hpc

theorem Base.events (hb : s.Base) (events : σ) : Base { s with events } :=
  ⟨hb.fits, hb.leaders, hb.clients, hb.waiting, hb.nodup, hb.set⟩

theorem Base.leaders_nonneg (hb : s.Base) : 0 ≤ s.leaders := by
  rw [hb.leaders]
  exact Finset.sum_nonneg fun t _ => (s.threads t).count_nonneg

theorem Base.count_le (hb : s.Base) (t : Fin n) : (s.threads t).count ≤ s.leaders := by
  rw [hb.leaders]
  exact Finset.single_le_sum (f := fun t => (s.threads t).count) (fun u _ => (s.threads u).count_nonneg)
      (Finset.mem_univ t)

theorem Base.exists_pending (hb : s.Base) (hw : s.eventLoopThreadsWaiting ≠ 0) :
    ∃ t, (s.threads t).isPending = true := by
  by_contra hnone
  refine hw ?_
  rw [hb.waiting]
  refine Finset.sum_eq_zero fun t _ => ?_
  have hfalse : ¬ (s.threads t).isPending = true := fun h => hnone ⟨t, h⟩
  simp [pendings, hfalse]

theorem Base.pending_pos (hb : s.Base) (h : (s.threads t).isPending = true) : 0 < s.eventLoopThreadsWaiting := by
  have hle := Finset.single_le_sum (f := fun t => (s.threads t).pendings)
    (fun u _ => (s.threads u).pendings_nonneg) (Finset.mem_univ t)
  have hone : (s.threads t).pendings = 1 := by simp [pendings, h]
  rw [hb.waiting]
  have htotal : total pendings s = ∑ u, (s.threads u).pendings := rfl
  omega

theorem leaders_others (hb : s.Base) (hb' : s'.Base) (hothers : ∀ u, u ≠ t → s'.threads u = s.threads u) :
    s.leaders - (s.threads t).count = s'.leaders - (s'.threads t).count := by
  have hthreads : s'.threads = update s.threads t (s'.threads t) := by
    funext u
    by_cases hu : u = t
    · rw [hu, update_self]
    · rw [update_of_ne hu, hothers u hu]
  have htotal : s'.leaders = s.leaders - (s.threads t).count + (s'.threads t).count := by
    rw [hb'.leaders, hb.leaders, total, hthreads, total_update, update_self]
    rfl
  omega

/-! ## Electing a leader -/

def NoneStuck (s : LeaderFollower n σ) : Prop :=
  ∀ u, (s.threads u).follows = true → (s.threads u).clientLeaderThread = 0

/-- Without a leader nobody waits, or some thread will see to it. -/
def Passed (s : LeaderFollower n σ) : Prop :=
  s.leaders = 0 → (s.followerSet = [] ∧ s.eventLoopThreadsWaiting = 0) ∨ (∃ u, (s.threads u).awake = true) ∨
    ((∃ u, (s.threads u).roused = true) ∧ s.NoneStuck)

theorem passed_of_ne (h : s.leaders ≠ 0) : s.Passed := fun h0 => absurd h0 h

theorem passed_of_awake (h : (s.threads t).awake = true) : s.Passed := fun _ => .inr (.inl ⟨t, h⟩)

theorem base_signal (hb : s.Base) (t : Fin n) {wake : Wake} (hw : wake ≠ .blocked) : (s.signal t wake).Base := by
  obtain ⟨hcount, hclients, hpendings, hfits, -⟩ := (s.threads t).signal_same wake
  refine hb.update t ((s.threads t).signal wake) rfl (hfits.mpr (hb.fits t)) ?_ ?_ ?_ (hb.nodup.erase t)
    (fun u hu => mem_erase_of_ne hu) ?_
  · change s.leaders = _
    omega
  · change s.clientThreadIsLeader = _
    omega
  · change s.eventLoopThreadsWaiting = _
    omega
  · rw [blocked_signal hw]
    change t ∈ s.followerSet.erase t ↔ _
    simp [hb.nodup.not_mem_erase]

theorem base_broadcast (hb : s.Base) : Base { s with threads := fun t => (s.threads t).broadcast } := by
  have hsame := fun t => (s.threads t).broadcast_same
  refine ⟨fun t => (hsame t).2.2.2.1.mpr (hb.fits t), ?_, ?_, ?_, hb.nodup, fun t => ?_⟩
  · exact hb.leaders.trans (Finset.sum_congr rfl fun t _ => (hsame t).1.symm)
  · exact hb.clients.trans (Finset.sum_congr rfl fun t _ => (hsame t).2.1.symm)
  · exact hb.waiting.trans (Finset.sum_congr rfl fun t _ => (hsame t).2.2.1.symm)
  · rw [hb.set t]
    rw [(hsame t).2.2.2.2.2.2.1]

theorem electNewLeader_cases (s : LeaderFollower n σ) : (s.leaders ≠ 0 ∧ s.electNewLeader = s) ∨
    (s.leaders = 0 ∧ s.eventLoopThreadsWaiting ≠ 0 ∧
      s.electNewLeader = { s with threads := fun t => (s.threads t).broadcast }) ∨
    (s.leaders = 0 ∧ s.eventLoopThreadsWaiting = 0 ∧
      ((s.followerSet = [] ∧ s.electNewLeader = s) ∨
        ∃ t rest, s.followerSet = t :: rest ∧ s.electNewLeader = s.signal t .elected)) := by
  unfold electNewLeader
  by_cases hl : s.leaders = 0
  · by_cases hw : s.eventLoopThreadsWaiting = 0
    · rw [if_pos hl, if_neg (not_not.mpr hw)]
      cases hset : s.followerSet with
      | nil => exact .inr (.inr ⟨hl, hw, .inl ⟨rfl, rfl⟩⟩)
      | cons t rest => exact .inr (.inr ⟨hl, hw, .inr ⟨t, rest, rfl, rfl⟩⟩)
    · rw [if_pos hl, if_pos hw]
      exact .inr (.inl ⟨hl, hw, rfl⟩)
  · rw [if_neg hl]
    exact .inl ⟨hl, rfl⟩

theorem base_elect (hb : s.Base) : s.electNewLeader.Base := by
  obtain ⟨-, heq⟩ | ⟨-, -, heq⟩ | ⟨-, -, ⟨-, heq⟩ | ⟨t, rest, -, heq⟩⟩ := s.electNewLeader_cases
  · rwa [heq]
  · rw [heq]
    exact base_broadcast hb
  · rwa [heq]
  · rw [heq]
    exact base_signal hb t (by simp)

theorem awake_elect (h : (s.threads u).awake = true) : (s.electNewLeader.threads u).awake = true := by
  obtain ⟨-, heq⟩ | ⟨-, -, heq⟩ | ⟨-, -, ⟨-, heq⟩ | ⟨t, rest, -, heq⟩⟩ := s.electNewLeader_cases
  · rwa [heq]
  · rw [heq]
    exact (s.threads u).broadcast_same.2.2.2.2.2.2.2 ▸ h
  · rwa [heq]
  · rw [heq]
    change (update s.threads t _ u).awake = true
    by_cases htu : u = t
    · subst htu
      rw [update_self]
      exact awake_signal h
    · rwa [update_of_ne htu]

theorem roused_elect (hb : s.Base) (hw : s.eventLoopThreadsWaiting ≠ 0) (hnone : s.NoneStuck) :
    (∃ t, (s.threads t).isPending = true ∧ (s.threads t).broadcast.roused = true) ∧
      NoneStuck { s with threads := fun t => (s.threads t).broadcast } := by
  obtain ⟨t, ht⟩ := hb.exists_pending hw
  refine ⟨⟨t, ht, roused_broadcast ht⟩, fun u hu => ?_⟩
  have hsame := (s.threads u).broadcast_same
  rw [hsame.2.2.2.2.2.1]
  exact hnone u (hsame.2.2.2.2.1 ▸ hu)

theorem awake_signaled (hb : s.Base) {rest : List (Fin n)} (hset : s.followerSet = t :: rest) :
    ((s.signal t .elected).threads t).awake = true := by
  have hblocked : (s.threads t).blocked = true := (hb.set t).mp (by simp [hset])
  change (update s.threads t _ t).awake = true
  rw [update_self]
  exact awake_elected hblocked

theorem passed_elect (hb : s.Base)
    (hstuck : s.leaders = 0 → s.eventLoopThreadsWaiting ≠ 0 → s.NoneStuck) : s.electNewLeader.Passed := by
  obtain ⟨hl, heq⟩ | ⟨hl, hw, heq⟩ | ⟨hl, hw, ⟨hset, heq⟩ | ⟨t, rest, hset, heq⟩⟩ := s.electNewLeader_cases
  · rw [heq]
    exact passed_of_ne hl
  · rw [heq]
    obtain ⟨⟨t, -, ht⟩, hnone⟩ := roused_elect hb hw (hstuck hl hw)
    exact fun _ => .inr (.inr ⟨⟨t, ht⟩, hnone⟩)
  · rw [heq]
    exact fun _ => .inl ⟨hset, hw⟩
  · rw [heq]
    exact passed_of_awake (awake_signaled hb hset)

/-! ## The parts of the steps -/

theorem Base.not_mem (hb : s.Base) (h : (s.threads t).blocked = false) : t ∉ s.followerSet := fun hm => by
  rw [hb.set t, h] at hm
  cases hm

theorem Base.notMem_iff (hb : s.Base) (h : (s.threads t).blocked = false) {th : Thread} (hth : th.blocked = false) :
    t ∈ s.followerSet ↔ th.blocked = true := by
  rw [hth]
  simp [hb.not_mem h]

theorem base_enter (hb : s.Base) (ha : (s.threads t).active = true) (event : Nat) (timed : Bool) :
    ((s.setClientThread t).setStack t (.wait event timed 1 .yielding :: (s.threads t).stack)).Base := by
  have hfree := not_of_active ha
  refine hb.update t { s.threads t with stack := .wait event timed 1 .yielding :: (s.threads t).stack } rfl
    ⟨(hb.fits t).fits, (hb.fits t).push ha⟩ ?_ ?_ ?_ hb.nodup (fun u _ => Iff.rfl) (hb.notMem_iff hfree.1 rfl)
  · rw [count_of_active ha]
    change (if (s.threads t).leads then s.leaders - 1 else s.leaders) = s.leaders - _ + 0
    split <;> omega
  · exact (Int.sub_add_cancel ..).symm
  · rw [pendings_eq hfree.2.1]
    exact (Int.sub_add_cancel ..).symm

variable {event : Nat} {timed : Bool} {result : Int} {rest : List Frame} {wake : Wake}

theorem base_becomeFollower (hb : s.Base) (ht : (s.threads t).stack = .wait event timed result .yielding :: rest) :
    (s.becomeFollower t event timed result rest).Base := by
  have hfree : (s.threads t).blocked = false := by simp [blocked, ht]
  obtain ⟨hfits, hnested⟩ := hb.fits t
  rw [ht] at hfits hnested
  refine hb.update t { s.threads t with stack := .wait event timed result (.follower .blocked) :: rest } rfl
    ⟨hfits, hnested⟩ ?_ ?_ ?_ ?_ (fun u hu => ?_) ?_
  · rw [count_of_client ht (.inl rfl)]
    exact (Int.sub_add_cancel ..).symm
  · exact (Int.sub_add_cancel ..).symm
  · rw [pendings_of_wait ht]
    exact (Int.sub_add_cancel ..).symm
  · exact nodup_append.mpr ⟨hb.nodup, nodup_singleton t, fun u hu v hv heq =>
      hb.not_mem hfree ((mem_singleton.mp hv) ▸ heq ▸ hu)⟩
  · change u ∈ s.followerSet ++ [t] ↔ _
    simp [hu]
  · change t ∈ s.followerSet ++ [t] ↔ true = true
    simp

theorem base_becomeLeader (hb : s.Base) (ht : (s.threads t).stack = .wait event timed result .yielding :: rest) :
    (s.becomeLeader t event timed result rest).Base := by
  obtain ⟨hfits, hnested⟩ := hb.fits t
  rw [ht] at hfits hnested
  have hthreads : (s.setStack t (.wait event timed result .leader :: rest)).threads t =
      { s.threads t with stack := .wait event timed result .leader :: rest } := update_self _ _ _
  refine hb.update t { s.threads t with
      stack := .wait event timed result .leader :: rest
      clientLeaderThread := (s.threads t).clientLeaderThread + 1 } ?_ ?_ ?_ ?_ ?_ hb.nodup (fun u _ => Iff.rfl)
    (hb.notMem_iff (by simp [blocked, ht]) rfl)
  · simp only [becomeLeader, setClientLeaderThread, setThread, hthreads]
    exact update_idem _ _ _
  · exact ⟨⟨_, _, hfits, .inl ⟨Nat.le_refl _, rfl⟩⟩, hnested⟩
  · have hcount : (s.threads t).count = 0 := Thread.count_of_client ht (.inl rfl)
    rw [hcount]
    change s.leaders + 1 = _
    simp [Thread.count, Thread.counted, Thread.leads]
  · change s.clientThreadIsLeader + 1 = _
    simp only [clients]
    omega
  · rw [pendings_of_wait ht]
    exact (Int.sub_add_cancel ..).symm

theorem leaveScope_threads (s : LeaderFollower n σ) (t : Fin n) (rest : List Frame) :
    (s.leaveScope t rest).threads = update s.threads t { s.threads t with stack := rest } := rfl

theorem leaveScope_leaders (s : LeaderFollower n σ) (t : Fin n) (rest : List Frame) :
    (s.leaveScope t rest).leaders = if (s.threads t).leads then s.leaders + 1 else s.leaders := by
  simp only [leaveScope, resetClientThread, setStack, setThread, update_self]
  rfl

/-- The end of the client part of a call. -/
theorem base_leaveScope (hb : s.Base) (ht : (s.threads t).stack = .wait event timed result .yielding :: rest) :
    (s.leaveScope t rest).Base := by
  obtain ⟨hfits, hnested⟩ := hb.fits t
  rw [ht] at hfits hnested
  obtain ⟨hactive, hbelow⟩ :=
    active_of_nested (s.threads t).eventLoopThread (s.threads t).clientLeaderThread (hb.below ht)
  have hthreads : (s.setStack t rest).threads t = { s.threads t with stack := rest } := update_self _ _ _
  have hfree := not_of_active hactive
  refine hb.update t { s.threads t with stack := rest } rfl ⟨hfits, hbelow⟩ ?_ ?_ ?_ hb.nodup
    (fun u _ => Iff.rfl) (hb.notMem_iff (by simp [blocked, ht]) hfree.1)
  · have hcount : (s.threads t).count = 0 := count_of_client ht (.inl rfl)
    have hnew := count_of_active hactive
    change (if ((s.setStack t rest).threads t).leads then s.leaders + 1 else s.leaders) = _
    rw [hthreads, hcount]
    rw [hnew]
    split <;> omega
  · exact (Int.sub_add_cancel ..).symm
  · have hp : (s.threads t).pendings = 0 := pendings_of_wait ht
    have hnew := pendings_eq hfree.2.1
    rw [hp]
    change s.eventLoopThreadsWaiting = s.eventLoopThreadsWaiting - 0 + (Thread.mk rest _ _).pendings
    omega

theorem base_relock (hb : s.Base) (ht : (s.threads t).stack = .wait event timed result .leaving :: rest) :
    ((s.resetClientLeaderThread t).setStack t (.wait event timed result .yielding :: rest)).Base := by
  obtain ⟨hfits, hnested⟩ := hb.fits t
  rw [ht] at hfits hnested
  obtain ⟨hleft, hzero⟩ := hfits.leave
  have hcount : (s.threads t).count = if (s.threads t).leads then 1 else 0 := by
    simp [Thread.count, Thread.counted, ht]
  have hp : (s.threads t).pendings = 0 := pendings_of_wait ht
  have hleads := (s.threads t).leads_eq
  unfold resetClientLeaderThread
  by_cases hcl : 0 < (s.threads t).clientLeaderThread
  · rw [if_pos hcl]
    refine hb.update t { s.threads t with
        stack := .wait event timed result .yielding :: rest
        clientLeaderThread := (s.threads t).clientLeaderThread - 1 } ?_ ⟨hleft, hnested⟩ ?_ ?_ ?_ hb.nodup
      (fun u _ => Iff.rfl) (hb.notMem_iff (by simp [blocked, ht]) rfl)
    · simp only [setStack, setThread, update_self]
      exact update_idem _ _ _
    · rw [hcount, if_pos (hleads.mpr (by omega))]
      change s.leaders - 1 = s.leaders - 1 + 0
      omega
    · change s.clientThreadIsLeader - 1 = _
      simp only [clients]
      omega
    · rw [hp]
      exact (Int.sub_add_cancel ..).symm
  · rw [if_neg hcl]
    have hcl0 : (s.threads t).clientLeaderThread = 0 := by omega
    refine hb.update t { s.threads t with stack := .wait event timed result .yielding :: rest } rfl
      ⟨by simpa [Fits, hcl0] using hleft, hnested⟩ ?_ ?_ ?_ hb.nodup (fun u _ => Iff.rfl)
      (hb.notMem_iff (by simp [blocked, ht]) rfl)
    · have hno : ¬ (s.threads t).leads = true := fun h => hleads.mp h ⟨hzero hcl0, hcl0⟩
      rw [hcount, if_neg hno]
      exact (Int.sub_add_cancel ..).symm
    · exact (Int.sub_add_cancel ..).symm
    · rw [hp]
      exact (Int.sub_add_cancel ..).symm

theorem base_removeFollower (hb : s.Base)
    (ht : (s.threads t).stack = .wait event timed result (.follower wake) :: rest) :
    (s.removeFollower t event timed result rest).Base := by
  obtain ⟨hfits, hnested⟩ := hb.fits t
  rw [ht] at hfits hnested
  refine hb.update t { s.threads t with stack := .wait event timed result .yielding :: rest } rfl
    ⟨hfits, hnested⟩ ?_ ?_ ?_ (hb.nodup.erase t) (fun u hu => mem_erase_of_ne hu) ?_
  · rw [count_of_client ht (.inr ⟨_, rfl⟩)]
    exact (Int.sub_add_cancel ..).symm
  · exact (Int.sub_add_cancel ..).symm
  · rw [pendings_of_wait ht]
    exact (Int.sub_add_cancel ..).symm
  · change t ∈ s.followerSet.erase t ↔ false = true
    simp [hb.nodup.not_mem_erase]

theorem base_leader {result' : Int} {pc : WaitPc} (hpc : pc = .leader ∨ pc = .leaving) (hb : s.Base)
    (ht : (s.threads t).stack = .wait event timed result .leader :: rest) :
    (s.setStack t (.wait event timed result' pc :: rest)).Base := by
  obtain ⟨hfits, hnested⟩ := hb.fits t
  rw [ht] at hfits hnested
  have hcount : (s.threads t).count = if (s.threads t).leads then 1 else 0 := by
    simp [Thread.count, Thread.counted, ht]
  have hp : (s.threads t).pendings = 0 := pendings_of_wait ht
  refine hb.update t { s.threads t with stack := .wait event timed result' pc :: rest } rfl ?_ ?_ ?_ ?_ hb.nodup
    (fun u _ => Iff.rfl) (hb.notMem_iff (by simp [blocked, ht]) ?_)
  · refine ⟨?_, hnested⟩
    rcases hpc with rfl | rfl
    · exact hfits
    · exact hfits
  · rw [hcount]
    have hnew : ({ s.threads t with stack := .wait event timed result' pc :: rest } : Thread).count =
        if (s.threads t).leads then 1 else 0 := by
      rcases hpc with rfl | rfl <;> rfl
    change s.leaders = _
    omega
  · exact (Int.sub_add_cancel ..).symm
  · rw [hp]
    exact (Int.sub_add_cancel ..).symm
  · rcases hpc with rfl | rfl <;> rfl

theorem base_pend (hb : s.Base) (ha : (s.threads t).active = true) (timed : Bool) :
    Base { s.setStack t (.eventLoop timed (.pending false) :: (s.threads t).stack) with
      eventLoopThreadsWaiting := s.eventLoopThreadsWaiting + 1 } := by
  have hfree := not_of_active ha
  refine hb.update t { s.threads t with stack := .eventLoop timed (.pending false) :: (s.threads t).stack } rfl
    ⟨(hb.fits t).fits, (hb.fits t).push ha⟩ ?_ ?_ ?_ hb.nodup (fun u _ => Iff.rfl) (hb.notMem_iff hfree.1 rfl)
  · rw [count_of_active ha]
    exact (Int.sub_add_cancel ..).symm
  · exact (Int.sub_add_cancel ..).symm
  · rw [pendings_eq hfree.2.1]
    change s.eventLoopThreadsWaiting + 1 = s.eventLoopThreadsWaiting - 0 + 1
    omega

variable {signaled expired : Bool}

theorem base_repend (hb : s.Base) (ht : (s.threads t).stack = .eventLoop timed (.pending signaled) :: rest) :
    (s.setStack t (.eventLoop timed (.pending false) :: rest)).Base := by
  obtain ⟨hfits, hnested⟩ := hb.fits t
  rw [ht] at hfits hnested
  refine hb.update t { s.threads t with stack := .eventLoop timed (.pending false) :: rest } rfl
    ⟨hfits, hnested⟩ ?_ ?_ ?_ hb.nodup (fun u _ => Iff.rfl) (hb.notMem_iff (by simp [blocked, ht]) rfl)
  · rw [count_of_loop ht]
    exact (Int.sub_add_cancel ..).symm
  · exact (Int.sub_add_cancel ..).symm
  · have hp : (s.threads t).pendings = 1 := by simp [pendings, isPending, ht]
    rw [hp]
    exact (Int.sub_add_cancel ..).symm

theorem base_failed (hb : s.Base) (ht : (s.threads t).stack = .eventLoop timed (.pending signaled) :: rest) :
    Base { s.setStack t (.eventLoop timed .failed :: rest) with
      eventLoopThreadsWaiting := s.eventLoopThreadsWaiting - 1 } := by
  obtain ⟨hfits, hnested⟩ := hb.fits t
  rw [ht] at hfits hnested
  refine hb.update t { s.threads t with stack := .eventLoop timed .failed :: rest } rfl
    ⟨hfits, hnested⟩ ?_ ?_ ?_ hb.nodup (fun u _ => Iff.rfl) (hb.notMem_iff (by simp [blocked, ht]) rfl)
  · rw [count_of_loop ht]
    exact (Int.sub_add_cancel ..).symm
  · exact (Int.sub_add_cancel ..).symm
  · have hp : (s.threads t).pendings = 1 := by simp [pendings, isPending, ht]
    rw [hp]
    change s.eventLoopThreadsWaiting - 1 = s.eventLoopThreadsWaiting - 1 + 0
    omega

theorem base_pop {pc : LoopPc} (hb : s.Base) (ht : (s.threads t).stack = .eventLoop timed pc :: rest)
    (hpc : pc = .failed ∨ pc = .running)
    (hfits : Fits rest (s.threads t).eventLoopThread (s.threads t).clientLeaderThread) : (s.setStack t rest).Base := by
  obtain ⟨hactive, hbelow⟩ :=
    active_of_nested (s.threads t).eventLoopThread (s.threads t).clientLeaderThread (hb.below ht)
  have hfree := not_of_active hactive
  refine hb.update t { s.threads t with stack := rest } rfl ⟨hfits, hbelow⟩ ?_ ?_ ?_ hb.nodup
    (fun u _ => Iff.rfl) (hb.notMem_iff (by simp [blocked, ht]) hfree.1)
  · have hnew := count_of_active hactive
    rw [count_of_loop ht, hnew]
    exact (Int.sub_add_cancel ..).symm
  · exact (Int.sub_add_cancel ..).symm
  · have hp : (s.threads t).pendings = 0 := by
      rcases hpc with rfl | rfl <;> simp [pendings, isPending, ht]
    have hnew := pendings_eq hfree.2.1
    rw [hp, hnew]
    exact (Int.sub_add_cancel ..).symm

/-- The end of `set_event_loop_thread`, whether the thread has waited or not. -/
theorem base_running {waiting : Int} (hb : s.Base)
    (hcount : (s.threads t).count = if (s.threads t).leads then 1 else 0)
    (hblocked : (s.threads t).blocked = false) (hw : waiting = s.eventLoopThreadsWaiting - (s.threads t).pendings)
    (hfits : Fits rest (s.threads t).eventLoopThread (s.threads t).clientLeaderThread)
    (hnested : ∀ frame ∈ rest, frame.active = true) (timed : Bool) :
    ((countEventLoopThread { s with eventLoopThreadsWaiting := waiting } t).setStack t
      (.eventLoop timed .running :: rest)).Base := by
  have hleads := (s.threads t).leads_eq
  refine hb.update t { s.threads t with
      stack := .eventLoop timed .running :: rest
      eventLoopThread := (s.threads t).eventLoopThread + 1 } ?_ ?_ ?_ ?_ ?_ hb.nodup (fun u _ => Iff.rfl)
    (hb.notMem_iff hblocked rfl)
  · simp only [setStack, setThread, countEventLoopThread, update_self]
    exact update_idem _ _ _
  · exact ⟨⟨_, _, hfits, .inl ⟨Nat.le_refl _, rfl⟩⟩, hnested⟩
  · rw [hcount]
    change (if (s.threads t).eventLoopThread = 0 ∧ (s.threads t).clientLeaderThread = 0 then s.leaders + 1
      else s.leaders) = _
    have hnew : Thread.count { s.threads t with
        stack := .eventLoop timed .running :: rest
        eventLoopThread := (s.threads t).eventLoopThread + 1 } = 1 := by
      simp [Thread.count, Thread.counted, Thread.leads]
    by_cases hzero : (s.threads t).eventLoopThread = 0 ∧ (s.threads t).clientLeaderThread = 0
    · rw [if_pos hzero, if_neg (by simp [hleads, hzero])]
      omega
    · rw [if_neg hzero, if_pos (hleads.mpr hzero)]
      omega
  · exact (Int.sub_add_cancel ..).symm
  · change waiting = s.eventLoopThreadsWaiting - (s.threads t).pendings + 0
    omega

theorem base_enterLoop (hb : s.Base) (ha : (s.threads t).active = true) (timed : Bool) :
    ((s.countEventLoopThread t).setStack t (.eventLoop timed .running :: (s.threads t).stack)).Base := by
  have hfree := not_of_active ha
  exact base_running hb (count_of_active ha) hfree.1 (by rw [pendings_eq hfree.2.1, Int.sub_zero])
    (hb.fits t).fits ((hb.fits t).push ha) timed

theorem base_takeLoop (hb : s.Base)
    (ht : (s.threads t).stack = .eventLoop timed (.pending signaled) :: rest) :
    ((countEventLoopThread { s with eventLoopThreadsWaiting := s.eventLoopThreadsWaiting - 1 } t).setStack t
      (.eventLoop timed .running :: rest)).Base := by
  have hp : (s.threads t).pendings = 1 := by simp [pendings, isPending, ht]
  exact base_running hb (count_of_loop ht) (by simp [blocked, ht]) (by rw [hp]) (hb.fitsBelow ht)
    (hb.below ht) timed

theorem base_resetLoop {stack : List Frame} (hb : s.Base)
    (hcount : (s.threads t).count = if (s.threads t).leads then 1 else 0) (hp : (s.threads t).pendings = 0)
    (hblocked : (s.threads t).blocked = false) (hel : 0 < (s.threads t).eventLoopThread)
    (hfits : Fits stack ((s.threads t).eventLoopThread - 1) (s.threads t).clientLeaderThread)
    (hstack : ∀ frame ∈ stack, frame.active = true) : ((s.resetEventLoopThreadI t).setStack t stack).Base := by
  obtain ⟨hactive, hbelow⟩ :=
    active_of_nested ((s.threads t).eventLoopThread - 1) (s.threads t).clientLeaderThread hstack
  have hfree := not_of_active hactive
  have hleads := (s.threads t).leads_eq
  refine hb.update t ⟨stack, (s.threads t).eventLoopThread - 1, (s.threads t).clientLeaderThread⟩ ?_ ⟨hfits, hbelow⟩
    ?_ ?_ ?_ hb.nodup (fun u _ => Iff.rfl) (hb.notMem_iff hblocked hfree.1)
  · simp only [setStack, setThread, resetEventLoopThreadI, update_self]
    exact update_idem _ _ _
  · rw [hcount, if_pos (hleads.mpr (by omega)), count_of_active hactive]
    change (if (s.threads t).eventLoopThread - 1 = 0 ∧ (s.threads t).clientLeaderThread = 0 then s.leaders - 1
      else s.leaders) = _
    have hnew := (Thread.mk stack ((s.threads t).eventLoopThread - 1) (s.threads t).clientLeaderThread).leads_eq
    by_cases hzero : (s.threads t).eventLoopThread - 1 = 0 ∧ (s.threads t).clientLeaderThread = 0
    · rw [if_pos hzero, if_neg fun h => hnew.mp h hzero]
      omega
    · rw [if_neg hzero, if_pos (hnew.mpr hzero)]
      omega
  · exact (Int.sub_add_cancel ..).symm
  · have hnew := pendings_eq hfree.2.1
    rw [hp, hnew]
    exact (Int.sub_add_cancel ..).symm

theorem base_endLoop (hb : s.Base) (ht : (s.threads t).stack = .eventLoop timed .running :: rest) :
    ((s.resetEventLoopThread t).setStack t rest).Base := by
  have hloop := (hb.fits t).fits
  rw [ht] at hloop
  unfold resetEventLoopThread
  by_cases hel : 0 < (s.threads t).eventLoopThread
  · rw [if_pos hel]
    exact base_resetLoop hb (count_of_loop ht) (by simp [pendings, isPending, ht])
      (by simp [blocked, ht]) hel hloop.resetLoop (hb.below ht)
  · rw [if_neg hel]
    have hzero : (s.threads t).eventLoopThread - 1 = (s.threads t).eventLoopThread := by omega
    exact base_pop hb ht (.inr rfl) (hzero ▸ hloop.resetLoop)

/-- A client leader that leads one level gives the leadership up at an upcall. -/
theorem base_resetClient (hb : s.Base) (ha : (s.threads t).active = true) (hel : (s.threads t).eventLoopThread = 0)
    (hcl : (s.threads t).clientLeaderThread = 1) : (s.resetClientLeaderThread t).Base := by
  have hfree := not_of_active ha
  obtain ⟨hfits, hnested⟩ := hb.fits t
  unfold resetClientLeaderThread
  rw [if_pos (by omega)]
  have hactive : active ⟨(s.threads t).stack, (s.threads t).eventLoopThread, 0⟩ = true := ha
  have hnew := not_of_active hactive
  refine hb.update t ⟨(s.threads t).stack, (s.threads t).eventLoopThread, 0⟩ ?_ ⟨?_, hnested⟩ ?_ ?_ ?_ hb.nodup
    (fun u _ => Iff.rfl) (hb.notMem_iff hfree.1 hnew.1)
  · simp only [setThread, hcl]
  · rw [hel]
    exact hfits.leaders (Nat.zero_le _)
  · rw [count_of_active ha, count_of_active hactive, if_pos ((s.threads t).leads_eq.mpr (by omega)),
      if_neg (by simp [leads, hel])]
    change s.leaders - 1 = _
    omega
  · change s.clientThreadIsLeader - 1 = _
    simp only [clients, hcl]
    omega
  · rw [pendings_eq hfree.2.1, pendings_eq hnew.2.1]
    exact (Int.sub_add_cancel ..).symm

theorem base_upcallLoop (hb : s.Base) (ha : (s.threads t).active = true) (hel : 0 < (s.threads t).eventLoopThread) :
    (s.resetEventLoopThreadI t).Base := by
  have hfree := not_of_active ha
  have hbase := base_resetLoop hb (count_of_active ha) (pendings_eq hfree.2.1) hfree.1 hel
    ((hb.fits t).fits.loops (Nat.sub_le _ 1)) ((hb.fits t).push ha)
  have hself : (s.resetEventLoopThreadI t).setStack t (s.threads t).stack = s.resetEventLoopThreadI t := by
    simp [setStack, setThread, resetEventLoopThreadI]
  rwa [hself] at hbase

/-! ## Runs -/

/-- If the thread is the last leader and ends with `el` and `cl`, an election calls the
event-loop threads only when they do not wait for a client leader that waits itself. -/
def SafeElection (s : LeaderFollower n σ) (t : Fin n) (el cl : Nat) : Prop :=
  s.leaders = (s.threads t).count → el = 0 → cl = 0 → s.eventLoopThreadsWaiting ≠ 0 → s.NoneStuck

def SafeReturn (s : LeaderFollower n σ) (t : Fin n) : Prop :=
  s.leaders = 0 → (s.threads t).leads = false → s.followerSet = [] ∧ s.eventLoopThreadsWaiting = 0

/-- The loop of `wait_for_event` goes on. -/
def GoesOn (C : EventClass n σ) (events : σ) (event : Nat) (timed : Bool) (result : Int) (expired : Bool) : Prop :=
  C.keepWaiting events event ∧ ¬(result = 0 ∧ timed ∧ expired) ∧ result ≠ -1

/-- The steps that pass leadership on. -/
def Keeps (C : EventClass n σ) (s : LeaderFollower n σ) : LfStep n → Prop
  | .waitForEvent t event _ =>
    C.keepWaiting s.events event ∨ s.SafeElection t (s.threads t).eventLoopThread (s.threads t).clientLeaderThread
  | .wake t =>
    match (s.threads t).stack with
    | .wait event _ _ (.follower .elected) :: _ => C.keepWaiting s.events event ∨ s.SafeReturn t
    | _ => True
  | .timeout t =>
    match (s.threads t).stack with
    | .wait event _ _ (.follower wake) :: _ =>
      if C.successful (C.setState s.events event .timeout) event then wake = .elected → s.SafeReturn t
      else s.SafeElection t (s.threads t).eventLoopThread (s.threads t).clientLeaderThread
    | _ => True
  | .yielded t expired =>
    match (s.threads t).stack with
    | .wait event timed result _ :: _ =>
      GoesOn C s.events event timed result expired ∨
        s.SafeElection t (s.threads t).eventLoopThread (s.threads t).clientLeaderThread
    | _ => True
  | .resetEventLoopThread t =>
    match (s.threads t).stack with
    | .eventLoop _ .failed :: _ => s.SafeElection t (s.threads t).eventLoopThread (s.threads t).clientLeaderThread
    | _ => s.SafeElection t ((s.threads t).eventLoopThread - 1) (s.threads t).clientLeaderThread
  | .setUpcallThread t =>
    if 0 < (s.threads t).eventLoopThread then
      s.SafeElection t ((s.threads t).eventLoopThread - 1) (s.threads t).clientLeaderThread
    else if (s.threads t).clientLeaderThread = 1 then s.SafeElection t 0 0
    else True
  | _ => True

instance (s : LeaderFollower n σ) : Decidable s.NoneStuck :=
  inferInstanceAs (Decidable (∀ u, (s.threads u).follows = true → (s.threads u).clientLeaderThread = 0))

instance (s : LeaderFollower n σ) (t : Fin n) (el cl : Nat) : Decidable (s.SafeElection t el cl) :=
  inferInstanceAs (Decidable (_ → _ → _ → _ → _))

instance (s : LeaderFollower n σ) (t : Fin n) : Decidable (s.SafeReturn t) :=
  inferInstanceAs (Decidable (_ → _ → _ ∧ _))

instance (events : σ) (event : Nat) (timed : Bool) (result : Int) (expired : Bool) :
    Decidable (GoesOn C events event timed result expired) :=
  inferInstanceAs (Decidable (_ ∧ _ ∧ _))

instance (s : LeaderFollower n σ) : ∀ l, Decidable (Keeps C s l) := fun l => by
  cases l <;> simp only [Keeps]
  all_goals first | infer_instance | (split <;> infer_instance)

theorem passed_of_counted (hb : s.Base) (h : (s.threads t).counted = true) : s.Passed := by
  refine passed_of_ne ?_
  have hle := hb.count_le t
  rw [Thread.count, if_pos h] at hle
  omega

/-- A step of one thread that neither ends leadership nor a promise to see to it. -/
theorem Passed.update (hp : s.Passed) (t : Fin n) (th : Thread)
    (hthreads : s'.threads = update s.threads t th) (hl : s'.leaders = 0 → s.leaders = 0)
    (hset : s.followerSet = [] → s'.followerSet = []) (hw : s'.eventLoopThreadsWaiting = s.eventLoopThreadsWaiting)
    (hawake : (s.threads t).awake = true → th.awake = true) (hroused : (s.threads t).roused = true → th.roused = true)
    (hstuck : th.follows = true → th.clientLeaderThread = 0) : s'.Passed := fun h0 => by
  rcases hp (hl h0) with ⟨hnil, hzero⟩ | ⟨u, hu⟩ | ⟨⟨u, hu⟩, hnone⟩
  · exact .inl ⟨hset hnil, hw.trans hzero⟩
  · refine .inr (.inl ⟨u, ?_⟩)
    rw [hthreads]
    by_cases htu : u = t
    · rw [htu, update_self]
      exact hawake (htu ▸ hu)
    · rwa [update_of_ne htu]
  · refine .inr (.inr ⟨⟨u, ?_⟩, fun v hv => ?_⟩)
    · rw [hthreads]
      by_cases htu : u = t
      · rw [htu, update_self]
        exact hroused (htu ▸ hu)
      · rwa [update_of_ne htu]
    · rw [hthreads] at hv ⊢
      by_cases htv : v = t
      · rw [htv, update_self] at hv ⊢
        exact hstuck hv
      · rw [update_of_ne htv] at hv ⊢
        exact hnone v hv

/-- The condition of the election at the end of a call. -/
theorem noneStuck_of_safe (hb : s.Base) (hb' : s'.Base) (th : Thread)
    (hthreads : s'.threads = update s.threads t th) (hactive : th.active = true)
    (hw : s'.eventLoopThreadsWaiting = s.eventLoopThreadsWaiting)
    (hsafe : s.SafeElection t th.eventLoopThread th.clientLeaderThread) (hl : s'.leaders = 0)
    (hne : s'.eventLoopThreadsWaiting ≠ 0) : s'.NoneStuck := by
  have hself : s'.threads t = th := by rw [hthreads, update_self]
  have hothers := leaders_others hb hb' (t := t) fun u hu => by rw [hthreads, update_of_ne hu]
  have hnonneg := th.count_nonneg
  have hcountle := hb.count_le t
  rw [hself] at hothers
  have hcount : th.count = 0 := by omega
  have hno : ¬ th.leads = true := fun h => by
    rw [count_of_active hactive, if_pos h] at hcount
    cases hcount
  rw [leads_eq, not_not] at hno
  have hnone := hsafe (by omega) hno.1 hno.2 (hw ▸ hne)
  intro u hu
  rw [hthreads] at hu ⊢
  by_cases htu : u = t
  · rw [htu, update_self]
    exact hno.2
  · rw [update_of_ne htu] at hu ⊢
    exact hnone u hu

theorem base_waitLoop (hb : s.Base)
    (ht : (s.threads t).stack = .wait event timed result .yielding :: rest) :
    (s.waitLoop C t event timed result expired rest).Base := by
  unfold waitLoop
  split
  · split
    · exact (base_becomeFollower hb ht).events _
    · exact base_becomeLeader hb ht
  · exact base_elect (base_leaveScope hb ht)

theorem passed_waitLoop (hb : s.Base)
    (ht : (s.threads t).stack = .wait event timed result .yielding :: rest)
    (hstuck : ¬GoesOn C s.events event timed result expired → (s.leaveScope t rest).leaders = 0 →
      s.eventLoopThreadsWaiting ≠ 0 → (s.leaveScope t rest).NoneStuck) :
    (s.waitLoop C t event timed result expired rest).Passed := by
  unfold waitLoop
  split
  · split
    · next hl => exact passed_of_ne hl
    · refine passed_of_ne ?_
      change s.leaders + 1 ≠ 0
      omega
  · next hends => exact passed_elect (base_leaveScope hb ht) (hstuck hends)

/-- The invariant of the runs that pass leadership on. -/
structure Led (s : LeaderFollower n σ) : Prop where
  base : s.Base
  passed : s.Passed

/-- A client leader that does not count waits in these functions. -/
theorem blocked_or_awake (hl : s.leaders = 0) (hb : s.Base) (hcl : 0 < (s.threads u).clientLeaderThread) :
    (s.threads u).awake = true ∨ ((s.threads u).blocked = true ∧ (s.threads u).follows = true) := by
  have hle := hb.count_le u
  have hnonneg := (s.threads u).count_nonneg
  have hcount : (s.threads u).count = 0 := by omega
  have hleads : (s.threads u).leads = true := (s.threads u).leads_eq.mpr (by omega)
  have hno : (s.threads u).counted = false := by
    cases hc : (s.threads u).counted with
    | false => rfl
    | true =>
      rw [Thread.count, if_pos hc] at hcount
      cases hcount
  unfold counted at hno
  split at hno
  · next wake _ heq =>
    cases wake with
    | blocked => exact .inr ⟨by simp [blocked, heq], by simp [follows, heq]⟩
    | signaled => exact .inl (by simpa [awake, heq] using hleads)
    | elected => exact .inl (by simp [awake, heq])
  · next heq => exact .inl (by simp [awake, heq])
  · rw [hleads] at hno
    cases hno

/-- While an event loop has to wait for a client leader, there is a leader or a thread that
will see to it. -/
theorem Led.awake_of_client (h : s.Led) (hl : s.leaders = 0) (hc : s.clientThreadIsLeader ≠ 0) :
    ∃ u, (s.threads u).awake = true := by
  have hex : ∃ u, 0 < (s.threads u).clientLeaderThread := by
    by_contra hnone
    refine hc ?_
    rw [h.base.clients]
    refine Finset.sum_eq_zero fun u _ => ?_
    have hzero : ¬ 0 < (s.threads u).clientLeaderThread := fun hu => hnone ⟨u, hu⟩
    simp only [clients]
    omega
  obtain ⟨u, hu⟩ := hex
  rcases blocked_or_awake hl h.base hu with hawake | ⟨hblocked, hfollows⟩
  · exact ⟨u, hawake⟩
  · rcases h.passed hl with ⟨hnil, -⟩ | hawake | ⟨-, hnone⟩
    · have hmem := (h.base.set u).mpr hblocked
      rw [hnil] at hmem
      cases hmem
    · exact hawake
    · have hzero := hnone u hfollows
      omega

/-- An event loop that waits leaves a thread that is awake as it is. -/
theorem Led.passed_wait (h : s.Led) (hc : s.clientThreadIsLeader ≠ 0) (hl : s'.leaders = s.leaders)
    (ht : (s.threads t).awake = false) (hothers : ∀ u, u ≠ t → s'.threads u = s.threads u) : s'.Passed := fun h0 => by
  obtain ⟨u, hu⟩ := h.awake_of_client (hl ▸ h0) hc
  have htu : u ≠ t := fun heq => by
    rw [heq, ht] at hu
    cases hu
  exact .inr (.inl ⟨u, by rwa [hothers u htu]⟩)

theorem led_waitForEvent (h : s.Led) (ha : (s.threads t).active = true) (event : Nat) (timed : Bool)
    (hk : Keeps C s (.waitForEvent t event timed)) :
    (((s.setClientThread t).setStack t
        (.wait event timed 1 .yielding :: (s.threads t).stack)).waitLoop C t event timed 1
      false (s.threads t).stack).Led := by
  have hb := base_enter h.base ha event timed
  have hself : ((s.setClientThread t).setStack t (.wait event timed 1 .yielding :: (s.threads t).stack)).threads t =
      { s.threads t with stack := .wait event timed 1 .yielding :: (s.threads t).stack } := update_self _ _ _
  have ht := congrArg stack hself
  refine ⟨base_waitLoop hb ht, passed_waitLoop hb ht fun hends h0 hne => ?_⟩
  refine noneStuck_of_safe (t := t) h.base (base_leaveScope hb ht) (s.threads t) ?_ ha rfl ?_ h0 hne
  · simp only [leaveScope, setStack, setThread, resetClientThread, setClientThread, update_self,
      update_idem, update_eq_self]
  · rcases hk with hkeep | hsafe
    · exact absurd ⟨hkeep, by simp, by simp⟩ hends
    · exact hsafe

theorem led_yielded (h : s.Led) (ht : (s.threads t).stack = .wait event timed result .yielding :: rest)
    (hk : Keeps C s (.yielded t expired)) : (s.waitLoop C t event timed result expired rest).Led := by
  refine ⟨base_waitLoop h.base ht, passed_waitLoop h.base ht fun hends h0 hne => ?_⟩
  simp only [Keeps, ht] at hk
  exact noneStuck_of_safe h.base (base_leaveScope h.base ht) { s.threads t with stack := rest } rfl
    (active_of_nested _ _ (h.base.below ht)).1 rfl (hk.resolve_left hends) h0 hne

theorem led_relock (h : s.Led) (ht : (s.threads t).stack = .wait event timed result .leaving :: rest) :
    ∀ s', step C s (.relock t expired) = some s' → s'.Led := by
  have hb := base_relock h.base ht
  have hself :
      (((s.resetClientLeaderThread t).setStack t (.wait event timed result .yielding :: rest)).threads t).stack =
      .wait event timed result .yielding :: rest := by simp only [setStack, setThread, update_self]
  intro s' hs'
  simp only [step, ht] at hs'
  split at hs'
  · obtain rfl := some.inj hs'
    refine ⟨base_elect hb, passed_of_awake (t := t) (awake_elect ?_)⟩
    simp [awake, hself]
  · next hno =>
    obtain rfl := some.inj hs'
    refine ⟨base_waitLoop hb hself, passed_waitLoop hb hself fun _ h0 hne => absurd ⟨hne, ?_⟩ hno⟩
    have hnonneg := hb.leaders_nonneg
    rw [leaveScope_leaders] at h0
    split at h0 <;> omega

/-- A follower leaves the follower set and then the scope. -/
theorem base_return (hb : s.Base) (ht : (s.threads t).stack = .wait event timed result (.follower wake) :: rest)
    (events : σ) : (leaveScope { s.removeFollower t event timed result rest with events } t rest).Base := by
  have hself : ((s.removeFollower t event timed result rest).threads t).stack =
      .wait event timed result .yielding :: rest := by simp only [removeFollower, setStack, setThread, update_self]
  exact base_leaveScope ((base_removeFollower hb ht).events events) hself

theorem return_threads (s : LeaderFollower n σ) (t : Fin n) (event : Nat) (timed : Bool) (result : Int)
    (rest : List Frame) (events : σ) :
    (leaveScope { s.removeFollower t event timed result rest with events } t rest).threads =
      update s.threads t { s.threads t with stack := rest } := by
  rw [leaveScope_threads]
  simp only [removeFollower, setStack, setThread, update_self]
  exact update_idem _ _ _

theorem return_leaders (hleads : ¬(s.threads t).leads = true) (events : σ) :
    (leaveScope { s.removeFollower t event timed result rest with events } t rest).leaders = s.leaders := by
  rw [leaveScope_leaders]
  simp only [removeFollower, setStack, setThread, update_self]
  exact if_neg hleads

theorem led_return (h : s.Led) (ht : (s.threads t).stack = .wait event timed result (.follower wake) :: rest)
    (hk : wake = .elected → s.SafeReturn t) (events : σ) :
    (leaveScope { s.removeFollower t event timed result rest with events } t rest).Led := by
  have hbase := base_return h.base ht events
  obtain ⟨hactive, -⟩ :=
    active_of_nested (s.threads t).eventLoopThread (s.threads t).clientLeaderThread (h.base.below ht)
  have hthreads := s.return_threads t event timed result rest events
  refine ⟨hbase, ?_⟩
  by_cases hleads : (s.threads t).leads = true
  · refine passed_of_counted (t := t) hbase ?_
    rw [hthreads, update_self, counted_of_active hactive]
    exact hleads
  have hl : (leaveScope { s.removeFollower t event timed result rest with events } t rest).leaders = s.leaders :=
    return_leaders hleads events
  have hset : s.followerSet = [] → s.followerSet.erase t = [] := fun hnil => by
    rw [hnil]
    rfl
  by_cases hwake : wake = .elected
  · intro h0
    obtain ⟨hnil, hzero⟩ := hk hwake (hl ▸ h0) (Bool.eq_false_iff.mpr hleads)
    exact .inl ⟨hset hnil, hzero⟩
  · refine h.passed.update t _ hthreads (fun h0 => hl ▸ h0) hset rfl (fun hawake => ?_) (fun hroused => ?_)
      (fun hfollows => ?_)
    · cases wake with
      | blocked => simp [awake, ht] at hawake
      | signaled => exact absurd (by simpa [awake, ht] using hawake) hleads
      | elected => exact absurd rfl hwake
    · simp [roused, ht] at hroused
    · rw [(not_of_active hactive).2.2.2.2] at hfollows
      cases hfollows

theorem base_followerWoken (hb : s.Base)
    (ht : (s.threads t).stack = .wait event timed result (.follower wake) :: rest) :
    (s.followerWoken C t event timed result rest).Base := by
  have hremoved := base_removeFollower hb ht
  have hself : ((s.removeFollower t event timed result rest).threads t).stack =
      .wait event timed result .yielding :: rest := by simp only [removeFollower, setStack, setThread, update_self]
  simp only [followerWoken]
  split
  · exact base_becomeFollower hremoved hself
  · split
    · exact base_return hb ht _
    · exact base_becomeLeader (hremoved.events _) hself

theorem led_wake (h : s.Led) (ht : (s.threads t).stack = .wait event timed result (.follower wake) :: rest)
    (hk : Keeps C s (.wake t)) : (s.followerWoken C t event timed result rest).Led := by
  refine ⟨base_followerWoken h.base ht, ?_⟩
  simp only [followerWoken]
  split
  · next hagain => exact passed_of_ne hagain.2
  · split
    · next hcomplete =>
      refine (led_return h ht (fun hwake => ?_) _).passed
      subst hwake
      simp only [Keeps, ht] at hk
      refine hk.resolve_left fun hkeep => ?_
      simp only [EventClass.keepWaiting, Bool.and_eq_true, decide_eq_true_eq] at hkeep
      rcases hcomplete with hdone | hdone
      · exact absurd hdone (by simp [removeFollower, setStack, setThread, hkeep.1])
      · exact absurd hdone (by simp [removeFollower, setStack, setThread, hkeep.2])
    · refine passed_of_ne ?_
      change s.leaders + 1 ≠ 0
      have hnonneg := h.base.leaders_nonneg
      omega

theorem elect_follower (ht : (s.threads t).stack = .wait event timed result (.follower wake) :: rest) :
    ∃ wake', s.electNewLeader.threads t = { s.threads t with
      stack := .wait event timed result (.follower wake') :: rest } := by
  have hthis : s.threads t = { s.threads t with stack := .wait event timed result (.follower wake) :: rest } := by
    rw [← ht]
  obtain ⟨-, heq⟩ | ⟨-, -, heq⟩ | ⟨-, -, ⟨-, heq⟩ | ⟨u, _, -, heq⟩⟩ := s.electNewLeader_cases
  · exact ⟨wake, by rw [heq]; exact hthis⟩
  · refine ⟨wake, ?_⟩
    rw [heq]
    simp only [broadcast, ht]
    exact hthis
  · exact ⟨wake, by rw [heq]; exact hthis⟩
  · rw [heq]
    change ∃ wake', update s.threads u _ t = _
    by_cases htu : t = u
    · subst htu
      rw [update_self]
      cases wake with
      | blocked => exact ⟨.elected, by simp only [Thread.signal, ht]⟩
      | signaled => exact ⟨.signaled, by simp only [Thread.signal, ht]; exact hthis⟩
      | elected => exact ⟨.elected, by simp only [Thread.signal, ht]; exact hthis⟩
    · rw [update_of_ne htu]
      exact ⟨wake, hthis⟩

/-- A follower that elects a leader before it returns: it may elect itself, but then some
other thread sees to it already. -/
theorem led_electReturn (h : s.Led) (ht : (s.threads t).stack = .wait event timed result (.follower wake) :: rest)
    (hk : s.SafeElection t (s.threads t).eventLoopThread (s.threads t).clientLeaderThread) (events : σ) :
    (leaveScope { s.electNewLeader.removeFollower t event timed result rest with events } t rest).Led := by
  obtain ⟨wake', ht'⟩ := elect_follower ht
  have hbase := base_return (base_elect h.base) (congrArg stack ht') events
  obtain ⟨hactive, -⟩ :=
    active_of_nested (s.threads t).eventLoopThread (s.threads t).clientLeaderThread (h.base.below ht)
  have hthreads := s.electNewLeader.return_threads t event timed result rest events
  rw [ht'] at hthreads
  refine ⟨hbase, ?_⟩
  by_cases hleads : (s.threads t).leads = true
  · refine passed_of_counted (t := t) hbase ?_
    rw [hthreads, update_self, counted_of_active hactive]
    exact hleads
  have hno := hleads
  rw [leads_eq, not_not] at hno
  have hl : (leaveScope { s.electNewLeader.removeFollower t event timed result rest with events } t rest).leaders =
      s.electNewLeader.leaders := return_leaders (by rw [ht']; exact hleads) events
  have hother : ∀ u, u ≠ t → (leaveScope { s.electNewLeader.removeFollower t event timed result rest with
      events } t rest).threads u = s.electNewLeader.threads u := fun u hu => by
    rw [hthreads, update_of_ne hu]
  intro h0
  rw [hl] at h0
  have hnot : ∀ u, (s.threads u).awake = true → (s.threads t).blocked = true → u ≠ t := fun u hu hb heq => by
    simp only [blocked, awake, ht] at hu hb
    split at hb <;> simp_all
  obtain ⟨hne, heq⟩ | ⟨hl0, hw, heq⟩ | ⟨hl0, hw, ⟨hset, heq⟩ | ⟨u, rest', hset, heq⟩⟩ := s.electNewLeader_cases
  · rw [heq] at h0
    exact absurd h0 hne
  · have hcount : (s.threads t).count = 0 := count_of_client ht (.inr ⟨_, rfl⟩)
    obtain ⟨⟨v, hpending, hv⟩, hnone⟩ := roused_elect h.base hw (hk (hl0.trans hcount.symm) hno.1 hno.2 hw)
    refine .inr (.inr ⟨⟨v, ?_⟩, fun u hu => ?_⟩)
    · have hvt : v ≠ t := fun hvt => by
        rw [hvt] at hpending
        simp [isPending, ht] at hpending
      rwa [hother v hvt, heq]
    · by_cases hut : u = t
      · rw [hut, hthreads, update_self]
        exact hno.2
      · rw [hother u hut, heq] at hu ⊢
        exact hnone u hu
  · refine .inl ⟨?_, ?_⟩
    · change s.electNewLeader.followerSet.erase t = []
      rw [heq, hset]
      rfl
    · change s.electNewLeader.eventLoopThreadsWaiting = 0
      rwa [heq]
  · by_cases hut : u = t
    · have hblocked : (s.threads t).blocked = true := (h.base.set t).mp (by simp [hset, hut])
      rcases h.passed hl0 with ⟨hnil, -⟩ | ⟨v, hv⟩ | ⟨⟨v, hv⟩, -⟩
      · rw [hnil] at hset
        cases hset
      · exact .inr (.inl ⟨v, by rw [hother v (hnot v hv hblocked)]; exact awake_elect hv⟩)
      · have hpending : (s.threads v).isPending = true := by
          unfold roused at hv
          split at hv
          · next hvs => simp [isPending, hvs]
          · cases hv
        have hpos := h.base.pending_pos hpending
        omega
    · refine .inr (.inl ⟨u, ?_⟩)
      rw [hother u hut, heq]
      exact awake_signaled h.base hset

theorem base_followerTimedOut (hb : s.Base)
    (ht : (s.threads t).stack = .wait event timed result (.follower wake) :: rest) :
    (s.followerTimedOut C t event timed result rest).Base := by
  simp only [followerTimedOut]
  split
  · exact base_return (hb.events _) ht _
  · obtain ⟨wake', ht'⟩ := elect_follower (s := { s with events := C.setState s.events event .timeout }) ht
    exact base_return (base_elect (hb.events _)) (congrArg stack ht') _

theorem led_timeout (h : s.Led) (ht : (s.threads t).stack = .wait event timed result (.follower wake) :: rest)
    (hk : Keeps C s (.timeout t)) : (s.followerTimedOut C t event timed result rest).Led := by
  have hled : Led { s with events := C.setState s.events event .timeout } := ⟨h.base.events _, h.passed⟩
  simp only [Keeps, ht] at hk
  simp only [followerTimedOut]
  by_cases hdone : C.successful (C.setState s.events event .timeout) event = true
  · rw [if_pos hdone] at hk
    simp only [hdone, if_true]
    exact led_return hled ht hk _
  · rw [if_neg hdone] at hk
    simp only [hdone]
    exact led_electReturn hled ht hk _

theorem led_setEventLoopThread (h : s.Led) (timed : Bool) :
    ∀ s', step C s (.setEventLoopThread t timed) = some s' → s'.Led := by
  intro s' hs'
  simp only [step] at hs'
  split at hs'
  · next ha =>
    have hfree := not_of_active ha
    split at hs'
    · next hc =>
      obtain rfl := some.inj hs'
      exact ⟨base_pend h.base ha timed, h.passed_wait hc.1 rfl hfree.2.2.1 fun u hu => update_of_ne hu _ _⟩
    · obtain rfl := some.inj hs'
      have hb := base_enterLoop h.base ha timed
      refine ⟨hb, passed_of_counted (t := t) hb ?_⟩
      simp [setStack, setThread, countEventLoopThread, counted, leads]
  · cases hs'

theorem led_wakeLoop (h : s.Led) : ∀ s', step C s (.wakeLoop t) = some s' → s'.Led := by
  intro s' hs'
  simp only [step] at hs'
  split at hs'
  · next timed signaled rest ht =>
    split at hs'
    · next hc =>
      obtain rfl := some.inj hs'
      exact ⟨base_repend h.base ht, h.passed_wait hc rfl (by simp [awake, ht])
        fun u hu => update_of_ne hu _ _⟩
    · obtain rfl := some.inj hs'
      have hb := base_takeLoop h.base ht
      refine ⟨hb, passed_of_counted (t := t) hb ?_⟩
      simp [setStack, setThread, countEventLoopThread, counted, leads]
  · cases hs'

theorem led_timeoutLoop (h : s.Led) : ∀ s', step C s (.timeoutLoop t) = some s' → s'.Led := by
  intro s' hs'
  simp only [step] at hs'
  split at hs'
  · next signaled rest ht =>
    obtain rfl := some.inj hs'
    exact ⟨base_failed h.base ht, passed_of_awake (t := t) (by simp [setStack, setThread, awake])⟩
  · cases hs'

theorem led_giveUp (h : s.Led) (th : Thread) (hb : s'.Base) (hthreads : s'.threads = update s.threads t th)
    (hactive : th.active = true) (hw : s'.eventLoopThreadsWaiting = s.eventLoopThreadsWaiting)
    (hk : s.SafeElection t th.eventLoopThread th.clientLeaderThread) : s'.electNewLeader.Led :=
  ⟨base_elect hb, passed_elect hb (noneStuck_of_safe h.base hb th hthreads hactive hw hk)⟩

theorem led_resetEventLoopThread (h : s.Led) (hk : Keeps C s (.resetEventLoopThread t)) :
    ∀ s', step C s (.resetEventLoopThread t) = some s' → s'.Led := by
  intro s' hs'
  simp only [step] at hs'
  split at hs'
  · next timed rest ht =>
    obtain rfl := some.inj hs'
    simp only [Keeps, ht] at hk
    have hactive := fun el => (active_of_nested el (s.threads t).clientLeaderThread (h.base.below ht)).1
    have hb := base_endLoop h.base ht
    by_cases hel : 0 < (s.threads t).eventLoopThread
    · refine led_giveUp h ⟨rest, (s.threads t).eventLoopThread - 1, (s.threads t).clientLeaderThread⟩ hb ?_
        (hactive _) ?_ hk
      · simp only [setStack, setThread, resetEventLoopThread, if_pos hel, resetEventLoopThreadI, update_self]
        exact update_idem _ _ _
      · simp only [resetEventLoopThread, if_pos hel]
        rfl
    · have hzero : (s.threads t).eventLoopThread - 1 = (s.threads t).eventLoopThread := by omega
      refine led_giveUp h { s.threads t with stack := rest } hb ?_ (hactive _) ?_ (hzero ▸ hk)
      · simp only [setStack, setThread, resetEventLoopThread, if_neg hel]
      · simp only [resetEventLoopThread, if_neg hel]
        rfl
  · next timed rest ht =>
    obtain rfl := some.inj hs'
    simp only [Keeps, ht] at hk
    exact led_giveUp h { s.threads t with stack := rest } (base_pop h.base ht (.inl rfl) (h.base.fitsBelow ht)) rfl
      (active_of_nested _ _ (h.base.below ht)).1 rfl hk
  · cases hs'

theorem base_setUpcallThread (hb : s.Base) (ha : (s.threads t).active = true) : (s.setUpcallThread t).Base := by
  unfold setUpcallThread
  split
  · next hel => exact base_elect (base_upcallLoop hb ha hel)
  · next hel =>
    split
    · next hcl => exact base_elect (base_resetClient hb ha (by omega) hcl)
    · exact hb

theorem led_setUpcallThread (h : s.Led) (ha : (s.threads t).active = true) (hk : Keeps C s (.setUpcallThread t)) :
    (s.setUpcallThread t).Led := by
  simp only [Keeps] at hk
  unfold setUpcallThread
  by_cases hel : 0 < (s.threads t).eventLoopThread
  · rw [if_pos hel] at hk ⊢
    exact led_giveUp h { s.threads t with eventLoopThread := (s.threads t).eventLoopThread - 1 }
      (base_upcallLoop h.base ha hel) rfl ha rfl hk
  · rw [if_neg hel] at hk ⊢
    have hel0 : (s.threads t).eventLoopThread = 0 := by omega
    by_cases hcl : (s.threads t).clientLeaderThread = 1
    · rw [if_pos hcl] at hk ⊢
      have hb := base_resetClient h.base ha hel0 hcl
      have hpos : 0 < (s.threads t).clientLeaderThread := by omega
      refine led_giveUp h ⟨(s.threads t).stack, (s.threads t).eventLoopThread, 0⟩ hb ?_ ha ?_ (fun hl _ => hk hl rfl)
      · rw [resetClientLeaderThread, if_pos hpos]
        simp only [setThread, hcl]
      · simp only [resetClientLeaderThread, if_pos hpos]
        rfl
    · rw [if_neg hcl]
      exact h

theorem led_signal (h : s.Led) (t : Fin n) : (s.signal t .signaled).Led := by
  obtain ⟨-, -, -, -, hfollows, hcl, hroused⟩ := (s.threads t).signal_same .signaled
  refine ⟨base_signal h.base t (by simp), fun h0 => ?_⟩
  rcases h.passed h0 with ⟨hnil, hzero⟩ | ⟨u, hu⟩ | ⟨⟨u, hu⟩, hnone⟩
  · refine .inl ⟨?_, hzero⟩
    change s.followerSet.erase t = []
    rw [hnil]
    rfl
  · refine .inr (.inl ⟨u, ?_⟩)
    change (update s.threads t _ u).awake = true
    by_cases htu : u = t
    · subst htu
      rw [update_self]
      exact awake_signal hu
    · rwa [update_of_ne htu]
  · refine .inr (.inr ⟨⟨u, ?_⟩, fun v hv => ?_⟩)
    · change (update s.threads t _ u).roused = true
      by_cases htu : u = t
      · subst htu
        rwa [update_self, hroused]
      · rwa [update_of_ne htu]
    · change (update s.threads t _ v).follows = true at hv
      change (update s.threads t _ v).clientLeaderThread = 0
      by_cases htv : v = t
      · subst htv
        rw [update_self] at hv ⊢
        rw [hcl]
        exact hnone v (hfollows ▸ hv)
      · rw [update_of_ne htv] at hv ⊢
        exact hnone v hv

theorem base_stateChanged (hb : s.Base) (event : Nat) (newState : LfState) :
    (s.stateChanged C event newState).Base := by
  unfold stateChanged
  split
  · exact hb
  · exact foldlRecOn _ _ (hb.events _) fun _ hb t _ => base_signal hb t (by simp)

theorem led_stateChanged (h : s.Led) (event : Nat) (newState : LfState) : (s.stateChanged C event newState).Led := by
  unfold stateChanged
  split
  · exact h
  · have hled : Led { s with events := C.stateChangedI s.events event newState } := ⟨h.base.events _, h.passed⟩
    exact foldlRecOn _ _ hled fun _ h t _ => led_signal h t

theorem base_step (C : EventClass n σ) : ∀ s l s', Base s → step C s l = some s' → s'.Base := by
  intro s l s' hb hs'
  cases l with
  | waitForEvent t event timed =>
    simp only [step] at hs'
    split at hs'
    · next ha =>
      obtain rfl := some.inj hs'
      exact base_waitLoop (base_enter hb ha event timed) (by simp only [setStack, setThread, update_self])
    · cases hs'
  | wake t =>
    simp only [step] at hs'
    split at hs'
    · next ht =>
      obtain rfl := some.inj hs'
      exact base_followerWoken hb ht
    · cases hs'
  | timeout t =>
    simp only [step] at hs'
    split at hs'
    · next ht =>
      obtain rfl := some.inj hs'
      exact base_followerTimedOut hb ht
    · cases hs'
  | stop t =>
    simp only [step] at hs'
    split at hs'
    · next ht =>
      split at hs'
      · cases hs'
      · obtain rfl := some.inj hs'
        exact base_leader (.inr rfl) hb ht
    · cases hs'
  | handled t result expired =>
    simp only [step] at hs'
    split at hs'
    · next ht =>
      split at hs'
      · obtain rfl := some.inj hs'
        exact base_leader (.inr rfl) hb ht
      · obtain rfl := some.inj hs'
        exact base_leader (.inl rfl) hb ht
    · cases hs'
  | relock t expired =>
    simp only [step] at hs'
    split at hs'
    · next ht =>
      split at hs'
      · obtain rfl := some.inj hs'
        exact base_elect (base_relock hb ht)
      · obtain rfl := some.inj hs'
        exact base_waitLoop (base_relock hb ht) (by simp only [setStack, setThread, update_self])
    · cases hs'
  | yielded t expired =>
    simp only [step] at hs'
    split at hs'
    · next ht =>
      obtain rfl := some.inj hs'
      exact base_waitLoop hb ht
    · cases hs'
  | setEventLoopThread t timed =>
    simp only [step] at hs'
    split at hs'
    · next ha =>
      split at hs'
      · obtain rfl := some.inj hs'
        exact base_pend hb ha timed
      · obtain rfl := some.inj hs'
        exact base_enterLoop hb ha timed
    · cases hs'
  | wakeLoop t =>
    simp only [step] at hs'
    split at hs'
    · next ht =>
      split at hs'
      · obtain rfl := some.inj hs'
        exact base_repend hb ht
      · obtain rfl := some.inj hs'
        exact base_takeLoop hb ht
    · cases hs'
  | timeoutLoop t =>
    simp only [step] at hs'
    split at hs'
    · next ht =>
      obtain rfl := some.inj hs'
      exact base_failed hb ht
    · cases hs'
  | resetEventLoopThread t =>
    simp only [step] at hs'
    split at hs'
    · next ht =>
      obtain rfl := some.inj hs'
      exact base_elect (base_endLoop hb ht)
    · next ht =>
      obtain rfl := some.inj hs'
      exact base_elect (base_pop hb ht (.inl rfl) (hb.fitsBelow ht))
    · cases hs'
  | setUpcallThread t =>
    simp only [step] at hs'
    split at hs'
    · next ha =>
      obtain rfl := some.inj hs'
      exact base_setUpcallThread hb ha
    · cases hs'
  | stateChanged event newState =>
    obtain rfl := some.inj hs'
    exact base_stateChanged hb event newState

theorem led_step (C : EventClass n σ) : ∀ s l s', Led s → Keeps C s l → step C s l = some s' → s'.Led := by
  intro s l s' h hk hs'
  cases l with
  | waitForEvent t event timed =>
    simp only [step] at hs'
    split at hs'
    · next ha =>
      obtain rfl := some.inj hs'
      exact led_waitForEvent h ha event timed hk
    · cases hs'
  | wake t =>
    simp only [step] at hs'
    split at hs'
    · next ht =>
      obtain rfl := some.inj hs'
      exact led_wake h ht hk
    · cases hs'
  | timeout t =>
    simp only [step] at hs'
    split at hs'
    · next ht =>
      obtain rfl := some.inj hs'
      exact led_timeout h ht hk
    · cases hs'
  | stop t =>
    simp only [step] at hs'
    split at hs'
    · next ht =>
      split at hs'
      · cases hs'
      · obtain rfl := some.inj hs'
        exact ⟨base_leader (.inr rfl) h.base ht, passed_of_awake (t := t) (by simp [setStack, setThread, awake])⟩
    · cases hs'
  | handled t result expired =>
    simp only [step] at hs'
    split at hs'
    · next ht =>
      split at hs'
      · obtain rfl := some.inj hs'
        exact ⟨base_leader (.inr rfl) h.base ht, passed_of_awake (t := t) (by simp [setStack, setThread, awake])⟩
      · obtain rfl := some.inj hs'
        refine ⟨base_leader (.inl rfl) h.base ht, h.passed.update t _ rfl id id rfl ?_ ?_ ?_⟩
        · simp [awake, ht]
        · simp [roused, ht]
        · simp [follows]
    · cases hs'
  | relock t expired =>
    have hcopy := hs'
    simp only [step] at hcopy
    split at hcopy
    · next ht => exact led_relock h ht s' hs'
    · cases hcopy
  | yielded t expired =>
    simp only [step] at hs'
    split at hs'
    · next ht =>
      obtain rfl := some.inj hs'
      exact led_yielded h ht hk
    · cases hs'
  | setEventLoopThread t timed => exact led_setEventLoopThread h timed s' hs'
  | wakeLoop t => exact led_wakeLoop h s' hs'
  | timeoutLoop t => exact led_timeoutLoop h s' hs'
  | resetEventLoopThread t => exact led_resetEventLoopThread h hk s' hs'
  | setUpcallThread t =>
    simp only [step] at hs'
    split at hs'
    · next ha =>
      obtain rfl := some.inj hs'
      exact led_setUpcallThread h ha hk
    · cases hs'
  | stateChanged event newState =>
    obtain rfl := some.inj hs'
    exact led_stateChanged h event newState

theorem led_fresh (n : Nat) (events : σ) : (fresh n events).Led := ⟨base_fresh n events, fun _ => .inl ⟨rfl, rfl⟩⟩

/-- Every thread in these functions is blocked on its condition, or in the reactor. -/
def Quiescent (s : LeaderFollower n σ) : Prop :=
  ∀ t, (s.threads t).active = true ∨ (s.threads t).blocked = true ∨
    ((s.threads t).isPending = true ∧ (s.threads t).roused = false)

/-- The thread is blocked as a follower on an event that is incomplete. -/
def WaitsFor (C : EventClass n σ) (s : LeaderFollower n σ) (t : Fin n) : Prop :=
  match (s.threads t).stack with
  | .wait event _ _ (.follower .blocked) :: _ => C.keepWaiting s.events event = true
  | _ => False

instance (s : LeaderFollower n σ) : Decidable s.Quiescent :=
  inferInstanceAs (Decidable (∀ t, (s.threads t).active = true ∨ (s.threads t).blocked = true ∨ _))

instance (s : LeaderFollower n σ) (t : Fin n) : Decidable (WaitsFor C s t) := by
  unfold WaitsFor
  split <;> infer_instance

theorem Led.quiescent (h : s.Led) (hq : s.Quiescent) (hl : s.leaders = 0) (t : Fin n) :
    ¬WaitsFor C s t ∧ (s.threads t).isPending = false := by
  rcases h.passed hl with ⟨hnil, hzero⟩ | ⟨u, hu⟩ | ⟨⟨u, hu⟩, -⟩
  · refine ⟨fun hwaits => ?_, ?_⟩
    · have hblocked : (s.threads t).blocked = true := by
        unfold WaitsFor at hwaits
        split at hwaits
        · next ht => simp [blocked, ht]
        · exact hwaits.elim
      have hmem := (h.base.set t).mpr hblocked
      rw [hnil] at hmem
      cases hmem
    · cases hp : (s.threads t).isPending with
      | false => rfl
      | true =>
        have hpos := h.base.pending_pos hp
        omega
  · exact absurd hu (Bool.eq_false_iff.mp (not_awake_of_quiescent (hq u)).1)
  · exact absurd hu (Bool.eq_false_iff.mp (not_awake_of_quiescent (hq u)).2)

/-- **Leadership.** The count is right in every run; and where leadership is passed on, nobody
is blocked for want of a leader. -/
theorem leadership_of_keeps (C : EventClass n σ) {events : σ} {ls : List (LfStep n)}
    (hrun : run (step C) (fresh n events) ls = some s) :
    s.leaders = ((Finset.univ.filter fun t => (s.threads t).counted = true).card : Int) ∧ 0 ≤ s.leaders ∧
    (AllSteps (step C) (Keeps C) (fresh n events) ls → s.Quiescent → s.leaders = 0 →
      ∀ t, ¬WaitsFor C s t ∧ (s.threads t).isPending = false) := by
  have hb := run_inv (base_step C) (base_fresh n events) hrun
  refine ⟨?_, hb.leaders_nonneg, fun hkeeps hq hl t => ?_⟩
  · rw [hb.leaders, total, Finset.card_filter]
    simp only [Thread.count, Nat.cast_sum, Nat.cast_ite, Nat.cast_one, Nat.cast_zero]
  · exact (run_inv_of (led_step C) (led_fresh n events) hkeeps hrun).quiescent hq hl t

/-- A client leader finds its event complete and elects a follower, which times out and
elects the next one. -/
def sampleLeadership : List (LfStep 3) :=
  [.waitForEvent 0 0 false, .waitForEvent 1 1 true, .waitForEvent 2 2 false, .stateChanged 0 .active,
    .stateChanged 0 .success, .stop 0, .relock 0 false, .timeout 1, .wake 2, .setEventLoopThread 0 true,
    .handled 2 1 false, .relock 2 false, .wakeLoop 0, .yielded 2 false, .stateChanged 2 .active,
    .stateChanged 2 .success, .wake 2, .setUpcallThread 0, .resetEventLoopThread 0]

/-- The events before any of them has started. -/
def idleEvents : Nat → InvocationEvent 3 := fun _ => ⟨.idle, none⟩

theorem leadership_of_keeps_sample :
    ∃ s, run (step (invocationEvents 3)) (fresh 3 idleEvents) sampleLeadership = some s ∧
    s.leaders = 0 ∧ (∀ t, (s.threads t).stack = []) ∧
    ∀ t, ¬WaitsFor (invocationEvents 3) s t ∧ (s.threads t).isPending = false := by
  have hkeeps :
      AllSteps (step (invocationEvents 3)) (Keeps (invocationEvents 3)) (fresh 3 idleEvents) sampleLeadership := by
    decide
  exact ⟨_, rfl,
      by decide, by decide, (leadership_of_keeps (invocationEvents 3) rfl).2.2 hkeeps (by decide) (by decide)⟩

/-- The client leader elects the first follower, whose event is completed before it wakes: it
returns, and the second follower stays blocked. And an event loop gives up the leadership
while another one waits for a client leader that waits as a follower in an upcall. -/
theorem elected_follower_loses_leadership :
    (∃ s, run (step (invocationEvents 3)) (fresh 3 idleEvents) [.waitForEvent 0 0 false, .waitForEvent 1 1 false,
        .waitForEvent 2 2 false, .stateChanged 0 .active, .stateChanged 0 .success, .stop 0, .relock 0 false,
        .stateChanged 1 .active, .stateChanged 1 .success, .wake 1] = some s ∧
      s.Quiescent ∧ s.leaders = 0 ∧ WaitsFor (invocationEvents 3) s 2) ∧
    (∃ s, run (step (invocationEvents 3)) (fresh 3 idleEvents) [.setEventLoopThread 0 false, .waitForEvent 0 0 false,
        .setEventLoopThread 2 false, .handled 0 1 false, .relock 0 false, .waitForEvent 1 1 false, .wakeLoop 2,
        .yielded 0 false, .stateChanged 0 .active, .stateChanged 0 .success, .wake 0, .waitForEvent 1 2 false,
        .resetEventLoopThread 0, .wakeLoop 2] = some s ∧
      s.Quiescent ∧ s.leaders = 0 ∧ WaitsFor (invocationEvents 3) s 1 ∧ (s.threads 2).isPending = true) :=
  ⟨⟨_, rfl, by decide⟩, ⟨_, rfl, by decide⟩⟩

end LeaderFollower

end Atcd.Orb
