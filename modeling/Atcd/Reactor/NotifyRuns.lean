import Atcd.Reactor.Notify
import Atcd.Core.Run
/-!
# Notifications over runs

Results:
* `conserved_of_keeps`: every notification whose call returned 0 is waiting, dispatched or
  purged, one of these once; those of failed calls are none of these; and between calls
  the pipe has one message if the queue is not empty, and at most one if it is. This holds
  as long as the masks stand for one method each, no write of a `notify` fails, and no
  notification enters an empty queue while a message for it is still under way. The
  dispatcher empties the queue.
* `failed_write_keeps_notification`: a write that fails.
-/
namespace Atcd.Reactor

open Atcd.Core List Option Dispatcher NotificationQueue

/-! ## Masks -/

/-- A mask of one bit is kept or cleared as a whole. -/
theorem and_eq_of_bit {a b : Mask} {i : Nat} (ha : a.toNat = 2 ^ i) (hab : a &&& b ≠ 0) : a &&& b = a := by
  have hne : 2 ^ i &&& b.toNat ≠ 0 := fun h => hab (UInt64.toNat_inj.mp (by rw [UInt64.toNat_and, ha, h]; rfl))
  have hbit : b.toNat.testBit i = true := by
    cases hb : b.toNat.testBit i with
    | true => rfl
    | false =>
      refine absurd (Nat.eq_of_testBit_eq fun j => ?_) hne
      rw [Nat.testBit_and, Nat.testBit_two_pow, Nat.zero_testBit]
      by_cases hj : i = j
      · rw [← hj, hb, Bool.and_false]
      · simp [hj]
  apply UInt64.toNat_inj.mp
  rw [UInt64.toNat_and, ha]
  refine Nat.eq_of_testBit_eq fun j => ?_
  rw [Nat.testBit_and, Nat.testBit_two_pow]
  by_cases hj : i = j
  · rw [← hj, hbit, Bool.and_true]
  · simp [hj]

theorem bit_of_methodFor {mask : Mask} (h : (methodFor mask).isSome) : ∃ i, mask.toNat = 2 ^ i := by
  unfold methodFor at h
  split at h
  · next hm =>
    rcases hm with rfl | rfl
    · exact ⟨0, rfl⟩
    · exact ⟨3, rfl⟩
  · split at h
    · next hm => exact ⟨1, by rw [hm]; rfl⟩
    · split at h
      · next hm => exact ⟨2, by rw [hm]; rfl⟩
      · split at h
        · next hm => exact ⟨6, by rw [hm]; rfl⟩
        · split at h
          · next hm => exact ⟨7, by rw [hm]; rfl⟩
          · cases h

namespace Note

/-- The mask stands for a method, and is still the one asked for. -/
def Proper (n : Note) : Prop :=
  n.buffer.eh.isSome → (methodFor n.asked).isSome ∧ n.buffer.mask = n.asked

theorem proper_clearMask {n : Note} {mask : Mask} (hp : n.Proper)
    (hd : n.maskDisablesAllNotifications mask = false) : (n.clearMask mask).Proper := by
  intro heh
  obtain ⟨hm, hask⟩ := hp heh
  obtain ⟨i, hi⟩ := bit_of_methodFor hm
  refine ⟨hm, ?_⟩
  have hne : n.buffer.mask &&& ~~~mask ≠ 0 := by simpa [maskDisablesAllNotifications] using hd
  change n.buffer.mask &&& ~~~mask = n.asked
  rw [hask] at hne ⊢
  exact and_eq_of_bit hi hne

end Note

/-! ## Counting by tickets -/

def tally (t : Nat) (l : List Note) : Nat := (l.map (·.ticket)).count t

variable {t : Nat} {l l' : List Note} {n : Note} {eh : Option EventHandler} {mask : Mask}

@[simp] theorem tally_nil : tally t [] = 0 := rfl

@[simp] theorem tally_cons : tally t (n :: l) = tally t l + if n.ticket = t then 1 else 0 := by
  unfold tally
  rw [map_cons, count_cons]
  simp

@[simp] theorem tally_append : tally t (l ++ l') = tally t l + tally t l' := by
  unfold tally
  rw [map_append, count_append]

theorem tally_perm (h : l.Perm l') : tally t l = tally t l' := (h.map _).count_eq t

namespace NotificationQueue

theorem purgeLoop_tally (eh : Option EventHandler) (mask : Mask) (l : List Note) (t : Nat) :
    tally t (purgeLoop eh mask l).1 + tally t (purgeLoop eh mask l).2 = tally t l := by
  induction l with
  | nil => rfl
  | cons n l ih =>
    simp only [purgeLoop]
    split
    · simp only [tally_cons]
      omega
    · split
      · have ht : (n.clearMask mask).ticket = n.ticket := rfl
        simp only [tally_cons, ht]
        omega
      · simp only [tally_cons]
        omega

theorem purgeLoop_counted (eh : Option EventHandler) (mask : Mask) (l : List Note) (t : Nat) :
    tally t ((purgeLoop eh mask l).1.filter (·.counted)) +
      tally t ((purgeLoop eh mask l).2.filter (·.counted)) = tally t (l.filter (·.counted)) := by
  induction l with
  | nil => rfl
  | cons n l ih =>
    have ht : (n.clearMask mask).ticket = n.ticket := rfl
    have hc : (n.clearMask mask).counted = n.counted := rfl
    simp only [purgeLoop]
    split
    · simp only [filter_cons]
      split <;> first | (simp only [tally_cons]; omega) | omega
    · split
      · simp only [filter_cons, hc]
        split <;> first | (simp only [tally_cons, ht]; omega) | omega
      · simp only [filter_cons]
        split <;> first | (simp only [tally_cons]; omega) | omega

theorem purgeLoop_proper (hp : ∀ n ∈ l, n.Proper) :
    ∀ n ∈ (purgeLoop eh mask l).1, n.Proper := by
  induction l with
  | nil => simp [purgeLoop]
  | cons n l ih =>
    have ih := ih fun m hm => hp m (mem_cons_of_mem _ hm)
    have hn := hp n mem_cons_self
    simp only [purgeLoop]
    split
    · intro m hm
      rcases mem_cons.mp hm with rfl | hm
      · exact hn
      · exact ih m hm
    · split
      · next hd =>
        intro m hm
        rcases mem_cons.mp hm with rfl | hm
        · exact Note.proper_clearMask hn (by simpa using hd)
        · exact ih m hm
      · exact ih

theorem purgeLoop_nonempty (hl : (purgeLoop eh mask l).1 ≠ []) : l ≠ [] := by
  rintro rfl
  exact hl rfl

end NotificationQueue

/-! ## The invariant -/

/-- The notification being dispatched. -/
def Dispatcher.current : Dispatcher → List Note
  | .popped n _ => [n]
  | _ => []

/-- A message read and not answered yet, or the next one not sent yet. -/
def Dispatcher.pending : Dispatcher → Nat
  | .received _ => 1
  | .popped _ (some _) => 1
  | _ => 0

namespace NotifySys

def held (s : NotifySys) : List Note := s.queue.notifyQueue ++ s.dispatcher.current

def places (s : NotifySys) : List Note := s.held ++ s.dispatched.map (·.1) ++ s.purged

def outstanding (s : NotifySys) : Nat := s.pipe.length + s.writing.length + s.dispatcher.pending

structure Conserved (s : NotifySys) : Prop where
  once : ∀ t, tally t s.places + s.failed.count t = if t < s.tickets then 1 else 0
  returned : ∀ t, s.succeeded.count t + tally t s.writing = tally t s.places
  refs : ∀ t, s.references.count t = tally t (s.held.filter (·.counted))
  proper : ∀ n ∈ s.held, n.Proper
  right : ∀ d ∈ s.dispatched, d.1.buffer.eh.isSome → d.2.isSome ∧ d.2 = methodFor d.1.asked
  atMostOne : s.outstanding ≤ 1
  woken : s.queue.notifyQueue ≠ [] → s.outstanding = 1

theorem conserved_fresh : fresh.Conserved where
  once t := by simp [fresh, places, held, current]
  returned t := by simp [fresh, places, held, current]
  refs t := by simp [fresh, held, current]
  proper n hn := by simp [fresh, held, current] at hn
  right d hd := by simp [fresh] at hd
  atMostOne := by simp [fresh, outstanding, pending]
  woken h := by simp [fresh] at h

/-- The mask of a notification stands for one method, which no mask of several events does; no
write of a `notify` fails, and no notification enters an empty queue while a message for it is
still under way. -/
def Keeps (s : NotifySys) : NotifyStep → Prop
  | .push eh mask _ => (eh.isSome → (methodFor mask).isSome) ∧
    (s.queue.notifyQueue = [] → s.outstanding = 0)
  | .write _ ok => ok = true
  | _ => True

instance (s : NotifySys) : DecidablePred s.Keeps
  | .push eh mask _ => inferInstanceAs (Decidable ((eh.isSome → (methodFor mask).isSome) ∧
      (s.queue.notifyQueue = [] → s.outstanding = 0)))
  | .write _ ok => inferInstanceAs (Decidable (ok = true))
  | .purge _ _ | .receive | .pop | .send | .upcall => inferInstanceAs (Decidable True)

variable {s s' : NotifySys}

theorem count_giveBack (refs : List Nat) (notes : List Note) (t : Nat) :
    (giveBack refs notes).count t = refs.count t - tally t (notes.filter (·.counted)) :=
  count_diff t refs _

theorem tally_held (s : NotifySys) (t : Nat) :
    tally t s.held = tally t s.queue.notifyQueue + tally t s.dispatcher.current := tally_append

theorem tally_places (s : NotifySys) (t : Nat) :
    tally t s.places = tally t s.queue.notifyQueue + tally t s.dispatcher.current +
      tally t (s.dispatched.map (·.1)) + tally t s.purged := by
  rw [places, tally_append, tally_append, tally_held]

theorem tally_filter_held (s : NotifySys) (t : Nat) :
    tally t (s.held.filter (·.counted)) = tally t (s.queue.notifyQueue.filter (·.counted)) +
      tally t (s.dispatcher.current.filter (·.counted)) := by
  rw [held, filter_append, tally_append]

/-! ## The steps -/

/-- The notification of the next call. -/
def newNote (s : NotifySys) (eh : Option EventHandler) (mask : Mask) : Note := ⟨s.tickets, mask, ⟨eh, mask⟩⟩

def taken (s : NotifySys) (n : Note) : List Nat := if n.counted then n.ticket :: s.references else s.references

theorem push_full {allocated : Bool} (h : s.queue.freeQueue = 0 ∧ allocated = false) :
    s.push eh mask allocated = { s with
      tickets := s.tickets + 1
      failed := s.tickets :: s.failed
      references := giveBack (s.taken (s.newNote eh mask)) [s.newNote eh mask] } := by
  simp only [push, pushNewNotification, if_pos h, if_true]
  rfl

theorem push_empty (eh : Option EventHandler) (mask : Mask) {allocated : Bool}
    (h : ¬(s.queue.freeQueue = 0 ∧ allocated = false)) (he : s.queue.notifyQueue = []) :
    ∃ free, s.push eh mask allocated = { s with
      tickets := s.tickets + 1
      queue := ⟨[s.newNote eh mask], free⟩
      writing := s.newNote eh mask :: s.writing
      references := s.taken (s.newNote eh mask) } := by
  simp only [push, pushNewNotification, if_neg h, he]
  exact ⟨_, rfl⟩

theorem push_queued (eh : Option EventHandler) (mask : Mask) {allocated : Bool}
    (h : ¬(s.queue.freeQueue = 0 ∧ allocated = false)) (he : s.queue.notifyQueue ≠ []) :
    ∃ free, s.push eh mask allocated = { s with
      tickets := s.tickets + 1
      queue := ⟨s.queue.notifyQueue ++ [s.newNote eh mask], free⟩
      succeeded := s.tickets :: s.succeeded
      references := s.taken (s.newNote eh mask) } := by
  have hemp : s.queue.notifyQueue.isEmpty = false := by simpa using he
  simp only [push, pushNewNotification, if_neg h, hemp]
  exact ⟨_, rfl⟩

theorem count_taken (s : NotifySys) (n : Note) (t : Nat) :
    (s.taken n).count t = s.references.count t + tally t ([n].filter (·.counted)) := by
  rw [taken, filter_cons]
  cases n.counted <;> simp [count_cons]

theorem tickets_succ (s : NotifySys) (t : Nat) : (if t < s.tickets + 1 then 1 else 0) =
    (if t < s.tickets then 1 else 0) + if s.tickets = t then 1 else 0 := by
  split <;> split <;> split <;> omega

theorem conserved_push {allocated : Bool} (hs : s.Conserved) (hk : s.Keeps (.push eh mask allocated)) :
    (s.push eh mask allocated).Conserved := by
  have hnew : (s.newNote eh mask).Proper := fun heh => ⟨hk.1 heh, rfl⟩
  have hone := fun t => tally_places s t ▸ hs.once t
  have hret := fun t => tally_places s t ▸ hs.returned t
  have hrefs := fun t => tally_filter_held s t ▸ hs.refs t
  have htick : (s.newNote eh mask).ticket = s.tickets := rfl
  by_cases hfull : s.queue.freeQueue = 0 ∧ allocated = false
  · rw [push_full hfull]
    refine ⟨fun t => ?_, hs.returned, fun t => ?_, hs.proper, hs.right, hs.atMostOne, hs.woken⟩
    · have := hone t
      simp only [tally_places, tickets_succ, count_cons, beq_iff_eq]
      omega
    · have := hrefs t
      simp only [tally_filter_held, count_giveBack, count_taken]
      omega
  · by_cases hemp : s.queue.notifyQueue = []
    · obtain ⟨free, heq⟩ := push_empty eh mask hfull hemp
      rw [heq]
      have hout := hk.2 hemp
      refine ⟨fun t => ?_, fun t => ?_, fun t => ?_, ?_, hs.right, ?_, fun _ => ?_⟩
      · have := hone t
        simp only [tally_places, tickets_succ, tally_cons, htick, tally_nil]
        rw [hemp, tally_nil] at this
        omega
      · have := hret t
        simp only [tally_places, tally_cons, htick, tally_nil]
        rw [hemp, tally_nil] at this
        omega
      · have := hrefs t
        simp only [tally_filter_held, count_taken]
        rw [hemp, filter_nil, tally_nil] at this
        omega
      · intro n hn
        rcases mem_append.mp hn with hn | hn
        · rw [mem_singleton.mp hn]
          exact hnew
        · exact hs.proper n (mem_append_right _ hn)
      · simp only [outstanding, length_cons] at hout ⊢
        omega
      · simp only [outstanding, length_cons] at hout ⊢
        omega
    · obtain ⟨free, heq⟩ := push_queued eh mask hfull hemp
      rw [heq]
      refine ⟨fun t => ?_, fun t => ?_, fun t => ?_, ?_, hs.right, hs.atMostOne, fun _ => hs.woken hemp⟩
      · have := hone t
        simp only [tally_places, tickets_succ, tally_append, tally_cons, htick, tally_nil]
        omega
      · have := hret t
        simp only [tally_places, tally_append, tally_cons, htick, tally_nil, count_cons, beq_iff_eq]
        omega
      · have := hrefs t
        simp only [tally_filter_held, count_taken, filter_append, tally_append]
        omega
      · intro n hn
        rcases mem_append.mp hn with hn | hn
        · rcases mem_append.mp hn with hn | hn
          · exact hs.proper n (mem_append_left _ hn)
          · rw [mem_singleton.mp hn]
            exact hnew
        · exact hs.proper n (mem_append_right _ hn)

theorem conserved_write (hs : s.Conserved) (hn : n ∈ s.writing) : (s.write n true).Conserved := by
  have hperm := perm_cons_erase hn
  have hlen : s.writing.length = (s.writing.erase n).length + 1 := hperm.length_eq
  have hout : (s.write n true).outstanding = s.outstanding := by
    simp only [write, if_true, outstanding, length_append, length_singleton]
    omega
  refine ⟨hs.once, fun t => ?_, hs.refs, hs.proper, hs.right, hout ▸ hs.atMostOne, fun hne => hout ▸ hs.woken hne⟩
  have hret := hs.returned t
  rw [tally_perm hperm, tally_cons] at hret
  change ((n.ticket :: s.succeeded).count t) + tally t (s.writing.erase n) = tally t s.places
  rw [count_cons]
  simp only [beq_iff_eq]
  omega

theorem conserved_purge (hs : s.Conserved) (h : s.step (.purge eh mask) = some s') : s'.Conserved := by
  have htally := purgeLoop_tally eh mask s.queue.notifyQueue
  have hcounted := purgeLoop_counted eh mask s.queue.notifyQueue
  cases h
  refine ⟨fun t => ?_, fun t => ?_, fun t => ?_, fun n hn => ?_, hs.right, hs.atMostOne, fun hne => ?_⟩
  · have hone := tally_places s t ▸ hs.once t
    have := htally t
    simp only [tally_places, tally_append]
    omega
  · have hret := tally_places s t ▸ hs.returned t
    have := htally t
    simp only [tally_places, tally_append]
    omega
  · have hrefs := tally_filter_held s t ▸ hs.refs t
    have := hcounted t
    simp only [tally_filter_held, count_giveBack]
    omega
  · rcases mem_append.mp hn with hn | hn
    · exact purgeLoop_proper (fun m hm => hs.proper m (mem_append_left _ hm)) n hn
    · exact hs.proper n (mem_append_right _ hn)
  · exact hs.woken (purgeLoop_nonempty hne)

theorem receive_some (h : s.step .receive = some s') : ∃ buffer pipe, s.dispatcher = .idle ∧
    s.pipe = buffer :: pipe ∧ s' = { s with pipe, dispatcher := .received buffer } := by
  cases hd : s.dispatcher <;> cases hp : s.pipe <;> simp only [step, hd, hp] at h <;> cases h
  exact ⟨_, _, rfl, rfl, rfl⟩

theorem pop_some (h : s.step .pop = some s') : ∃ buffer, s.dispatcher = .received buffer ∧
    ((s.queue.notifyQueue = [] ∧ s' = { s with dispatcher := .idle }) ∨
      ∃ current rest free, s.queue.notifyQueue = current :: rest ∧ s' = { s with
        queue := ⟨rest, free⟩
        dispatcher := .popped current (rest.head?.map (·.buffer)) }) := by
  cases hd : s.dispatcher with
  | received buffer =>
    refine ⟨buffer, rfl, ?_⟩
    simp only [step, hd, popNextNotification] at h
    cases hq : s.queue.notifyQueue with
    | nil =>
      simp only [hq] at h
      cases h
      exact .inl ⟨rfl, rfl⟩
    | cons current rest =>
      simp only [hq] at h
      cases h
      exact .inr ⟨current, rest, _, rfl, rfl⟩
  | idle => simp [step, hd] at h
  | popped => simp [step, hd] at h

theorem send_some (h : s.step .send = some s') : ∃ current next, s.dispatcher = .popped current (some next) ∧
    s' = { s with
      pipe := s.pipe ++ [next]
      dispatcher := .popped current none } := by
  simp only [step] at h
  split at h
  · next current next hd =>
    cases h
    exact ⟨current, next, hd, rfl⟩
  · cases h

theorem upcall_some (h : s.step .upcall = some s') : ∃ current, s.dispatcher = .popped current none ∧
    s' = { s with
      dispatcher := .idle
      dispatched := (current, current.buffer.eh.bind fun _ => methodFor current.buffer.mask) :: s.dispatched
      references := giveBack s.references [current] } := by
  simp only [step] at h
  split at h
  · next current hd =>
    cases h
    exact ⟨current, hd, rfl⟩
  · cases h

theorem conserved_receive (hs : s.Conserved) (h : s.step .receive = some s') : s'.Conserved := by
  obtain ⟨buffer, pipe, hd, hp, rfl⟩ := receive_some h
  have hone := hs.once
  have hret := hs.returned
  have hrefs := hs.refs
  have hproper := hs.proper
  have hmost := hs.atMostOne
  have hwoken := hs.woken
  have hout : pipe.length + s.writing.length + 1 = s.outstanding := by
    simp only [outstanding, hd, hp, length_cons, pending]
    omega
  simp only [places, held, hd, current] at hone hret hrefs hproper
  exact ⟨hone, hret, hrefs, hproper, hs.right, hout.trans_le hmost, fun hne => hout.trans (hwoken hne)⟩

theorem conserved_pop (hs : s.Conserved) (h : s.step .pop = some s') : s'.Conserved := by
  obtain ⟨buffer, hd, ⟨hq, rfl⟩ | ⟨current, rest, free, hq, rfl⟩⟩ := pop_some h
  · have hone := hs.once
    have hret := hs.returned
    have hrefs := hs.refs
    have hproper := hs.proper
    simp only [places, held, hd, current] at hone hret hrefs hproper
    refine ⟨hone, hret, hrefs, hproper, hs.right, ?_, fun hne => absurd hq hne⟩
    have hmost := hs.atMostOne
    simp only [outstanding, hd, pending] at hmost ⊢
    omega
  · have hone := fun t => tally_places s t ▸ hs.once t
    have hret := fun t => tally_places s t ▸ hs.returned t
    have hrefs := fun t => tally_filter_held s t ▸ hs.refs t
    have hmost := hs.atMostOne
    have hwoken := hs.woken (by simp [hq])
    simp only [hd, hq, Dispatcher.current, tally_cons, tally_nil, filter_nil] at hone hret hrefs
    refine ⟨fun t => ?_, fun t => ?_, fun t => ?_, fun n hn => hs.proper n ?_, hs.right, ?_, fun hne => ?_⟩
    · have := hone t
      simp only [tally_places, Dispatcher.current, tally_cons, tally_nil]
      omega
    · have := hret t
      simp only [tally_places, Dispatcher.current, tally_cons, tally_nil]
      omega
    · have := hrefs t
      have happ : current :: rest = [current] ++ rest := rfl
      rw [happ, filter_append, tally_append] at this
      simp only [tally_filter_held, Dispatcher.current]
      omega
    · refine mem_append_left _ ?_
      rw [hq]
      rcases mem_append.mp hn with hn | hn
      · exact mem_cons_of_mem _ hn
      · rw [mem_singleton.mp hn]
        exact mem_cons_self
    · cases rest <;> simp only [outstanding, hd, pending, head?_nil, head?_cons,
        map_none, map_some] at hmost ⊢ <;> omega
    · cases rest with
      | nil => exact absurd rfl hne
      | cons next rest =>
        simp only [outstanding, hd, pending, head?_cons, map_some] at hwoken ⊢
        exact hwoken

theorem conserved_send (hs : s.Conserved) (h : s.step .send = some s') : s'.Conserved := by
  obtain ⟨current, next, hd, rfl⟩ := send_some h
  have hone := hs.once
  have hret := hs.returned
  have hrefs := hs.refs
  have hproper := hs.proper
  simp only [places, held, hd, Dispatcher.current] at hone hret hrefs hproper
  have hout : (s.pipe ++ [next]).length + s.writing.length + 0 = s.outstanding := by
    simp only [outstanding, hd, pending, length_append, length_singleton]
    omega
  exact ⟨hone, hret, hrefs, hproper, hs.right, hout.trans_le hs.atMostOne, fun hne => hout.trans (hs.woken hne)⟩

theorem conserved_upcall (hs : s.Conserved) (h : s.step .upcall = some s') : s'.Conserved := by
  obtain ⟨current, hd, rfl⟩ := upcall_some h
  have hone := fun t => tally_places s t ▸ hs.once t
  have hret := fun t => tally_places s t ▸ hs.returned t
  have hrefs := fun t => tally_filter_held s t ▸ hs.refs t
  simp only [hd, Dispatcher.current, tally_cons, tally_nil] at hone hret hrefs
  have hout : s.pipe.length + s.writing.length + 0 = s.outstanding := by
    simp only [outstanding, hd, pending]
  refine ⟨fun t => ?_, fun t => ?_, fun t => ?_, fun n hn => ?_, fun d hmem => ?_, hout.trans_le hs.atMostOne,
    fun hne => hout.trans (hs.woken hne)⟩
  · have := hone t
    simp only [tally_places, Dispatcher.current, map_cons, tally_cons, tally_nil]
    omega
  · have := hret t
    simp only [tally_places, Dispatcher.current, map_cons, tally_cons, tally_nil]
    omega
  · have := hrefs t
    simp only [tally_filter_held, Dispatcher.current, count_giveBack, filter_nil, tally_nil]
    omega
  · rcases mem_append.mp hn with hn | hn
    · exact hs.proper n (mem_append_left _ hn)
    · cases hn
  · rcases mem_cons.mp hmem with rfl | hmem
    · intro heh
      obtain ⟨hm, hp⟩ := hs.proper current (mem_append_right _ (by simp [hd, Dispatcher.current])) heh
      obtain ⟨eh, heq⟩ := isSome_iff_exists.mp heh
      have hcall : current.buffer.eh = some eh := heq
      simp only [hcall, hp, bind_some]
      exact ⟨hm, trivial⟩
    · exact hs.right d hmem

theorem conserved_step {l : NotifyStep} (hs : s.Conserved) (hk : s.Keeps l) (h : s.step l = some s') :
    s'.Conserved := by
  cases l with
  | push eh mask allocated =>
    cases h
    exact conserved_push hs hk
  | write ticket ok =>
    obtain ⟨n, hn, rfl⟩ := map_eq_some_iff.mp h
    have hok : ok = true := hk
    rw [hok]
    exact conserved_write hs (mem_of_find?_eq_some hn)
  | purge => exact conserved_purge hs h
  | receive => exact conserved_receive hs h
  | pop => exact conserved_pop hs h
  | send => exact conserved_send hs h
  | upcall => exact conserved_upcall hs h

/-! ## Draining -/

/-- The steps that finish calls under way and dispatch. -/
def Answers : NotifyStep → Prop
  | .push _ _ _ => False
  | .write _ ok => ok = true
  | .purge _ _ => False
  | .receive | .pop | .send | .upcall => True

/-- A bound for the number of these steps. -/
def work (s : NotifySys) : Nat :=
  4 * s.queue.notifyQueue.length + 3 * s.writing.length + 2 * s.pipe.length +
    match s.dispatcher with
    | .idle => 0
    | .received _ => 1
    | .popped _ none => 1
    | .popped _ (some _) => 4

theorem keeps_of_answers {l : NotifyStep} (h : Answers l) : s.Keeps l := by
  cases l with
  | push => exact h.elim
  | write => exact h
  | purge => exact h.elim
  | receive => trivial
  | pop => trivial
  | send => trivial
  | upcall => trivial

theorem work_decreases {l : NotifyStep} (ha : Answers l) (h : s.step l = some s') : s'.work < s.work := by
  cases l with
  | push => exact ha.elim
  | purge => exact ha.elim
  | write ticket ok =>
    obtain ⟨n, hn, rfl⟩ := map_eq_some_iff.mp h
    have hok : ok = true := ha
    have hlen := (perm_cons_erase (mem_of_find?_eq_some hn)).length_eq
    simp only [hok, write, if_true, work, length_append, length_cons, length_nil] at hlen ⊢
    omega
  | receive =>
    obtain ⟨buffer, pipe, hd, hp, rfl⟩ := receive_some h
    simp only [work, hd, hp, length_cons]
    omega
  | pop =>
    obtain ⟨buffer, hd, ⟨hq, rfl⟩ | ⟨current, rest, free, hq, rfl⟩⟩ := pop_some h
    · simp only [work, hd]
      omega
    · cases rest <;> simp only [work, hd, hq, length_cons, length_nil, head?_nil,
        head?_cons, map_none, map_some] <;> omega
  | send =>
    obtain ⟨current, next, hd, rfl⟩ := send_some h
    simp only [work, hd, length_append, length_singleton]
    omega
  | upcall =>
    obtain ⟨current, hd, rfl⟩ := upcall_some h
    simp only [work, hd]
    omega

theorem answers_bounded {ls : List NotifyStep} (ha : ∀ l ∈ ls, Answers l) (h : run step s ls = some s') :
    ls.length + s'.work ≤ s.work := by
  induction ls generalizing s with
  | nil =>
    cases h
    simp
  | cons l ls ih =>
    obtain ⟨t, ht, hrun⟩ := run_cons_some h
    have hlt := work_decreases (ha l mem_cons_self) ht
    have hle := ih (fun m hm => ha m (mem_cons_of_mem _ hm)) hrun
    simp only [length_cons]
    omega

theorem drained_of_stuck (hs : s.Conserved) (h : ∀ l, Answers l → s.step l = none) : s.held = [] ∧ s.writing = [] := by
  have hw : s.writing = [] := by
    cases hw : s.writing with
    | nil => rfl
    | cons n rest =>
      have hnone := h (.write n.ticket true) rfl
      simp [step, hw] at hnone
  cases hd : s.dispatcher with
  | received buffer =>
    have hnone := h .pop trivial
    simp only [step, hd] at hnone
    split at hnone <;> cases hnone
  | popped current next =>
    cases next with
    | none =>
      have hnone := h .upcall trivial
      simp [step, hd] at hnone
    | some next =>
      have hnone := h .send trivial
      simp [step, hd] at hnone
  | idle =>
    have hp : s.pipe = [] := by
      cases hp : s.pipe with
      | nil => rfl
      | cons buffer pipe =>
        have hnone := h .receive trivial
        simp [step, hd, hp] at hnone
    have hq : s.queue.notifyQueue = [] := by
      by_contra hq
      have hone := hs.woken hq
      simp [outstanding, hw, hp, hd, pending] at hone
    refine ⟨?_, hw⟩
    rw [held, hq, hd]
    rfl

/-! ## Results -/

theorem once_of_succeeded (hs : s.Conserved) (ht : t ∈ s.succeeded) :
    tally t s.places = 1 ∧ t ∉ s.failed := by
  have hone := hs.once t
  have hret := hs.returned t
  have hpos : 0 < s.succeeded.count t := count_pos_iff.mpr ht
  rw [← count_eq_zero]
  split at hone <;> omega

theorem none_of_failed (hs : s.Conserved) (ht : t ∈ s.failed) :
    tally t s.places = 0 ∧ t ∉ s.succeeded ∧ t ∉ s.references := by
  have hone := hs.once t
  have hret := hs.returned t
  have hrefs := hs.refs t
  have hpos : 0 < s.failed.count t := count_pos_iff.mpr ht
  have hplaces : tally t s.places = 0 := by
    split at hone <;> omega
  have hheld : tally t (s.held.filter (·.counted)) = 0 := by
    rw [places, tally_append, tally_append] at hplaces
    have hsub : tally t (s.held.filter (·.counted)) ≤ tally t s.held :=
      (filter_sublist.map Note.ticket).count_le t
    omega
  refine ⟨hplaces, ?_, ?_⟩
  · rw [← count_eq_zero]
    omega
  · rw [← count_eq_zero]
    omega

/-- Under the condition every notification is accounted for at any time, the pipe agrees
with the queue between the calls, and the dispatcher empties the queue. -/
theorem conserved_of_keeps {ls : List NotifyStep} (hk : AllSteps step Keeps fresh ls)
    (h : run step fresh ls = some s) :
    (∀ t ∈ s.succeeded, tally t s.places = 1 ∧ t ∉ s.failed) ∧
    (∀ t ∈ s.failed, tally t s.places = 0 ∧ t ∉ s.succeeded ∧ t ∉ s.references) ∧
    (∀ d ∈ s.dispatched, d.1.buffer.eh.isSome → d.2.isSome ∧ d.2 = methodFor d.1.asked) ∧
    (∀ t, s.references.count t = tally t (s.held.filter (·.counted))) ∧
    (s.writing = [] → s.dispatcher = .idle →
      s.pipe.length ≤ 1 ∧ (s.queue.notifyQueue ≠ [] → s.pipe.length = 1)) ∧
    (∀ ms s', (∀ l ∈ ms, Answers l) → run step s ms = some s' → ms.length ≤ s.work ∧
      ((∀ l, Answers l → s'.step l = none) →
        ∀ t ∈ s'.succeeded, tally t (s'.dispatched.map (·.1) ++ s'.purged) = 1)) := by
  have hstep : ∀ s l s', Conserved s → Keeps s l → step s l = some s' → Conserved s' :=
    fun s l s' hs hk h => conserved_step hs hk h
  have hs := run_inv_of hstep conserved_fresh hk h
  refine ⟨fun t => once_of_succeeded hs, fun t => none_of_failed hs, hs.right, hs.refs, fun hw hd => ?_,
    fun ms s' ha hrun => ⟨?_, fun hstuck t ht => ?_⟩⟩
  · have hout : s.outstanding = s.pipe.length := by
      simp [outstanding, hw, hd, pending]
    exact ⟨hout ▸ hs.atMostOne, fun hq => hout ▸ hs.woken hq⟩
  · have hle := answers_bounded ha hrun
    omega
  · have hanswer : ∀ s l s', Conserved s → Answers l → step s l = some s' → Conserved s' :=
      fun s l s' hs ha h => conserved_step hs (keeps_of_answers ha) h
    have hs' := run_inv_of hanswer hs (allSteps_of_forall ha) hrun
    have hone := (once_of_succeeded hs' ht).1
    rw [places, (drained_of_stuck hs' hstuck).1] at hone
    exact hone

/-- A run with a purge, and with notifications of two handlers. -/
def samplePurge : List NotifyStep :=
  [.push (some ⟨1, 5, true, true⟩) readMask true, .push (some ⟨2, 6, false, true⟩) writeMask true,
    .write 0 true, .receive, .pop, .push (some ⟨1, 5, true, true⟩) exceptMask true, .send, .upcall,
    .purge (some ⟨1, 5, true, true⟩) exceptMask]

theorem conserved_of_keeps_sample : ∃ s, run step fresh samplePurge = some s ∧
    s.dispatched.map (·.2) = [some .handleInput] ∧ s.purged.map (·.ticket) = [2] ∧ s.pipe.length = 1 ∧
    ∀ t ∈ s.succeeded, tally t s.places = 1 ∧ t ∉ s.failed := by
  have hkeeps : AllSteps step Keeps fresh samplePurge := by decide
  exact ⟨_, rfl, by decide, by decide, by decide, (conserved_of_keeps hkeeps rfl).1⟩

/-- A write that fails leaves its notification in the queue without a message: the next call
returns 0 and nothing wakes the reactor. With a message left over from a purge, the failed
notification is dispatched without a reference; and two messages meet in the pipe. -/
theorem failed_write_keeps_notification :
    (∃ s, run step fresh [.push (some ⟨1, 5, true, true⟩) readMask true, .write 0 false,
        .push (some ⟨2, 6, true, true⟩) readMask true] = some s ∧
      s.writing = [] ∧ s.dispatcher = .idle ∧ s.succeeded = [1] ∧
      s.queue.notifyQueue.map (·.ticket) = [0, 1] ∧ s.pipe = []) ∧
    (∃ s, run step fresh [.push (some ⟨1, 5, true, true⟩) readMask true, .write 0 true,
        .purge (some ⟨1, 5, true, true⟩) readMask, .push (some ⟨2, 6, true, true⟩) readMask true, .write 1 false,
        .receive, .pop, .upcall] = some s ∧
      s.failed = [1] ∧ s.dispatched.map (fun d => (d.1.ticket, d.2)) = [(1, some .handleInput)]) ∧
    (∃ s, run step fresh [.push (some ⟨1, 5, true, true⟩) readMask true, .write 0 true,
        .purge (some ⟨1, 5, true, true⟩) readMask, .push (some ⟨2, 6, true, true⟩) readMask true,
        .write 1 true] = some s ∧
      s.writing = [] ∧ s.dispatcher = .idle ∧ s.pipe.length = 2) :=
  ⟨⟨_, rfl, by decide⟩, ⟨_, rfl, by decide⟩, ⟨_, rfl, by decide⟩⟩

end NotifySys

end Atcd.Reactor
