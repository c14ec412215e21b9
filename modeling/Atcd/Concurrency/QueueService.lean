import Atcd.Concurrency.LockSetRuns
/-!
# The queue of a lock set

`unlock` serves the queue until its head is incompatible with the modes counted.
`change_mode` gives a mode up too, but where the new one is granted nobody looks at the
queue, although its head may be compatible now.

What calls do to the lock set are the sections in which they have `mlock_`, those of
different threads in any order. `lock_held` only reads.

* `head_waits_iff`: after every section of a run the head is incompatible if and only if no
  change of mode takes the last mode away for which the head waits.
-/
namespace Atcd.Concurrency
open Atcd.Core

/-- A section under the mutex, of the call of the name. -/
inductive Section
  | lock (m : Mode)
  | tryLock (m : Mode)
  | unlock (m : Mode)
  | changeMode (held new : Mode)

namespace LockSet

/-- The loop of `unlock`. -/
def serve (lock : Mode → Int) : List Mode → LockSet
  | [] => ⟨lock, []⟩
  | m :: queue =>
    if compatible ⟨lock, m :: queue⟩ m then serve (add ⟨lock, queue⟩ m 1).lock queue
    else ⟨lock, m :: queue⟩

/-- `LockNotHeld` leaves everything.
mirrors TAO/orbsvcs/orbsvcs/Concurrency/CC_LockSet.cpp:139-178 -/
def unlock (s : LockSet) (m : Mode) : LockSet :=
  if s.lock m = 0 then s else serve (s.add m (-1)).lock s.lockQueue

def enter (s : LockSet) : Section → Option LockSet
  | .lock m => some (s.lockI m).1
  | .tryLock m => some (s.tryLockI m).1
  | .unlock m => some (s.unlock m)
  | .changeMode held new => some (s.changeModeI held new).1

def empty : LockSet := ⟨fun _ => 0, []⟩

/-- The head of the queue is incompatible with a mode that is counted. -/
def HeadWaits (s : LockSet) : Prop :=
  ∀ m ∈ s.lockQueue.head?, s.compatible m = false

/-- Locks in the mode when one of `held` is given up for one of `new`. -/
def changed (s : LockSet) (held new i : Mode) : Int :=
  s.lock i - (if i = held then 1 else 0) + if i = new then 1 else 0

/-- A change of mode that is granted leaves a mode for which the head waits. -/
def Covered (s : LockSet) : Section → Prop
  | .changeMode held new => (s.add held (-1)).compatible new = true →
      ∀ m ∈ s.lockQueue.head?, ∃ i, 0 < s.changed held new i ∧ compatibleModes i m = false
  | _ => True

theorem incompatible_iff {s : LockSet} {m : Mode} :
    s.compatible m = false ↔ ∃ i, 0 < s.lock i ∧ compatibleModes i m = false := by
  rw [← Bool.not_eq_true, compatible_iff]
  push Not
  simp

theorem HeadWaits.add {s : LockSet} (h : s.HeadWaits) (m : Mode) : (s.add m 1).HeadWaits := by
  intro k hk
  obtain ⟨i, hi, hno⟩ := incompatible_iff.mp (h k hk)
  refine incompatible_iff.mpr ⟨i, ?_, hno⟩
  rw [add_lock]
  split <;> omega

theorem HeadWaits.enqueue {s : LockSet} (h : s.HeadWaits) {m : Mode}
    (hm : s.lockQueue = [] → s.compatible m = false) :
    ({ s with lockQueue := s.lockQueue ++ [m] } : LockSet).HeadWaits := by
  intro k hk
  cases hqueue : s.lockQueue with
  | nil =>
    rw [hqueue] at hk
    cases hk
    exact hm hqueue
  | cons l queue =>
    refine h k ?_
    rw [hqueue] at hk ⊢
    exact hk

theorem serve_waits (lock : Mode → Int) (queue : List Mode) : (serve lock queue).HeadWaits := by
  induction queue generalizing lock with
  | nil => simp [serve, HeadWaits]
  | cons m queue ih =>
    unfold serve
    split
    · exact ih _
    · rename_i hno
      intro k hk
      cases hk
      simpa using hno

theorem changeMode_waits_iff {s : LockSet} (h : s.HeadWaits) (held new : Mode) :
    (s.changeModeI held new).1.HeadWaits ↔ s.Covered (.changeMode held new) := by
  unfold changeModeI
  split
  · rename_i hgrant
    have hlock : ∀ i, ((s.add held (-1)).add new 1).lock i = s.changed held new i := by
      intro i
      rw [add_lock, add_lock, changed]
      split <;> split <;> omega
    constructor
    · intro hwaits _ m hm
      obtain ⟨i, hi, hno⟩ := incompatible_iff.mp (hwaits m hm)
      exact ⟨i, by rwa [← hlock], hno⟩
    · intro hcovered m hm
      obtain ⟨i, hi, hno⟩ := hcovered hgrant m hm
      exact incompatible_iff.mpr ⟨i, by rwa [hlock], hno⟩
  · rename_i hno
    have hmore : s.compatible new = false := by
      obtain ⟨i, hi, hi'⟩ := incompatible_iff.mp (Bool.not_eq_true _ ▸ hno)
      refine incompatible_iff.mpr ⟨i, ?_, hi'⟩
      rw [add_lock] at hi
      split at hi <;> omega
    exact ⟨fun _ hgrant => absurd hgrant hno, fun _ => h.enqueue fun _ => hmore⟩

theorem enter_waits_iff {s t : LockSet} (h : s.HeadWaits) {c : Section} (ht : s.enter c = some t) :
    t.HeadWaits ↔ s.Covered c := by
  cases c with
  | lock m =>
    cases ht
    refine iff_of_true ?_ trivial
    simp only [lockI]
    split
    · rename_i hqueue
      exact h.enqueue fun hempty => hqueue.resolve_right (by simp [hempty])
    · exact h.add m
  | tryLock m =>
    cases ht
    refine iff_of_true ?_ trivial
    simp only [tryLockI]
    split
    · exact h
    · exact h.add m
  | unlock m =>
    cases ht
    refine iff_of_true ?_ trivial
    simp only [unlock]
    split
    · exact h
    · exact serve_waits _ _
  | changeMode held new =>
    cases ht
    exact changeMode_waits_iff h held new

/-- **The head waits for a mode** as long as no change of mode takes the last one away. -/
theorem head_waits_iff (sections : List Section) :
    (∀ pre t, pre <+: sections → run enter empty pre = some t → t.HeadWaits) ↔
      AllSteps enter Covered empty sections := by
  have hempty : empty.HeadWaits := by simp [empty, HeadWaits]
  rw [reached_iff, and_iff_right hempty]
  refine allSteps_congr (fun s c h => ?_) (fun s c t h hcovered ht => ?_) hempty
  · constructor
    · intro hall
      obtain ⟨t, ht⟩ : ∃ t, s.enter c = some t := by cases c <;> exact ⟨_, rfl⟩
      exact (enter_waits_iff h ht).mp (hall t ht)
    · exact fun hcovered t ht => (enter_waits_iff h ht).mpr hcovered
  · exact (enter_waits_iff h ht).mpr hcovered

/-- A reader waits for a writer that becomes a reader itself. -/
theorem reader_left_waiting :
    ∃ t, run enter empty [.lock .w, .lock .r, .changeMode .w .r] = some t ∧ ¬t.HeadWaits := by
  refine ⟨_, rfl, fun h => ?_⟩
  exact absurd (h .r rfl) (by decide)

end LockSet

end Atcd.Concurrency
