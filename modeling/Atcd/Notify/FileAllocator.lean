import Atcd.Core.Run
import Atcd.Core.WriteLog
/-!
# `Persistent_File_Allocator`: blocks written behind

A written block is queued and stays in the queue while the writer thread writes it to the file,
so that a read finds it there. `write` and `read` look at `thread_active_` before they take the
queue's mutex, and the writer clears it without that mutex, after it has left its loop.

A step is what a party does up to the next place where another one can come in between; a block
that is only there for its callback has a number that no read has, and is left out.

Results:
- `step_kept`: what a step keeps;
- `written_and_read`: as long as no block is queued behind a writer that has left its loop,
  the writes reach the file in their order, all of them, and reads find the last one.
-/
namespace Atcd.Notify
open Atcd.Core List Function Option

variable {D : Type*}

/-- A block as it is queued: copied, or owned by the allocator. -/
structure QueuedBlock (D : Type*) where
  number : Nat
  data : D

/-- Where the writer thread is.
mirrors TAO/orbsvcs/orbsvcs/Notify/Persistent_File_Allocator.cpp:343-396 -/
inductive WriterPhase (D : Type*)
  | loop
  | writing (b : QueuedBlock D)
  | written (b : QueuedBlock D)
  /-- The loop is left; the flags are cleared one after the other. -/
  | left
  | cleared
  | ended

/-- A read that has returned `true`, with the writes that were queued when it began and when it
returned. -/
structure ReadResult (D : Type*) where
  number : Nat
  before : List (QueuedBlock D)
  data : D
  after : List (QueuedBlock D)

/-- The allocator, the file, the calls of `write` and `read` that are on their way, and what has
been queued, applied to the file and read so far. -/
structure FileAllocator (D : Type*) where
  file : Nat → D
  queue : List (QueuedBlock D)
  terminate_thread : Bool
  thread_active : Bool
  writer : WriterPhase D
  writes : List (QueuedBlock D)
  lookups : List (Nat × List (QueuedBlock D))
  misses : List (Nat × List (QueuedBlock D))
  queued : List (QueuedBlock D)
  applied : List (QueuedBlock D)
  results : List (ReadResult D)

inductive AllocatorStep (D : Type*)
  /-- A call finds the thread active, or returns `false`. -/
  | write (b : QueuedBlock D)
  | read (number : Nat)
  /-- The `k`-th of the calls that are so far takes the mutex. -/
  | enqueue (k : Nat)
  | lookup (k : Nat)
  /-- The `k`-th of the reads that have not found their block in the queue. -/
  | readFile (k : Nat)
  | shutdown
  | writer

def dataOf (file : Nat → D) (ws : List (QueuedBlock D)) (number : Nat) : D :=
  (contents QueuedBlock.number QueuedBlock.data ws number).getD (file number)

/-- A read returns what was queued last at some moment while it was on its way. -/
def ReadResult.Right (file : Nat → D) (r : ReadResult D) : Prop :=
  ∃ ws, r.before <+: ws ∧ ws <+: r.after ∧ r.data = dataOf file ws r.number

namespace FileAllocator

/-- After `open`, with what the file has.
mirrors Persistent_File_Allocator.cpp:119-144 -/
def opened (file : Nat → D) : FileAllocator D where
  file := file
  queue := []
  terminate_thread := false
  thread_active := true
  writer := .loop
  writes := []
  lookups := []
  misses := []
  queued := []
  applied := []
  results := []

/-- What the writer does next; it waits while there is nothing to do.
mirrors Persistent_File_Allocator.cpp:343-396 -/
def runWriter (s : FileAllocator D) : Option (FileAllocator D) :=
  match s.writer with
  | .loop =>
    match s.queue with
    | b :: _ => some { s with writer := .writing b }
    | [] => if s.terminate_thread then some { s with writer := .left } else none
  | .writing b =>
    some { s with
      file := Function.update s.file b.number b.data
      applied := s.applied ++ [b]
      writer := .written b }
  | .written _ => some { s with queue := s.queue.tail, writer := .loop }
  | .left => some { s with terminate_thread := false, writer := .cleared }
  | .cleared => some { s with thread_active := false, writer := .ended }
  | .ended => none

/-- mirrors Persistent_File_Allocator.cpp:235-295, 327-341 -/
def step (s : FileAllocator D) : AllocatorStep D → Option (FileAllocator D)
  | .write b => some (if s.thread_active then { s with writes := s.writes ++ [b] } else s)
  | .read number =>
    some (if s.thread_active then { s with lookups := s.lookups ++ [(number, s.queued)] } else s)
  | .enqueue k => s.writes[k]?.map fun b =>
    { s with writes := s.writes.eraseIdx k, queue := s.queue ++ [b], queued := s.queued ++ [b] }
  | .lookup k => s.lookups[k]?.map fun (number, before) =>
    let s := { s with lookups := s.lookups.eraseIdx k }
    -- the search starts at the end of the queue
    match s.queue.reverse.find? (·.number = number) with
    | some b => { s with results := s.results ++ [⟨number, before, b.data, s.queued⟩] }
    | none => { s with misses := s.misses ++ [(number, before)] }
  | .readFile k => s.misses[k]?.map fun (number, before) =>
    { s with
      misses := s.misses.eraseIdx k
      results := s.results ++ [⟨number, before, s.file number, s.queued⟩] }
  | .shutdown => some (if s.thread_active then { s with terminate_thread := true } else s)
  | .writer => s.runWriter

/-- The writes are applied in the order of queueing, all of them before the thread ends, and
reads are right. -/
structure Faithful (file : Nat → D) (s : FileAllocator D) : Prop where
  order : s.applied <+: s.queued
  ended : s.writer = .ended → s.applied = s.queued
  reads : ∀ r ∈ s.results, r.Right file

/-- The block that is applied and still in the queue. -/
def inHand (s : FileAllocator D) : List (QueuedBlock D) :=
  match s.writer with
  | .written b => [b]
  | _ => []

/-- What is kept: the writes that are dequeued, those in the queue, and the reads on their
way. -/
structure Kept (file : Nat → D) (s : FileAllocator D) (dequeued : List (QueuedBlock D)) :
    Prop where
  queued : s.queued = dequeued ++ s.queue
  applied : s.applied = dequeued ++ s.inHand
  head : ∀ b, s.writer = .writing b ∨ s.writer = .written b → s.queue.head? = some b
  done : s.writer = .left ∨ s.writer = .cleared ∨ s.writer = .ended → s.queue = []
  onFile : ∀ number, s.file number = dataOf file s.applied number
  lookups : ∀ l ∈ s.lookups, l.2 <+: s.queued
  misses : ∀ m ∈ s.misses, m.2 <+: s.queued ∧ ∀ b ∈ m.2.drop s.applied.length, b.number ≠ m.1
  results : ∀ r ∈ s.results, r.Right file

variable {file : Nat → D} {s s' : FileAllocator D} {dequeued : List (QueuedBlock D)}

theorem Kept.applied_prefix (h : s.Kept file dequeued) : s.applied <+: s.queued := by
  rw [h.applied, h.queued]
  apply (prefix_append_right_inj dequeued).mpr
  cases hw : s.writer with
  | written b =>
    obtain ⟨rest, hrest⟩ := head?_eq_some_iff.mp (h.head b (.inr hw))
    rw [inHand, hw, hrest]
    exact ⟨rest, rfl⟩
  | _ =>
    rw [inHand, hw]
    exact nil_prefix

theorem dataOf_append {ws vs : List (QueuedBlock D)} {number : Nat}
    (h : ∀ b ∈ vs, b.number ≠ number) : dataOf file (ws ++ vs) number = dataOf file ws number := by
  rw [dataOf, dataOf, contents_append_of_not_mem h]

theorem dataOf_concat (ws : List (QueuedBlock D)) (b : QueuedBlock D) :
    dataOf file (ws ++ [b]) = update (dataOf file ws) b.number b.data := by
  funext number
  rw [dataOf, contents_concat]
  by_cases h : number = b.number
  · rw [h, update_self, update_self, getD_some]
  · rw [update_of_ne h, update_of_ne h, dataOf]

theorem dataOf_found {ws queue : List (QueuedBlock D)} {number : Nat} {b : QueuedBlock D}
    (h : queue.reverse.find? (·.number = number) = some b) :
    dataOf file (ws ++ queue) number = b.data := by
  obtain ⟨hnum, later, earlier, heq, hlater⟩ := find?_eq_some_iff_append.mp h
  have hqueue : queue = earlier.reverse ++ [b] ++ later.reverse := by
    rw [← reverse_reverse queue, heq]
    simp
  rw [hqueue, ← append_assoc, dataOf_append, ← append_assoc, dataOf_concat]
  · rw [← of_decide_eq_true hnum, update_self]
  · intro c hc
    simpa using hlater c (mem_reverse.mp hc)

theorem Kept.read_file (h : s.Kept file dequeued) {m : Nat × List (QueuedBlock D)}
    (hm : m ∈ s.misses) : ReadResult.Right file ⟨m.1, m.2, s.file m.1, s.queued⟩ := by
  obtain ⟨hbefore, hnone⟩ := h.misses m hm
  have happlied := h.applied_prefix
  rcases Nat.le_total m.2.length s.applied.length with hle | hle
  · refine ⟨s.applied, ?_, happlied, h.onFile m.1⟩
    exact prefix_of_prefix_length_le hbefore happlied hle
  · -- what was queued before the search and is not applied yet is not of this number
    refine ⟨m.2, prefix_refl _, hbefore, ?_⟩
    obtain ⟨rest, hrest⟩ := prefix_of_prefix_length_le happlied hbefore hle
    rw [← hrest, drop_left] at hnone
    rw [← hrest, dataOf_append hnone]
    exact h.onFile m.1

/-- A search that finds nothing in the queue. -/
theorem Kept.missed (h : s.Kept file dequeued) {l : Nat × List (QueuedBlock D)}
    (hl : l ∈ s.lookups) (hnone : s.queue.reverse.find? (·.number = l.1) = none) :
    l.2 <+: s.queued ∧ ∀ b ∈ l.2.drop s.applied.length, b.number ≠ l.1 := by
  have hqueue := h.lookups l hl
  refine ⟨hqueue, fun b hb => ?_⟩
  have hmem : b ∈ s.queue := by
    have hlong : dequeued.length ≤ s.applied.length := by
      rw [h.applied, length_append]
      exact Nat.le_add_right _ _
    have hdrop : b ∈ s.queued.drop dequeued.length :=
      (drop_subset_drop_left _ hlong) ((hqueue.drop _).subset hb)
    rwa [h.queued, drop_left] at hdrop
  have hno := find?_eq_none.mp hnone b (mem_reverse.mpr hmem)
  simpa using hno

/-- No block is queued behind a writer that has left its loop. -/
def Good (s : FileAllocator D) : AllocatorStep D → Prop
  | .enqueue _ => ¬(s.writer = .left ∨ s.writer = .cleared ∨ s.writer = .ended)
  | _ => True

theorem runWriter_kept (h : s.Kept file dequeued) (hstep : s.runWriter = some s') :
    ∃ dequeued', s'.Kept file dequeued' := by
  obtain ⟨hqueued, happ, hhead, hdone, hfile, hlookups, hmisses, hresults⟩ := h
  unfold runWriter inHand at *
  cases hw : s.writer with
  | loop =>
    rw [hw] at hstep happ
    cases hq : s.queue with
    | nil =>
      rw [hq] at hstep hqueued
      split_ifs at hstep
      obtain rfl := some.inj hstep
      exact ⟨dequeued, hqueued, happ, by simp, fun _ => rfl, hfile, hlookups, hmisses, hresults⟩
    | cons b queue =>
      rw [hq] at hstep hqueued
      obtain rfl := some.inj hstep
      refine ⟨dequeued, hqueued, happ, fun c hc => ?_, by simp, hfile, hlookups, hmisses, hresults⟩
      rcases hc with hc | hc
      · obtain rfl := WriterPhase.writing.inj hc
        rfl
      · cases hc
  | writing b =>
    rw [hw] at hstep happ
    obtain rfl := some.inj hstep
    rw [append_nil] at happ
    refine ⟨dequeued, hqueued, ?_, fun c hc => ?_, by simp, fun number => ?_, hlookups,
      fun m hm => ⟨(hmisses m hm).1, fun c hc => ?_⟩, hresults⟩
    · rw [inHand, happ]
    · rcases hc with hc | hc
      · cases hc
      · obtain rfl := WriterPhase.written.inj hc
        exact hhead b (.inl hw)
    · rw [dataOf_concat, ← funext hfile]
    · refine (hmisses m hm).2 c (drop_subset_drop_left _ ?_ hc)
      rw [length_append]
      exact Nat.le_add_right _ _
  | written b =>
    rw [hw] at hstep happ
    obtain rfl := some.inj hstep
    obtain ⟨rest, hrest⟩ := head?_eq_some_iff.mp (hhead b (.inr hw))
    refine ⟨dequeued ++ [b], ?_, ?_, by simp, by simp, hfile, hlookups, hmisses, hresults⟩
    · simp [hqueued, hrest]
    · simpa [inHand] using happ
  | left =>
    rw [hw] at hstep happ
    obtain rfl := some.inj hstep
    exact ⟨dequeued, hqueued, happ, by simp, fun _ => hdone (.inl hw),
      hfile, hlookups, hmisses, hresults⟩
  | cleared =>
    rw [hw] at hstep happ
    obtain rfl := some.inj hstep
    exact ⟨dequeued, hqueued, happ, by simp,
      fun _ => hdone (.inr (.inl hw)), hfile, hlookups, hmisses, hresults⟩
  | ended =>
    rw [hw] at hstep
    cases hstep

theorem step_kept {l : AllocatorStep D} (h : ∃ dequeued, s.Kept file dequeued) (hgood : s.Good l)
    (hstep : s.step l = some s') : ∃ dequeued', s'.Kept file dequeued' := by
  obtain ⟨dequeued, h⟩ := h
  obtain ⟨hqueued, happlied, hhead, hdone, hfile, hlookups, hmisses, hresults⟩ := h
  cases l with
  | write b =>
    obtain rfl := some.inj hstep
    refine ⟨dequeued, ?_⟩
    split_ifs
    · exact ⟨hqueued, happlied, hhead, hdone, hfile, hlookups, hmisses, hresults⟩
    · exact ⟨hqueued, happlied, hhead, hdone, hfile, hlookups, hmisses, hresults⟩
  | read number =>
    obtain rfl := some.inj hstep
    refine ⟨dequeued, ?_⟩
    split_ifs
    · refine ⟨hqueued, happlied, hhead, hdone, hfile, fun l hl => ?_, hmisses, hresults⟩
      rcases mem_append.mp hl with hl | hl
      · exact hlookups l hl
      · rw [mem_singleton.mp hl]
    · exact ⟨hqueued, happlied, hhead, hdone, hfile, hlookups, hmisses, hresults⟩
  | enqueue k =>
    obtain ⟨b, -, rfl⟩ := map_eq_some_iff.mp hstep
    have hgrow : s.queued <+: s.queued ++ [b] := prefix_append _ _
    refine ⟨dequeued, by simp [hqueued], happlied, fun c hc => ?_, fun hw => absurd hw hgood,
      hfile, fun l hl => (hlookups l hl).trans hgrow,
      fun m hm => ⟨(hmisses m hm).1.trans hgrow, (hmisses m hm).2⟩, hresults⟩
    obtain ⟨rest, hrest⟩ := head?_eq_some_iff.mp (hhead c hc)
    simp [hrest]
  | lookup k =>
    obtain ⟨⟨number, before⟩, hl, rfl⟩ := map_eq_some_iff.mp hstep
    have hmem := mem_of_getElem? hl
    have hstill : ∀ l ∈ s.lookups.eraseIdx k, l.2 <+: s.queued :=
      fun l hl => hlookups l (mem_of_mem_eraseIdx hl)
    refine ⟨dequeued, ?_⟩
    dsimp only
    split
    · rename_i b hfound
      refine ⟨hqueued, happlied, hhead, hdone, hfile, hstill, hmisses, fun r hr => ?_⟩
      rcases mem_append.mp hr with hr | hr
      · exact hresults r hr
      · rw [mem_singleton.mp hr]
        refine ⟨s.queued, hlookups _ hmem, prefix_refl _, ?_⟩
        rw [hqueued, dataOf_found hfound]
    · rename_i hnone
      have hkept : s.Kept file dequeued :=
        ⟨hqueued, happlied, hhead, hdone, hfile, hlookups, hmisses, hresults⟩
      refine ⟨hqueued, happlied, hhead, hdone, hfile, hstill, fun m hm => ?_, hresults⟩
      rcases mem_append.mp hm with hm | hm
      · exact hmisses m hm
      · rw [mem_singleton.mp hm]
        exact hkept.missed hmem hnone
  | readFile k =>
    obtain ⟨m, hm, rfl⟩ := map_eq_some_iff.mp hstep
    have hkept : s.Kept file dequeued :=
      ⟨hqueued, happlied, hhead, hdone, hfile, hlookups, hmisses, hresults⟩
    refine ⟨dequeued, hqueued, happlied, hhead, hdone, hfile, hlookups,
      fun m hm => hmisses m (mem_of_mem_eraseIdx hm), fun r hr => ?_⟩
    rcases mem_append.mp hr with hr | hr
    · exact hresults r hr
    · rw [mem_singleton.mp hr]
      exact hkept.read_file (mem_of_getElem? hm)
  | shutdown =>
    obtain rfl := some.inj hstep
    refine ⟨dequeued, ?_⟩
    split_ifs
    · exact ⟨hqueued, happlied, hhead, hdone, hfile, hlookups, hmisses, hresults⟩
    · exact ⟨hqueued, happlied, hhead, hdone, hfile, hlookups, hmisses, hresults⟩
  | writer =>
    exact runWriter_kept ⟨hqueued, happlied, hhead, hdone, hfile, hlookups, hmisses, hresults⟩ hstep

/-- **What is written behind is written and read back**, as long as no block is queued behind a
writer that has left its loop. -/
theorem written_and_read {steps : List (AllocatorStep D)}
    (hgood : AllSteps step Good (opened file) steps)
    (hrun : run step (opened file) steps = some s) : s.Faithful file := by
  have hopened : (opened file).Kept file [] :=
    ⟨rfl, rfl, by simp [opened], by simp [opened], fun _ => rfl,
      nofun, nofun, nofun⟩
  have hstep : ∀ (s : FileAllocator D) l s', (∃ dequeued, s.Kept file dequeued) → s.Good l →
      s.step l = some s' → ∃ dequeued, s'.Kept file dequeued :=
    fun s l s' h hg hs => step_kept h hg hs
  obtain ⟨dequeued, h⟩ := run_inv_of hstep ⟨[], hopened⟩ hgood hrun
  refine ⟨h.applied_prefix, fun hw => ?_, h.results⟩
  rw [h.applied, h.queued, h.done (.inr (.inr hw)), inHand, hw]

/-- A block is written, read from the queue and from the file, and the thread is shut down. -/
def sampleSteps : List (AllocatorStep Nat) :=
  [.write ⟨3, 7⟩, .enqueue 0, .read 3, .lookup 0, .writer, .writer, .writer, .read 3, .lookup 0,
    .readFile 0, .shutdown, .writer, .writer, .writer]

theorem written_and_read_sample :
    ∃ s, run step (opened fun _ => 0) sampleSteps = some s ∧ s.Faithful fun _ => 0 := by
  have hgood : AllSteps step Good (opened fun _ => 0) sampleSteps := by
    simp [sampleSteps, AllSteps, Good, step, opened, runWriter]
  exact ⟨_, rfl, written_and_read hgood rfl⟩

/-- A call that has found the thread active queues its block behind the loop. -/
theorem late_write_lost : ¬ ∀ (steps : List (AllocatorStep Nat)) s,
    run step (opened fun _ => 0) steps = some s → s.Faithful fun _ => 0 := by
  intro h
  have hfaithful := h [.write ⟨3, 7⟩, .shutdown, .writer, .enqueue 0, .writer, .writer] _ rfl
  cases hfaithful.ended rfl

end FileAllocator

end Atcd.Notify
