import Atcd.Timer.HeapIds
import Atcd.Core.Run
/-!
# Runs of the heap timer queue

The state is the queue with the nodes a caller holds: those that `remove_first`
returned and that are neither freed nor rescheduled yet ("limbo").

Results:
* `heap_invariant`: after every run the heap order and the index map hold, no
  two timers share an id, the limbo nodes are those with the limbo mark and
  `cur_limbo_` in number, and `remove_first` takes a least timer.
* `popFreelist_fresh`: after every run the next id is free and the assertion of
  `pop_freelist` holds.
-/
namespace Atcd.Timer

open Atcd.Core Atcd.Time List Option TimerHeap

variable {τ : Type}

structure HeapSys (τ : Type) where
  q : TimerHeap τ
  limbo : List (TimerNode τ)

inductive HeapOp (τ : Type) where
  | schedule (type : τ) (act : Nat) (futureTime interval : TimeValue)
  | cancelId (timerId : Int)
  | cancelType (type : τ)
  | resetInterval (timerId : Int) (interval : TimeValue)
  | removeFirst
  | reschedule (timerId : Nat) (timerValue : TimeValue)   -- a limbo node, at another time
  | freeNode (timerId : Nat)                              -- a limbo node

namespace HeapSys

def init (size : Nat) (prealloc : Bool) (garbage : Nat → TimerNode τ) : HeapSys τ :=
  ⟨TimerHeap.init size prealloc garbage, []⟩

def takeLimbo (s : HeapSys τ) (timerId : Nat) : Option (TimerNode τ × List (TimerNode τ)) :=
  (s.limbo.find? (·.timerId = timerId)).map fun x => (x, s.limbo.eraseP (·.timerId = timerId))

def step [DecidableEq τ] (s : HeapSys τ) : HeapOp τ → Option (HeapSys τ)
  | .schedule type act futureTime interval =>
    some { s with q := (s.q.scheduleI type act futureTime interval).2 }
  | .cancelId timerId => (s.q.cancelId timerId).map fun r => { s with q := r.2 }
  | .cancelType type => some { s with q := (s.q.cancelType type).2 }
  | .resetInterval timerId interval =>
    (s.q.resetInterval timerId interval).map fun r => { s with q := r.2 }
  | .removeFirst =>
    match s.q.removeFirst with
    | (some x, q) => some ⟨q, x :: s.limbo⟩
    | (none, q) => some { s with q := q }
  | .reschedule timerId timerValue =>
    (s.takeLimbo timerId).map fun (x, rest) => ⟨s.q.reschedule (x.setTimerValue timerValue), rest⟩
  | .freeNode timerId => (s.takeLimbo timerId).map fun (x, rest) => ⟨s.q.freeNode x, rest⟩

def timers (s : HeapSys τ) : List (TimerNode τ) := s.q.nodes ++ s.limbo

def ids (s : HeapSys τ) : List Nat := s.timers.map (·.timerId)

/-- What holds in every state reached, with `g` of the limbo nodes not counted by
`cur_limbo_`. -/
structure Inv (g : Nat) (s : HeapSys τ) : Prop where
  few : g ≤ 1 ∧ 2 ≤ s.q.maxSize
  ok : s.q.HeapOk
  room : s.q.curSize + s.q.curLimbo + 2 ≤ s.q.maxSize + g
  mark : ∀ x ∈ s.limbo, s.q.timerIds x.timerId = -2
  count : s.limbo.length = s.q.curLimbo + g
  census : TimerHeap.Census s.q.maxSize s.q.Used s.ids
  alloc : TimerHeap.IdsOk s.q.maxSize s.q.timerIdsCurr s.q.timerIdsMinFree s.q.Used
  stock : ∀ f, s.q.preallocated = some f → f + s.q.curSize + s.q.curLimbo = s.q.maxSize

variable {s s' : HeapSys τ} {g : Nat}

@[simp] theorem length_ids : s.ids.length = s.q.curSize + s.limbo.length := by simp [ids, timers]

theorem Inv.init {size : Nat} (hsize : 2 ≤ size) (prealloc : Bool) (garbage : Nat → TimerNode τ) :
    Inv 0 (init size prealloc garbage) where
  few := ⟨Nat.zero_le 1, hsize⟩
  ok := ⟨fun i _ hi => absurd hi (Nat.not_lt_zero i), fun i hi => absurd hi (Nat.not_lt_zero i)⟩
  room := by simpa [HeapSys.init, TimerHeap.init] using hsize
  mark x hx := by simp [HeapSys.init] at hx
  count := rfl
  census := ⟨by simp [ids, timers, HeapSys.init, TimerHeap.nodes, TimerHeap.init],
    by simp [ids, timers, HeapSys.init, TimerHeap.nodes, TimerHeap.init, TimerHeap.Used]⟩
  alloc := ⟨by simp [HeapSys.init, TimerHeap.init]; omega, Nat.zero_le _,
    fun _ => ⟨le_rfl, by simp [HeapSys.init, TimerHeap.init, TimerHeap.Used]⟩,
    fun i j _ _ hi => absurd hi (Nat.not_lt_zero i)⟩
  stock f hf := by
    cases prealloc <;> simp [HeapSys.init, TimerHeap.init] at hf ⊢
    exact hf.symm

theorem Inv.id_mem (h : Inv g s) {x : TimerNode τ} (hx : x ∈ s.timers) :
    x.timerId < s.q.maxSize ∧ s.q.Used x.timerId := (h.census.mem _).mp (mem_map_of_mem hx)

theorem mem_timers_of_nodes {x : TimerNode τ} (h : x ∈ s.q.nodes) : x ∈ s.timers :=
  mem_append_left _ h

theorem mem_timers_of_limbo {x : TimerNode τ} (h : x ∈ s.limbo) : x ∈ s.timers :=
  mem_append_right _ h

theorem Inv.limbo_ne (h : Inv g s) {x y : TimerNode τ} (hx : x ∈ s.limbo) (hy : y ∈ s.q.nodes) :
    y.timerId ≠ x.timerId := by
  have hnodup := h.census.nodup
  unfold ids timers at hnodup
  rw [map_append] at hnodup
  exact fun e => (nodup_append.mp hnodup).2.2 _ (mem_map_of_mem hy) _
    (mem_map_of_mem hx) e

/-! ## Removing a node -/

theorem Inv.remove (h : Inv g s) {slot : Nat} (hs : slot < s.q.curSize) :
    Inv g ⟨(s.q.remove slot).2, s.q.heap slot :: s.limbo⟩ := by
  obtain ⟨hok, hperm, hlimbo, hother, hframe⟩ := remove_spec h.ok hs
  generalize s.q.heap slot = x at *
  generalize (s.q.remove slot).2 = q' at *
  have hmax : q'.maxSize = s.q.maxSize := by rw [hframe]
  have hcurr : q'.timerIdsCurr = s.q.timerIdsCurr := by rw [hframe]
  have hmin : q'.timerIdsMinFree = s.q.timerIdsMinFree := by rw [hframe]
  have hsize : q'.curSize = s.q.curSize - 1 := by rw [hframe]
  have hcl : q'.curLimbo = s.q.curLimbo + 1 := by rw [hframe]
  have hpre : q'.preallocated = s.q.preallocated := by rw [hframe]
  have hroom := h.room
  -- the ids in use are the same
  have hused : ∀ i, q'.Used i ↔ s.q.Used i := by
    intro i
    by_cases hi : ∃ y ∈ s.q.nodes, y.timerId = i
    · obtain ⟨y, hy, rfl⟩ := hi
      refine iff_of_true ?_ (h.id_mem (mem_timers_of_nodes hy)).2
      rcases mem_cons.mp (hperm.mem_iff.mpr hy) with rfl | hy'
      · exact .inr hlimbo
      · obtain ⟨j, hj, rfl⟩ := mem_nodes.mp hy'
        exact .inl (by rw [hok.index j hj]; omega)
    · push Not at hi
      unfold TimerHeap.Used
      rw [hother i hi]
  refine ⟨hmax ▸ h.few, hok, ?_, ?_, ?_, ?_, ?_, ?_⟩ <;> simp only [hmax, hcurr, hmin, hsize, hcl, hpre]
  · omega
  · intro y hy
    rcases mem_cons.mp hy with rfl | hy
    · exact hlimbo
    · rw [hother _ fun z hz => h.limbo_ne hy hz]
      exact h.mark y hy
  · rw [length_cons, h.count]
    omega
  · have hids : (ids ⟨q', x :: s.limbo⟩).Perm s.ids := by
      refine Perm.map _ ?_
      refine perm_middle.trans ?_
      exact hperm.append_right s.limbo
    refine ⟨(h.census.perm hids).nodup, fun i => ?_⟩
    rw [(h.census.perm hids).mem, hused]
  · exact h.alloc.congr fun i _ => hused i
  · intro f hf
    have := h.stock f hf
    omega

/-! ## Freeing a node -/

variable {rest : List (TimerNode τ)}

theorem ids_perm_of_limbo {x : TimerNode τ} (hperm : (x :: rest).Perm s.limbo) :
    (x.timerId :: (s.q.nodes ++ rest).map (·.timerId)).Perm s.ids :=
  Perm.map (fun y : TimerNode τ => y.timerId)
    (perm_middle.symm.trans (hperm.append_left s.q.nodes))

theorem Inv.free {x : TimerNode τ} (h : Inv g s) (hperm : (x :: rest).Perm s.limbo)
    (hg : g ≤ rest.length) : Inv g ⟨s.q.freeNode x, rest⟩ := by
  have hx : x ∈ s.limbo := hperm.mem_iff.mp mem_cons_self
  have hid := h.id_mem (mem_timers_of_limbo hx)
  have hcount := h.count
  have hlen := hperm.length_eq
  rw [length_cons] at hlen
  have hroom := h.room
  rw [freeNode_eq (h.mark x hx)]
  have hc := h.census.perm (ids_perm_of_limbo hperm)
  have hnotin := nodup_cons.mp hc.nodup
  -- the entries of the other ids stay
  have hused : ∀ i, TimerHeap.Used { s.q with timerIds := Function.update s.q.timerIds x.timerId (-1) } i ↔
      i ≠ x.timerId ∧ s.q.Used i := fun i => by
    by_cases hi : i = x.timerId
    · simp [TimerHeap.Used, hi]
    · simp [TimerHeap.Used, hi]
  refine ⟨h.few, ⟨h.ok.order, fun i hi => ?_⟩, ?_, fun y hy => ?_, ?_, ⟨hnotin.2, fun i => ?_⟩, ?_, ?_⟩
  · have hne := h.limbo_ne hx (heap_mem_nodes hi)
    simpa [hne] using h.ok.index i hi
  · simp only
    omega
  · have hne : y.timerId ≠ x.timerId := fun e =>
      hnotin.1 (e ▸ mem_map_of_mem (mem_append_right _ hy))
    simpa [hne] using h.mark y (hperm.mem_iff.mp (mem_cons_of_mem _ hy))
  · simp only
    omega
  · refine Iff.trans ?_ (and_congr_right fun _ => (hused i).symm)
    constructor
    · intro hi
      have hne : i ≠ x.timerId := fun e => hnotin.1 (e ▸ hi)
      have := (hc.mem i).mp (mem_cons_of_mem _ hi)
      exact ⟨this.1, hne, this.2⟩
    · rintro ⟨hlt, hne, hu⟩
      exact (mem_cons.mp ((hc.mem i).mpr ⟨hlt, hu⟩)).resolve_left hne
  · exact (h.alloc.push hid.1).congr fun i _ => hused i
  · intro f hf
    obtain ⟨g, hg, rfl⟩ := map_eq_some_iff.mp hf
    have := h.stock g hg
    simp only
    omega

/-! ## Inserting a node -/

/-- A queue about to take `x`, whose id is set aside for it. -/
structure Ready (g : Nat) (q : TimerHeap τ) (x : TimerNode τ) (limbo : List (TimerNode τ)) :
    Prop where
  few : g ≤ 1 ∧ 2 ≤ q.maxSize
  ok : q.HeapOk
  room : q.curSize + q.curLimbo + 2 ≤ q.maxSize + g
  mark : ∀ y ∈ limbo, q.timerIds y.timerId = -2
  count : limbo.length = q.curLimbo + g
  census : TimerHeap.Census q.maxSize (fun i => i = x.timerId ∨ q.Used i)
    ((x :: (q.nodes ++ limbo)).map (·.timerId))
  alloc : TimerHeap.IdsOk q.maxSize q.timerIdsCurr q.timerIdsMinFree
    (fun i => i = x.timerId ∨ q.Used i)
  stock : ∀ f, q.preallocated = some f → f + q.curSize + 1 + q.curLimbo = q.maxSize

variable {q : TimerHeap τ} {x : TimerNode τ} {limbo : List (TimerNode τ)}

/-- Growth adds free ids only. -/
theorem used_ensureRoom (hmax : 2 ≤ q.maxSize) {i : Nat} (hi : i < q.ensureRoom.maxSize) :
    q.ensureRoom.Used i ↔ i < q.maxSize ∧ q.Used i := by
  by_cases hlt : i < q.maxSize
  · unfold TimerHeap.Used
    rw [timerIds_ensureRoom hlt]
    exact ⟨fun h => ⟨hlt, h⟩, fun h => h.2⟩
  · refine iff_of_false ?_ fun h => hlt h.1
    unfold ensureRoom at hi ⊢
    split at hi
    · next hgrow =>
      rw [if_pos hgrow]
      have hnew : q.growHeap.timerIds i = -((i : Int) + 1) := if_pos ⟨by omega, hi⟩
      unfold TimerHeap.Used
      omega
    · exact absurd hi hlt

theorem Ready.mem (h : Ready g q x limbo) {y : TimerNode τ} (hy : y ∈ x :: (q.nodes ++ limbo)) :
    y.timerId < q.maxSize := ((h.census.mem _).mp (mem_map_of_mem hy)).1

/-- The id of `x` is that of no other node. -/
theorem Ready.fresh (h : Ready g q x limbo) {y : TimerNode τ} (hy : y ∈ q.nodes ++ limbo) :
    y.timerId ≠ x.timerId := fun e => by
  have hnodup := h.census.nodup
  rw [map_cons, nodup_cons] at hnodup
  exact hnodup.1 (e ▸ mem_map_of_mem hy)

theorem Ready.disjoint (h : Ready g q x limbo) {y z : TimerNode τ} (hy : y ∈ limbo) (hz : z ∈ q.nodes) :
    z.timerId ≠ y.timerId := by
  have hnodup := h.census.nodup
  rw [map_cons, map_append, nodup_cons, nodup_append] at hnodup
  exact hnodup.2.2.2 _ (mem_map_of_mem hz) _ (mem_map_of_mem hy)

theorem Ready.inserted (h : Ready g q x limbo) : TimerHeap.Inserted q.ensureRoom x (q.insert x) :=
  insert_spec h.ok (fun _ hy => h.mem (by simp [hy])) fun _ hy => h.fresh (by simp [hy])

theorem Ready.nodes_perm (h : Ready g q x limbo) : (q.insert x).nodes.Perm (x :: q.nodes) := by
  have hperm := h.inserted.nodes
  rwa [nodes_ensureRoom] at hperm

/-- The other entries below the old size stay. -/
theorem Ready.other (h : Ready g q x limbo) {i : Nat} (hx : i ≠ x.timerId)
    (hi : ∀ y ∈ q.nodes, y.timerId ≠ i) : (q.insert x).timerIds i = q.ensureRoom.timerIds i :=
  h.inserted.other i hx (by simpa using hi)

theorem Ready.maxSize (h : Ready g q x limbo) : (q.insert x).maxSize = q.ensureRoom.maxSize := by
  rw [h.inserted.frame]

theorem Ready.used (h : Ready g q x limbo) {i : Nat} (hi : i < (q.insert x).maxSize) :
    (q.insert x).Used i ↔ i < q.maxSize ∧ (i = x.timerId ∨ q.Used i) := by
  by_cases hix : i ∈ (x :: q.nodes).map (·.timerId)
  · have hnow : (q.insert x).Used i := by
      obtain ⟨y, hy, rfl⟩ := mem_map.mp ((h.nodes_perm.map _).mem_iff.mpr hix)
      obtain ⟨j, hj, rfl⟩ := mem_nodes.mp hy
      exact .inl (by rw [h.inserted.ok.index j hj]; omega)
    refine iff_of_true hnow ((h.census.mem i).mp ?_)
    rw [← cons_append, map_append]
    exact mem_append_left _ hix
  · rw [map_cons, mem_cons, not_or] at hix
    have hsame : (q.insert x).Used i ↔ q.ensureRoom.Used i := by
      unfold TimerHeap.Used
      rw [h.other hix.1 fun y hy e => hix.2 (e ▸ mem_map_of_mem hy)]
    rw [hsame, used_ensureRoom h.few.2 (h.maxSize ▸ hi)]
    simp [hix.1]

theorem Ready.insert (h : Ready g q x limbo) : Inv g ⟨q.insert x, limbo⟩ := by
  have hroom := h.room
  have hfew := h.few
  have hcount := h.count
  have hmax := h.maxSize
  have hcurr : (q.insert x).timerIdsCurr = q.timerIdsCurr := by
    rw [h.inserted.frame]; exact timerIdsCurr_ensureRoom
  have hmin : (q.insert x).timerIdsMinFree = q.ensureRoom.timerIdsMinFree := by
    rw [h.inserted.frame]
  have hsize : (q.insert x).curSize = q.curSize + 1 := by
    rw [h.inserted.frame]; exact congrArg (· + 1) curSize_ensureRoom
  have hcl : (q.insert x).curLimbo = q.curLimbo := by
    rw [h.inserted.frame]; exact curLimbo_ensureRoom
  have hpre : (q.insert x).preallocated = q.ensureRoom.preallocated := by rw [h.inserted.frame]
  have hgrown := maxSize_ensureRoom (q := q)
  have hle : q.maxSize ≤ q.ensureRoom.maxSize := by
    rw [hgrown]
    split <;> omega
  have hbelow : ∀ i < q.maxSize, (q.insert x).Used i ↔ i = x.timerId ∨ q.Used i := fun i hi => by
    rw [h.used (by omega)]
    exact ⟨fun hu => hu.2, fun hu => ⟨hi, hu⟩⟩
  have hids : (ids ⟨q.insert x, limbo⟩).Perm ((x :: (q.nodes ++ limbo)).map (·.timerId)) :=
    Perm.map _ (h.nodes_perm.append_right limbo)
  refine ⟨⟨hfew.1, by simp only [hmax]; omega⟩, h.inserted.ok, ?_, fun y hy => ?_, hcl ▸ hcount,
    ⟨(hids.nodup_iff).mpr h.census.nodup, fun i => ?_⟩, ?_, ?_⟩
  · simp only [hmax, hsize, hcl, hgrown]
    split <;> omega
  · change (q.insert x).timerIds y.timerId = -2
    rw [h.other (h.fresh (by simp [hy])) fun z hz => h.disjoint hy hz,
      timerIds_ensureRoom (h.mem (by simp [hy]))]
    exact h.mark y hy
  · rw [hids.mem_iff, h.census.mem]
    constructor
    · rintro ⟨hlt, hu⟩
      have hi : i < (q.insert x).maxSize := by omega
      exact ⟨hi, (h.used hi).mpr ⟨hlt, hu⟩⟩
    · rintro ⟨hlt, hu⟩
      exact (h.used hlt).mp hu
  · simp only [hcurr, hmin]
    by_cases hgrow : q.curSize + q.curLimbo + 2 ≥ q.maxSize
    · -- growth: at most one of the old ids is free now
      have hminFree : q.ensureRoom.timerIdsMinFree = q.ensureRoom.maxSize := by
        unfold ensureRoom
        rw [if_pos hgrow]
        rfl
      rw [hminFree, hmax]
      refine TimerHeap.IdsOk.grow h.alloc.curr_lt (fun i j hi hui hj huj => ?_) hle
      rw [hbelow i hi] at hui
      rw [hbelow j hj] at huj
      refine h.census.one_free ?_ hi hui hj huj
      simp [length_nodes]
      omega
    · have hstay : q.ensureRoom = q := if_neg hgrow
      rw [hmax, hstay]
      exact h.alloc.congr hbelow
  · intro f hf
    simp only [hsize, hcl, hmax]
    rw [hpre] at hf
    by_cases hgrow : q.curSize + q.curLimbo + 2 ≥ q.maxSize
    · rw [hgrown, if_pos hgrow]
      unfold ensureRoom at hf
      rw [if_pos hgrow] at hf
      obtain ⟨g, hg, rfl⟩ := map_eq_some_iff.mp hf
      have := h.stock g hg
      omega
    · have hstay : q.ensureRoom = q := if_neg hgrow
      rw [hstay] at hf ⊢
      have := h.stock f hf
      omega

/-! ## The operations -/

theorem Inv.popAssert (h : Inv 0 s) : s.q.popAssert := by
  have hroom := h.room
  have hcount := h.count
  refine popAssert_of_two_free h.alloc (h.census.two_free ?_)
  rw [length_ids]
  omega

theorem Inv.allocNode (h : Inv g s) (curr minFree : Nat) :
    ∃ p, TimerHeap.allocNode { s.q with timerIdsCurr := curr, timerIdsMinFree := minFree } =
        some { s.q with timerIdsCurr := curr, timerIdsMinFree := minFree, preallocated := p } ∧
      ∀ f, p = some f → f + s.q.curSize + 1 + s.q.curLimbo = s.q.maxSize := by
  have hroom := h.room
  have hfew := h.few
  unfold TimerHeap.allocNode
  cases hpre : s.q.preallocated with
  | none => exact ⟨none, by simp [hpre], by simp⟩
  | some f =>
    have hf := h.stock f hpre
    obtain ⟨k, rfl⟩ : ∃ k, f = k + 1 := ⟨f - 1, by omega⟩
    refine ⟨some k, by simp [hpre], fun f hf' => ?_⟩
    cases hf'
    omega

theorem Inv.scheduleI (h : Inv g s) (ha : s.q.popAssert) (type : τ) (act : Nat)
    (futureTime interval : TimeValue) :
    ∃ q, Ready g q ⟨type, act, futureTime, interval, s.q.popFreelist.1⟩ s.limbo ∧
      q.nodes = s.q.nodes ∧ s.q.scheduleI type act futureTime interval =
        (some s.q.popFreelist.1,
          q.insert ⟨type, act, futureTime, interval, s.q.popFreelist.1⟩) := by
  have hroom := h.room
  obtain ⟨hlt, hfree, hframe⟩ := popFreelist_spec h.alloc ha
  have halloc := h.alloc.pop ha
  have hfew := h.few
  obtain ⟨p, hp, hstock⟩ := h.allocNode s.q.popFreelist.1 s.q.popFreelist.2.timerIdsMinFree
  rw [← hframe] at hp
  refine ⟨{ s.q.popFreelist.2 with preallocated := p }, ?_, ?_, ?_⟩
  · rw [hframe]
    refine ⟨h.few, ⟨h.ok.order, h.ok.index⟩, h.room, h.mark, h.count, ⟨?_, fun i => ?_⟩, halloc,
      hstock⟩
    · refine nodup_cons.mpr ⟨fun hmem => ?_, h.census.nodup⟩
      exact hfree ((h.census.mem _).mp hmem).2
    · refine mem_cons.trans ?_
      change i = _ ∨ i ∈ s.ids ↔ _
      rw [h.census.mem]
      constructor
      · rintro (rfl | ⟨hi, hu⟩)
        · exact ⟨hlt, .inl rfl⟩
        · exact ⟨hi, .inr hu⟩
      · rintro ⟨hi, he | hu⟩
        · exact .inl he
        · exact .inr ⟨hi, hu⟩
  · rw [hframe]
    rfl
  · unfold TimerHeap.scheduleI
    rw [if_pos (by omega)]
    simp only [hp]
    rw [hframe]

/-- A queue that grows with at most one id free, to take a node under the first
of the new ids. -/
theorem Inv.grown (h : Inv g s) (hfull : s.q.maxSize ≤ s.ids.length + 1) (hx : x.timerId = s.q.maxSize)
    {p : Option Nat} (hstock : ∀ f, p = some f → f + s.q.curSize + 1 + s.q.curLimbo = s.q.maxSize) :
    Ready g (TimerHeap.growHeap { s.q with timerIdsCurr := s.q.maxSize,
                                           timerIdsMinFree := s.q.maxSize,
                                           preallocated := p }) x s.limbo := by
  have hroom := h.room
  have hfew := h.few
  generalize hq : growHeap { s.q with timerIdsCurr := s.q.maxSize,
                                                timerIdsMinFree := s.q.maxSize,
                                                preallocated := p } = q
  have hmax : q.maxSize = s.q.maxSize * 2 := by rw [← hq]; rfl
  have hsize : q.curSize = s.q.curSize := by rw [← hq]; rfl
  have hheap : q.heap = s.q.heap := by rw [← hq]; rfl
  have hbelow : ∀ i < s.q.maxSize, q.timerIds i = s.q.timerIds i := fun i hi => by
    rw [← hq]
    exact if_neg (by simp only; omega)
  have hused : ∀ i < s.q.maxSize * 2,
      (i = x.timerId ∨ q.Used i) ↔ i = s.q.maxSize ∨ i < s.q.maxSize ∧ s.q.Used i := fun i hi => by
    unfold TimerHeap.Used
    rcases lt_or_ge i s.q.maxSize with hlt | hge
    · simp [hbelow i hlt, hlt, hx]
    · have hnew : q.timerIds i = -((i : Int) + 1) := by
        rw [← hq]
        exact if_pos ⟨hge, hi⟩
      omega
  have hlim : ∀ y ∈ s.timers, y.timerId < s.q.maxSize := fun y hy => (h.id_mem hy).1
  refine ⟨⟨hfew.1, by omega⟩, ⟨by rw [← hq]; exact h.ok.order, fun i hi => ?_⟩, ?_, fun y hy => ?_, ?_,
    ⟨?_, fun i => ?_⟩, ⟨?_, ?_, fun hlt => ?_, fun i j hi hic him hj hjc hjm => ?_⟩, fun f hf => ?_⟩
  · rw [hsize] at hi
    rw [hheap, hbelow _ (hlim _ (mem_timers_of_nodes (heap_mem_nodes hi)))]
    exact h.ok.index i hi
  · rw [hmax, ← hq]
    simp only [growHeap]
    omega
  · rw [hbelow _ (hlim y (mem_timers_of_limbo hy))]
    exact h.mark y hy
  · rw [← hq]
    exact h.count
  · have hnodes : q.nodes = s.q.nodes := by rw [← hq]; rfl
    rw [hnodes]
    refine nodup_cons.mpr ⟨fun hmem => ?_, h.census.nodup⟩
    obtain ⟨y, hy, he⟩ := mem_map.mp hmem
    exact absurd (he.trans hx) (hlim y hy).ne
  · have hnodes : q.nodes = s.q.nodes := by rw [← hq]; rfl
    rw [hnodes, hmax]
    change i ∈ x.timerId :: s.ids ↔ _
    rw [mem_cons, h.census.mem, hx]
    constructor
    · intro hi
      have hlt : i < s.q.maxSize * 2 := by omega
      exact ⟨hlt, hx ▸ (hused i hlt).mpr hi⟩
    · rintro ⟨hlt, hi⟩
      exact (hused i hlt).mp (hx.symm ▸ hi)
  · rw [hmax, ← hq]
    simp only [growHeap]
    omega
  · rw [← hq]
    exact le_rfl
  · rw [← hq] at hlt
    exact absurd hlt (lt_irrefl _)
  · have hcurr' : q.timerIdsCurr = s.q.maxSize := by rw [← hq]; rfl
    rw [hcurr'] at hic hjc
    have hold : ∀ k, k ≤ s.q.maxSize → ¬(k = x.timerId ∨ q.Used k) → k < s.q.maxSize ∧ ¬s.q.Used k :=
      fun k hk hfree => by
        rw [hused k (by omega), not_or] at hfree
        have hlt : k < s.q.maxSize := by omega
        exact ⟨hlt, fun hu => hfree.2 ⟨hlt, hu⟩⟩
    obtain ⟨hi, hui⟩ := hold i hic hi
    obtain ⟨hj, huj⟩ := hold j hjc hj
    exact h.census.one_free hfull hi hui hj huj
  · rw [← hq] at hf ⊢
    obtain ⟨k, hk, rfl⟩ := map_eq_some_iff.mp hf
    have := hstock k hk
    simp only [growHeap]
    omega

/-- Where the assertion fails, at most one id is free and the next id is
`max_size_`: `insert` grows the arrays before it stores the node. -/
theorem Inv.schedule (h : Inv g s) (type : τ) (act : Nat) (futureTime interval : TimeValue) :
    Inv g ⟨(s.q.scheduleI type act futureTime interval).2, s.limbo⟩ := by
  by_cases ha : s.q.popAssert
  · obtain ⟨q, hready, _, hq⟩ := h.scheduleI ha type act futureTime interval
    rw [hq]
    exact hready.insert
  have hroom := h.room
  have hcount := h.count
  have hfew := h.few
  have hmin := h.alloc.min_le
  -- the ids in use are all but one, at least
  have hfull : s.q.maxSize ≤ s.ids.length + 1 := by
    by_contra hlt
    exact ha (popAssert_of_two_free h.alloc (h.census.two_free (by omega)))
  have hpop : s.q.popFreelist = (s.q.maxSize,
      { s.q with timerIdsCurr := s.q.maxSize, timerIdsMinFree := s.q.maxSize }) := by
    unfold TimerHeap.popAssert at ha
    push Not at ha
    unfold TimerHeap.popFreelist
    simp only [ha.1, if_true, show s.q.timerIdsMinFree = s.q.maxSize by omega]
  obtain ⟨p, hp, hstock⟩ := h.allocNode s.q.maxSize s.q.maxSize
  have hready := h.grown hfull (x := ⟨type, act, futureTime, interval, s.q.maxSize⟩) rfl hstock
  unfold TimerHeap.scheduleI
  rw [if_pos (by omega), hpop]
  simp only [hp]
  rw [length_ids] at hfull
  have hinsert := hready.insert
  unfold TimerHeap.insert at hinsert ⊢
  rw [if_neg (by simp only [growHeap]; omega)] at hinsert
  rwa [if_pos (by simp only; omega)]

theorem takeLimbo_spec {id : Nat} (h : s.takeLimbo id = some (x, rest)) :
    x.timerId = id ∧ (x :: rest).Perm s.limbo := by
  obtain ⟨y, hy, he⟩ := map_eq_some_iff.mp h
  cases he
  refine ⟨by simpa using find?_some hy, ?_⟩
  generalize s.limbo = l at hy
  induction l with
  | nil => simp at hy
  | cons z l ih =>
    by_cases hz : z.timerId = id
    · simp only [find?_cons_of_pos, hz, decide_true] at hy
      cases hy
      simp [hz]
    · rw [find?_cons_of_neg (by simpa using hz)] at hy
      rw [eraseP_cons_of_neg (by simpa using hz)]
      exact (Perm.swap z x _).trans ((ih hy).cons z)

/-- A limbo node goes back under its own id. -/
theorem Inv.reschedule (h : Inv g s) (hperm : (x :: rest).Perm s.limbo) (hg : g ≤ rest.length)
    (v : TimeValue) : Inv g ⟨s.q.reschedule (x.setTimerValue v), rest⟩ := by
  have hx : x ∈ s.limbo := hperm.mem_iff.mp mem_cons_self
  have hid := h.id_mem (mem_timers_of_limbo hx)
  have hroom := h.room
  have hcount := h.count
  have hlen := hperm.length_eq
  rw [length_cons] at hlen
  have hids := ids_perm_of_limbo hperm
  have hsame : ∀ i, i = x.timerId ∨ s.q.Used i ↔ s.q.Used i := fun i =>
    ⟨fun hu => hu.elim (fun e => e ▸ hid.2) id, .inr⟩
  have hready : Ready g { s.q with curLimbo := s.q.curLimbo - 1 } (x.setTimerValue v) rest := by
    refine ⟨h.few, ⟨h.ok.order, h.ok.index⟩, by simp only; omega, fun y hy => ?_, by simp only; omega,
      ⟨?_, fun i => ?_⟩, h.alloc.congr fun i _ => hsame i, fun f hf => ?_⟩
    · exact h.mark y (hperm.mem_iff.mp (mem_cons_of_mem _ hy))
    · exact hids.nodup_iff.mpr h.census.nodup
    · refine (hids.mem_iff.trans (h.census.mem i)).trans (and_congr_right fun _ => ?_)
      exact (hsame i).symm
    · have := h.stock f hf
      simp only
      omega
  have hmark : s.q.timerIds (x.setTimerValue v).timerId = -2 := h.mark x hx
  unfold TimerHeap.reschedule
  rw [if_pos hmark]
  exact hready.insert

theorem Inv.cancelSlot (h : Inv g s) {slot : Nat} (hs : slot < s.q.curSize) :
    Inv g ⟨(s.q.remove slot).2.freeNode (s.q.heap slot), s.limbo⟩ :=
  (h.remove hs).free (List.Perm.refl _) (by have := h.count; omega)

theorem nodes_cancelSlot (h : s.q.HeapOk) {slot : Nat} (hs : slot < s.q.curSize) :
    (s.q.heap slot :: ((s.q.remove slot).2.freeNode (s.q.heap slot)).nodes).Perm s.q.nodes := by
  have hr := remove_spec h hs
  rw [freeNode_eq hr.limbo]
  exact hr.nodes

theorem Inv.slot (h : Inv g s) {i : Nat} (hi : i < s.q.maxSize) (h0 : 0 ≤ s.q.timerIds i) :
    ∃ k < s.q.curSize, (s.q.heap k).timerId = i := by
  obtain ⟨y, hy, rfl⟩ := mem_map.mp ((h.census.mem i).mpr ⟨hi, .inl h0⟩)
  rcases mem_append.mp hy with hy | hy
  · obtain ⟨k, hk, rfl⟩ := mem_nodes.mp hy
    exact ⟨k, hk, rfl⟩
  · have hmark := h.mark y hy
    omega

theorem Inv.cancelId (h : Inv g s) {timerId : Int} {r : Option (TimerNode τ) × TimerHeap τ}
    (hr : s.q.cancelId timerId = some r) : Inv g ⟨r.2, s.limbo⟩ := by
  unfold TimerHeap.cancelId at hr
  split at hr
  · cases hr; exact h
  · next hrange =>
    split at hr
    · cases hr
    · next hmax =>
      simp only at hr
      split at hr
      · cases hr; exact h
      · next hslot =>
        split at hr
        · cases hr; exact h
        · cases hr
          have hlt : timerId.toNat < s.q.maxSize := by omega
          obtain ⟨k, hk, hid⟩ := h.slot hlt (by omega)
          have hindex := h.ok.index k hk
          rw [hid] at hindex
          rw [hindex, Int.toNat_natCast]
          exact h.cancelSlot hk

/-- The invariant looks at the times and ids of the nodes only. -/
theorem Inv.congr_heap (h : Inv g s) {heap : Nat → TimerNode τ}
    (hv : ∀ i, (heap i).timerValue = (s.q.heap i).timerValue)
    (hid : ∀ i, (heap i).timerId = (s.q.heap i).timerId) :
    Inv g { s with q := { s.q with heap := heap } } := by
  have hids : ids { s with q := { s.q with heap := heap } } = s.ids := by
    unfold ids timers
    rw [map_append, map_append]
    congr 1
    simp [nodes, hid]
  refine ⟨h.few, ⟨?_, fun i hi => ?_⟩, h.room, h.mark, h.count, hids ▸ h.census, h.alloc, h.stock⟩
  · exact h.ok.order.congr fun i _ => hv i
  · change s.q.timerIds (heap i).timerId = i
    rw [hid]
    exact h.ok.index i hi

theorem Inv.resetInterval (h : Inv g s) {timerId : Int} {interval : TimeValue} {r : Bool × TimerHeap τ}
    (hr : s.q.resetInterval timerId interval = some r) : Inv g ⟨r.2, s.limbo⟩ := by
  have hsame : ∀ slot, Inv g ⟨s.q.setInterval slot interval, s.limbo⟩ := fun slot =>
    h.congr_heap (fun i => by by_cases hi : i = slot <;> simp [hi])
      (fun i => by by_cases hi : i = slot <;> simp [hi])
  unfold TimerHeap.resetInterval at hr
  split at hr
  · cases hr; exact h
  · split at hr
    · cases hr
    · simp only at hr
      split at hr
      · cases hr; exact h
      · split at hr
        · cases hr; exact h
        · cases hr; exact hsame _

section CancelType

variable [DecidableEq τ]

/-- The loop keeps the invariant and, given enough rounds, removes just the
timers of the type. The rounds it needs are those of one scan for each timer. -/
theorem cancelTypeLoop_spec (type : τ) (fuel i count : Nat) (h : Inv g s)
    (hi : i ≤ s.q.curSize) (hnone : ∀ j < i, (s.q.heap j).type ≠ type)
    (hfuel : s.q.curSize * (s.q.curSize + 1) + (s.q.curSize - i) < fuel) :
    Inv g ⟨(s.q.cancelTypeLoop type fuel i count).2, s.limbo⟩ ∧
      (s.q.cancelTypeLoop type fuel i count).2.nodes.Perm
        (s.q.nodes.filter (fun x => x.type ≠ type)) ∧ (s.q.cancelTypeLoop type fuel i count).1 =
        count + (s.q.nodes.filter (fun x => x.type = type)).length := by
  induction fuel generalizing s i count with
  | zero => omega
  | succ fuel ih =>
    unfold cancelTypeLoop
    by_cases hlt : i < s.q.curSize
    · rw [if_pos hlt]
      by_cases htype : (s.q.heap i).type = type
      · rw [if_pos htype]
        simp only
        have hperm := nodes_cancelSlot h.ok hlt
        have hnext := h.cancelSlot hlt
        have hsize := hperm.length_eq
        rw [length_cons, length_nodes, length_nodes] at hsize
        rw [show (s.q.remove i).1 = s.q.heap i from rfl]
        generalize (s.q.remove i).2.freeNode (s.q.heap i) = r at *
        have hrounds : r.curSize * (r.curSize + 1) + (r.curSize - 0) < fuel := by
          rw [← hsize] at hfuel
          have : (r.curSize + 1) * (r.curSize + 1 + 1) = r.curSize * (r.curSize + 1) + 2 * (r.curSize + 1) := by
            ring
          omega
        obtain ⟨hinv, hnodes, hcount⟩ :=
          ih 0 (count + 1) hnext (Nat.zero_le _) (fun j hj => absurd hj (Nat.not_lt_zero j)) hrounds
        refine ⟨hinv, hnodes.trans ?_, ?_⟩
        · have hf := hperm.filter (fun x => decide (x.type ≠ type))
          rwa [filter_cons_of_neg (by simp [htype])] at hf
        · have hf := (hperm.filter (fun x => decide (x.type = type))).length_eq
          rw [filter_cons_of_pos (by simp [htype]), length_cons] at hf
          rw [hcount]
          simp only at hf ⊢
          omega
      · rw [if_neg htype]
        refine ih (i + 1) count h hlt (fun j hj => ?_) (by omega)
        rcases Nat.lt_succ_iff_lt_or_eq.mp hj with hj | rfl
        · exact hnone j hj
        · exact htype
    · rw [if_neg hlt]
      have hall : ∀ x ∈ s.q.nodes, x.type ≠ type := fun x hx => by
        obtain ⟨j, hj, rfl⟩ := mem_nodes.mp hx
        exact hnone j (by omega)
      refine ⟨h, ?_, ?_⟩
      · rw [filter_eq_self.mpr (by simpa using hall)]
      · rw [filter_eq_nil_iff.mpr (by simpa using hall)]
        rfl

/-- Cancelling a type removes the timers of that type and no others, and
returns their number. -/
theorem Inv.cancelType (h : Inv g s) (type : τ) : Inv g ⟨(s.q.cancelType type).2, s.limbo⟩ ∧
      (s.q.cancelType type).2.nodes.Perm (s.q.nodes.filter (fun x => x.type ≠ type)) ∧
      (s.q.cancelType type).1 = (s.q.nodes.filter (fun x => x.type = type)).length := by
  have hspec := cancelTypeLoop_spec type ((s.q.curSize + 1) * (s.q.curSize + 1)) 0 0 h
    (Nat.zero_le _) (fun j hj => absurd hj (Nat.not_lt_zero j)) (by
      have : (s.q.curSize + 1) * (s.q.curSize + 1) =
        s.q.curSize * (s.q.curSize + 1) + s.q.curSize + 1 := by ring
      omega)
  rwa [Nat.zero_add] at hspec

/-! ## Steps and runs -/

/-- The nodes of `ghost` are in limbo, and no caller holds them. -/
theorem step_inv {ghost : List (TimerNode τ)} (h : Inv ghost.length ⟨s.q, s.limbo ++ ghost⟩)
    {op : HeapOp τ} (hs : s.step op = some s') : Inv ghost.length ⟨s'.q, s'.limbo ++ ghost⟩ := by
  have htake : ∀ {id x rest}, s.takeLimbo id = some (x, rest) →
      (x :: (rest ++ ghost)).Perm (s.limbo ++ ghost) ∧ ghost.length ≤ (rest ++ ghost).length :=
    fun hx => ⟨(takeLimbo_spec hx).2.append_right ghost, by simp⟩
  cases op with
  | schedule type act futureTime interval =>
    cases hs
    exact h.schedule type act futureTime interval
  | cancelId timerId =>
    obtain ⟨r, hr, rfl⟩ := map_eq_some_iff.mp hs
    exact h.cancelId hr
  | cancelType type =>
    cases hs
    exact (h.cancelType type).1
  | resetInterval timerId interval =>
    obtain ⟨r, hr, rfl⟩ := map_eq_some_iff.mp hs
    exact h.resetInterval hr
  | removeFirst =>
    unfold step removeFirst at hs
    by_cases h0 : s.q.curSize = 0
    · simp only [if_pos h0] at hs
      cases hs
      exact h
    · simp only [if_neg h0] at hs
      cases hs
      exact h.remove (Nat.pos_of_ne_zero h0 : 0 < s.q.curSize)
  | reschedule timerId timerValue =>
    obtain ⟨⟨x, rest⟩, hx, rfl⟩ := map_eq_some_iff.mp hs
    exact h.reschedule (htake hx).1 (htake hx).2 timerValue
  | freeNode timerId =>
    obtain ⟨⟨x, rest⟩, hx, rfl⟩ := map_eq_some_iff.mp hs
    exact h.free (htake hx).1 (htake hx).2

theorem run_inv_init {size : Nat} (hsize : 2 ≤ size) {prealloc : Bool} {garbage : Nat → TimerNode τ}
    {ops : List (HeapOp τ)} (h : run step (init size prealloc garbage) ops = some s) : Inv 0 s := by
  have hstep : ∀ s op s', Inv ([] : List (TimerNode τ)).length ⟨s.q, s.limbo ++ []⟩ →
      step s op = some s' → Inv ([] : List (TimerNode τ)).length ⟨s'.q, s'.limbo ++ []⟩ :=
    fun _ _ _ hi hs => step_inv hi hs
  simpa using run_inv hstep (by simpa using Inv.init hsize prealloc garbage) h

end CancelType

/-! ## The results -/

variable [DecidableEq τ] {size : Nat} {prealloc : Bool} {garbage : Nat → TimerNode τ}
  {ops : List (HeapOp τ)}

/-- **The heap queue's invariant.** -/
theorem heap_invariant (hsize : 2 ≤ size) (h : run step (init size prealloc garbage) ops = some s) :
    (∀ i, 0 < i → i < s.q.curSize →
      (s.q.heap (TimerHeap.heapParent i)).timerValue ≤ (s.q.heap i).timerValue) ∧
    ((∀ i < s.q.curSize, s.q.timerIds (s.q.heap i).timerId = i) ∧ s.ids.Nodup) ∧
    ((∀ x ∈ s.limbo, s.q.timerIds x.timerId = -2) ∧ s.limbo.length = s.q.curLimbo) ∧
    (0 < s.q.curSize → ∃ x q, s.q.removeFirst = (some x, q) ∧ (x :: q.nodes).Perm s.q.nodes ∧
      ∀ y ∈ q.nodes, x.timerValue ≤ y.timerValue) := by
  have hinv := run_inv_init hsize h
  refine ⟨fun i h0 hi => ?_, ⟨hinv.ok.index, hinv.census.nodup⟩, ⟨hinv.mark, hinv.count⟩, fun h0 => ?_⟩
  · rw [heapParent_eq]
    exact hinv.ok.order i h0 hi
  · have hr := remove_spec hinv.ok h0
    refine ⟨s.q.heap 0, (s.q.remove 0).2, ?_, hr.nodes, fun y hy => ?_⟩
    · unfold removeFirst
      rw [if_neg (by omega)]
      rfl
    · have hy' := hr.nodes.mem_iff.mp (mem_cons_of_mem _ hy)
      obtain ⟨i, hi, rfl⟩ := mem_nodes.mp hy'
      exact hinv.ok.order.root_le i hi

def noTimer : TimerNode Nat := ⟨0, 0, .zero, .zero, 0⟩

def grownOps : List (HeapOp Nat) :=
  [.schedule 7 0 ⟨5, 0⟩ .zero, .schedule 8 0 ⟨3, 0⟩ .zero, .schedule 7 0 ⟨4, 0⟩ .zero, .removeFirst,
    .schedule 9 0 ⟨1, 0⟩ .zero, .cancelType 7, .reschedule 2 ⟨6, 0⟩, .cancelId 4, .removeFirst]

/-- A queue of size 2 that grows twice, with a node in limbo. -/
theorem heap_invariant_grown : ∃ s, run step (init 2 true fun _ => noTimer) grownOps = some s ∧
    (s.q.maxSize = 8 ∧ s.limbo.map (·.timerId) = [2]) ∧
    (∀ x ∈ s.limbo, s.q.timerIds x.timerId = -2) ∧ s.limbo.length = s.q.curLimbo := by
  have hrun : ∃ s, run step (init 2 true fun _ => noTimer) grownOps = some s ∧
      s.q.maxSize = 8 ∧ s.limbo.map (·.timerId) = [2] := ⟨_, rfl, rfl, rfl⟩
  obtain ⟨s, hs, hlook⟩ := hrun
  exact ⟨s, hs, hlook, (heap_invariant (le_refl 2) hs).2.2.1⟩

/-- **Timer ids do not collide.** `schedule_i` takes an id that no timer has. -/
theorem popFreelist_fresh (hsize : 2 ≤ size)
    (h : run step (init size prealloc garbage) ops = some s) :
    s.q.popAssert ∧ s.q.popFreelist.1 < s.q.maxSize ∧
      (∀ x ∈ s.timers, x.timerId ≠ s.q.popFreelist.1) ∧
      ∀ type act futureTime interval,
        (s.q.scheduleI type act futureTime interval).1 = some s.q.popFreelist.1 := by
  have hinv := run_inv_init hsize h
  obtain ⟨hlt, hfree, -⟩ := popFreelist_spec hinv.alloc hinv.popAssert
  refine ⟨hinv.popAssert, hlt, fun x hx e => hfree (e ▸ (hinv.id_mem hx).2), fun type act t i => ?_⟩
  obtain ⟨q, -, -, hq⟩ := hinv.scheduleI hinv.popAssert type act t i
  rw [hq]

def wrapOps : List (HeapOp Nat) :=
  [.schedule 7 0 ⟨5, 0⟩ .zero, .schedule 8 0 ⟨3, 0⟩ .zero, .cancelId 1, .schedule 7 0 ⟨4, 0⟩ .zero]

/-- The search wraps to an id behind it. -/
theorem popFreelist_fresh_wrapped :
    ∃ s, run step (init 4 false fun _ => noTimer) wrapOps = some s ∧
    (s.ids = [2, 3] ∧ s.q.popFreelist.1 = 0) ∧ s.q.popAssert ∧ s.q.popFreelist.1 < s.q.maxSize := by
  have hrun : ∃ s, run step (init 4 false fun _ => noTimer) wrapOps = some s ∧
      s.ids = [2, 3] ∧ s.q.popFreelist.1 = 0 := ⟨_, rfl, rfl, rfl⟩
  obtain ⟨s, hs, hlook⟩ := hrun
  have hfresh := popFreelist_fresh (by decide : 2 ≤ 4) hs
  exact ⟨s, hs, hlook, hfresh.1, hfresh.2.1⟩

end HeapSys

end Atcd.Timer
