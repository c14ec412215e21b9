import Atcd.Timer.Heap
import Atcd.Core.HeapOrder
/-!
# The sifts of the heap timer queue

`reheap_up` and `reheap_down` move a hole through the array: the node to be
placed is written last, into the slot where the hole ends. The array they work
on is `g` here, with that node already in the hole, and a step of the loop
exchanges two entries of `g` (`Hole.shift`). Writing the node (`Hole.fill`)
makes the heap equal to `g` and completes the index map.

Results:
* `reheapUp_settled`, `reheapDown_settled`: each sift ends with an ordered heap
  of the same nodes and a complete index map.
* `insert_spec`, `remove_spec`: what `insert` and `remove` do to a well-formed
  queue.
-/
namespace Atcd.Timer

open Atcd.Time Atcd.Core.HeapOrder List Function

namespace TimerHeap

variable {τ : Type} {q q' : TimerHeap τ} {g : Nat → TimerNode τ} {n slot p : Nat}

@[simp] theorem heapParent_eq (x : Nat) : heapParent x = parent x := by
  unfold heapParent parent
  split
  · next h => rw [h]
  · rfl

@[simp] theorem heapLchild_eq (x : Nat) : heapLchild x = lchild x := rfl

def nodes (q : TimerHeap τ) : List (TimerNode τ) := (List.range q.curSize).map q.heap

theorem mem_nodes {x : TimerNode τ} : x ∈ q.nodes ↔ ∃ i < q.curSize, q.heap i = x := by
  simp [nodes]

@[simp] theorem length_nodes : q.nodes.length = q.curSize := by simp [nodes]

theorem heap_mem_nodes {i : Nat} (h : i < q.curSize) : q.heap i ∈ q.nodes := mem_nodes.mpr ⟨i, h, rfl⟩

@[simp] theorem curSize_copy (x : TimerNode τ) : (q.copy slot x).curSize = q.curSize := rfl

/-! ## The hole -/

/-- The heap is `g` but for the entry of `slot`, which is still to be written. -/
structure Hole (q : TimerHeap τ) (g : Nat → TimerNode τ) (n slot : Nat) : Prop where
  lt : slot < n
  off : ∀ i, i ≠ slot → q.heap i = g i
  index : ∀ i < n, i ≠ slot → q.timerIds (g i).timerId = i
  inj : ∀ i < n, ∀ j < n, (g i).timerId = (g j).timerId → i = j

/-- `q'` differs from `q` in holding the nodes of `g`, with their index map. -/
structure Filled (q : TimerHeap τ) (g : Nat → TimerNode τ) (n : Nat) (q' : TimerHeap τ) : Prop where
  heap : q'.heap = g
  index : ∀ i < n, q'.timerIds (g i).timerId = i
  other : ∀ id, (∀ i < n, (g i).timerId ≠ id) → q'.timerIds id = q.timerIds id
  frame : q' = { q with heap := q'.heap, timerIds := q'.timerIds }

/-- `q'` holds the nodes of `g` in heap order. -/
def Settled (q : TimerHeap τ) (g : Nat → TimerNode τ) (n : Nat) (q' : TimerHeap τ) : Prop :=
  ∃ σ, Within n σ ∧ Ordered (fun i => (g (σ i)).timerValue) n ∧ Filled q (g ∘ σ) n q'

theorem Hole.fill (h : Hole q g n slot) : Filled q g n (q.copy slot (g slot)) where
  heap := by
    funext i
    by_cases hi : i = slot
    · simp [copy, hi]
    · simp [copy, hi, h.off i hi]
  index i hi := by
    by_cases hs : i = slot
    · simp [copy, hs]
    · have hne : (g i).timerId ≠ (g slot).timerId := fun e => hs (h.inj i hi slot h.lt e)
      simp [copy, hne, h.index i hi hs]
  other id hid := by
    have hne : id ≠ (g slot).timerId := fun e => hid slot h.lt e.symm
    simp [copy, hne]
  frame := rfl

theorem Hole.shift (h : Hole q g n slot) (hp : p < n) :
    Hole (q.copy slot (g p)) (g ∘ Equiv.swap slot p) n p where
  lt := hp
  off i hi := by
    by_cases hs : i = slot
    · simp [copy, hs]
    · simp [copy, hs, Equiv.swap_apply_of_ne_of_ne hs hi, h.off i hs]
  index i hi hip := by
    by_cases hs : i = slot
    · simp [copy, hs]
    · have hid : (g i).timerId ≠ (g p).timerId := fun e => hip (h.inj i hi p hp e)
      simp [copy, Equiv.swap_apply_of_ne_of_ne hs hip, hid, h.index i hi hs]
  inj i hi j hj e := (Equiv.swap slot p).injective
      (h.inj _ ((Within.swap h.lt hp).lt hi) _ ((Within.swap h.lt hp).lt hj) e)

theorem Settled.of_shift (hs : slot < n) (hp : p < n)
    (h : Settled (q.copy slot (g p)) (g ∘ Equiv.swap slot p) n q') : Settled q g n q' := by
  obtain ⟨σ, hσ, hord, hfill⟩ := h
  have hw := hσ.trans (Within.swap hs hp)
  refine ⟨σ.trans (Equiv.swap slot p), hw, hord, hfill.heap, hfill.index, fun id hid => ?_, ?_⟩
  · have hpid : id ≠ (g p).timerId := by
      have hlt := hw.symm.lt hp
      have := hid _ hlt
      simpa using this.symm
    rw [hfill.other id hid]
    simp [copy, hpid]
  · rw [hfill.frame]
    rfl

theorem Hole.settle (h : Hole q g n slot) (ho : Ordered (fun i => (g i).timerValue) n) :
    Settled q g n (q.copy slot (g slot)) := ⟨Equiv.refl Nat, Within.refl n, ho, h.fill⟩

/-! ## Up -/

theorem reheapUpLoop_settled (fuel : Nat) (h : Hole q g n slot) (hf : slot ≤ fuel)
    (ho : UpTo (fun i => (g i).timerValue) n slot) :
    Settled q g n (reheapUpLoop (g slot) fuel q slot (parent slot)) := by
  induction fuel generalizing q g slot with
  | zero => exact h.settle (ho.ordered (.inl (by omega)))
  | succ fuel ih =>
    unfold reheapUpLoop
    by_cases h0 : slot > 0
    · have hp := parent_lt h0
      have hlt := h.lt
      rw [if_pos h0, h.off _ (by omega)]
      simp only [TimeValue.lt_iff]
      by_cases hv : (g slot).timerValue < (g (parent slot)).timerValue
      · rw [if_pos hv, heapParent_eq]
        have hnext := ih (h.shift (by omega)) (by omega) (ho.swap h0 hlt hv)
        refine Settled.of_shift hlt (by omega : parent slot < n) ?_
        simpa using hnext
      · rw [if_neg hv]
        exact h.settle (ho.ordered (.inr (not_lt.mp hv)))
    · rw [if_neg h0]
      exact h.settle (ho.ordered (.inl (by omega)))

theorem reheapUp_settled (h : Hole q g n slot) (ho : UpTo (fun i => (g i).timerValue) n slot) :
    Settled q g n (q.reheapUp (g slot) slot (heapParent slot)) := by
  rw [heapParent_eq]
  exact reheapUpLoop_settled slot h le_rfl ho

/-! ## Down -/

theorem smallerChild_spec (h : Hole q g q.curSize slot) (hc : lchild slot < q.curSize) :
    q.smallerChild (lchild slot) < q.curSize ∧ parent (q.smallerChild (lchild slot)) = slot ∧
      slot < q.smallerChild (lchild slot) ∧ ∀ d, 0 < d → d < q.curSize → parent d = slot →
        (g (q.smallerChild (lchild slot))).timerValue ≤ (g d).timerValue := by
  have hlt := lt_lchild slot
  have hl : q.heap (lchild slot) = g (lchild slot) := h.off _ (by omega)
  have hr : q.heap (lchild slot + 1) = g (lchild slot + 1) := h.off _ (by omega)
  unfold smallerChild
  rw [hl, hr]
  simp only [TimeValue.lt_iff]
  split
  · next hs =>
    refine ⟨hs.1, (parent_eq_iff (by omega)).mpr (.inr rfl), by omega, fun d h0 hd hp => ?_⟩
    rcases (parent_eq_iff h0).mp hp with rfl | rfl
    · exact hs.2.le
    · exact le_rfl
  · next hs =>
    refine ⟨hc, (parent_eq_iff (by omega)).mpr (.inl rfl), by omega, fun d h0 hd hp => ?_⟩
    rcases (parent_eq_iff h0).mp hp with rfl | rfl
    · exact le_rfl
    · exact not_lt.mp fun hlt => hs ⟨hd, hlt⟩

theorem reheapDownLoop_settled (fuel : Nat) (h : Hole q g q.curSize slot)
    (hf : q.curSize ≤ slot + fuel) (ho : DownFrom (fun i => (g i).timerValue) q.curSize slot) :
    Settled q g q.curSize (reheapDownLoop (g slot) fuel q slot (lchild slot)) := by
  induction fuel generalizing q g slot with
  | zero =>
    have := h.lt
    omega
  | succ fuel ih =>
    unfold reheapDownLoop
    by_cases hc : lchild slot < q.curSize
    · obtain ⟨hlt, hpar, hgt, hmin⟩ := smallerChild_spec h hc
      rw [if_pos hc]
      simp only [h.off _ (by omega : q.smallerChild (lchild slot) ≠ slot), TimeValue.lt_iff]
      generalize q.smallerChild (lchild slot) = c at *
      by_cases hv : (g c).timerValue < (g slot).timerValue
      · rw [if_pos hv, heapLchild_eq]
        have hdown := ho.swap (by omega) hlt hpar hmin hv
        have hnext := ih (q := q.copy slot (g c)) (h.shift hlt)
          (by rw [curSize_copy]; omega) hdown
        refine Settled.of_shift h.lt hlt ?_
        simpa using hnext
      · rw [if_neg hv]
        refine h.settle (ho.ordered fun d h0 hd hp => ?_)
        exact (not_lt.mp hv).trans (hmin d h0 hd hp)
    · rw [if_neg hc]
      refine h.settle (ho.ordered fun d h0 hd hp => ?_)
      rcases (parent_eq_iff h0).mp hp with rfl | rfl <;> omega

theorem reheapDown_settled (h : Hole q g q.curSize slot)
    (ho : DownFrom (fun i => (g i).timerValue) q.curSize slot) :
    Settled q g q.curSize (q.reheapDown (g slot) slot (heapLchild slot)) :=
  reheapDownLoop_settled q.curSize h (by omega) ho

/-! ## Well-formed queues -/

/-- The heap order and the index map. -/
structure HeapOk (q : TimerHeap τ) : Prop where
  order : Ordered (fun i => (q.heap i).timerValue) q.curSize
  index : ∀ i < q.curSize, q.timerIds (q.heap i).timerId = i

theorem HeapOk.inj (h : HeapOk q) {i j : Nat} (hi : i < q.curSize) (hj : j < q.curSize)
    (he : (q.heap i).timerId = (q.heap j).timerId) : i = j := by
  have hi' := h.index i hi
  rw [he, h.index j hj] at hi'
  exact_mod_cast hi'.symm

theorem HeapOk.ids_nodup (h : HeapOk q) : (q.nodes.map (·.timerId)).Nodup := by
  unfold nodes
  rw [map_map]
  refine Nodup.map_on (fun i hi j hj he => ?_) nodup_range
  exact h.inj (mem_range.mp hi) (mem_range.mp hj) he

theorem Settled.heapOk (h : Settled q g n q') : HeapOk { q' with curSize := n } := by
  obtain ⟨σ, _, hord, hfill⟩ := h
  exact ⟨by simpa [hfill.heap] using hord, by simpa [hfill.heap] using hfill.index⟩

theorem Settled.nodes_perm (h : Settled q g n q') :
    ((range n).map q'.heap).Perm ((range n).map g) := by
  obtain ⟨σ, hσ, _, hfill⟩ := h
  rw [hfill.heap]
  exact hσ.map_range_perm g

theorem Settled.other (h : Settled q g n q') {id : Nat} (hid : ∀ i < n, (g i).timerId ≠ id) :
    q'.timerIds id = q.timerIds id := by
  obtain ⟨σ, hσ, _, hfill⟩ := h
  exact hfill.other id fun i hi => hid _ (hσ.lt hi)

theorem Settled.frame (h : Settled q g n q') :
    q' = { q with heap := q'.heap, timerIds := q'.timerIds } := by
  obtain ⟨σ, _, _, hfill⟩ := h
  exact hfill.frame

/-! ## Insertion -/

/-- What `insert` starts with: room for two more nodes. -/
def ensureRoom (q : TimerHeap τ) : TimerHeap τ :=
  if q.curSize + q.curLimbo + 2 ≥ q.maxSize then q.growHeap else q

@[simp] theorem heap_ensureRoom : q.ensureRoom.heap = q.heap := by unfold ensureRoom; split <;> rfl

@[simp] theorem curSize_ensureRoom : q.ensureRoom.curSize = q.curSize := by
  unfold ensureRoom; split <;> rfl

@[simp] theorem curLimbo_ensureRoom : q.ensureRoom.curLimbo = q.curLimbo := by
  unfold ensureRoom; split <;> rfl

@[simp] theorem timerIdsCurr_ensureRoom : q.ensureRoom.timerIdsCurr = q.timerIdsCurr := by
  unfold ensureRoom; split <;> rfl

@[simp] theorem nodes_ensureRoom : q.ensureRoom.nodes = q.nodes := by simp [nodes]

theorem maxSize_ensureRoom : q.ensureRoom.maxSize =
    if q.curSize + q.curLimbo + 2 ≥ q.maxSize then q.maxSize * 2 else q.maxSize := by
  unfold ensureRoom; split <;> rfl

theorem timerIds_ensureRoom {id : Nat} (h : id < q.maxSize) :
    q.ensureRoom.timerIds id = q.timerIds id := by
  unfold ensureRoom
  split
  · exact if_neg (by omega)
  · rfl

/-- What `insert` does to `q`, which has room. -/
structure Inserted (q : TimerHeap τ) (x : TimerNode τ) (q' : TimerHeap τ) : Prop where
  ok : HeapOk q'
  nodes : q'.nodes.Perm (x :: q.nodes)
  other : ∀ id, id ≠ x.timerId → (∀ y ∈ q.nodes, y.timerId ≠ id) → q'.timerIds id = q.timerIds id
  frame : q' = { q with heap := q'.heap, timerIds := q'.timerIds, curSize := q.curSize + 1 }

theorem insert_eq (x : TimerNode τ) : q.insert x =
    { q.ensureRoom.reheapUp x q.curSize (heapParent q.curSize) with
      curSize := (q.ensureRoom.reheapUp x q.curSize (heapParent q.curSize)).curSize + 1 } := by
  change (let r := q.ensureRoom.reheapUp x q.ensureRoom.curSize (heapParent q.ensureRoom.curSize)
    { r with curSize := r.curSize + 1 }) = _
  rw [curSize_ensureRoom]

theorem insert_spec (h : HeapOk q) (hids : ∀ y ∈ q.nodes, y.timerId < q.maxSize)
    {x : TimerNode τ} (hx : ∀ y ∈ q.nodes, y.timerId ≠ x.timerId) :
    Inserted q.ensureRoom x (q.insert x) := by
  have hold : ∀ i < q.curSize, update q.heap q.curSize x i = q.heap i := fun i hi =>
    update_of_ne (by omega) ..
  have hnew : update q.heap q.curSize x q.curSize = x := update_self ..
  generalize hg : update q.heap q.curSize x = g at *
  have hhole : Hole q.ensureRoom g (q.curSize + 1) q.curSize := by
    refine ⟨by omega, fun i hi => ?_, fun i hi hne => ?_, fun i hi j hj he => ?_⟩
    · rw [← hg, heap_ensureRoom]
      exact (update_of_ne hi ..).symm
    · rw [hold i (by omega), timerIds_ensureRoom (hids _ (heap_mem_nodes (by omega)))]
      exact h.index i (by omega)
    · rcases Nat.lt_succ_iff_lt_or_eq.mp hi with hi | rfl <;>
        rcases Nat.lt_succ_iff_lt_or_eq.mp hj with hj | rfl
      · rw [hold i hi, hold j hj] at he
        exact h.inj hi hj he
      · rw [hold i hi, hnew] at he
        exact absurd he (hx _ (heap_mem_nodes hi))
      · rw [hold j hj, hnew] at he
        exact absurd he.symm (hx _ (heap_mem_nodes hj))
      · rfl
  have horder : Ordered (fun i => (g i).timerValue) q.curSize :=
    h.order.congr fun i hi => by rw [hold i hi]
  have hs := reheapUp_settled hhole (UpTo.of_ordered horder)
  rw [hnew] at hs
  rw [insert_eq]
  generalize q.ensureRoom.reheapUp x q.curSize (heapParent q.curSize) = q' at hs
  have hsize : q'.curSize = q.curSize := by rw [hs.frame]; simp
  rw [hsize]
  refine ⟨hs.heapOk, ?_, fun id hne hid => hs.other fun i hi he => ?_, ?_⟩
  · refine hs.nodes_perm.trans ?_
    rw [range_succ, map_append, map_singleton, hnew]
    refine perm_append_comm.trans ?_
    rw [TimerHeap.nodes, curSize_ensureRoom, heap_ensureRoom]
    refine Perm.of_eq (congrArg (x :: ·) (map_congr_left fun i hi => ?_))
    exact hold i (mem_range.mp hi)
  · rcases Nat.lt_succ_iff_lt_or_eq.mp hi with hi | rfl
    · rw [hold i hi] at he
      exact hid _ (mem_nodes.mpr ⟨i, by simpa using hi, by simp⟩) he
    · rw [hnew] at he
      exact hne he.symm
  · rw [hs.frame]
    simp

/-! ## Removal -/

/-- The part of `remove` that closes the gap: the last node goes to `slot` and
is sifted. -/
def closeGap (q : TimerHeap τ) (slot : Nat) : TimerHeap τ :=
  let q := { q with curSize := q.curSize - 1 }
  if slot < q.curSize then
    let movedNode := q.heap q.curSize
    let q := q.copy slot movedNode
    let parent := heapParent slot
    if movedNode.timerValue.ge (q.heap parent).timerValue = true then
      q.reheapDown movedNode slot (heapLchild slot)
    else q.reheapUp movedNode slot parent
  else q

theorem remove_eq (slot : Nat) : q.remove slot = (q.heap slot, { q.closeGap slot with
      timerIds := update (q.closeGap slot).timerIds (q.heap slot).timerId (-2),
      curLimbo := (q.closeGap slot).curLimbo + 1 }) := rfl

/-- The array behind the removal: the last of `m + 1` nodes in the place of the
removed one. -/
theorem gap_perm (heap : Nat → TimerNode τ) {m slot : Nat} (hs : slot < m) :
    (heap slot :: (range m).map (update heap slot (heap m))).Perm
      ((range (m + 1)).map heap) := by
  have hswap := (Within.swap (show slot < m + 1 by omega) (Nat.lt_succ_self m)).map_range_perm heap
  refine Perm.trans ?_ hswap
  rw [range_succ, map_append, map_singleton, comp_apply, Equiv.swap_apply_right]
  refine Perm.trans (Perm.of_eq ?_) perm_append_comm
  refine congrArg (heap slot :: ·) (map_congr_left fun i hi => ?_)
  have him := mem_range.mp hi
  by_cases his : i = slot
  · simp [his]
  · rw [update_of_ne his, comp_apply, Equiv.swap_apply_of_ne_of_ne his (by omega)]

/-- `closeGap` sifts the last node from the slot of the removed one. -/
theorem closeGap_settled (h : HeapOk q) {m : Nat} (hm : q.curSize = m + 1) (hs : slot < m) :
    Settled ({ q with curSize := m }.copy slot (q.heap m)) (update q.heap slot (q.heap m)) m
      (q.closeGap slot) := by
  have hold : ∀ i, i ≠ slot → update q.heap slot (q.heap m) i = q.heap i := fun i hi =>
    update_of_ne hi ..
  have hnew : update q.heap slot (q.heap m) slot = q.heap m := update_self ..
  have hkey : (fun i => (update q.heap slot (q.heap m) i).timerValue) =
      update (fun i => (q.heap i).timerValue) slot (q.heap m).timerValue :=
    comp_update (fun x : TimerNode τ => x.timerValue) ..
  have hhole : Hole ({ q with curSize := m }.copy slot (q.heap m))
      (update q.heap slot (q.heap m)) m slot := by
    refine ⟨hs, fun i _ => rfl, fun i hi hne => ?_, fun i hi j hj he => ?_⟩
    · rw [hold i hne]
      have hid : (q.heap i).timerId ≠ (q.heap m).timerId := fun e => by
        have := h.inj (by omega) (by omega) e
        omega
      simp [copy, hid, h.index i (by omega)]
    · by_cases his : i = slot <;> by_cases hjs : j = slot
      · rw [his, hjs]
      · rw [his, hnew, hold j hjs] at he
        have := h.inj (by omega) (by omega) he
        omega
      · rw [hjs, hnew, hold i his] at he
        have := h.inj (by omega) (by omega) he
        omega
      · rw [hold i his, hold j hjs] at he
        exact h.inj (by omega) (by omega) he
  have horder : Ordered (fun i => (q.heap i).timerValue) m := h.order.mono (by omega)
  unfold closeGap
  simp only [hm, Nat.add_sub_cancel, if_pos hs, TimeValue.ge_iff]
  by_cases h0 : slot = 0
  · subst h0
    rw [if_pos (by simp [copy, heapParent])]
    have hd := reheapDown_settled (q := { q with curSize := m }.copy 0 (q.heap m)) hhole
      (hkey ▸ DownFrom.of_update horder hs (.inl rfl))
    rwa [hnew] at hd
  · have hp := parent_lt (show 0 < slot by omega)
    have hpar : ({ q with curSize := m }.copy slot (q.heap m)).heap (heapParent slot) =
        q.heap (parent slot) := by
      rw [heapParent_eq]
      exact hold _ (by omega)
    rw [hpar]
    split
    · next hge =>
      have hd := reheapDown_settled (q := { q with curSize := m }.copy slot (q.heap m)) hhole
        (hkey ▸ DownFrom.of_update horder hs (.inr hge))
      rwa [hnew] at hd
    · next hlt =>
      have hu := reheapUp_settled hhole (hkey ▸ UpTo.of_update horder (by omega) hs (not_le.mp hlt))
      rwa [hnew] at hu

theorem closeGap_spec (h : HeapOk q) (hs : slot < q.curSize) :
    HeapOk (q.closeGap slot) ∧ (q.heap slot :: (q.closeGap slot).nodes).Perm q.nodes ∧
      (∀ id, (∀ y ∈ q.nodes, y.timerId ≠ id) → (q.closeGap slot).timerIds id = q.timerIds id) ∧
      q.closeGap slot = { q with heap := (q.closeGap slot).heap,
                                 timerIds := (q.closeGap slot).timerIds, curSize := q.curSize - 1 } := by
  obtain ⟨m, hm⟩ : ∃ m, q.curSize = m + 1 := ⟨q.curSize - 1, by omega⟩
  by_cases hlt : slot < m
  · have hset := closeGap_settled h hm hlt
    have hframe := hset.frame
    have hsize : (q.closeGap slot).curSize = m := by rw [hframe]; rfl
    have hok := hset.heapOk
    rw [show { q.closeGap slot with curSize := m } = q.closeGap slot by rw [← hsize]] at hok
    refine ⟨hok, ?_, fun id hid => ?_, ?_⟩
    · unfold nodes
      rw [hsize, hm]
      exact (hset.nodes_perm.cons _).trans (gap_perm q.heap hlt)
    · have hne : ∀ i < q.curSize, (q.heap i).timerId ≠ id := fun i hi => hid _ (heap_mem_nodes hi)
      rw [hset.other fun i hi => ?_]
      · simp [copy, (hne m (by omega)).symm]
      · by_cases his : i = slot
        · simpa [his] using hne m (by omega)
        · simpa [his] using hne i (by omega)
    · rw [hframe, hm]
      rfl
  · have hlast : slot = m := by omega
    subst hlast
    have hcg : q.closeGap slot = { q with curSize := slot } := by simp [closeGap, hm]
    rw [hcg]
    refine ⟨⟨h.order.mono (by simp [hm]), fun i hi => h.index i (by simp at hi; omega)⟩, ?_,
      fun _ _ => rfl, by simp [hm]⟩
    unfold nodes
    rw [hm, range_succ, map_append, map_singleton]
    exact (perm_append_singleton ..).symm

/-- What `remove` does to `q`, taking `x` out. -/
structure Removed (q : TimerHeap τ) (x : TimerNode τ) (q' : TimerHeap τ) : Prop where
  ok : HeapOk q'
  nodes : (x :: q'.nodes).Perm q.nodes
  limbo : q'.timerIds x.timerId = -2
  other : ∀ id, (∀ y ∈ q.nodes, y.timerId ≠ id) → q'.timerIds id = q.timerIds id
  frame : q' = { q with heap := q'.heap, timerIds := q'.timerIds, curSize := q.curSize - 1,
                        curLimbo := q.curLimbo + 1 }

theorem remove_spec (h : HeapOk q) (hs : slot < q.curSize) :
    Removed q (q.heap slot) (q.remove slot).2 := by
  obtain ⟨hok, hperm, hother, hframe⟩ := closeGap_spec h hs
  rw [remove_eq]
  generalize q.closeGap slot = r at *
  -- no remaining node has the id of the removed one
  have hnodup := (hperm.map (·.timerId)).nodup_iff.mpr h.ids_nodup
  rw [map_cons, nodup_cons] at hnodup
  refine ⟨⟨hok.order, fun i hi => ?_⟩, hperm, by simp, fun id hid => ?_, ?_⟩
  · have hne : (r.heap i).timerId ≠ (q.heap slot).timerId := fun e =>
      hnodup.1 (e ▸ mem_map_of_mem (heap_mem_nodes hi))
    simpa [hne] using hok.index i hi
  · have hne := (hid _ (heap_mem_nodes hs)).symm
    simpa [hne] using hother id hid
  · rw [hframe]

end TimerHeap

end Atcd.Timer
