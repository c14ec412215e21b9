import Atcd.Timer.HeapSift
/-!
# The timer ids of the heap timer queue

`pop_freelist` marches upwards from the last id it gave out and wraps to
`timer_ids_min_free_`, the lowest free id it knows of behind that point. Growth
sets `timer_ids_min_free_` to the size, and so forgets the free ids behind the
march. They are few: `grow_heap` runs when at most two ids are free, one of
them about to be used, so at most one is ever forgotten (`IdsOk.forgotten`),
while at least two are free whenever an id is asked for.

Results:
* `popFreelist_spec`: with two ids free, the id returned is in range and free,
  and the assertion of `pop_freelist` holds.
* `IdsOk.pop`, `IdsOk.push`, `IdsOk.grow`: how the book-keeping survives.
-/
namespace Atcd.Timer

namespace TimerHeap

variable {τ : Type} {q : TimerHeap τ}

/-- The id belongs to a timer. -/
def Used (q : TimerHeap τ) (i : Nat) : Prop := q.timerIds i ≥ 0 ∨ q.timerIds i = -2

@[simp] theorem inUse_iff (i : Nat) : inUse q.timerIds i = true ↔ q.Used i := by simp [inUse, Used]

/-- The book-keeping of the free ids below `max`, after `curr` was given out. -/
structure IdsOk (max curr minFree : Nat) (used : Nat → Prop) : Prop where
  curr_lt : curr < max
  min_le : minFree ≤ max
  min_free : minFree < max → minFree ≤ curr ∧ ¬ used minFree
  forgotten : ∀ i j, ¬ used i → i ≤ curr → i < minFree → ¬ used j → j ≤ curr → j < minFree → i = j

variable {max curr minFree : Nat} {used used' : Nat → Prop}

theorem IdsOk.congr (h : IdsOk max curr minFree used) (he : ∀ i < max, used' i ↔ used i) :
    IdsOk max curr minFree used' := by
  have hcurr := h.curr_lt
  refine ⟨hcurr, h.min_le, fun hm => ?_, fun i j hi hic him hj hjc hjm => ?_⟩
  · rw [he _ hm]
    exact h.min_free hm
  · rw [he i (by omega)] at hi
    rw [he j (by omega)] at hj
    exact h.forgotten i j hi hic him hj hjc hjm

/-! ## Counting -/

/-- `ids` lists the ids in use below `max`. -/
structure Census (max : Nat) (used : Nat → Prop) (ids : List Nat) : Prop where
  nodup : ids.Nodup
  mem : ∀ i, i ∈ ids ↔ i < max ∧ used i

theorem Census.perm {ids ids' : List Nat} (h : Census max used ids) (hp : ids'.Perm ids) :
    Census max used ids' := ⟨hp.nodup_iff.mpr h.nodup, fun i => by rw [hp.mem_iff, h.mem]⟩

/-- The ids in use and the free ids are `max` together. -/
theorem Census.free {ids : List Nat} (h : Census max used ids) :
    ∃ free : List Nat, free.Nodup ∧ (∀ i, i ∈ free ↔ i < max ∧ ¬ used i) ∧
      free.length + ids.length = max := by
  classical
  refine ⟨(List.range max).filter (fun i => ¬ used i), List.nodup_range.filter _, by simp, ?_⟩
  have hused : ((List.range max).filter (fun i => used i)).Perm ids :=
    (List.perm_ext_iff_of_nodup (List.nodup_range.filter _) h.nodup).mpr fun i => by
      simp [h.mem]
  have hsum := List.length_eq_length_filter_add (l := List.range max) (fun i => decide (used i))
  rw [List.length_range, hused.length_eq] at hsum
  have hneg : (List.range max).filter (fun i => decide (¬ used i)) =
      (List.range max).filter (fun i => !decide (used i)) := by simp
  rw [hneg]
  omega

theorem Census.two_free {ids : List Nat} (h : Census max used ids) (hroom : ids.length + 2 ≤ max) :
    ∃ i j, i ≠ j ∧ i < max ∧ ¬ used i ∧ j < max ∧ ¬ used j := by
  obtain ⟨free, hnodup, hmem, hlen⟩ := h.free
  rcases free with _ | ⟨i, _ | ⟨j, free⟩⟩
  · simp at hlen; omega
  · simp at hlen; omega
  · have hi := (hmem i).mp (by simp)
    have hj := (hmem j).mp (by simp)
    refine ⟨i, j, fun e => ?_, hi.1, hi.2, hj.1, hj.2⟩
    simp [e] at hnodup

theorem Census.one_free {ids : List Nat} (h : Census max used ids) (hfull : max ≤ ids.length + 1)
    {i j : Nat} (hi : i < max) (hui : ¬ used i) (hj : j < max) (huj : ¬ used j) : i = j := by
  obtain ⟨free, hnodup, hmem, hlen⟩ := h.free
  have hmi := (hmem i).mpr ⟨hi, hui⟩
  have hmj := (hmem j).mpr ⟨hj, huj⟩
  rcases free with _ | ⟨k, _ | ⟨l, free⟩⟩
  · simp at hmi
  · simp only [List.mem_singleton] at hmi hmj
    rw [hmi, hmj]
  · simp at hlen; omega

/-! ## Taking an id -/

theorem scan_spec (ids : Nat → Int) (n i : Nat) : i ≤ scan ids n i ∧ scan ids n i ≤ i + n ∧
      (∀ j, i ≤ j → j < scan ids n i → inUse ids j = true) ∧
      (scan ids n i < i + n → ¬ inUse ids (scan ids n i) = true) := by
  induction n generalizing i with
  | zero => exact ⟨le_rfl, le_rfl, fun j h1 h2 => absurd h2 (by simp [scan]; omega), by simp [scan]⟩
  | succ n ih =>
    unfold scan
    split
    · next hu =>
      obtain ⟨h1, h2, h3, h4⟩ := ih (i + 1)
      refine ⟨by omega, by omega, fun j hj hlt => ?_, fun hlt => h4 (by omega)⟩
      by_cases hji : j = i
      · rwa [hji]
      · exact h3 j (by omega) hlt
    · next hu => exact ⟨le_rfl, by omega, fun j h1 h2 => by omega, fun _ => hu⟩

theorem scanFrom_spec (hc : q.timerIdsCurr < q.maxSize) :
    q.timerIdsCurr < q.scanFrom ∧ q.scanFrom ≤ q.maxSize ∧
      (∀ j, q.timerIdsCurr < j → j < q.scanFrom → q.Used j) ∧
      (q.scanFrom < q.maxSize → ¬ q.Used q.scanFrom) := by
  obtain ⟨h1, h2, h3, h4⟩ :=
    scan_spec q.timerIds (q.maxSize - (q.timerIdsCurr + 1)) (q.timerIdsCurr + 1)
  unfold scanFrom
  refine ⟨by omega, by omega, fun j hj hlt => ?_, fun hlt => ?_⟩
  · exact (inUse_iff j).mp (h3 j (by omega) hlt)
  · exact fun hu => h4 (by omega) ((inUse_iff _).mpr hu)

/-- The march ends at the size only when every free id is behind it: with two
ids free one of them is known. -/
theorem popAssert_of_two_free (h : IdsOk q.maxSize q.timerIdsCurr q.timerIdsMinFree q.Used)
    (hfree : ∃ i j, i ≠ j ∧ i < q.maxSize ∧ ¬ q.Used i ∧ j < q.maxSize ∧ ¬ q.Used j) :
    q.popAssert := by
  intro hend
  obtain ⟨i, j, hne, hi, hui, hj, huj⟩ := hfree
  obtain ⟨_, _, hpast, _⟩ := scanFrom_spec h.curr_lt
  rw [hend] at hpast
  have hic : i ≤ q.timerIdsCurr := by
    by_contra hlt
    exact hui (hpast i (by omega) hi)
  have hjc : j ≤ q.timerIdsCurr := by
    by_contra hlt
    exact huj (hpast j (by omega) hj)
  by_contra hmin
  exact hne (h.forgotten i j hui hic (by omega) huj hjc (by omega))

theorem popFreelist_spec (h : IdsOk q.maxSize q.timerIdsCurr q.timerIdsMinFree q.Used)
    (hassert : q.popAssert) : q.popFreelist.1 < q.maxSize ∧ ¬ q.Used q.popFreelist.1 ∧
      q.popFreelist.2 = { q with timerIdsCurr := q.popFreelist.1,
                                 timerIdsMinFree := q.popFreelist.2.timerIdsMinFree } := by
  obtain ⟨_, hle, _, hstop⟩ := scanFrom_spec h.curr_lt
  unfold popFreelist
  simp only
  split
  · next hend => exact ⟨hassert hend, (h.min_free (hassert hend)).2, rfl⟩
  · next hend => exact ⟨by omega, hstop (by omega), rfl⟩

/-- The book-keeping, once the id is used. -/
theorem IdsOk.pop (h : IdsOk q.maxSize q.timerIdsCurr q.timerIdsMinFree q.Used)
    (hassert : q.popAssert) : IdsOk q.maxSize q.popFreelist.1 q.popFreelist.2.timerIdsMinFree
      (fun i => i = q.popFreelist.1 ∨ q.Used i) := by
  obtain ⟨hgt, hle, hpast, hstop⟩ := scanFrom_spec h.curr_lt
  unfold popFreelist
  simp only
  split
  · next hend =>
    have hmin := hassert hend
    have hmf := h.min_free hmin
    refine ⟨hmin, le_rfl, fun hm => absurd hm (lt_irrefl _), fun i j hi hic _ hj hjc _ => ?_⟩
    -- a forgotten id lies below the id just taken, and was forgotten before
    rw [not_or] at hi hj
    exact h.forgotten i j hi.2 (by omega) (by omega) hj.2 (by omega) (by omega)
  · next hend =>
    change IdsOk q.maxSize q.scanFrom q.timerIdsMinFree (fun i => i = q.scanFrom ∨ q.Used i)
    refine ⟨by omega, h.min_le, fun hm => ?_, fun i j hi hic him hj hjc hjm => ?_⟩
    · have hmf := h.min_free hm
      refine ⟨by omega, ?_⟩
      rw [not_or]
      exact ⟨by omega, hmf.2⟩
    · rw [not_or] at hi hj
      have hbehind : ∀ k, k ≠ q.scanFrom → k ≤ q.scanFrom → ¬ q.Used k → k ≤ q.timerIdsCurr :=
        fun k hne hk hu => by
          by_contra hlt
          exact hu (hpast k (by omega) (by omega))
      exact h.forgotten i j hi.2 (hbehind i hi.1 hic hi.2) him hj.2 (hbehind j hj.1 hjc hj.2) hjm

/-! ## Giving an id back, and growth -/

theorem IdsOk.push (h : IdsOk max curr minFree used) {id : Nat} (hid : id < max) :
    IdsOk max curr (if id < minFree ∧ id ≤ curr then id else minFree)
      (fun i => i ≠ id ∧ used i) := by
  have hmin := h.min_le
  refine ⟨h.curr_lt, by split <;> omega, fun hm => ?_, fun i j hi hic him hj hjc hjm => ?_⟩
  · split
    · next hnew => exact ⟨hnew.2, fun hu => hu.1 rfl⟩
    · next hnew =>
      rw [if_neg hnew] at hm
      exact ⟨(h.min_free hm).1, fun hu => (h.min_free hm).2 hu.2⟩
  · -- neither is the id given back: that one is known now, or ahead of the march
    have hold : ∀ k, ¬ (k ≠ id ∧ used k) → k ≤ curr →
        (k < if id < minFree ∧ id ≤ curr then id else minFree) → ¬ used k ∧ k < minFree := by
      intro k hk hkc hkm
      split at hkm
      · exact ⟨fun hu => hk ⟨by omega, hu⟩, by omega⟩
      · exact ⟨fun hu => hk ⟨by omega, hu⟩, hkm⟩
    obtain ⟨hi1, hi2⟩ := hold i hi hic him
    obtain ⟨hj1, hj2⟩ := hold j hj hjc hjm
    exact h.forgotten i j hi1 hic hi2 hj1 hjc hj2

theorem freeNode_eq {x : TimerNode τ} (h : q.timerIds x.timerId = -2) : q.freeNode x =
      { q with curLimbo := q.curLimbo - 1,
               timerIds := Function.update q.timerIds x.timerId (-1),
               timerIdsMinFree :=
                 if x.timerId < q.timerIdsMinFree ∧ x.timerId ≤ q.timerIdsCurr then x.timerId
                 else q.timerIdsMinFree,
               preallocated := q.preallocated.map (· + 1) } := by
  simp [freeNode, pushFreelist, h]

theorem IdsOk.grow (hc : curr < max) (hone : ∀ i j, i < max → ¬ used i → j < max → ¬ used j → i = j)
    {newMax : Nat} (hmax : max ≤ newMax) : IdsOk newMax curr newMax used :=
  ⟨by omega, le_rfl, fun hm => absurd hm (lt_irrefl _), fun i j hi hic _ hj hjc _ =>
    hone i j (by omega) hi (by omega) hj⟩

end TimerHeap

end Atcd.Timer
