import Atcd.Orb.TransportCache
/-!
# Purging the transport cache (`Transport_Cache_Manager_T.cpp`)

`purge` sorts pointers to all entries by the order that the purging strategy gave
to their transports, marks the first purgable ones busy and closes their
transports. A pointer to an entry is its place in the iteration over the map.

Results:
* `insertionSort`: the loop for hosts without `qsort` sorts.
* `purgeLoop_eq`: the loop closes the first purgable entries of the sorted set.
* `purge_closes`: what `purge` does, when the product of size and percentage is
  an `int`.
* `purgesOldest_iff`: that is what it should do exactly when the product is at
  least 100 or nothing is purgable.
* `small_cache_keeps_all`: one idle entry, maximum 1, 20 percent.
-/
namespace Atcd.Orb.TransportCache

open List

/-! ## Sorting -/

/-- `sort_set`: the pointers by the order of their transports, entries of one
order in any order among each other. -/
structure SortSet where
  sort : (Nat → Nat) → List Nat → List Nat
  perm : ∀ order set, (sort order set).Perm set
  sorted : ∀ order set, (sort order set).Pairwise fun i j => order i ≤ order j

/-- The inner loop of the insertion sort, on the entries before the place from
the last one on. -/
def sink (order : Nat → Nat) (entry : Nat) : List Nat → List Nat
  | [] => [entry]
  | before :: rest =>
    if order entry < order before then before :: sink order entry rest
    else entry :: before :: rest

/-- The outer loop; `done` are the entries before `i`, the last one first. -/
def insertAll (order : Nat → Nat) : List Nat → List Nat → List Nat
  | [], done => done
  | entry :: entries, done => insertAll order entries (sink order entry done)

theorem sink_perm (order : Nat → Nat) (entry : Nat) (done : List Nat) :
    (sink order entry done).Perm (entry :: done) := by
  induction done with
  | nil => exact .refl _
  | cons before rest ih =>
    rw [sink]
    split
    · exact (ih.cons before).trans (.swap entry before rest)
    · exact .refl _

theorem sink_sorted {order : Nat → Nat} {done : List Nat} (entry : Nat)
    (h : done.Pairwise fun i j => order j ≤ order i) :
    (sink order entry done).Pairwise fun i j => order j ≤ order i := by
  induction done with
  | nil => simp [sink]
  | cons before rest ih =>
    obtain ⟨hbefore, hrest⟩ := pairwise_cons.mp h
    rw [sink]
    split
    · next hlt =>
      refine pairwise_cons.mpr ⟨fun i hi => ?_, ih hrest⟩
      rcases mem_cons.mp ((sink_perm order entry rest).mem_iff.mp hi) with rfl | hi
      · omega
      · exact hbefore i hi
    · next hle =>
      refine pairwise_cons.mpr ⟨fun i hi => ?_, h⟩
      rcases mem_cons.mp hi with rfl | hi
      · omega
      · have := hbefore i hi
        omega

theorem insertAll_perm (order : Nat → Nat) (entries done : List Nat) :
    (insertAll order entries done).Perm (entries ++ done) := by
  induction entries generalizing done with
  | nil => exact .refl _
  | cons entry entries ih =>
    refine (ih _).trans (((sink_perm order entry done).append_left entries).trans ?_)
    exact perm_middle

theorem insertAll_sorted {order : Nat → Nat} {done : List Nat} (entries : List Nat)
    (h : done.Pairwise fun i j => order j ≤ order i) :
    (insertAll order entries done).Pairwise fun i j => order j ≤ order i := by
  induction entries generalizing done with
  | nil => exact h
  | cons entry entries ih => exact ih (sink_sorted entry h)

/-- mirrors TAO/tao/Transport_Cache_Manager_T.cpp:684-702 (`sort_set` with
`ACE_LACKS_QSORT`) -/
def insertionSort : SortSet where
  sort order set := (insertAll order set []).reverse
  perm order set := by
    have := insertAll_perm order set []
    rw [List.append_nil] at this
    exact (List.reverse_perm _).trans this
  sorted order set := List.pairwise_reverse.mpr (insertAll_sorted set .nil)

/-! ## Purging -/

variable {D T : Type} {P : PurgingStrategy T}

/-- An `int`, if it can hold the number. -/
def int? (n : Nat) : Option Nat := if n < 2 ^ 31 then some n else none

/-- mirrors Transport_Cache_Manager_T.cpp:491-512 (`is_entry_purgable_i`) -/
def isEntryPurgable (canBePurged : T → Bool) (item : IntId T) : Bool :=
  (item.recycleState = .idleAndPurgable || item.recycleState = .purgableButNotIdle) &&
    canBePurged item.transport

abbrev CacheMap (D T : Type) := Core.Table (ExtId D) (IntId T)

def setBusy (e : ExtId D × IntId T) : ExtId D × IntId T :=
  (e.1, { e.2 with recycleState := .busy })

/-- The purging order of the transport at the place. -/
def Cache.orderAt (c : Cache D P) (i : Nat) : Nat :=
  match c.cacheMap[i]? with
  | some e => P.purgingOrder c.purging e.2.transport
  | none => 0

/-- mirrors Transport_Cache_Manager_T.cpp:710-749 (`fill_set_i`); no set:
the null pointer -/
def fillSet (S : SortSet) (c : Cache D P) : Option (List Nat) :=
  if 0 ≤ P.cacheMaximum ∧ P.cacheMaximum ≤ c.cacheMap.length then
    some (S.sort c.orderAt (List.range c.cacheMap.length))
  else none

/-- The loop of `purge` over the sorted set. -/
def purgeLoop (canBePurged : T → Bool) (amount : Nat) :
    List Nat → Nat → CacheMap D T → List T → CacheMap D T × List T
  | [], _, map, toBeClosed => (map, toBeClosed)
  | i :: sortedSet, count, map, toBeClosed =>
    if count < amount then
      match map[i]? with
      | none => (map, toBeClosed)
      | some e =>
        if isEntryPurgable canBePurged e.2 then
          purgeLoop canBePurged amount sortedSet (count + 1) (map.modify i setBusy)
            (toBeClosed ++ [e.2.transport])
        else purgeLoop canBePurged amount sortedSet count map toBeClosed
    else (map, toBeClosed)

/-- mirrors Transport_Cache_Manager_T.cpp:563-677 (`purge`): the entries
afterwards and the transports that are closed. `none`: a number is outside of
`int`, where the program has no defined result. -/
def purge (S : SortSet) (canBePurged : T → Bool) (percent : Nat) (c : Cache D P) :
    Option (CacheMap D T × List T) :=
  match int? c.cacheMap.length with
  | none => none
  | some sortedSize =>
    match fillSet S c with
    | none => some (c.cacheMap, [])
    | some sortedSet =>
      match int? (sortedSize * percent) with
      | none => none
      | some product =>
        let amount := product / 100
        some (purgeLoop canBePurged amount sortedSet 0 c.cacheMap [])

/-! ## The loop -/

variable {canBePurged : T → Bool}

def purgableAt (canBePurged : T → Bool) (map : CacheMap D T) (i : Nat) : Bool :=
  (map[i]?).any fun e => isEntryPurgable canBePurged e.2

def transportAt (map : CacheMap D T) (i : Nat) : Option T := (map[i]?).map fun e => e.2.transport

theorem getElem?_setBusy (map : CacheMap D T) (i j : Nat) :
    (map.modify i setBusy)[j]? = if i = j then (map[j]?).map setBusy else map[j]? := by
  rw [getElem?_modify]
  split <;> simp

theorem getElem?_setBusy_of_ne {map : CacheMap D T} {i j : Nat} (h : i ≠ j) :
    (map.modify i setBusy)[j]? = map[j]? := by
  rw [getElem?_setBusy, if_neg h]

/-- **The loop** closes the first purgable entries of the set and marks these
only. -/
theorem purgeLoop_eq (canBePurged : T → Bool) (amount count : Nat) {sortedSet : List Nat}
    {map : CacheMap D T} (toBeClosed : List T) (hnodup : sortedSet.Nodup) (hin : ∀ i ∈ sortedSet, i < map.length) :
    let chosen := (sortedSet.filter (purgableAt canBePurged map)).take (amount - count)
    let result := purgeLoop canBePurged amount sortedSet count map toBeClosed
    (∀ i, result.1[i]? = if i ∈ chosen then (map[i]?).map setBusy else map[i]?) ∧
      result.2 = toBeClosed ++ chosen.filterMap (transportAt map) := by
  induction sortedSet generalizing count map toBeClosed with
  | nil => simp [purgeLoop]
  | cons i sortedSet ih =>
    obtain ⟨hnot, hnodup⟩ := nodup_cons.mp hnodup
    have hi : i < map.length := hin i mem_cons_self
    have hrest : ∀ j ∈ sortedSet, j < map.length := by
      intro j hj
      exact hin j (mem_cons_of_mem i hj)
    have hentry : map[i]? = some map[i] := getElem?_eq_getElem hi
    intro chosen result
    by_cases hcount : count < amount
    · by_cases hpurgable : isEntryPurgable canBePurged map[i].2
      · -- the entry is chosen; the others look the same in the changed map
        have hsame : ∀ j ∈ sortedSet, (map.modify i setBusy)[j]? = map[j]? := by
          intro j hj
          exact getElem?_setBusy_of_ne (ne_of_mem_of_not_mem hj hnot).symm
        have hresult : result = purgeLoop canBePurged amount sortedSet (count + 1)
            (map.modify i setBusy) (toBeClosed ++ [map[i].2.transport]) := by
          simp only [result, purgeLoop, if_pos hcount, hentry, if_pos hpurgable]
        have hfilter : sortedSet.filter (purgableAt canBePurged (map.modify i setBusy)) =
            sortedSet.filter (purgableAt canBePurged map) := by
          refine filter_congr fun j hj => ?_
          rw [purgableAt, hsame j hj, purgableAt]
        have htake : amount - count = (amount - (count + 1)) + 1 := by omega
        have hat : purgableAt canBePurged map i := by simp [purgableAt, hentry, hpurgable]
        have hchosen : chosen = i ::
            (sortedSet.filter (purgableAt canBePurged map)).take (amount - (count + 1)) := by
          simp only [chosen, filter_cons, hat, if_true, htake, take_succ_cons]
        have hrestModified : ∀ j ∈ sortedSet, j < (map.modify i setBusy).length := by
          simpa using hrest
        rw [hresult, hchosen]
        obtain ⟨hmap, hclosed⟩ := ih (count + 1) (toBeClosed ++ [map[i].2.transport]) hnodup
          hrestModified
        rw [hfilter] at hmap hclosed
        constructor
        · intro j
          rw [hmap]
          by_cases hj : i = j
          · subst hj
            have hnotin : i ∉ (sortedSet.filter (purgableAt canBePurged map)).take
                (amount - (count + 1)) := fun h =>
              hnot (mem_of_mem_filter (mem_of_mem_take h))
            rw [if_neg hnotin, getElem?_setBusy, if_pos rfl, if_pos mem_cons_self]
          · rw [getElem?_setBusy_of_ne hj]
            simp only [mem_cons, Ne.symm hj, false_or]
        · rw [hclosed, filterMap_cons, transportAt, hentry, Option.map_some]
          simp only [append_assoc, singleton_append]
          congr 2
          refine filterMap_congr fun j hj => ?_
          rw [transportAt, hsame j (mem_of_mem_filter (mem_of_mem_take hj)), transportAt]
      · have hresult : result = purgeLoop canBePurged amount sortedSet count map toBeClosed := by
          simp only [result, purgeLoop, if_pos hcount, hentry, if_neg hpurgable]
        have hat : ¬purgableAt canBePurged map i := by simp [purgableAt, hentry, hpurgable]
        have hchosen : chosen =
            (sortedSet.filter (purgableAt canBePurged map)).take (amount - count) := by
          simp only [chosen, filter_cons_of_neg hat]
        rw [hresult, hchosen]
        exact ih count toBeClosed hnodup hrest
    · have hzero : amount - count = 0 := by omega
      have hresult : result = (map, toBeClosed) := by
        simp only [result, purgeLoop, if_neg hcount]
      have hchosen : chosen = [] := by simp [chosen, hzero]
      simp [hresult, hchosen]

/-! ## The call -/

def purgableCount (canBePurged : T → Bool) (c : Cache D P) : Nat :=
  ((List.range c.cacheMap.length).filter (purgableAt canBePurged c.cacheMap)).length

/-- The transports of so many purgable entries, those at the places `chosen`, are
closed, the lowest purging orders first, and no other entry is changed. -/
structure Closes (canBePurged : T → Bool) (c : Cache D P) (number : Nat)
    (result : CacheMap D T × List T) (chosen : List Nat) : Prop where
  nodup : chosen.Nodup
  length_eq : chosen.length = number
  purgable : ∀ i ∈ chosen, purgableAt canBePurged c.cacheMap i
  closed : chosen.map (transportAt c.cacheMap) = result.2.map some
  sorted : chosen.Pairwise fun i j => c.orderAt i ≤ c.orderAt j
  lowest : ∀ i ∈ chosen, ∀ j, purgableAt canBePurged c.cacheMap j → j ∉ chosen →
    c.orderAt i ≤ c.orderAt j
  unchanged : ∀ i, i ∉ chosen → result.1[i]? = c.cacheMap[i]?

/-- What the documentation of `purge` promises: the given part of the entries is
closed, one of them at least, or all that are purgable. -/
def PurgesOldest (S : SortSet) (canBePurged : T → Bool) (percent : Nat) (c : Cache D P) : Prop :=
  ∃ result chosen, purge S canBePurged percent c = some result ∧
    Closes canBePurged c
      (min (max 1 (c.cacheMap.length * percent / 100)) (purgableCount canBePurged c)) result chosen

theorem lt_of_purgableAt {map : CacheMap D T} {i : Nat} (h : purgableAt canBePurged map i) :
    i < map.length := by
  by_contra hge
  rw [purgableAt, getElem?_eq_none (Nat.le_of_not_lt hge)] at h
  cases h

theorem map_transportAt {map : CacheMap D T} {places : List Nat}
    (h : ∀ i ∈ places, i < map.length) :
    places.map (transportAt map) = (places.filterMap (transportAt map)).map some := by
  induction places with
  | nil => rfl
  | cons i places ih =>
    have hi : i < map.length := h i mem_cons_self
    have hentry : map[i]? = some map[i] := getElem?_eq_getElem hi
    have hrest := ih fun j hj => h j (mem_cons_of_mem i hj)
    rw [map_cons, hrest, filterMap_cons, transportAt, hentry]
    rfl

theorem take_le_of_not_mem {order : Nat → Nat} {places : List Nat} {n i j : Nat}
    (h : places.Pairwise fun i j => order i ≤ order j) (hi : i ∈ places.take n) (hj : j ∈ places)
    (hnot : j ∉ places.take n) : order i ≤ order j := by
  rw [← take_append_drop n places] at h hj
  have hdrop : j ∈ places.drop n := (mem_append.mp hj).resolve_left hnot
  exact (pairwise_append.mp h).2.2 i hi j hdrop

/-- **What `purge` does.** -/
theorem purge_closes (S : SortSet) (canBePurged : T → Bool) (c : Cache D P) {percent : Nat}
    (hmax : 0 ≤ P.cacheMaximum ∧ P.cacheMaximum ≤ c.cacheMap.length) (hpercent : 1 ≤ percent)
    (hint : c.cacheMap.length * percent < 2 ^ 31) :
    ∃ result chosen, purge S canBePurged percent c = some result ∧ Closes canBePurged c
        (min (c.cacheMap.length * percent / 100) (purgableCount canBePurged c)) result chosen := by
  have hsize : c.cacheMap.length < 2 ^ 31 := by nlinarith
  have hperm := S.perm c.orderAt (range c.cacheMap.length)
  have hsorted := S.sorted c.orderAt (range c.cacheMap.length)
  generalize hset : S.sort c.orderAt (range c.cacheMap.length) = set at hperm hsorted
  have hpurge : purge S canBePurged percent c = some (purgeLoop canBePurged
      (c.cacheMap.length * percent / 100) set 0 c.cacheMap []) := by
    simp only [purge, int?, if_pos hsize, fillSet, if_pos hmax, if_pos hint, hset]
  have hin : ∀ i ∈ set, i < c.cacheMap.length := by
    intro i hi
    exact mem_range.mp (hperm.mem_iff.mp hi)
  have hnodup : set.Nodup := hperm.nodup_iff.mpr nodup_range
  obtain ⟨hmap, hclosed⟩ := purgeLoop_eq canBePurged
    (c.cacheMap.length * percent / 100) 0 [] hnodup hin
  rw [Nat.sub_zero] at hmap hclosed
  have hlength : (set.filter (purgableAt canBePurged c.cacheMap)).length =
      purgableCount canBePurged c := (hperm.filter _).length_eq
  refine ⟨_, (set.filter (purgableAt canBePurged c.cacheMap)).take
    (c.cacheMap.length * percent / 100), hpurge, ?_⟩
  constructor
  · exact (hnodup.filter _).sublist (take_sublist _ _)
  · rw [length_take, hlength]
  · intro i hi
    exact (mem_filter.mp (mem_of_mem_take hi)).2
  · rw [hclosed, nil_append]
    refine map_transportAt fun i hi => ?_
    exact hin i (mem_of_mem_filter (mem_of_mem_take hi))
  · exact (hsorted.filter _).sublist (take_sublist _ _)
  · intro i hi j hj hnot
    have hmem : j ∈ set := hperm.mem_iff.mpr (mem_range.mpr (lt_of_purgableAt hj))
    exact take_le_of_not_mem (hsorted.filter _) hi (mem_filter.mpr ⟨hmem, hj⟩) hnot
  · intro i hi
    rw [hmap, if_neg hi]

/-- **Exactly when `purge` makes room.** -/
theorem purgesOldest_iff (S : SortSet) (canBePurged : T → Bool) (c : Cache D P) (percent : Nat)
    (hmax : 0 ≤ P.cacheMaximum ∧ P.cacheMaximum ≤ c.cacheMap.length)
    (hpercent : 1 ≤ percent ∧ percent ≤ 100) :
    PurgesOldest S canBePurged percent c ↔
      c.cacheMap.length * percent < 2 ^ 31 ∧
        (100 ≤ c.cacheMap.length * percent ∨ purgableCount canBePurged c = 0) := by
  constructor
  · rintro ⟨result, chosen, hresult, hcloses⟩
    have hint : c.cacheMap.length * percent < 2 ^ 31 := by
      by_contra hbig
      rw [purge, int?] at hresult
      split at hresult
      · cases hresult
      · next n hn =>
        split at hn
        · cases hn
          simp only [fillSet, if_pos hmax, int?, if_neg hbig] at hresult
          cases hresult
        · cases hn
    refine ⟨hint, ?_⟩
    by_contra hsmall
    -- the amount is 0, so nothing is closed
    obtain ⟨result', chosen', hresult', hcloses'⟩ :=
      purge_closes S canBePurged c hmax hpercent.1 hint
    rw [hresult] at hresult'
    cases hresult'
    have hlength := congrArg length hcloses.closed
    have hlength' := congrArg length hcloses'.closed
    rw [length_map, length_map, hcloses.length_eq] at hlength
    rw [length_map, length_map, hcloses'.length_eq] at hlength'
    omega
  · rintro ⟨hint, henough⟩
    obtain ⟨result, chosen, hresult, hcloses⟩ :=
      purge_closes S canBePurged c hmax hpercent.1 hint
    refine ⟨result, chosen, hresult, ?_⟩
    have hnumber : min (max 1 (c.cacheMap.length * percent / 100)) (purgableCount canBePurged c) =
        min (c.cacheMap.length * percent / 100) (purgableCount canBePurged c) := by omega
    rw [hnumber]
    exact hcloses

/-- One idle entry in a cache of at most one. -/
def fullCache : Cache Nat (lru (T := Nat) 1) :=
  { cacheMap :=
      [((7, 0), { transport := 1, recycleState := .idleAndPurgable, isConnected := true })]
    cacheMaximum := 1
    purging := (0, fun _ => 0) }

/-- Three idle entries of different ages, the oldest one in the middle. -/
def agedCache : Cache Nat (lru (T := Nat) 3) :=
  { cacheMap := [((7, 0), { transport := 1, recycleState := .idleAndPurgable, isConnected := true }),
      ((7, 1), { transport := 2, recycleState := .idleAndPurgable, isConnected := true }),
      ((8, 0), { transport := 3, recycleState := .idleAndPurgable, isConnected := true })]
    cacheMaximum := 3
    purging := (30, fun t => if t = 1 then 20 else if t = 2 then 10 else 30) }

theorem purgesOldest_iff_agedCache :
    PurgesOldest insertionSort (fun _ => true) 67 agedCache := by
  have hmax : 0 ≤ (lru (T := Nat) 3).cacheMaximum ∧
      (lru (T := Nat) 3).cacheMaximum ≤ agedCache.cacheMap.length := by decide
  refine (purgesOldest_iff insertionSort (fun _ => true) agedCache 67 hmax (by decide)).mpr ?_
  decide

/-- **The minimum of one is lost.** 20 percent of one entry are no entry. -/
theorem small_cache_keeps_all :
    (purge insertionSort (fun _ => true) 20 fullCache).map Prod.snd = some [] ∧
      ¬PurgesOldest insertionSort (fun _ => true) 20 fullCache := by
  have hnone : (purge insertionSort (fun _ => true) 20 fullCache).map Prod.snd = some [] := by
    decide
  refine ⟨hnone, ?_⟩
  rintro ⟨result, chosen, hresult, hcloses⟩
  rw [hresult, Option.map_some, Option.some.injEq] at hnone
  have hlength := congrArg length hcloses.closed
  rw [length_map, length_map, hcloses.length_eq, hnone] at hlength
  exact absurd hlength (by decide)

end Atcd.Orb.TransportCache
