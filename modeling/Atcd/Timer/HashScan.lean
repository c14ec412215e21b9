import Atcd.Timer.HashRuns
/-!
# Scans over the buckets of the hash timer queue

`find_new_earliest` takes the time zero for "no time yet", and the iterator
takes a bucket for exhausted only when asked for the item after the last.

Results:
* `findNewEarliest_least_iff`: the earliest bucket is found, unless the earliest
  time is zero and a later bucket follows.
* `iterate_yields`, `iterates_timers_iff`: a walk yields each timer, and a null
  item behind every bucket that is not empty.
-/
namespace Atcd.Timer

/-- `iter` is the place of the bucket's iterator among its items; `none` is null.
mirrors ACE/ace/Timer_Hash_T.h:60-110 -/
structure HashIterator where
  position : Nat
  iter : Option Nat
  deriving DecidableEq, Repr

end Atcd.Timer

namespace Atcd.Timer.TimerHash

open Atcd.Time

variable {B τ : Type} {V : TimerBucket B τ} {q : TimerHash B τ}

/-! ## The earliest bucket -/

section

variable (V) (q)

/-- Bucket `i` has timers. -/
def Filled (i : Nat) : Prop := V.isEmpty (q.table i) = false

/-- No bucket from `lo` up to `hi` has timers. -/
def Clear (lo hi : Nat) : Prop := ∀ i, lo ≤ i → i < hi → V.isEmpty (q.table i) = true

def Least (k e : Nat) : Prop :=
  ∀ i < k, Filled V q i → V.earliestTime (q.table e) ≤ V.earliestTime (q.table i)

/-- The last of the earliest times of the buckets is zero, and the buckets
behind it are later. -/
def ZeroPassed (k : Nat) : Prop :=
  (∀ i < k, Filled V q i → .zero ≤ V.earliestTime (q.table i)) ∧
  (∃ i < k, Filled V q i ∧ V.earliestTime (q.table i) = .zero) ∧
  ∃ i < k, Filled V q i ∧ .zero < V.earliestTime (q.table i) ∧ Clear V q (i + 1) k

/-- After the scan the earliest position has timers if any bucket has, and no
bucket has an earlier time. -/
def FindsEarliest : Prop :=
  (q.findNewEarliest V).earliestPosition < q.tableSize ∧
  ((∃ i < q.tableSize, Filled V q i) → Filled V q (q.findNewEarliest V).earliestPosition) ∧
  ∀ i < q.tableSize, Filled V q i → (q.findNewEarliest V).earliestTime V ≤ V.earliestTime (q.table i)

/-- What the scan knows after `k` buckets. -/
def Scanned (k e : Nat) : Prop :=
  Clear V q 0 k ∨ Filled V q e ∧
    (Least V q k e ∧ (V.earliestTime (q.table e) = .zero → e < k ∧ Clear V q (e + 1) k) ∨
      ZeroPassed V q k ∧ .zero < V.earliestTime (q.table e))

end

theorem Clear.succ {lo k : Nat} (h : Clear V q lo k) (he : ¬Filled V q k) : Clear V q lo (k + 1) := by
  intro i hlo hi
  rcases Nat.lt_succ_iff_lt_or_eq.mp hi with hi | rfl
  · exact h i hlo hi
  · simpa [Filled] using he

/-- An empty bucket changes nothing. -/
theorem Scanned.skip {k e : Nat} (h : Scanned V q k e) (he : ¬Filled V q k) :
    Scanned V q (k + 1) e := by
  have hcases : ∀ i < k + 1, Filled V q i → i < k := fun i hi hf =>
    (Nat.lt_succ_iff_lt_or_eq.mp hi).resolve_right fun h => he (h ▸ hf)
  rcases h with hc | ⟨hf, ⟨hl, hz⟩ | ⟨⟨hpos, ⟨z, hzk, hzero⟩, l, hlk, hlf, hlt, hcl⟩, hlate⟩⟩
  · exact .inl (hc.succ he)
  · exact .inr ⟨hf, .inl ⟨fun i hi hfi => hl i (hcases i hi hfi) hfi,
      fun h0 => ⟨Nat.lt_succ_of_lt (hz h0).1, (hz h0).2.succ he⟩⟩⟩
  · exact .inr ⟨hf, .inr ⟨⟨fun i hi hfi => hpos i (hcases i hi hfi) hfi,
      ⟨z, Nat.lt_succ_of_lt hzk, hzero⟩, l, Nat.lt_succ_of_lt hlk, hlf, hlt, hcl.succ he⟩, hlate⟩⟩

/-- A bucket with timers: it is taken, or it is later. -/
theorem Scanned.visit {k e : Nat} (h : Scanned V q k e) (hk : Filled V q k) :
    Scanned V q (k + 1) (if V.isEmpty (q.table e) = true ∨ V.earliestTime (q.table e) = .zero ∨
      V.earliestTime (q.table k) ≤ V.earliestTime (q.table e) then k else e) := by
  have hclear : Clear V q (k + 1) (k + 1) := fun i hlo hi => by omega
  have hbound : ∀ (p : TimeValue), p ≤ V.earliestTime (q.table k) →
      (∀ i < k, Filled V q i → p ≤ V.earliestTime (q.table i)) →
      ∀ i < k + 1, Filled V q i → p ≤ V.earliestTime (q.table i) := by
    intro p hpk hp i hi hfi
    rcases Nat.lt_succ_iff_lt_or_eq.mp hi with hi | rfl
    · exact hp i hi hfi
    · exact hpk
  have htaken (hl : ∀ i < k, Filled V q i →
      V.earliestTime (q.table k) ≤ V.earliestTime (q.table i)) : Scanned V q (k + 1) k :=
    .inr ⟨hk, .inl ⟨hbound _ le_rfl hl, fun _ => ⟨Nat.lt_succ_self k, hclear⟩⟩⟩
  rcases h with hc | ⟨hf, ⟨hl, hz⟩ | ⟨⟨hpos, ⟨z, hzk, hzf, hzero⟩, hlast⟩, hlate⟩⟩
  · have hnone : ∀ i < k, ¬Filled V q i := fun i hi hfi => by
      simp [Filled, hc i (Nat.zero_le i) hi] at hfi
    split
    · exact htaken fun i hi hfi => absurd hfi (hnone i hi)
    · next hcond =>
      push Not at hcond
      exact .inr ⟨by simpa [Filled] using hcond.1, .inl ⟨hbound _ hcond.2.2.le
        fun i hi hfi => absurd hfi (hnone i hi), fun h0 => absurd h0 hcond.2.1⟩⟩
  · split
    · next hcond =>
      by_cases hle : V.earliestTime (q.table k) ≤ V.earliestTime (q.table e)
      · exact htaken fun i hi hfi => hle.trans (hl i hi hfi)
      · -- the time zero is given up for a later one
        have h0 : V.earliestTime (q.table e) = .zero := by
          rcases hcond with he | h0 | hle'
          · simp [Filled, he] at hf
          · exact h0
          · exact absurd hle' hle
        rw [not_le, h0] at hle
        refine .inr ⟨hk, .inr ⟨⟨hbound _ hle.le fun i hi hfi => h0 ▸ hl i hi hfi, ?_, ?_⟩, hle⟩⟩
        · exact ⟨e, Nat.lt_succ_of_lt (hz h0).1, hf, h0⟩
        · exact ⟨k, Nat.lt_succ_self k, hk, hle, hclear⟩
    · next hcond =>
      push Not at hcond
      exact .inr ⟨hf, .inl ⟨hbound _ hcond.2.2.le hl, fun h0 => absurd h0 hcond.2.1⟩⟩
  · split
    · next hcond =>
      rcases le_or_gt (V.earliestTime (q.table k)) .zero with hle | hgt
      · exact htaken fun i hi hfi => hle.trans (hpos i hi hfi)
      · exact .inr ⟨hk, .inr ⟨⟨hbound _ hgt.le hpos, ⟨z, Nat.lt_succ_of_lt hzk, hzf, hzero⟩,
          k, Nat.lt_succ_self k, hk, hgt, hclear⟩, hgt⟩⟩
    · next hcond =>
      push Not at hcond
      have hgt := hlate.trans hcond.2.2
      exact .inr ⟨hf, .inr ⟨⟨hbound _ hgt.le hpos, ⟨z, Nat.lt_succ_of_lt hzk, hzf, hzero⟩,
        k, Nat.lt_succ_self k, hk, hgt, hclear⟩, hlate⟩⟩

theorem findNewEarliestLoop_scanned (n k : Nat) {e : Nat} (h : Scanned V q k e) :
    Scanned V q (k + n) (q.findNewEarliestLoop V n k e) := by
  induction n generalizing k e with
  | zero => exact h
  | succ n ih =>
    rw [Nat.add_succ, ← Nat.succ_add]
    unfold findNewEarliestLoop
    by_cases hk : Filled V q k
    · have hv := h.visit hk
      simp only [TimeValue.le_iff, show V.isEmpty (q.table k) = false from hk, true_and]
      split
      · next hcond => exact ih (k + 1) (by rwa [if_pos hcond] at hv)
      · next hcond => exact ih (k + 1) (by rwa [if_neg hcond] at hv)
    · rw [if_neg fun hcond => hk hcond.1]
      exact ih (k + 1) (h.skip hk)

/-- **When the earliest bucket is found**: if and only if it is not so that the
earliest of all times is zero and the last bucket with timers is later. -/
theorem findNewEarliest_least_iff (V : TimerBucket B τ) (q : TimerHash B τ)
    (hpos : q.earliestPosition < q.tableSize) :
    FindsEarliest V q ↔ ¬ZeroPassed V q q.tableSize := by
  have hlt : q.findNewEarliestLoop V q.tableSize 0 q.earliestPosition < q.tableSize :=
    findNewEarliestLoop_lt q.tableSize 0 (by omega) hpos
  have hscan := findNewEarliestLoop_scanned q.tableSize 0
    (show Scanned V q 0 q.earliestPosition from .inl fun i _ hi => absurd hi (Nat.not_lt_zero i))
  rw [Nat.zero_add] at hscan
  change Scanned V q q.tableSize (q.findNewEarliest V).earliestPosition at hscan
  constructor
  · intro ⟨_, _, hleast⟩ ⟨hnonneg, ⟨z, hzk, hzf, hzero⟩, l, hlk, hlf, hll, hcl⟩
    rcases hscan with hc | ⟨hf, ⟨_, hz⟩ | ⟨_, hlate⟩⟩
    · simp [Filled, hc z (Nat.zero_le z) hzk] at hzf
    · have h0 := le_antisymm (hzero ▸ hleast z hzk hzf) (hnonneg _ hlt hf)
      -- the bucket at zero would be the last one with timers
      rcases lt_trichotomy l (q.findNewEarliest V).earliestPosition with hle | rfl | hge
      · simp [Filled, hcl _ hle hlt] at hf
      · exact absurd h0 hll.ne'
      · simp [Filled, (hz h0).2 _ hge hlk] at hlf
    · exact absurd (hzero ▸ hleast z hzk hzf) (not_le.mpr hlate)
  · intro hnot
    refine ⟨hlt, ?_⟩
    rcases hscan with hc | ⟨hf, ⟨hl, _⟩ | ⟨hzp, _⟩⟩
    · refine ⟨fun ⟨i, hi, hfi⟩ => ?_, fun i hi hfi => ?_⟩ <;> simp [Filled, hc i (Nat.zero_le i) hi] at hfi
    · exact ⟨fun _ => hf, hl⟩
    · exact absurd hzp hnot

/-- Two list buckets, with timers at the times `a` and `b` seconds. -/
def twoTimers (a b : Int) : TimerHash (TimerList Nat) Nat :=
  (((init 2 TimerList.init ⟨0, 0, 0, 0⟩).scheduleI (TimerList.bucket Nat) 0 5 ⟨a, 0⟩ .zero).2.scheduleI
    (TimerList.bucket Nat) 1 6 ⟨b, 0⟩ .zero).2

theorem findNewEarliest_least_iff_four :
    FindsEarliest (TimerList.bucket Nat) (twoTimers 4 7) ↔
      ¬ZeroPassed (TimerList.bucket Nat) (twoTimers 4 7) 2 :=
  findNewEarliest_least_iff (TimerList.bucket Nat) (twoTimers 4 7) (by decide)

/-- **The zero time is passed over**: with timers at 0 and 1 seconds the second
bucket is taken. -/
theorem zero_time_passed : ¬FindsEarliest (TimerList.bucket Nat) (twoTimers 0 1) := fun h =>
  absurd (h.2.2 0 (by decide) rfl) (not_le.mpr ((TimeValue.lt_iff _ _).mp rfl))

end Atcd.Timer.TimerHash

/-! ## The iterator -/

namespace Atcd.Timer.HashIterator

open TimerHash

variable {B τ : Type} (V : TimerBucket B τ) (q : TimerHash B τ)

/-- The first bucket with timers among the `n` from `position` on; its iterator
is at the first of them.
mirrors ACE/ace/Timer_Hash_T.cpp:196-209,222-234 -/
def seek : Nat → Nat → HashIterator
  | 0, position => ⟨position, none⟩
  | n + 1, position =>
    if V.isEmpty (q.table position) = false then ⟨position, some 0⟩ else seek n (position + 1)

/-- mirrors Timer_Hash_T.cpp:191-210 -/
def first : HashIterator := seek V q q.tableSize 0

def isdone (it : HashIterator) : Bool := it.iter.isNone

/-- mirrors Timer_Hash_T.cpp:215-240 -/
def next (it : HashIterator) : HashIterator :=
  match it.iter with
  | none => it
  | some k =>
    if k = (V.items (q.table it.position)).length then
      seek V q (q.tableSize - (it.position + 1)) (it.position + 1)
    else { it with iter := some (k + 1) }

/-- `none` is a null item.
mirrors Timer_Hash_T.cpp:254-263 -/
def item (it : HashIterator) : Option (TimerNode τ) :=
  match it.iter with
  | none => none
  | some k => (V.items (q.table it.position))[k]?

/-- The items of `for (; !isdone; next)`, for at most `fuel` tests. -/
def items : Nat → HashIterator → Option (List (Option (TimerNode τ)))
  | 0, _ => none
  | fuel + 1, it =>
    if it.isdone = true then some []
    else (items fuel (it.next V q)).map (it.item V q :: ·)

/-- What a walk yields for one bucket. -/
def yields (i : Nat) : List (Option (TimerNode τ)) :=
  if V.items (q.table i) = [] then [] else (V.items (q.table i)).map some ++ [none]

/-- A walk ends, and yields every timer of the table once and no null item. -/
def YieldsTimers : Prop :=
  ∃ fuel ys, items V q fuel (first V q) = some ys ∧ ys.Perm ((timers V q).map some)

variable {V q}

theorem items_unique {f g : Nat} {it : HashIterator} {a b : List (Option (TimerNode τ))}
    (ha : items V q f it = some a) (hb : items V q g it = some b) : a = b := by
  induction f generalizing g it a b with
  | zero => cases ha
  | succ f ih =>
    cases g with
    | zero => cases hb
    | succ g =>
      unfold items at ha hb
      split at ha
      · next hd =>
        rw [if_pos hd] at hb
        cases ha
        cases hb
        rfl
      · next hd =>
        rw [if_neg hd] at hb
        obtain ⟨a', ha', rfl⟩ := Option.map_eq_some_iff.mp ha
        obtain ⟨b', hb', rfl⟩ := Option.map_eq_some_iff.mp hb
        rw [ih ha' hb']

/-- From item `k` of a bucket on: its other items, and a null item behind the last. -/
theorem items_bucket {i k fuel : Nat} {ys : List (Option (TimerNode τ))}
    (hk : k ≤ (V.items (q.table i)).length)
    (hrest : items V q fuel (seek V q (q.tableSize - (i + 1)) (i + 1)) = some ys) :
    ∃ fuel, items V q fuel ⟨i, some k⟩ =
      some (((V.items (q.table i)).drop k).map some ++ none :: ys) := by
  induction hn : (V.items (q.table i)).length - k generalizing k with
  | zero =>
    have hlen : k = (V.items (q.table i)).length := by omega
    refine ⟨fuel + 1, ?_⟩
    simp [items, isdone, next, item, ← hlen, hrest]
  | succ n ih =>
    have hlt : k < (V.items (q.table i)).length := by omega
    obtain ⟨fuel', hf⟩ := ih (k := k + 1) (by omega) (by omega)
    refine ⟨fuel' + 1, ?_⟩
    rw [List.drop_eq_getElem_cons hlt, List.map_cons, List.cons_append]
    simp [items, isdone, next, item, hlt.ne, hf, List.getElem?_eq_getElem hlt]

theorem items_seek
    (hempty : ∀ i < q.tableSize, V.isEmpty (q.table i) = true ↔ V.items (q.table i) = [])
    (n : Nat) {i : Nat} (hi : i + n = q.tableSize) :
    ∃ fuel, items V q fuel (seek V q n i) = some ((List.range' i n).flatMap (yields V q)) := by
  induction n generalizing i with
  | zero => exact ⟨1, rfl⟩
  | succ n ih =>
    obtain ⟨fuel, hf⟩ := ih (i := i + 1) (by omega)
    unfold seek
    rw [List.range'_succ, List.flatMap_cons, yields]
    split
    · next he =>
      have hne : V.items (q.table i) ≠ [] := fun h => by simp [(hempty i (by omega)).mpr h] at he
      obtain ⟨fuel', hf'⟩ := items_bucket (k := 0) (Nat.zero_le _)
        (show items V q fuel (seek V q (q.tableSize - (i + 1)) (i + 1)) = some _ by
          rw [show q.tableSize - (i + 1) = n by omega]; exact hf)
      exact ⟨fuel', by rw [hf', if_neg hne]; simp⟩
    · next he =>
      rw [if_pos ((hempty i (by omega)).mp (by simpa using he))]
      exact ⟨fuel, hf⟩

/-- A walk over the table ends, with a null item behind each bucket that has timers. -/
theorem iterate_yields
    (hempty : ∀ i < q.tableSize, V.isEmpty (q.table i) = true ↔ V.items (q.table i) = []) :
    ∃ fuel, items V q fuel (first V q) = some ((List.range q.tableSize).flatMap (yields V q)) := by
  rw [List.range_eq_range']
  exact items_seek hempty q.tableSize (Nat.zero_add _)

/-- **When a walk yields the timers**: each once, and nothing else, if and only
if there are none. -/
theorem iterates_timers_iff (V : TimerBucket B τ) (q : TimerHash B τ)
    (hempty : ∀ i < q.tableSize, V.isEmpty (q.table i) = true ↔ V.items (q.table i) = []) :
    YieldsTimers V q ↔ timers V q = [] := by
  obtain ⟨fuel, hf⟩ := iterate_yields hempty
  have hnil : timers V q = [] ↔ ∀ i ∈ List.range q.tableSize, V.items (q.table i) = [] :=
    List.flatMap_eq_nil_iff
  constructor
  · intro ⟨fuel', ys, hys, hperm⟩
    rw [items_unique hys hf] at hperm
    rw [hnil]
    intro i hi
    by_contra hne
    have hmem : none ∈ (List.range q.tableSize).flatMap (yields V q) :=
      List.mem_flatMap.mpr ⟨i, hi, by rw [yields, if_neg hne]; simp⟩
    simpa using hperm.mem_iff.mp hmem
  · intro h
    refine ⟨fuel, _, hf, ?_⟩
    rw [h, (List.flatMap_eq_nil_iff (f := yields V q)).mpr fun i hi => if_pos (hnil.mp h i hi)]
    rfl

theorem iterates_timers_iff_two :
    YieldsTimers (TimerList.bucket Nat) (twoTimers 4 7) ↔
      timers (TimerList.bucket Nat) (twoTimers 4 7) = [] :=
  iterates_timers_iff (TimerList.bucket Nat) (twoTimers 4 7) fun _ _ => List.isEmpty_iff

/-- **Null items**: behind the only timer of either bucket. -/
theorem null_items :
    ¬YieldsTimers (TimerList.bucket Nat) (twoTimers 4 7) ∧
      (items (TimerList.bucket Nat) (twoTimers 4 7) 5 (first (TimerList.bucket Nat) (twoTimers 4 7))).map
        (·.map fun x => x.map (·.type)) = some [some 0, none, some 1, none] := by
  refine ⟨fun ⟨fuel, ys, hys, hperm⟩ => ?_, by decide⟩
  obtain ⟨fuel', hf⟩ := iterate_yields (V := TimerList.bucket Nat) (q := twoTimers 4 7)
    fun _ _ => List.isEmpty_iff
  rw [items_unique hys hf] at hperm
  exact absurd hperm.length_eq (by decide)

end Atcd.Timer.HashIterator
