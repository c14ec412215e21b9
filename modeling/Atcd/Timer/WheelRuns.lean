import Atcd.Timer.WheelRecalc
import Atcd.Core.Run
/-!
# Runs of the timing wheel

Results:
* `power2bits_mem`: the bit counts that `open_i` computes.
* `wheel_invariant`: after every run each spoke is sorted and holds the timers
  that hash to it, `timer_count_` counts them, and `get_first` is a least timer.
-/
namespace Atcd.Timer

open Atcd.Core Atcd.Time List Function Option Nat

variable {τ : Type}

namespace TimerWheel

variable {w w' : TimerWheel τ}

theorem countBits_le (fuel : Nat) {tmp k : Nat} (hk : 1 ≤ k) (h : tmp < 2 ^ k) :
    countBits fuel tmp ≤ k := by
  induction fuel generalizing tmp k with
  | zero => exact zero_le _
  | succ fuel ih =>
    unfold countBits
    simp only
    split
    · next hne =>
      rw [shiftRight_eq_div_pow, Nat.pow_one] at *
      have hk2 : 2 ≤ k := by
        by_contra hlt
        rw [show k = 1 by omega] at h
        omega
      obtain ⟨j, rfl⟩ : ∃ j, k = j + 1 := ⟨k - 1, by omega⟩
      have := ih (show 1 ≤ j by omega) (show tmp / 2 < 2 ^ j by omega)
      omega
    · exact hk

theorem power2bits_mem (n : Nat) {minBits maxBits : Nat} (h1 : 1 ≤ minBits) (h : minBits ≤ maxBits) :
    minBits ≤ power2bits n minBits maxBits ∧ power2bits n minBits maxBits ≤ maxBits := by
  unfold power2bits
  simp only
  split
  · exact ⟨h, le_rfl⟩
  · next hn =>
    have hpos := Nat.two_pow_pos maxBits
    have hle := countBits_le 32 (show 1 ≤ maxBits by omega) (show n < 2 ^ maxBits by omega)
    split
    · exact ⟨le_rfl, h⟩
    · have hnearest : ∀ (c : Prop) [Decidable c], minBits ≤ (if c then countBits 32 n - 1 else countBits 32 n) ∧
          (if c then countBits 32 n - 1 else countBits 32 n) ≤ maxBits := fun c _ => by
        split <;> omega
      exact hnearest _

/-! ## Counting -/

theorem sum_map_range_update (f : Nat → Nat) {i n : Nat} (hi : i < n) (v : Nat) :
    ((range n).map (update f i v)).sum + f i = ((range n).map f).sum + v := by
  induction n with
  | zero => omega
  | succ n ih =>
    simp only [range_succ, map_append, map_singleton, List.sum_append_nat, sum_singleton]
    by_cases hin : i = n
    · subst hin
      have hsame : (range i).map (update f i v) = (range i).map f :=
        map_congr_left fun j hj => update_of_ne (mem_range.mp hj).ne ..
      rw [hsame, update_self]
      omega
    · have := ih (by omega)
      rw [update_of_ne (Ne.symm hin)]
      omega

def total (w : TimerWheel τ) : Nat := ((List.range w.spokeCount).map fun i => (w.timersOf i).length).sum

theorem timersOf_setSpoke (i j : Nat) (s : Spoke τ) :
    (w.setSpoke i s).timersOf j = if j = i then s.timers else w.timersOf j := by
  unfold setSpoke timersOf
  by_cases h : j = i
  · simp [h]
  · simp [h]

theorem total_setSpoke {i : Nat} (hi : i < w.spokeCount) (s : Spoke τ) :
    (w.setSpoke i s).total + (w.timersOf i).length = w.total + s.timers.length := by
  have h := sum_map_range_update (fun j => (w.timersOf j).length) hi s.timers.length
  have hf : (fun j => ((w.setSpoke i s).timersOf j).length) =
      update (fun j => (w.timersOf j).length) i s.timers.length := by
    funext j
    rw [timersOf_setSpoke]
    by_cases hj : j = i
    · simp [hj]
    · simp [hj]
  unfold total
  rw [← h, ← hf]
  rfl

theorem total_eq_zero (h : w.total = 0) {i : Nat} (hi : i < w.spokeCount) : w.timersOf i = [] := by
  unfold total at h
  rw [List.sum_eq_zero_iff_forall_eq_nat] at h
  exact length_eq_zero_iff.mp (h _ (mem_map_of_mem (mem_range.mpr hi)))

theorem exists_timer (h : w.total ≠ 0) : ∃ i < w.spokeCount, w.timersOf i ≠ [] := by
  by_contra hne
  push Not at hne
  refine h (List.sum_eq_zero_iff_forall_eq_nat.mpr fun n hn => ?_)
  obtain ⟨i, hi, rfl⟩ := List.mem_map.mp hn
  rw [hne i (mem_range.mp hi)]
  rfl

/-! ## The invariant -/

structure Inv (longBits : Nat) (w : TimerWheel τ) : Prop where
  long : w.longBits = longBits
  placed : Placed w
  count : w.timerCount = w.total
  earliest_lt : w.earliestSpoke < w.spokeCount
  earliest : w.timerCount ≠ 0 → HeadLeast w w.earliestSpoke

variable {longBits : Nat}

theorem openI_inv (longBits spokes res : Nat) : Inv longBits (openI longBits spokes res : TimerWheel τ) := by
  have hbits : 1 ≤ (openI longBits spokes res : TimerWheel τ).spokeBits := by
    have := (power2bits_mem spokes (by decide : 1 ≤ 3) (by decide : 3 ≤ 12)).1
    change 1 ≤ power2bits spokes 3 12
    omega
  refine ⟨rfl, ⟨hbits, fun i _ => Pairwise.nil, fun i _ x hx => ?_, fun i _ x hx => ?_⟩, ?_, ?_,
    fun h => absurd rfl h⟩
  · cases hx
  · cases hx
  · unfold total
    refine (List.sum_eq_zero_iff_forall_eq_nat.mpr fun n hn => ?_).symm
    obtain ⟨i, _, rfl⟩ := List.mem_map.mp hn
    rfl
  · rw [spokeCount_eq]
    exact Nat.two_pow_pos _

/-- A timer below all others puts a least one at the head of its spoke. -/
theorem Placed.headLeast (h : Placed w) {s : Nat} (hs : s < w.spokeCount) {m : TimerNode τ}
    (hm : m ∈ w.timersOf s) (hmin : ∀ i < w.spokeCount, ∀ y ∈ w.timersOf i, m.timerValue ≤ y.timerValue) :
    HeadLeast w s := by
  obtain ⟨x, rest, hx⟩ := exists_cons_of_ne_nil (ne_nil_of_mem hm)
  have hsorted := h.sorted s hs
  rw [hx] at hsorted hm
  exact ⟨hs, x, rest, hx, fun i hi y hy => (hsorted.head_le m hm).trans (hmin i hi y hy)⟩

theorem Inv.getFirst (h : Inv longBits w) (h0 : w.timerCount ≠ 0) :
    ∃ x rest, w.timersOf w.earliestSpoke = x :: rest ∧ w.getFirst = some x ∧
      ∀ i < w.spokeCount, ∀ y ∈ w.timersOf i, x.timerValue ≤ y.timerValue := by
  obtain ⟨_, x, rest, hx, hmin⟩ := h.earliest h0
  refine ⟨x, rest, hx, ?_, hmin⟩
  change (w.timersOf w.earliestSpoke).head? = _
  rw [hx]
  rfl

/-! ## Recomputing the earliest spoke -/

theorem Behind.recalc {last : TimeValue} (h : Behind w last) (hlong : w.longBits = longBits)
    (hcount : w.timerCount = w.total) : Inv longBits (w.recalcEarliest last) := by
  have hlt : w.earliestSpoke < w.spokeCount := by
    rw [h.spoke]
    exact calculateSpoke_lt w last
  unfold recalcEarliest
  split
  · next he =>
    exact ⟨hlong, h.placed, hcount, hlt, fun hne => absurd (of_decide_eq_true he) hne⟩
  · next he =>
    have h0 : w.total ≠ 0 := by
      rw [← hcount]
      exact fun e => he (decide_eq_true e)
    have hspec := recalcLoop_spec h (exists_timer h0) w.spokeCount (k := 0) (Nat.zero_add _) .zero 0
      (fun j hj => absurd hj (not_lt_zero j))
      (.inl ⟨rfl, fun j hj => absurd hj (not_lt_zero j)⟩)
    rw [nth_zero hlt] at hspec
    exact ⟨hlong, ⟨h.placed.bits, h.placed.sorted, h.placed.placed, h.placed.times⟩, hcount, hspec.1,
      fun _ => hspec⟩

/-! ## Inserting a timer -/

/-- `schedule_i` puts the timer into the list of its spoke, which becomes the
earliest one if the timer precedes the earliest time. -/
theorem Placed.scheduleNode_spec (h : Placed w) {n : TimerNode τ} {s : Nat} (hs : s < w.spokeCount) :
    ∃ new es, w.scheduleNode n s n.timerValue =
        { w with earliestSpoke := es, timerCount := w.timerCount + 1 }.setSpoke s
          { w.spokes s with timers := new } ∧
      new.Perm (n :: w.timersOf s) ∧ SortedBy (·.timerValue) new ∧
      (es = s ∧ (w.timerCount = 0 ∨ n.timerValue < w.earliestTime) ∨
        es = w.earliestSpoke ∧ w.timerCount ≠ 0 ∧ w.earliestTime ≤ n.timerValue) := by
  have hgt : (fun p : TimerNode τ => p.timerValue.gt n.timerValue) =
      fun p => decide (n.timerValue < p.timerValue) := by
    funext p
    rw [Bool.eq_iff_iff, TimeValue.gt_iff, decide_eq_true_eq]
  have hlist : ∀ v : TimerWheel τ, v.spokes = w.spokes → ∃ new, new.Perm (n :: w.timersOf s) ∧
      SortedBy (·.timerValue) new ∧
      (if (v.spokes s).timers.isEmpty = true then
          { v with timerCount := v.timerCount + 1 }.setSpoke s { v.spokes s with timers := [n] }
        else { v with timerCount := v.timerCount + 1 }.setSpoke s { v.spokes s with
          timers := tailInsert (fun p => p.timerValue.gt n.timerValue) n (v.spokes s).timers }) =
        { v with timerCount := v.timerCount + 1 }.setSpoke s { w.spokes s with timers := new } := by
    intro v hv
    rw [hv]
    split
    · next he =>
      refine ⟨[n], ?_, pairwise_singleton .., rfl⟩
      unfold timersOf
      rw [isEmpty_iff.mp he]
    · refine ⟨_, tailInsert_perm, ?_, rfl⟩
      rw [hgt]
      exact tailInsert_sorted (h.sorted s hs)
  unfold scheduleNode
  simp only [isEmpty, decide_eq_true_eq, TimeValue.lt_iff]
  by_cases hc : w.timerCount = 0 ∨ n.timerValue < w.earliestTime
  · rw [if_pos hc]
    obtain ⟨new, hp, hsorted, he⟩ := hlist { w with earliestSpoke := s } rfl
    exact ⟨new, s, he, hp, hsorted, .inl ⟨rfl, hc⟩⟩
  · rw [if_neg hc]
    rw [not_or, not_lt] at hc
    obtain ⟨new, hp, hsorted, he⟩ := hlist w rfl
    exact ⟨new, w.earliestSpoke, he, hp, hsorted, .inr ⟨rfl, hc⟩⟩

theorem Inv.scheduleNode (h : Inv longBits w) {n : TimerNode τ}
    (hn : n.timerValue.InMsec w.longBits) :
    Inv longBits (w.scheduleNode n (w.calculateSpoke n.timerValue) n.timerValue) := by
  have hslt := calculateSpoke_lt w n.timerValue
  generalize hspoke : w.calculateSpoke n.timerValue = s at *
  obtain ⟨new, es, heq, hperm, hsorted, hes⟩ := h.placed.scheduleNode_spec hslt (n := n)
  rw [heq]
  generalize hv : { w with earliestSpoke := es, timerCount := w.timerCount + 1 }.setSpoke s
    { w.spokes s with timers := new } = v
  have htimers : ∀ j, v.timersOf j = if j = s then new else w.timersOf j := fun j => by
    rw [← hv, timersOf_setSpoke]
    rfl
  have hmem : ∀ {j : Nat} {x : TimerNode τ}, x ∈ v.timersOf j → (x = n ∧ j = s) ∨ x ∈ w.timersOf j := by
    intro j x hx
    rw [htimers] at hx
    split at hx
    · next hj =>
      rw [hj]
      rcases mem_cons.mp (hperm.mem_iff.mp hx) with rfl | hx
      · exact .inl ⟨rfl, rfl⟩
      · exact .inr hx
    · exact .inr hx
  have hn_mem : n ∈ v.timersOf s := by
    rw [htimers, if_pos rfl]
    exact hperm.mem_iff.mpr mem_cons_self
  have hcount_eq : v.spokeCount = w.spokeCount := by rw [← hv]; rfl
  have hcalc : v.calculateSpoke = w.calculateSpoke := by rw [← hv]; rfl
  have hplaced : Placed v := by
    refine ⟨by rw [← hv]; exact h.placed.bits, fun i hi => ?_, fun i hi x hx => ?_, fun i hi x hx => ?_⟩
    · rw [htimers]
      split
      · exact hsorted
      · exact h.placed.sorted i (hcount_eq ▸ hi)
    · rw [hcalc]
      rcases hmem hx with ⟨rfl, rfl⟩ | hx
      · exact hspoke
      · exact h.placed.placed i (hcount_eq ▸ hi) x hx
    · have hlong : v.longBits = w.longBits := by rw [← hv]; rfl
      rw [hlong]
      rcases hmem hx with ⟨rfl, rfl⟩ | hx
      · exact hn
      · exact h.placed.times i (hcount_eq ▸ hi) x hx
  have hes_eq : v.earliestSpoke = es := by rw [← hv]; rfl
  have hes_lt : es < w.spokeCount := by
    rcases hes with ⟨rfl, _⟩ | ⟨rfl, _⟩
    · exact hslt
    · exact h.earliest_lt
  refine ⟨by rw [← hv]; exact h.long, hplaced, ?_, by rw [hes_eq, hcount_eq]; exact hes_lt, fun _ => ?_⟩
  · have hsum := total_setSpoke (w := { w with earliestSpoke := es, timerCount := w.timerCount + 1 })
      hslt { w.spokes s with timers := new }
    rw [hv] at hsum
    have hlen := hperm.length_eq
    rw [length_cons] at hlen
    have hvc : v.timerCount = w.timerCount + 1 := by rw [← hv]; rfl
    have hwt : total { w with earliestSpoke := es, timerCount := w.timerCount + 1 } = w.total := rfl
    have hwl : timersOf { w with earliestSpoke := es, timerCount := w.timerCount + 1 } s =
      w.timersOf s := rfl
    rw [hwt, hwl] at hsum
    have := h.count
    simp only at hsum
    omega
  · rw [hes_eq]
    rcases hes with ⟨rfl, hc⟩ | ⟨rfl, h0, hge⟩
    · -- the new timer precedes all others
      refine hplaced.headLeast (hcount_eq ▸ hslt) hn_mem fun i hi y hy => ?_
      rcases hmem hy with ⟨rfl, _⟩ | hy
      · exact le_rfl
      · rw [hcount_eq] at hi
        by_cases h0 : w.timerCount = 0
        · rw [total_eq_zero (h.count ▸ h0) hi] at hy
          cases hy
        · obtain ⟨x, rest, _, hfirst, hmin⟩ := h.getFirst h0
          have hlt := hc.resolve_left h0
          unfold earliestTime at hlt
          rw [hfirst] at hlt
          exact hlt.le.trans (hmin i hi y hy)
    · obtain ⟨x, rest, hx, hfirst, hmin⟩ := h.getFirst h0
      unfold earliestTime at hge
      rw [hfirst] at hge
      have hxm : x ∈ v.timersOf w.earliestSpoke := by
        rw [htimers]
        split
        · next he =>
          refine hperm.mem_iff.mpr (mem_cons_of_mem _ ?_)
          rw [← he, hx]
          exact mem_cons_self
        · rw [hx]
          exact mem_cons_self
      refine hplaced.headLeast (hcount_eq ▸ h.earliest_lt) hxm fun i hi y hy => ?_
      rcases hmem hy with ⟨rfl, _⟩ | hy
      · exact hge
      · exact hmin i (hcount_eq ▸ hi) y hy

/-! ## Removing timers -/

theorem Placed.sub (h : Placed w) {v : TimerWheel τ} (hbits : v.spokeBits = w.spokeBits)
    (hres : v.resBits = w.resBits) (hlong : v.longBits = w.longBits)
    (hsub : ∀ i, (v.timersOf i).Sublist (w.timersOf i)) : Placed v := by
  have hcount : v.spokeCount = w.spokeCount := by rw [spokeCount_eq, spokeCount_eq, hbits]
  have hcalc : ∀ t, v.calculateSpoke t = w.calculateSpoke t := fun t => by
    unfold calculateSpoke
    rw [hcount, hres, hlong]
  refine ⟨hbits ▸ h.bits, fun i hi => ?_, fun i hi x hx => ?_, fun i hi x hx => ?_⟩
  · exact Pairwise.sublist (hsub i) (h.sorted i (hcount ▸ hi))
  · rw [hcalc]
    exact h.placed i (hcount ▸ hi) x ((hsub i).subset hx)
  · rw [hlong]
    exact h.times i (hcount ▸ hi) x ((hsub i).subset hx)

/-- Removing the earliest timer, and maybe others. -/
theorem Inv.behind (h : Inv longBits w) {v : TimerWheel τ} {x : TimerNode τ}
    (hfirst : w.getFirst = some x) (h0 : w.timerCount ≠ 0) (hv : Placed v)
    (hbits : v.spokeBits = w.spokeBits) (hres : v.resBits = w.resBits)
    (hlong : v.longBits = w.longBits) (hes : v.earliestSpoke = w.earliestSpoke)
    (hsub : ∀ i, (v.timersOf i).Sublist (w.timersOf i)) : Behind v x.timerValue := by
  obtain ⟨y, rest, hy, hfirst', hmin⟩ := h.getFirst h0
  rw [hfirst] at hfirst'
  cases hfirst'
  have hym : x ∈ w.timersOf w.earliestSpoke := by rw [hy]; exact mem_cons_self
  have hcount : v.spokeCount = w.spokeCount := by rw [spokeCount_eq, spokeCount_eq, hbits]
  have hcalc : v.calculateSpoke x.timerValue = w.calculateSpoke x.timerValue := by
    unfold calculateSpoke
    rw [hcount, hres, hlong]
  refine ⟨hv, hlong ▸ h.placed.times _ h.earliest_lt x hym, ?_, fun i hi z hz => ?_⟩
  · rw [hes, hcalc, h.placed.placed _ h.earliest_lt x hym]
  · exact hmin i (hcount ▸ hi) z ((hsub i).subset hz)

theorem timersOf_unlink (s k j : Nat) :
    (w.unlink s k).timersOf j = if j = s then (w.timersOf s).eraseIdx k else w.timersOf j := by
  unfold unlink
  rw [timersOf_setSpoke]
  rfl

theorem unlink_sublist (s k j : Nat) : ((w.unlink s k).timersOf j).Sublist (w.timersOf j) := by
  rw [timersOf_unlink]
  split
  · next h => rw [h]; exact eraseIdx_sublist _ _
  · exact Sublist.refl _

theorem unlink_count (h : w.timerCount = w.total) {s k : Nat} (hs : s < w.spokeCount)
    (hk : k < (w.timersOf s).length) : (w.unlink s k).timerCount = (w.unlink s k).total := by
  have hsum := total_setSpoke (w := { w with timerCount := w.timerCount - 1 }) hs
    { w.spokes s with timers := (w.timersOf s).eraseIdx k }
  rw [length_eraseIdx_of_lt hk] at hsum
  have hw : total { w with timerCount := w.timerCount - 1 } = w.total := rfl
  have hwl : timersOf { w with timerCount := w.timerCount - 1 } s = w.timersOf s := rfl
  rw [hw, hwl] at hsum
  have hv : ({ w with timerCount := w.timerCount - 1 }.setSpoke s
    { w.spokes s with timers := (w.timersOf s).eraseIdx k }) = w.unlink s k := rfl
  rw [hv] at hsum
  have hc : (w.unlink s k).timerCount = w.timerCount - 1 := rfl
  omega

theorem unlink_placed (h : Inv longBits w) (s k : Nat) : Placed (w.unlink s k) :=
  h.placed.sub rfl rfl rfl (unlink_sublist s k)

theorem Inv.removeEarliest (h : Inv longBits w) {x : TimerNode τ} (hfirst : w.getFirst = some x) :
    Inv longBits ((w.unlink w.earliestSpoke 0).recalcEarliest x.timerValue) := by
  have hpos : 0 < (w.timersOf w.earliestSpoke).length :=
    length_pos_of_mem (mem_of_mem_head? hfirst)
  have h0 : w.timerCount ≠ 0 := fun e => by
    rw [total_eq_zero (h.count ▸ e) h.earliest_lt] at hpos
    exact absurd hpos (Nat.lt_irrefl 0)
  refine Behind.recalc ?_ h.long (unlink_count h.count h.earliest_lt hpos)
  exact h.behind hfirst h0 (unlink_placed h _ _) rfl rfl rfl rfl (unlink_sublist _ _)

/-- Another timer is taken out. -/
theorem Inv.unlinkOther (h : Inv longBits w) {s k : Nat} (hs : s < w.spokeCount)
    (hk : k < (w.timersOf s).length) (hne : ¬ (s = w.earliestSpoke ∧ k = 0)) :
    Inv longBits (w.unlink s k) := by
  have hcount := unlink_count h.count hs hk
  refine ⟨h.long, unlink_placed h s k, hcount, h.earliest_lt, fun _ => ?_⟩
  have h0 : w.timerCount ≠ 0 := fun e => by
    rw [total_eq_zero (h.count ▸ e) hs] at hk
    exact absurd hk (not_lt_zero k)
  obtain ⟨x, rest, hx, _, hmin⟩ := h.getFirst h0
  refine (unlink_placed h s k).headLeast h.earliest_lt (m := x) ?_ fun i hi y hy => ?_
  · change x ∈ (w.unlink s k).timersOf w.earliestSpoke
    rw [timersOf_unlink]
    split
    · next he =>
      rw [← he, hx]
      obtain ⟨j, rfl⟩ : ∃ j, k = j + 1 := ⟨k - 1, by
        omega⟩
      exact mem_cons_self
    · rw [hx]
      exact mem_cons_self
  · exact hmin i hi y ((unlink_sublist s k i).subset hy)

theorem findSpokeNode_spec {spoke timerId : Nat} {n : TimerNode τ} {k : Nat}
    (h : w.findSpokeNode spoke timerId = some (n, k)) : (w.timersOf spoke)[k]? = some n := by
  have hmem := mem_of_find?_eq_some h
  exact mk_mem_zipIdx_iff_getElem?.mp hmem

theorem findNode_spec {timerId s k : Nat} {n : TimerNode τ}
    (h : w.findNode timerId = some (s, n, k)) :
    s < w.spokeCount ∧ (w.timersOf s)[k]? = some n := by
  unfold findNode at h
  split at h
  · cases h
  · simp only at h
    split at h
    · next m hm =>
      cases h
      refine ⟨?_, findSpokeNode_spec hm⟩
      rw [spokeCount_eq, and_two_pow_sub_one_eq_mod]
      exact mod_lt _ (Nat.two_pow_pos _)
    · obtain ⟨i, hi, hfind⟩ := exists_of_findSome?_eq_some h
      split at hfind
      · obtain ⟨m, hm, he⟩ := map_eq_some_iff.mp hfind
        cases he
        exact ⟨mem_range.mp hi, findSpokeNode_spec hm⟩
      · cases hfind

theorem Inv.cancelId (h : Inv longBits w) (timerId : Nat) : Inv longBits (w.cancelId timerId).2 := by
  unfold TimerWheel.cancelId
  split
  · next s n k hfind =>
    obtain ⟨hs, hn⟩ := findNode_spec hfind
    have hk := (List.getElem?_eq_some_iff.mp hn).1
    simp only
    split
    · next hfirst =>
      obtain ⟨rfl, rfl⟩ := hfirst
      refine h.removeEarliest ?_
      unfold TimerWheel.getFirst
      rw [head?_eq_getElem?]
      exact hn
    · next hne => exact h.unlinkOther hs hk hne
  · exact h

theorem Inv.removeFirstExpired (h : Inv longBits w) (now : TimeValue) :
    Inv longBits (w.removeFirstExpired now).2 := by
  unfold TimerWheel.removeFirstExpired
  split
  · next n hfirst =>
    split
    · exact h.removeEarliest hfirst
    · exact h
  · exact h

section CancelType

variable [DecidableEq τ]

/-- The wheel without the timers of a type. -/
def dropType (w : TimerWheel τ) (type : τ) : TimerWheel τ :=
  { w with
    spokes := fun i => { w.spokes i with timers := (w.spokes i).timers.filter (·.type ≠ type) },
    timerCount := w.timerCount - ((List.range w.spokeCount).map fun i =>
      ((w.spokes i).timers.filter (·.type = type)).length).sum }

theorem timersOf_dropType (type : τ) (i : Nat) :
    (w.dropType type).timersOf i = (w.timersOf i).filter (·.type ≠ type) := rfl

theorem dropType_sublist (type : τ) (i : Nat) :
    ((w.dropType type).timersOf i).Sublist (w.timersOf i) := by
  exact filter_sublist

theorem dropType_count (h : w.timerCount = w.total) (type : τ) :
    (w.dropType type).timerCount = (w.dropType type).total := by
  have hsplit : w.total = ((range w.spokeCount).map fun i =>
      ((w.timersOf i).filter (·.type = type)).length).sum + (w.dropType type).total := by
    unfold total
    rw [show (w.dropType type).spokeCount = w.spokeCount from rfl, ← sum_map_add]
    refine congrArg sum (map_congr_left fun i _ => ?_)
    rw [timersOf_dropType, length_eq_length_filter_add (fun x => decide (x.type = type))]
    simp
  have hd : (w.dropType type).timerCount = w.timerCount - ((range w.spokeCount).map fun i =>
      ((w.timersOf i).filter (·.type = type)).length).sum := rfl
  omega

theorem Inv.cancelType (h : Inv longBits w) {type : τ} {r : Nat × TimerWheel τ}
    (hr : w.cancelType type = some r) : Inv longBits r.2 := by
  unfold TimerWheel.cancelType at hr
  split at hr
  · cases hr
    exact h
  · next he =>
    have h0 : w.timerCount ≠ 0 := fun e => he (decide_eq_true e)
    obtain ⟨x, rest, hx, hfirst, hmin⟩ := h.getFirst h0
    rw [hfirst] at hr
    cases hr
    have hplaced : Placed (w.dropType type) := h.placed.sub rfl rfl rfl (dropType_sublist type)
    change Inv longBits (if x.type = type then (w.dropType type).recalcEarliest x.timerValue
      else w.dropType type)
    split
    · refine Behind.recalc ?_ h.long (dropType_count h.count type)
      exact h.behind hfirst h0 hplaced rfl rfl rfl rfl (dropType_sublist type)
    · next htype =>
      refine ⟨h.long, hplaced, dropType_count h.count type, h.earliest_lt, fun _ => ?_⟩
      refine hplaced.headLeast h.earliest_lt (m := x) ?_ fun i hi y hy =>
        hmin i hi y ((dropType_sublist type i).subset hy)
      change x ∈ (w.dropType type).timersOf w.earliestSpoke
      rw [timersOf_dropType, hx, filter_cons_of_pos (by simpa using htype)]
      exact mem_cons_self

end CancelType

/-! ## Timer ids -/

theorem generateTimerId_frame {spoke id : Nat} (h : w.generateTimerId spoke = some (id, w')) :
    ∃ s, s.timers = w.timersOf spoke ∧ w' = w.setSpoke spoke s := by
  have hroot : (if (w.spokes spoke).timers.isEmpty = true then { w.spokes spoke with act := 0 }
      else w.spokes spoke).timers = w.timersOf spoke := by
    split <;> rfl
  unfold generateTimerId at h
  simp only at h
  generalize (if (w.spokes spoke).timers.isEmpty = true then { w.spokes spoke with act := 0 }
    else w.spokes spoke) = root at *
  generalize (if spoke = w.spokeCount then 1 <<< (w.longBits - w.spokeBits) - 1 - 1
    else 1 <<< (w.longBits - w.spokeBits) - 1) = maxCnt at h
  split at h
  · cases h
    exact ⟨{ root with timerId := 1 }, hroot, rfl⟩
  · split at h
    · obtain ⟨_, _, he⟩ := map_eq_some_iff.mp h
      cases he
      exact ⟨_, hroot, rfl⟩
    · split at h
      · cases h
        exact ⟨{ root with timerId := root.timerId + 1 }, hroot, rfl⟩
      · obtain ⟨_, _, he⟩ := map_eq_some_iff.mp h
        cases he
        exact ⟨_, hroot, rfl⟩

theorem Inv.setRoot (h : Inv longBits w) {spoke : Nat} {s : Spoke τ} (hs : s.timers = w.timersOf spoke) :
    Inv longBits (w.setSpoke spoke s) := by
  have htimers : ∀ i, (w.setSpoke spoke s).timersOf i = w.timersOf i := fun i => by
    rw [timersOf_setSpoke]
    split
    · next hi => rw [hs, hi]
    · rfl
  have hplaced : Placed (w.setSpoke spoke s) :=
    h.placed.sub rfl rfl rfl fun i => by rw [htimers]
  refine ⟨h.long, hplaced, ?_, h.earliest_lt, fun h0 => ?_⟩
  · unfold total
    simp only [htimers]
    exact h.count
  · obtain ⟨x, rest, hx, _, hmin⟩ := h.getFirst h0
    exact ⟨h.earliest_lt, x, rest, (htimers _).trans hx, fun i hi y hy => hmin i hi y (htimers i ▸ hy)⟩

theorem Inv.scheduleI (h : Inv longBits w) {type : τ} {act : Nat} {futureTime interval : TimeValue}
    (ht : futureTime.InMsec longBits) {r : Nat × TimerWheel τ}
    (hr : w.scheduleI type act futureTime interval = some r) : Inv longBits r.2 := by
  obtain ⟨⟨id, v⟩, hgen, rfl⟩ := map_eq_some_iff.mp hr
  obtain ⟨s, hs, rfl⟩ := generateTimerId_frame hgen
  have hv := h.setRoot hs
  have hlong := hv.long
  simp only
  split
  · exact hv.scheduleNode (n := ⟨type, act, futureTime, interval, id⟩) (by rw [hlong]; exact ht)
  · exact hv

/-! ## Runs -/

inductive WheelOp (τ : Type) where
  | schedule (type : τ) (act : Nat) (futureTime interval : TimeValue)
  | cancelId (timerId : Nat)
  | cancelType (type : τ)
  | removeFirst
  | removeFirstExpired (now : TimeValue)
  | reschedule (n : TimerNode τ)

/-- Timers are scheduled at times that are not negative and in the range of `msec`. -/
def WheelOp.InMsec (longBits : Nat) : WheelOp τ → Prop
  | .schedule _ _ futureTime _ => futureTime.InMsec longBits
  | .reschedule n => n.timerValue.InMsec longBits
  | _ => True

variable [DecidableEq τ]

def step (w : TimerWheel τ) : WheelOp τ → Option (TimerWheel τ)
  | .schedule type act futureTime interval =>
    (w.scheduleI type act futureTime interval).map fun r => r.2
  | .cancelId timerId => some (w.cancelId timerId).2
  | .cancelType type => (w.cancelType type).map fun r => r.2
  | .removeFirst => some w.removeFirst.2
  | .removeFirstExpired now => some (w.removeFirstExpired now).2
  | .reschedule n => some (w.reschedule n)

theorem step_inv (h : Inv longBits w) {op : WheelOp τ} (hop : op.InMsec longBits)
    (hs : w.step op = some w') : Inv longBits w' := by
  cases op with
  | schedule type act futureTime interval =>
    obtain ⟨r, hr, rfl⟩ := map_eq_some_iff.mp hs
    exact h.scheduleI hop hr
  | cancelId timerId =>
    cases hs
    exact h.cancelId timerId
  | cancelType type =>
    obtain ⟨r, hr, rfl⟩ := map_eq_some_iff.mp hs
    exact h.cancelType hr
  | removeFirst =>
    cases hs
    exact h.removeFirstExpired TimeValue.maxTime
  | removeFirstExpired now =>
    cases hs
    exact h.removeFirstExpired now
  | reschedule n =>
    cases hs
    exact h.scheduleNode (h.long ▸ hop)

/-- **The wheel's invariant.** -/
theorem wheel_invariant {spokes res : Nat} {ops : List (WheelOp τ)}
    (hops : ∀ op ∈ ops, op.InMsec longBits)
    (h : run step (openI longBits spokes res) ops = some w) :
    (∀ i < w.spokeCount, SortedBy (·.timerValue) (w.timersOf i)) ∧
    (∀ i < w.spokeCount, ∀ x ∈ w.timersOf i, w.calculateSpoke x.timerValue = i) ∧
    w.timerCount = w.total ∧
    (w.timerCount ≠ 0 → ∃ x, w.getFirst = some x ∧
      ∀ i < w.spokeCount, ∀ y ∈ w.timersOf i, x.timerValue ≤ y.timerValue) := by
  have hinv : Inv longBits w :=
    run_inv_of (P := fun _ op => op.InMsec longBits) (fun _ _ _ hi hp hs => step_inv hi hp hs)
      (openI_inv longBits spokes res) (allSteps_of_forall hops) h
  refine ⟨hinv.placed.sorted, hinv.placed.placed, hinv.count, fun h0 => ?_⟩
  obtain ⟨x, _, _, hfirst, hmin⟩ := hinv.getFirst h0
  exact ⟨x, hfirst, hmin⟩

/-- Two timers of one spoke a whole turn of the wheel apart, and one in the next. -/
def turnOps : List (WheelOp Nat) :=
  [.schedule 7 0 ⟨0, 1900⟩ .zero, .schedule 8 0 ⟨0, 17500⟩ .zero, .schedule 9 0 ⟨0, 2100⟩ .zero,
    .removeFirst, .schedule 7 0 ⟨0, 18000⟩ .zero, .cancelType 9]

theorem wheel_invariant_turn : ∃ w, run step (openI 64 8 2) turnOps = some w ∧
    (w.spokeCount = 8 ∧ w.timerCount = 2 ∧ (w.timersOf 0).length = 1 ∧ (w.timersOf 1).length = 1) ∧
    ∃ x, w.getFirst = some x ∧ ∀ i < w.spokeCount, ∀ y ∈ w.timersOf i, x.timerValue ≤ y.timerValue := by
  have hops : ∀ op ∈ turnOps, op.InMsec 64 := by
    have hus : ∀ n : Int, 0 ≤ n → n < 1000000 → (⟨0, n⟩ : TimeValue).InMsec 64 := fun n h1 h2 => by
      refine ⟨⟨?_, ?_, ?_, ?_⟩, ?_, ?_⟩ <;>
        simp only [TimeValue.total, TimeValue.oneSecondInUsecs] <;> omega
    intro op hop
    simp only [turnOps, mem_cons, not_mem_nil, or_false] at hop
    rcases hop with rfl | rfl | rfl | rfl | rfl | rfl
    · exact hus _ (by decide) (by decide)
    · exact hus _ (by decide) (by decide)
    · exact hus _ (by decide) (by decide)
    · trivial
    · exact hus _ (by decide) (by decide)
    · trivial
  have hrun : ∃ w, run step (openI 64 8 2) turnOps = some w ∧ w.spokeCount = 8 ∧ w.timerCount = 2 ∧
      (w.timersOf 0).length = 1 ∧ (w.timersOf 1).length = 1 := ⟨_, rfl, rfl, rfl, rfl, rfl⟩
  obtain ⟨w, hw, hlook⟩ := hrun
  exact ⟨w, hw, hlook, (wheel_invariant hops hw).2.2.2 (by rw [hlook.2.1]; decide)⟩

end TimerWheel

end Atcd.Timer
