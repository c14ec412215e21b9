import Atcd.Timer.Wheel
/-!
# The search for the earliest timer of the wheel

`recalc_earliest` runs behind the removal of the earliest timer, at `last`, from
the spoke of that timer. It stops at the first head within one resolution step
of `last`. Such a time has the slot of `last` or the next one (`slot_near`), so
it lies in one of the first two spokes visited, and the first head found there
precedes all others (`near_min`). Without such a head the whole wheel is
searched.

Results:
* `recalcLoop_spec`: the spoke found has the least time of the wheel at its head.
-/
namespace Atcd.Timer

open Atcd.Core Atcd.Time TimeValue

namespace TimerWheel

variable {τ : Type} {w : TimerWheel τ}

@[simp] theorem spokeCount_eq : w.spokeCount = 2 ^ w.spokeBits := by
  unfold spokeCount
  rw [Nat.one_shiftLeft]

def timersOf (w : TimerWheel τ) (i : Nat) : List (TimerNode τ) := (w.spokes i).timers

/-- Every spoke is sorted and holds the timers that hash to it. -/
structure Placed (w : TimerWheel τ) : Prop where
  bits : 1 ≤ w.spokeBits
  sorted : ∀ i < w.spokeCount, SortedBy (·.timerValue) (w.timersOf i)
  placed : ∀ i < w.spokeCount, ∀ x ∈ w.timersOf i, w.calculateSpoke x.timerValue = i
  times : ∀ i < w.spokeCount, ∀ x ∈ w.timersOf i, x.timerValue.InMsec w.longBits

/-- The number of resolution steps in a time. -/
def slot (w : TimerWheel τ) (t : TimeValue) : Nat := (t.total / 1000).toNat / 2 ^ w.resBits

theorem calculateSpoke_eq {t : TimeValue} (h : t.InMsec w.longBits) :
    w.calculateSpoke t = w.slot t % w.spokeCount := by
  unfold calculateSpoke slot
  rw [msec_eq h, spokeCount_eq, Nat.shiftRight_eq_div_pow, Nat.and_two_pow_sub_one_eq_mod]

theorem calculateSpoke_lt (w : TimerWheel τ) (t : TimeValue) : w.calculateSpoke t < w.spokeCount := by
  unfold calculateSpoke
  rw [spokeCount_eq, Nat.and_two_pow_sub_one_eq_mod]
  exact Nat.mod_lt _ (Nat.two_pow_pos _)

theorem wheelTime_spec (w : TimerWheel τ) :
    w.wheelTime.Normal ∧ w.wheelTime.total = (2 ^ w.resBits * 1000 : Nat) := by
  have h := ofMsec_spec (1 <<< w.resBits : Nat)
  refine ⟨h.1, h.2.trans ?_⟩
  rw [Nat.one_shiftLeft]
  push_cast
  ring

theorem slot_mono {a b : TimeValue} (h : a.total ≤ b.total) : w.slot a ≤ w.slot b := by
  exact Nat.div_le_div_right (by omega)

/-- A time less than one step behind has the same slot or the next one. -/
theorem slot_near {a b : TimeValue} (h0 : 0 ≤ a.total) (h : b.total < a.total + w.wheelTime.total) :
    w.slot b ≤ w.slot a + 1 := by
  rw [(wheelTime_spec w).2] at h
  have hpos : 0 < 2 ^ w.resBits := Nat.two_pow_pos _
  have hle : (b.total / 1000).toNat ≤ (a.total / 1000).toNat + 2 ^ w.resBits := by
    push_cast at h
    generalize hr : 2 ^ w.resBits = r at *
    have : (2 : Int) ^ w.resBits = r := by exact_mod_cast hr
    omega
  calc (b.total / 1000).toNat / 2 ^ w.resBits
      ≤ ((a.total / 1000).toNat + 2 ^ w.resBits) / 2 ^ w.resBits := Nat.div_le_div_right hle
    _ = (a.total / 1000).toNat / 2 ^ w.resBits + 1 := Nat.add_div_right _ hpos

/-- Spokes visited from `s` on. -/
def nth (w : TimerWheel τ) (s k : Nat) : Nat := (s + k) % w.spokeCount

theorem nth_lt (w : TimerWheel τ) (s k : Nat) : w.nth s k < w.spokeCount := by
  unfold nth
  rw [spokeCount_eq]
  exact Nat.mod_lt _ (Nat.two_pow_pos _)

theorem nth_zero {s : Nat} (hs : s < w.spokeCount) : w.nth s 0 = s := Nat.mod_eq_of_lt hs

theorem nth_succ {s k : Nat} :
    w.nth s (k + 1) = if w.nth s k + 1 ≥ w.spokeCount then 0 else w.nth s k + 1 := by
  have hlt := nth_lt w s k
  unfold nth at *
  rw [← Nat.add_assoc, ← Nat.mod_add_mod]
  split
  · next h =>
    rw [show (s + k) % w.spokeCount + 1 = w.spokeCount by omega, Nat.mod_self]
  · exact Nat.mod_eq_of_lt (by omega)

/-- One round visits every spoke. -/
theorem exists_nth {s i : Nat} (hs : s < w.spokeCount) (hi : i < w.spokeCount) :
    ∃ k < w.spokeCount, w.nth s k = i := by
  unfold nth
  by_cases h : s ≤ i
  · exact ⟨i - s, by omega, by rw [show s + (i - s) = i by omega]; exact Nat.mod_eq_of_lt hi⟩
  · refine ⟨i + w.spokeCount - s, by omega, ?_⟩
    rw [show s + (i + w.spokeCount - s) = i + w.spokeCount by omega, Nat.add_mod_right]
    exact Nat.mod_eq_of_lt hi

theorem succ_mod_ne (a : Nat) {c : Nat} (hc : 2 ≤ c) : (a + 1) % c ≠ a % c := by
  have hlt := Nat.mod_lt a (show 0 < c by omega)
  rw [Nat.add_mod, Nat.mod_eq_of_lt (show 1 < c by omega)]
  by_cases hwrap : a % c + 1 < c
  · rw [Nat.mod_eq_of_lt hwrap]
    omega
  · rw [show a % c + 1 = c by omega, Nat.mod_self]
    omega

/-- A wheel whose earliest timer, at `last`, was just removed. -/
structure Behind (w : TimerWheel τ) (last : TimeValue) : Prop where
  placed : Placed w
  last_in : last.InMsec w.longBits
  spoke : w.earliestSpoke = w.calculateSpoke last
  least : ∀ i < w.spokeCount, ∀ y ∈ w.timersOf i, last ≤ y.timerValue

variable {last : TimeValue}

/-- Within one step of `last`. -/
def Near (w : TimerWheel τ) (last t : TimeValue) : Prop := t < last.add w.wheelTime

theorem near_iff {t : TimeValue} (ht : t.Normal) :
    w.Near last t ↔ t.total < last.total + w.wheelTime.total := by
  unfold Near
  have hadd : (last.add w.wheelTime).Normal := normalize_normal _
  rw [lt_iff_total ht hadd, add_total]

/-- The head of the first spoke visited that has one near `last` is the least. -/
theorem near_min (h : Behind w last) {k : Nat} {x : TimerNode τ} {rest : List (TimerNode τ)}
    (hx : w.timersOf (w.nth w.earliestSpoke k) = x :: rest) (hnear : w.Near last x.timerValue)
    (hvis : ∀ j < k, ∀ y ∈ w.timersOf (w.nth w.earliestSpoke j), ¬ w.Near last y.timerValue) :
    ∀ i < w.spokeCount, ∀ y ∈ w.timersOf i, x.timerValue ≤ y.timerValue := by
  intro i hi y hy
  have hslt := nth_lt w w.earliestSpoke k
  have hxm : x ∈ w.timersOf (w.nth w.earliestSpoke k) := by rw [hx]; exact List.mem_cons_self
  have hxi := h.placed.times _ hslt x hxm
  have hyi := h.placed.times i hi y hy
  by_cases hynear : w.Near last y.timerValue
  · have hxs := (calculateSpoke_eq hxi).symm.trans (h.placed.placed _ hslt x hxm)
    have hys := (calculateSpoke_eq hyi).symm.trans (h.placed.placed i hi y hy)
    have hle : ∀ {z : TimerNode τ} {j : Nat}, j < w.spokeCount → z ∈ w.timersOf j →
        w.slot last ≤ w.slot z.timerValue := fun hj hz => slot_mono
      ((le_iff_total h.last_in.normal (h.placed.times _ hj _ hz).normal).mp (h.least _ hj _ hz))
    have hy1 := hle hi hy
    have hx2 := slot_near h.last_in.nonneg ((near_iff hxi.normal).mp hnear)
    rcases Nat.lt_trichotomy (w.slot x.timerValue) (w.slot y.timerValue) with hlt | heq | hgt
    · rw [le_iff_total hxi.normal hyi.normal]
      by_contra hge
      have := slot_mono (w := w) (show y.timerValue.total ≤ x.timerValue.total by omega)
      omega
    · -- the same slot is the same spoke, which is sorted
      have hspoke : i = w.nth w.earliestSpoke k := by rw [← hys, ← heq, hxs]
      have hsorted := h.placed.sorted _ hslt
      rw [hspoke, hx] at hy
      rw [hx] at hsorted
      exact hsorted.head_le y hy
    · -- `y` has the slot of `last`, so its spoke was visited first
      exfalso
      have hy0 : w.slot y.timerValue = w.slot last := by omega
      have hx0 : w.slot x.timerValue = w.slot last + 1 := by omega
      have hes : w.earliestSpoke = i := by
        rw [h.spoke, calculateSpoke_eq h.last_in, ← hy0, hys]
      have hes_lt : w.earliestSpoke < w.spokeCount := hes ▸ hi
      have hk : 0 < k := by
        by_contra hk
        have hk0 : k = 0 := by omega
        rw [hk0, nth_zero hes_lt, hes, ← hys, hx0, hy0, spokeCount_eq] at hxs
        have h2 : 2 ^ 1 ≤ 2 ^ w.spokeBits := Nat.pow_le_pow_right (by decide) h.placed.bits
        exact succ_mod_ne _ h2 hxs
      exact hvis 0 hk y (by rw [nth_zero hes_lt, hes]; exact hy) hynear
  · rw [Near, not_lt] at hynear
    exact (lt_of_lt_of_le hnear hynear).le

/-- The least head among the first `k` spokes visited. -/
def Best (w : TimerWheel τ) (k : Nat) (et : TimeValue) (es : Nat) : Prop :=
  (et = .zero ∧ ∀ j < k, w.timersOf (w.nth w.earliestSpoke j) = []) ∨
  (et ≠ .zero ∧ es < w.spokeCount ∧ (∃ x rest, w.timersOf es = x :: rest ∧ x.timerValue = et) ∧
    ∀ j < k, ∀ y ∈ w.timersOf (w.nth w.earliestSpoke j), et ≤ y.timerValue)

/-- The spoke has a least timer of the wheel at its head. -/
def HeadLeast (w : TimerWheel τ) (s : Nat) : Prop :=
  s < w.spokeCount ∧ ∃ x rest, w.timersOf s = x :: rest ∧
    ∀ i < w.spokeCount, ∀ y ∈ w.timersOf i, x.timerValue ≤ y.timerValue

/-- A time more than one step behind a time that is not negative is not zero. -/
theorem ne_zero_of_far (h : Behind w last) {t : TimeValue} (ht : t.Normal) (hfar : ¬ w.Near last t) :
    t ≠ .zero := by
  rintro rfl
  have hlast := h.last_in.nonneg
  have hpos : 0 < 2 ^ w.resBits := Nat.two_pow_pos _
  rw [near_iff ht, (wheelTime_spec w).2] at hfar
  have hzero : zero.total = 0 := by simp [total, zero]
  omega

theorem recalcLoop_spec (h : Behind w last) (hne : ∃ i < w.spokeCount, w.timersOf i ≠ []) (n : Nat)
    {k : Nat} (hk : k + n = w.spokeCount) (et : TimeValue) (es : Nat)
    (hvis : ∀ j < k, ∀ y ∈ w.timersOf (w.nth w.earliestSpoke j), ¬ w.Near last y.timerValue)
    (hbest : Best w k et es) :
    HeadLeast w (w.recalcLoop last n (w.nth w.earliestSpoke k) et es) := by
  have hes_lt : w.earliestSpoke < w.spokeCount := by
    rw [h.spoke]
    exact calculateSpoke_lt w last
  induction n generalizing k et es with
  | zero =>
    -- every spoke was visited
    have hall : ∀ i < w.spokeCount, ∃ j < k, w.nth w.earliestSpoke j = i := fun i hi => by
      obtain ⟨j, hj, hji⟩ := exists_nth hes_lt hi
      exact ⟨j, by omega, hji⟩
    rcases hbest with ⟨-, hempty⟩ | ⟨-, hes, ⟨x, rest, hx, rfl⟩, hmin⟩
    · obtain ⟨i, hi, hi_ne⟩ := hne
      obtain ⟨j, hj, rfl⟩ := hall i hi
      exact absurd (hempty j hj) hi_ne
    · refine ⟨hes, x, rest, hx, fun i hi y hy => ?_⟩
      obtain ⟨j, hj, rfl⟩ := hall i hi
      exact hmin j hj y hy
  | succ n ih =>
    unfold recalcLoop
    rw [← nth_succ]
    have hslt := nth_lt w w.earliestSpoke k
    have hsplit : ∀ {P : Nat → Prop}, (∀ j < k, P j) → P k → ∀ j < k + 1, P j := fun hP hPk j hj => by
      rcases Nat.lt_succ_iff_lt_or_eq.mp hj with hj | rfl
      · exact hP j hj
      · exact hPk
    split
    · next hx =>
      change w.timersOf _ = [] at hx
      refine ih (by omega) et es (hsplit hvis (by simp [hx])) ?_
      rcases hbest with ⟨he, hempty⟩ | ⟨he, hes, hhead, hmin⟩
      · exact .inl ⟨he, hsplit hempty hx⟩
      · exact .inr ⟨he, hes, hhead, hsplit hmin (by simp [hx])⟩
    · next x rest hx =>
      change w.timersOf _ = x :: rest at hx
      have hsorted := h.placed.sorted _ hslt
      rw [hx] at hsorted
      have hxt := h.placed.times _ hslt x (by rw [hx]; exact List.mem_cons_self)
      by_cases hnear : w.Near last x.timerValue
      · rw [if_pos ((lt_iff _ _).mpr hnear)]
        exact ⟨hslt, x, rest, hx, near_min h hx hnear hvis⟩
      · rw [if_neg (fun e => hnear ((lt_iff _ _).mp e))]
        have hfar : ∀ y ∈ w.timersOf (w.nth w.earliestSpoke k), ¬ w.Near last y.timerValue := by
          intro y hy hynear
          rw [hx] at hy
          exact hnear (lt_of_le_of_lt (hsorted.head_le y hy) hynear)
        have hhead : ∀ y ∈ w.timersOf (w.nth w.earliestSpoke k), x.timerValue ≤ y.timerValue := by
          rw [hx]
          exact hsorted.head_le
        split
        · next hless =>
          refine ih (by omega) _ _ (hsplit hvis hfar) (.inr ⟨ne_zero_of_far h hxt.normal hnear, hslt,
            ⟨x, rest, hx, rfl⟩, hsplit (fun j hj y hy => ?_) hhead⟩)
          rcases hbest with ⟨-, hempty⟩ | ⟨he, -, -, hmin⟩
          · rw [hempty j hj] at hy
            cases hy
          · have hlt := (lt_iff _ _).mp (hless.resolve_left he)
            exact hlt.le.trans (hmin j hj y hy)
        · next hless =>
          rw [not_or] at hless
          rcases hbest with ⟨he, -⟩ | ⟨he, hes, hh, hmin⟩
          · exact absurd he hless.1
          · have hge := not_lt.mp (fun e => hless.2 ((lt_iff _ _).mpr e))
            exact ih (by omega) et es (hsplit hvis hfar) (.inr ⟨he, hes, hh,
              hsplit hmin fun y hy => hge.trans (hhead y hy)⟩)

end TimerWheel

end Atcd.Timer
