import Mathlib
/-!
# Aligned layouts

A stream of segments, each with an alignment and its data, is laid out from a
position `p` by putting before every segment the gap that brings the position
to a multiple of the segment's alignment. The bytes of a gap are arbitrary, so
a layout is a relation (`Laid`) between segments and bytes; only its length is
determined (`extent`).

Results:
* `Laid.length_eq`: the length of a layout is `extent`, whatever the gaps hold.
* `Laid.append`, `Laid.append_inv`: layouts compose and split at a segment
  boundary.
* `Laid.cons_inv`: the data of the first segment is found behind its gap.
* `gap_of_mod`: the gap depends on the position modulo any multiple of the
  alignment only; `Laid.of_mod`: so does a layout.
-/
namespace Atcd.Core

open Nat

/-- Bytes between position `p` and the next multiple of `a`. -/
def gap (p a : Nat) : Nat := (a - p % a) % a

/-- One run of data and the alignment it has to start at. -/
structure Seg (α : Type*) where
  align : Nat
  data : List α

/-- `bs` holds the segments in order, laid out from position `p`. -/
inductive Laid {α : Type*} : Nat → List (Seg α) → List α → Prop
  | nil (p : Nat) : Laid p [] []
  | cons {p : Nat} {s : Seg α} {segs : List (Seg α)} {fill rest : List α}
      (hfill : fill.length = gap p s.align)
      (hrest : Laid (p + fill.length + s.data.length) segs rest) :
      Laid p (s :: segs) (fill ++ s.data ++ rest)

/-- The position behind a layout of the segments that starts at `p`. -/
def extent {α : Type*} : Nat → List (Seg α) → Nat
  | p, [] => p
  | p, s :: segs => extent (p + gap p s.align + s.data.length) segs

variable {α : Type*}

@[simp] theorem gap_one (p : Nat) : gap p 1 = 0 := by simp [gap, mod_one]

theorem gap_lt (p a : Nat) (ha : 0 < a) : gap p a < a := mod_lt _ ha

theorem add_gap_mod (p a : Nat) (ha : 0 < a) : (p + gap p a) % a = 0 := by
  unfold gap
  have hlt := mod_lt p ha
  have hdiv := div_add_mod p a
  by_cases h : p % a = 0
  · simp [h]
  · rw [mod_eq_of_lt (by omega : a - p % a < a)]
    have : p + (a - p % a) = a * (p / a + 1) := by rw [Nat.mul_add]; omega
    rw [this, mul_mod_right]

theorem gap_of_aligned (p a : Nat) (h : p % a = 0) : gap p a = 0 := by simp [gap, h]

variable {p : Nat} {bs : List α}

theorem gap_of_mod {q m a : Nat} (ham : a ∣ m) (h : p % m = q % m) : gap p a = gap q a := by
  have hp := mod_mod_of_dvd p ham
  have hq := mod_mod_of_dvd q ham
  unfold gap
  rw [← hp, ← hq, h]

/-- Behind a remainder below `m` the gap stays inside the block of `m`. -/
theorem mod_add_gap_le (p : Nat) {m a : Nat} (hm : 0 < m) (ham : a ∣ m) : p % m + gap p a ≤ m := by
  obtain ⟨k, rfl⟩ := ham
  have ha : 0 < a := Nat.pos_of_mul_pos_right hm
  have hg : gap p a = gap (p % (a * k)) a :=
    gap_of_mod (Nat.dvd_mul_right a k) (mod_mod _ _).symm
  rw [hg]
  generalize hr : p % (a * k) = r
  have hlt : r < a * k := hr ▸ mod_lt p hm
  -- both ends of the gap are below a * k, which is itself a multiple of a
  have h0 := add_gap_mod r a ha
  have hgl := gap_lt r a ha
  by_contra hc
  have hdvd := dvd_of_mod_eq_zero h0
  obtain ⟨j, hj⟩ := hdvd
  have hkj : k < j := by
    by_contra hle
    have := mul_le_mul_left a (Nat.le_of_not_lt hle)
    omega
  have := mul_le_mul_left a (succ_le_of_lt hkj)
  rw [mul_succ] at this
  omega

@[simp] theorem extent_nil (p : Nat) : extent p ([] : List (Seg α)) = p := rfl

@[simp] theorem extent_cons (p : Nat) (s : Seg α) (segs : List (Seg α)) :
    extent p (s :: segs) = extent (p + gap p s.align + s.data.length) segs := rfl

theorem extent_append (p : Nat) (xs ys : List (Seg α)) :
    extent p (xs ++ ys) = extent (extent p xs) ys := by
  induction xs generalizing p with
  | nil => rfl
  | cons s xs ih => exact ih _

/-- A layout of one-element segments of alignment 1 has no gaps. -/
theorem extent_ones (p : Nat) (f : β → Seg α) (xs : List β)
    (halign : ∀ x ∈ xs, (f x).align = 1) (hlen : ∀ x ∈ xs, (f x).data.length = 1) :
    extent p (xs.map f) = p + xs.length := by
  induction xs generalizing p with
  | nil => rfl
  | cons x xs ih =>
    have ha := halign x (by simp)
    have hl := hlen x (by simp)
    have := ih (p + 1) (fun y hy => halign y (by simp [hy])) (fun y hy => hlen y (by simp [hy]))
    simp only [List.map_cons, extent_cons, ha, hl, gap_one, List.length_cons, Nat.add_zero, this]
    omega

/-- **Length.** The gaps hold arbitrary bytes, but their number is fixed. -/
theorem Laid.length_eq {segs : List (Seg α)} (h : Laid p segs bs) :
    p + bs.length = extent p segs := by
  induction h with
  | nil p => rfl
  | cons hfill _ ih =>
    rw [extent_cons, ← hfill, ← ih]
    simp only [List.length_append]
    omega

theorem Laid.single (s : Seg α) {fill : List α} (hfill : fill.length = gap p s.align) :
    Laid p [s] (fill ++ s.data) := by
  have : Laid p [s] (fill ++ s.data ++ []) := Laid.cons hfill (Laid.nil _)
  rwa [List.append_nil] at this

theorem Laid.append {xs ys : List (Seg α)} {cs : List α} (hx : Laid p xs bs)
    (hy : Laid (p + bs.length) ys cs) : Laid p (xs ++ ys) (bs ++ cs) := by
  induction hx with
  | nil p => simpa using hy
  | @cons p s segs fill rest hfill _ ih =>
    rw [List.append_assoc]
    refine Laid.cons hfill (ih ?_)
    have e : p + (fill ++ s.data ++ rest).length = p + fill.length + s.data.length + rest.length := by
      simp only [List.length_append]; omega
    rwa [e] at hy

theorem Laid.nil_inv (h : Laid p [] bs) : bs = [] := by cases h; rfl

theorem Laid.cons_inv {s : Seg α} {segs : List (Seg α)} (h : Laid p (s :: segs) bs) :
    ∃ fill rest, bs = fill ++ (s.data ++ rest) ∧
      fill.length = gap p s.align ∧ Laid (p + fill.length + s.data.length) segs rest := by
  cases h with
  | @cons _ _ _ fill rest hfill hrest => exact ⟨fill, rest, by simp, hfill, hrest⟩

theorem Laid.append_inv (xs : List (Seg α)) {ys : List (Seg α)} (h : Laid p (xs ++ ys) bs) :
    ∃ cs ds, bs = cs ++ ds ∧ Laid p xs cs ∧ Laid (p + cs.length) ys ds := by
  induction xs generalizing p bs with
  | nil => exact ⟨[], bs, rfl, .nil p, by simpa using h⟩
  | cons s xs ih =>
    obtain ⟨fill, rest, rfl, hfill, hrest⟩ := h.cons_inv
    obtain ⟨cs, ds, rfl, hcs, hds⟩ := ih hrest
    refine ⟨fill ++ s.data ++ cs, ds, by simp, .cons hfill hcs, ?_⟩
    have e : p + (fill ++ s.data ++ cs).length = p + fill.length + s.data.length + cs.length := by
      simp only [List.length_append]; omega
    rwa [e]

theorem Laid.of_mod {m q : Nat} {segs : List (Seg α)} (h : Laid p segs bs) (hpq : p % m = q % m)
    (ha : ∀ s ∈ segs, s.align ∣ m) : Laid q segs bs := by
  induction h generalizing q with
  | nil p => exact .nil q
  | @cons p s segs fill rest hfill _ ih =>
    have hgap := gap_of_mod (ha s (by simp)) hpq
    apply Laid.cons (hfill.trans hgap)
    apply ih _ fun s' hs' => ha s' (by simp [hs'])
    rw [Nat.add_assoc, Nat.add_assoc, add_mod, hpq, ← add_mod]

/-- The gap may already be there. -/
theorem Laid.behind_gap {s : Seg α} {segs : List (Seg α)} {fill : List α} (hpos : 0 < s.align)
    (hfill : fill.length = gap p s.align) (h : Laid (p + fill.length) (s :: segs) bs) :
    Laid p (s :: segs) (fill ++ bs) := by
  obtain ⟨fill', rest, rfl, hfill', hrest⟩ := h.cons_inv
  have hnil : fill' = [] := by
    apply List.length_eq_zero_iff.mp
    rw [hfill', hfill]
    exact gap_of_aligned _ _ (add_gap_mod p s.align hpos)
  subst hnil
  rw [List.nil_append, ← List.append_assoc]
  exact Laid.cons hfill hrest

end Atcd.Core
