import Mathlib
/-!
# `ACE_Stats::square_root`

The whole part is searched for by bisection between 0 and `2 ^ 32 - 1`, and it is the floor of
the root unless the root is `2 ^ 32 - 1`. The fractional part is searched for among `10 ^ p`
numbers, but only `p` times: what is found is the last middle, an odd multiple of `5 ^ p`, and
the comparison that would round it is with 0.

Results:
- `wholeLoop_eq`: the first search;
- `fractionLoop_eq`: the second one, by the bits of the multiple;
- `accurate_iff`: when the result is accurate to its precision.
-/
namespace Atcd.Stats

open Nat

/-- `ACE_Stats_Value`. -/
structure Value where
  precision : Nat
  whole : Nat
  fractional : Nat

/-- mirrors ACE/ace/Stats.cpp:14-31 -/
def fractionalField : Nat → Nat
  | 0 => 1
  | precision + 1 => (fun field => field * 10 % 2 ^ 32)^[precision] 10

/-- The loop for the whole part, with the rounds that are left.
mirrors Stats.cpp:330-359 -/
def wholeLoop (n : Nat) : Nat → Nat → Nat → Nat → Nat
  | 0, _, _, mid => mid
  | fuel + 1, floor, ceiling, _ =>
    let mid := (ceiling - floor) / 2 + floor
    if floor = mid then mid
    else if mid * mid = n then mid
    else if mid * mid < n then wholeLoop n fuel mid ceiling mid
    else wholeLoop n fuel floor mid mid

/-- The loop for the fractional part, with what it leaves in `mid` and `difference`.
mirrors Stats.cpp:370-397 -/
def fractionLoop (current : Nat → Nat) (target : Nat) : Nat → Nat → Nat → Nat → Nat × Nat
  | 0, _, _, mid => (mid, 0)
  | fuel + 1, floor, ceiling, _ =>
    let mid := (ceiling - floor) / 2 + floor
    if floor = mid then (mid, (target + 2 ^ 64 - current mid) % 2 ^ 64)
    else if current mid ≤ target then fractionLoop current target fuel mid ceiling mid
    else fractionLoop current target fuel floor mid mid

/-- The square of a number in 64 bits, which is put together in 32 bits. -/
def current (whole field mid : Nat) : Nat :=
  (whole * field + mid) % 2 ^ 32 * ((whole * field + mid) % 2 ^ 32) % 2 ^ 64

/-- mirrors Stats.cpp:330-410 -/
def squareRoot (n precision : Nat) : Value :=
  let mid := wholeLoop n 64 0 (2 ^ 32 - 1) 0
  if precision ≠ 0 ∧ mid * mid < n then
    let field := fractionalField precision
    let target := n * field % 2 ^ 64 * field % 2 ^ 64
    let r := fractionLoop (current mid field) target precision 0 field 0
    let next := current mid field (r.1 + 1)
    ⟨precision, mid, if (next + 2 ^ 64 - target) % 2 ^ 64 < r.2 then r.1 + 1 else r.1⟩
  else ⟨precision, mid, 0⟩

/-! ## The whole part -/

theorem wholeLoop_eq {n : Nat} : ∀ (k fuel floor ceiling mid : Nat), k < fuel →
    floor < ceiling → ceiling - floor ≤ 2 ^ k → floor * floor ≤ n → n < ceiling * ceiling →
      wholeLoop n fuel floor ceiling mid = Nat.sqrt n := by
  intro k
  induction k with
  | zero =>
    intro fuel floor ceiling mid hfuel hlt hgap hfloor hceiling
    obtain ⟨fuel, rfl⟩ := exists_eq_succ_of_ne_zero (Nat.ne_of_gt hfuel)
    obtain rfl : ceiling = floor + 1 := by omega
    have hhalf : (floor + 1 - floor) / 2 + floor = floor := by omega
    rw [wholeLoop, hhalf, if_pos rfl]
    exact eq_sqrt.mpr ⟨hfloor, hceiling⟩
  | succ k ih =>
    intro fuel floor ceiling mid hfuel hlt hgap hfloor hceiling
    obtain ⟨fuel, rfl⟩ := exists_eq_succ_of_ne_zero (Nat.ne_of_gt (zero_lt_of_lt hfuel))
    rw [wholeLoop]
    split_ifs with hsame hroot hbelow
    · obtain rfl : ceiling = floor + 1 := by omega
      rw [← hsame]
      exact eq_sqrt.mpr ⟨hfloor, hceiling⟩
    · rw [← hroot, sqrt_eq]
    · exact ih _ _ _ _ (by omega) (by omega) (by omega) hbelow.le hceiling
    · exact ih _ _ _ _ (by omega) (by omega) (by omega) hfloor (by omega)

/-- The first ceiling is never the middle. -/
theorem wholeLoop_lt {n bound : Nat} : ∀ (fuel floor ceiling mid : Nat), floor < ceiling →
    ceiling ≤ bound → mid < bound → wholeLoop n fuel floor ceiling mid < bound := by
  intro fuel
  induction fuel with
  | zero => exact fun _ _ _ _ _ hmid => hmid
  | succ fuel ih =>
    intro floor ceiling mid hlt hle hmid
    rw [wholeLoop]
    split_ifs
    · omega
    · omega
    · exact ih _ _ _ (by omega) hle (by omega)
    · exact ih _ _ _ (by omega) (by omega) (by omega)

/-! ## The fractional part -/

/-- The last middle, by its bits: each but the lowest says how a middle compared. -/
theorem fractionLoop_eq (current : Nat → Nat) (target : Nat) {c : Nat} (hc : 0 < c) : ∀ m j mid,
    ∃ k, fractionLoop current target (m + 1) (c * (2 ^ (m + 1) * j))
        (c * (2 ^ (m + 1) * j) + c * 2 ^ (m + 1)) mid = (c * k, 0) ∧
      k % 2 = 1 ∧ k / 2 ^ (m + 1) = j ∧ ∀ d, 0 < d → d ≤ m →
        (current (c * (2 ^ d * (2 * (k / 2 ^ (d + 1)) + 1))) ≤ target ↔ k / 2 ^ d % 2 = 1) := by
  intro m
  induction m with
  | zero =>
    intro j mid
    have hmid : (c * (2 ^ (0 + 1) * j) + c * 2 ^ (0 + 1) - c * (2 ^ (0 + 1) * j)) / 2 +
        c * (2 ^ (0 + 1) * j) = c * (2 * j + 1) := by
      rw [Nat.add_sub_cancel_left, zero_add, pow_one, Nat.mul_div_cancel c (by decide)]
      ring
    have hne : c * (2 ^ (0 + 1) * j) ≠ c * (2 * j + 1) := by
      exact fun h => absurd (Nat.eq_of_mul_eq_mul_left hc h) (by omega)
    refine ⟨2 * j + 1, ?_, by omega, by omega, fun d h0 h1 => absurd h0 (by omega)⟩
    rw [fractionLoop, hmid, if_neg hne]
    split_ifs <;> rfl
  | succ m ih =>
    intro j mid
    have hpow : 2 ^ (m + 1 + 1) = 2 * 2 ^ (m + 1) := by rw [pow_succ, mul_comm]
    have hmid : (c * (2 ^ (m + 1 + 1) * j) + c * 2 ^ (m + 1 + 1) -
        c * (2 ^ (m + 1 + 1) * j)) / 2 + c * (2 ^ (m + 1 + 1) * j) =
        c * (2 ^ (m + 1) * (2 * j + 1)) := by
      rw [Nat.add_sub_cancel_left, hpow, Nat.mul_left_comm c 2,
        Nat.mul_div_cancel_left _ (by decide)]
      ring
    have hfloor : c * (2 ^ (m + 1 + 1) * j) = c * (2 ^ (m + 1) * (2 * j)) := by
      ring
    have hlt : c * (2 ^ (m + 1) * (2 * j)) < c * (2 ^ (m + 1) * (2 * j + 1)) := by
      gcongr
      exact lt_succ_self _
    -- one round halves the interval, to the side that the middle's square tells
    have hround : ∃ j', j' / 2 = j ∧
        (current (c * (2 ^ (m + 1) * (2 * j + 1))) ≤ target ↔ j' % 2 = 1) ∧
        fractionLoop current target (m + 1 + 1) (c * (2 ^ (m + 1 + 1) * j))
          (c * (2 ^ (m + 1 + 1) * j) + c * 2 ^ (m + 1 + 1)) mid =
        fractionLoop current target (m + 1) (c * (2 ^ (m + 1) * j'))
          (c * (2 ^ (m + 1) * j') + c * 2 ^ (m + 1)) (c * (2 ^ (m + 1) * (2 * j + 1))) := by
      rw [fractionLoop, hmid, hfloor, if_neg hlt.ne]
      split_ifs with hle
      · have hceiling : c * (2 ^ (m + 1) * (2 * j)) + c * 2 ^ (m + 1 + 1) =
            c * (2 ^ (m + 1) * (2 * j + 1)) + c * 2 ^ (m + 1) := by
          ring
        exact ⟨2 * j + 1, by omega, by omega, by rw [hceiling]⟩
      · exact ⟨2 * j, by omega, by omega, by rw [← Nat.mul_add, ← mul_add_one]⟩
    obtain ⟨j', hj, hhit, hloop⟩ := hround
    obtain ⟨k, heq, hodd, hdiv, hbits⟩ := ih j' (c * (2 ^ (m + 1) * (2 * j + 1)))
    have hup : k / 2 ^ (m + 1 + 1) = j := by rw [pow_succ, ← Nat.div_div_eq_div_mul, hdiv, hj]
    refine ⟨k, by rw [hloop, heq], hodd, hup, fun d h0 hd => ?_⟩
    rcases Nat.lt_or_ge d (m + 1) with hlt | hge
    · exact hbits d h0 (by omega)
    · obtain rfl : d = m + 1 := by omega
      rw [hup, hdiv]
      exact hhit

/-! ## The result -/

theorem fractionalField_eq (precision : Nat) :
    fractionalField precision = 10 ^ precision % 2 ^ 32 := by
  have hloop : ∀ k, (fun field => field * 10 % 2 ^ 32)^[k] 10 = 10 ^ (k + 1) % 2 ^ 32 := by
    intro k
    induction k with
    | zero => decide
    | succ k ih =>
      rw [Function.iterate_succ_apply', ih, mod_mul_mod, pow_succ 10 (k + 1)]
  cases precision with
  | zero => decide
  | succ precision => exact hloop precision

/-- The bound for which the result is promised. -/
def Fits (n precision : Nat) : Prop := n * 10 ^ (2 * precision) < 2 ^ 64

/-- The whole part is the floor, and the result is off by less than a unit of its precision. -/
def Accurate (n precision : Nat) (r : Value) : Prop :=
  r.whole = Nat.sqrt n ∧ r.fractional < 10 ^ precision ∧
    |(r.whole + r.fractional / 10 ^ precision : ℝ) - √n| < 1 / 10 ^ precision

/-- A number with the fractional digits, at the scale of the search. -/
def scaled (n precision mid : Nat) : Nat := Nat.sqrt n * 10 ^ precision + mid

/-- Some odd multiple of `5 ^ precision` is less than 1 away from the root at the scale of the
search, and no middle on the way to it needs more than 32 bits. -/
def Hit (n precision : Nat) : Prop :=
  ∃ k < 2 ^ precision, k % 2 = 1 ∧
    |(scaled n precision (5 ^ precision * k) : ℝ) - √n * 10 ^ precision| < 1 ∧
    ∀ d < precision,
      scaled n precision (5 ^ precision * (2 ^ d * (2 * (k / 2 ^ (d + 1)) + 1))) < 2 ^ 32

variable {n precision : Nat}

theorem Fits.target (hfits : Fits n precision) : n * 10 ^ precision * 10 ^ precision < 2 ^ 64 ∧
      n * 10 ^ precision % 2 ^ 64 * 10 ^ precision % 2 ^ 64 =
        n * 10 ^ precision * 10 ^ precision := by
  have htarget : n * 10 ^ precision * 10 ^ precision < 2 ^ 64 := by
    rwa [mul_assoc, ← pow_add, ← two_mul]
  have hfirst : n * 10 ^ precision ≤ n * 10 ^ precision * 10 ^ precision :=
    Nat.le_mul_of_pos_right _ (by positivity)
  exact ⟨htarget, by
    rw [mod_eq_of_lt (lt_of_le_of_lt hfirst htarget), mod_eq_of_lt htarget]⟩

theorem Fits.small (hfits : Fits n precision) (hn : 0 < n) : 10 ^ precision < 2 ^ 32 := by
  refine mul_self_lt_mul_self_iff.mp (lt_of_le_of_lt ?_ hfits.target.1)
  rw [mul_assoc]
  exact Nat.le_mul_of_pos_left _ hn

theorem Fits.below (hfits : Fits n precision) (hp : 0 < precision) :
    n < (2 ^ 32 - 1) * (2 ^ 32 - 1) := by
  have hhundred : 10 ^ 2 ≤ 10 ^ (2 * precision) := Nat.pow_le_pow_right (by decide) (by omega)
  have hle : n * 10 ^ 2 ≤ n * 10 ^ (2 * precision) := mul_le_mul_left n hhundred
  unfold Fits at hfits
  omega

/-- The root at the scale of the search. -/
theorem sqrt_mul_field : √(n : ℝ) * 10 ^ precision = √(n * 10 ^ precision * 10 ^ precision) := by
  rw [mul_assoc, Real.sqrt_mul (cast_nonneg n), Real.sqrt_mul_self (by positivity)]

theorem le_sqrt_iff (a : Nat) : (a : ℝ) ≤ √n * 10 ^ precision ↔
    a * a ≤ n * 10 ^ precision * 10 ^ precision := by
  rw [sqrt_mul_field, Real.le_sqrt (cast_nonneg a) (by positivity), ← @Nat.cast_le ℝ, sq]
  push_cast
  rfl

/-- A middle is compared with the root, when it does not wrap. -/
theorem current_le_iff (hfits : Fits n precision) {mid : Nat}
    (hmid : scaled n precision mid < 2 ^ 32) : current (Nat.sqrt n) (10 ^ precision) mid ≤
        n * 10 ^ precision % 2 ^ 64 * 10 ^ precision % 2 ^ 64 ↔
      (scaled n precision mid : ℝ) ≤ √n * 10 ^ precision := by
  have hsquare : scaled n precision mid * scaled n precision mid < 2 ^ 64 :=
    lt_of_lt_of_le (mul_self_lt_mul_self hmid) (by norm_num)
  have hcurrent : current (sqrt n) (10 ^ precision) mid =
      scaled n precision mid * scaled n precision mid := by
    change scaled n precision mid % 2 ^ 32 * (scaled n precision mid % 2 ^ 32) % 2 ^ 64 = _
    rw [mod_eq_of_lt hmid, mod_eq_of_lt hsquare]
  rw [hcurrent, hfits.target.2, le_sqrt_iff]

theorem current_le_of_wraps (hfits : Fits n precision) {mid : Nat} (hlt : mid < 2 ^ 32)
    (hmid : 2 ^ 32 ≤ scaled n precision mid) : current (Nat.sqrt n) (10 ^ precision) mid ≤
      n * 10 ^ precision % 2 ^ 64 * 10 ^ precision % 2 ^ 64 := by
  have hbase : sqrt n * 10 ^ precision * (sqrt n * 10 ^ precision) ≤
      n * 10 ^ precision * 10 ^ precision := by
    calc sqrt n * 10 ^ precision * (sqrt n * 10 ^ precision)
        = sqrt n * sqrt n * 10 ^ precision * 10 ^ precision := by ring
      _ ≤ n * 10 ^ precision * 10 ^ precision := by
        gcongr
        exact sqrt_le n
  have hwrap : scaled n precision mid % 2 ^ 32 ≤ sqrt n * 10 ^ precision := by
    have hhalf : scaled n precision mid % 2 ^ 32 ≤ scaled n precision mid - 2 ^ 32 := by
      rw [mod_eq_sub_mod hmid]
      exact mod_le _ _
    unfold scaled at hhalf ⊢
    omega
  rw [hfits.target.2]
  exact (mod_le _ _).trans ((Nat.mul_le_mul hwrap hwrap).trans hbase)

theorem whole_eq (hn : n < (2 ^ 32 - 1) * (2 ^ 32 - 1)) :
    wholeLoop n 64 0 (2 ^ 32 - 1) 0 = Nat.sqrt n :=
  wholeLoop_eq 32 _ _ _ _ (by decide) (by decide) (by decide) (zero_le _) hn

/-- What is returned when there is a fractional part to search for. -/
theorem squareRoot_eq (hfits : Fits n precision) (hp : 0 < precision) (hn : ¬IsSquare n) :
    ∃ k, squareRoot n precision = ⟨precision, Nat.sqrt n, 5 ^ precision * k⟩ ∧ k % 2 = 1 ∧
      k < 2 ^ precision ∧ ∀ d, 0 < d → d < precision → (current (Nat.sqrt n) (10 ^ precision)
          (5 ^ precision * (2 ^ d * (2 * (k / 2 ^ (d + 1)) + 1))) ≤
          n * 10 ^ precision % 2 ^ 64 * 10 ^ precision % 2 ^ 64 ↔ k / 2 ^ d % 2 = 1) := by
  have hpos : 0 < n := Nat.pos_of_ne_zero fun h => hn ⟨0, h⟩
  have hsmall := hfits.small hpos
  have hbelow := hfits.below hp
  obtain ⟨m, rfl⟩ := exists_eq_succ_of_ne_zero (Nat.ne_of_gt hp)
  have hfield : 5 ^ (m + 1) * 2 ^ (m + 1) = 10 ^ (m + 1) := by rw [← Nat.mul_pow]
  have hc : 0 < 5 ^ (m + 1) := by positivity
  obtain ⟨k, heq, hodd, hdiv, hbits⟩ := fractionLoop_eq (current (sqrt n) (10 ^ (m + 1)))
      (n * 10 ^ (m + 1) % 2 ^ 64 * 10 ^ (m + 1) % 2 ^ 64) hc m 0 0
  rw [Nat.mul_zero, Nat.mul_zero, Nat.zero_add, hfield] at heq
  have hnot : sqrt n * sqrt n < n := lt_of_le_of_ne (sqrt_le n) fun h => hn ⟨_, h.symm⟩
  refine ⟨k, ?_, hodd, ?_, fun d h0 hd => hbits d h0 (by omega)⟩
  · rw [squareRoot, whole_eq hbelow, fractionalField_eq, mod_eq_of_lt hsmall,
      if_pos ⟨succ_ne_zero m, hnot⟩]
    dsimp only
    rw [heq, if_neg (not_lt_zero _)]
  · exact (div_eq_zero_iff_lt (by positivity)).mp hdiv

/-- Two odd numbers whose middles compare alike are one. -/
theorem eq_of_bits {k k' : Nat} (hk : k < 2 ^ precision) (hk' : k' < 2 ^ precision)
    (hodd : k % 2 = k' % 2)
    (hbits : ∀ d, 0 < d → d < precision → k / 2 ^ (d + 1) = k' / 2 ^ (d + 1) →
      (k / 2 ^ d % 2 = 1 ↔ k' / 2 ^ d % 2 = 1)) : k = k' := by
  have hdown : ∀ e d, d + e = precision → k / 2 ^ d = k' / 2 ^ d := by
    intro e
    induction e with
    | zero =>
      rintro d rfl
      rw [Nat.add_zero] at hk hk'
      rw [div_eq_of_lt hk, div_eq_of_lt hk']
    | succ e ih =>
      intro d hd
      have hup := ih (d + 1) (by omega)
      have hhalf : k / 2 ^ d / 2 = k' / 2 ^ d / 2 := by
        rwa [Nat.div_div_eq_div_mul, Nat.div_div_eq_div_mul, ← pow_succ]
      rcases Nat.eq_zero_or_pos d with rfl | hpos
      · rw [pow_zero, Nat.div_one, Nat.div_one] at hhalf ⊢
        omega
      · have hbit := hbits d hpos (by omega) hup
        omega
  simpa using hdown precision 0 (Nat.zero_add _)

/-- The error, at the scale of the search. -/
theorem off_iff (f : Nat) : |(Nat.sqrt n + f / 10 ^ precision : ℝ) - √n| < 1 / 10 ^ precision ↔
    |(scaled n precision f : ℝ) - √n * 10 ^ precision| < 1 := by
  have hfield : (0 : ℝ) < 10 ^ precision := by positivity
  have hscale : (scaled n precision f : ℝ) - √n * 10 ^ precision =
      ((sqrt n + f / 10 ^ precision : ℝ) - √n) * 10 ^ precision := by
    unfold scaled
    push_cast
    field_simp
  rw [hscale, abs_mul, abs_of_pos hfield, lt_div_iff₀ hfield]

/-- A number that is put together around the root does not wrap. -/
theorem scaled_lt (hfits : Fits n precision) (hp : 0 < precision) {k : Nat}
    (hoff : |(scaled n precision (5 ^ precision * k) : ℝ) - √n * 10 ^ precision| < 1) :
    scaled n precision (5 ^ precision * k) < 2 ^ 32 := by
  have hroot : √n * 10 ^ precision < (2 ^ 32 : Nat) := by
    rw [← not_le, le_sqrt_iff, not_le]
    exact lt_of_lt_of_eq hfits.target.1 (by norm_num)
  have hle : (scaled n precision (5 ^ precision * k) : ℝ) < (2 ^ 32 + 1 : Nat) := by
    have habove := (abs_lt.mp hoff).2
    push_cast at hroot ⊢
    linarith
  have hne : scaled n precision (5 ^ precision * k) ≠ 2 ^ 32 := by
    intro heq
    have hten : 5 ∣ 10 ^ precision := dvd_pow (by decide) (by omega)
    have hfive : 5 ∣ 5 ^ precision := dvd_pow_self 5 (by omega)
    have hdvd : 5 ∣ scaled n precision (5 ^ precision * k) :=
      Nat.dvd_add (hten.mul_left _) (hfive.mul_right _)
    rw [heq] at hdvd
    exact absurd hdvd (by decide)
  have hlt := cast_lt.mp hle
  omega

theorem middle_lt {k d : Nat} (hk : k < 2 ^ precision) (hd : d < precision) :
    2 ^ d * (2 * (k / 2 ^ (d + 1)) + 1) < 2 ^ precision := by
  obtain ⟨e, rfl⟩ := Nat.exists_eq_add_of_lt hd
  have hpow : 2 ^ (d + e + 1) = 2 ^ (d + 1) * 2 ^ e := by ring
  have hq : k / 2 ^ (d + 1) < 2 ^ e := Nat.div_lt_of_lt_mul (hpow ▸ hk)
  calc 2 ^ d * (2 * (k / 2 ^ (d + 1)) + 1) < 2 ^ d * (2 * 2 ^ e) := by
        gcongr
        omega
    _ = 2 ^ (d + e + 1) := by ring

theorem half_div (k d : Nat) : k / 2 ^ (d + 1) = k / 2 ^ d / 2 := by
  rw [pow_succ, Nat.div_div_eq_div_mul]

/-- How a middle lies to the root that is next to an odd multiple. -/
theorem middle_le_iff (hp : 0 < precision) {k d : Nat} (hodd : k % 2 = 1) (hd : 0 < d)
    (hoff : |(scaled n precision (5 ^ precision * k) : ℝ) - √n * 10 ^ precision| < 1) :
    (scaled n precision (5 ^ precision * (2 ^ d * (2 * (k / 2 ^ (d + 1)) + 1))) : ℝ) ≤
      √n * 10 ^ precision ↔ k / 2 ^ d % 2 = 1 := by
  obtain ⟨hbelow, habove⟩ := abs_lt.mp hoff
  have hfive : 1 < 5 ^ precision := one_lt_pow (by omega) (by decide)
  have hdiv := div_add_mod k (2 ^ d)
  obtain ⟨h, hh⟩ : 2 ∣ 2 ^ d * (k / 2 ^ d) := (dvd_pow_self 2 hd.ne').mul_right _
  rw [half_div]
  constructor
  · intro hle
    by_contra heven
    have hnext : 2 * (k / 2 ^ d / 2) + 1 = k / 2 ^ d + 1 := by omega
    have hmul : 5 ^ precision * (k + 1) ≤ 5 ^ precision * (2 ^ d * (k / 2 ^ d + 1)) := by
      gcongr
      rw [mul_add_one]
      omega
    have hstep : scaled n precision (5 ^ precision * k) + 5 ^ precision ≤
        scaled n precision (5 ^ precision * (2 ^ d * (k / 2 ^ d + 1))) := by
      unfold scaled
      rw [mul_add_one] at hmul
      omega
    rw [hnext] at hle
    have hreal : (scaled n precision (5 ^ precision * k) + 1 : ℝ) ≤
        scaled n precision (5 ^ precision * (2 ^ d * (k / 2 ^ d + 1))) := by
      exact_mod_cast (Nat.add_le_add_left hfive.le _).trans hstep
    linarith
  · intro hbit
    have hsame : 2 * (k / 2 ^ d / 2) + 1 = k / 2 ^ d := by omega
    have hmul : 5 ^ precision * (2 ^ d * (k / 2 ^ d) + 1) ≤ 5 ^ precision * k := by
      gcongr
      omega
    have hstep : scaled n precision (5 ^ precision * (2 ^ d * (k / 2 ^ d))) + 5 ^ precision ≤
        scaled n precision (5 ^ precision * k) := by
      unfold scaled
      rw [mul_add_one] at hmul
      omega
    rw [hsame]
    have hreal : (scaled n precision (5 ^ precision * (2 ^ d * (k / 2 ^ d))) + 1 : ℝ) ≤
        scaled n precision (5 ^ precision * k) := by
      exact_mod_cast (Nat.add_le_add_left hfive.le _).trans hstep
    linarith

/-- Without a fractional part to search for. -/
theorem accurate_whole (hn : n < (2 ^ 32 - 1) * (2 ^ 32 - 1))
    (hnone : precision = 0 ∨ IsSquare n) : Accurate n precision (squareRoot n precision) := by
  have hroot : squareRoot n precision = ⟨precision, sqrt n, 0⟩ := by
    rw [squareRoot, whole_eq hn, if_neg]
    rintro ⟨hp, hlt⟩
    obtain ⟨m, rfl⟩ := hnone.resolve_left hp
    rw [sqrt_eq] at hlt
    exact lt_irrefl _ hlt
  rw [hroot]
  refine ⟨rfl, by positivity, ?_⟩
  rw [cast_zero, zero_div, add_zero]
  rcases hnone with rfl | ⟨m, rfl⟩
  · have hle := Real.nat_sqrt_le_real_sqrt (a := n)
    have hlt := Real.real_sqrt_lt_nat_sqrt_succ (a := n)
    rw [pow_zero, div_one, abs_lt]
    constructor <;> linarith
  · rw [sqrt_eq, cast_mul, Real.sqrt_mul_self (cast_nonneg m), sub_self, abs_zero]
    positivity

/-- **When the result is accurate**: without a fractional part, unless the root is the largest
number; with one, for a square and where the root is next to the last middle. -/
theorem accurate_iff (hfits : Fits n precision) :
    Accurate n precision (squareRoot n precision) ↔
      n < (2 ^ 32 - 1) * (2 ^ 32 - 1) ∧ (precision = 0 ∨ IsSquare n ∨ Hit n precision) := by
  rcases Nat.eq_zero_or_pos precision with rfl | hp
  · refine ⟨fun h => ⟨?_, .inl rfl⟩, fun h => accurate_whole h.1 (.inl rfl)⟩
    have hlt : wholeLoop n 64 0 (2 ^ 32 - 1) 0 < 2 ^ 32 - 1 :=
      wholeLoop_lt _ _ _ _ (by decide) le_rfl (by decide)
    have hwhole : wholeLoop n 64 0 (2 ^ 32 - 1) 0 = sqrt n := h.1
    rwa [hwhole, sqrt_lt] at hlt
  have hbelow := hfits.below hp
  by_cases hsquare : IsSquare n
  · exact iff_of_true (accurate_whole hbelow (.inr hsquare)) ⟨hbelow, .inr (.inl hsquare)⟩
  obtain ⟨k, heq, hodd, hk, hbits⟩ := squareRoot_eq hfits hp hsquare
  have hfield : 5 ^ precision * 2 ^ precision = 10 ^ precision := by rw [← Nat.mul_pow]
  have hlt : 5 ^ precision * k < 10 ^ precision := by
    rw [← hfield]
    gcongr
  have hmiddle : ∀ d, scaled n precision (5 ^ precision * (2 ^ d * (k / 2 ^ d))) ≤
      scaled n precision (5 ^ precision * k) := by
    intro d
    unfold scaled
    gcongr
    exact mul_div_le k _
  rw [heq, Accurate, off_iff]
  constructor
  · rintro ⟨-, -, hoff⟩
    have hsmall := scaled_lt hfits hp hoff
    refine ⟨hbelow, .inr (.inr ⟨k, hk, hodd, hoff, fun d hd => ?_⟩)⟩
    by_contra hwrap
    refine hwrap (lt_of_le_of_lt ?_ hsmall)
    have hbit : k / 2 ^ d % 2 = 1 := by
      rcases Nat.eq_zero_or_pos d with rfl | hpos
      · rwa [pow_zero, Nat.div_one]
      · refine (hbits d hpos hd).mp (current_le_of_wraps hfits ?_ (not_lt.mp hwrap))
        refine lt_trans ?_ (hfits.small (Nat.pos_of_ne_zero fun h => hsquare ⟨0, h⟩))
        rw [← hfield]
        gcongr
        exact middle_lt hk hd
    have hsame : 2 * (k / 2 ^ (d + 1)) + 1 = k / 2 ^ d := by
      rw [half_div]
      omega
    rw [hsame]
    exact hmiddle d
  · rintro ⟨-, h⟩
    obtain ⟨k', hk', hodd', hoff, hsmall⟩ := (h.resolve_left (by omega)).resolve_left hsquare
    obtain rfl : k = k' := by
      refine eq_of_bits hk hk' (by omega) fun d hpos hd hup => ?_
      rw [← hbits d hpos hd, hup, current_le_iff hfits (hsmall d hd)]
      exact middle_le_iff hp hodd' hpos hoff
    exact ⟨rfl, hlt, hoff⟩

/-- The root of 2 to one digit is returned as 1.5. -/
theorem accurate_two : Accurate 2 1 (squareRoot 2 1) := by
  have hone : sqrt 2 = 1 := (eq_sqrt.mpr ⟨by decide, by decide⟩).symm
  have hscaled : scaled 2 1 (5 ^ 1 * 1) = 15 := by simp [scaled, hone]
  have hlow : (1.4 : ℝ) < √(2 : Nat) := Real.lt_sqrt_of_sq_lt (by norm_num)
  have hhigh : √(2 : Nat) < (1.6 : ℝ) := (Real.sqrt_lt' (by norm_num)).mpr (by norm_num)
  have hhit : Hit 2 1 := by
    refine ⟨1, by decide, by decide, ?_, fun d hd => ?_⟩
    · rw [hscaled, abs_lt]
      constructor <;> push_cast at * <;> linarith
    · obtain rfl : d = 0 := by omega
      norm_num [scaled, hone]
  exact (accurate_iff (by unfold Fits; norm_num)).mpr ⟨by norm_num, .inr (.inr hhit)⟩

/-- The root of 3 to one digit is returned as 1.5. -/
theorem three_misses : ¬∀ n precision, Fits n precision →
    Accurate n precision (squareRoot n precision) := by
  intro h
  have hfits : Fits 3 1 := by unfold Fits; norm_num
  have hone : sqrt 3 = 1 := (eq_sqrt.mpr ⟨by decide, by decide⟩).symm
  have hthree : ¬IsSquare 3 := by
    rintro ⟨m, hm⟩
    have hm' : sqrt 3 = m := by rw [hm, sqrt_eq]
    obtain rfl := hone.symm.trans hm'
    exact absurd hm (by decide)
  obtain ⟨k, heq, hodd, hk, -⟩ := squareRoot_eq hfits Nat.one_pos hthree
  obtain rfl : k = 1 := by omega
  obtain ⟨-, -, hoff⟩ := heq ▸ h 3 1 hfits
  have hroot : (1.7 : ℝ) ≤ √(3 : Nat) := Real.le_sqrt_of_sq_le (by norm_num)
  have hbelow := (abs_lt.mp hoff).1
  linarith

end Atcd.Stats
