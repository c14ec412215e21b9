import Mathlib
/-!
# Rounding to a number of significant bits

A rational is rounded to the nearest multiple of the power of two that leaves `p` significant
bits, ties to the even multiple, sign and magnitude apart. Exponents have no bounds.

Results:
- `round_le`, `le_round`: rounding does not pass a number of `p` significant bits;
- `round_eq`: such a number is its own rounding;
- `round_isInt`: an integer is rounded to an integer;
- `trunc_round_div`: a rounded quotient of small integers truncates to the integer quotient.
-/
namespace Atcd.Core.Rounding

open Int

/-- The nearest integer, the even one of two that are equally near. -/
def roundEven (z : ℚ) : ℤ :=
  if z - ⌊z⌋ < 1 / 2 then ⌊z⌋
  else if 1 / 2 < z - ⌊z⌋ then ⌊z⌋ + 1
  else if ⌊z⌋ % 2 = 0 then ⌊z⌋ else ⌊z⌋ + 1

def roundMag (p : ℕ) (x : ℚ) : ℚ :=
  roundEven (x / 2 ^ (Int.log 2 x + 1 - p)) * 2 ^ (Int.log 2 x + 1 - p)

def round (p : ℕ) (x : ℚ) : ℚ := if x < 0 then -roundMag p (-x) else roundMag p x

/-- The integer part, towards zero. -/
def trunc (x : ℚ) : ℤ := if x < 0 then ⌈x⌉ else ⌊x⌋

def Representable (p : ℕ) (y : ℚ) : Prop := ∃ m k : ℤ, |m| ≤ 2 ^ p ∧ y = m * 2 ^ k

section Nearest

variable {z : ℚ} {n : ℤ}

theorem le_roundEven (h : (n : ℚ) ≤ z) : n ≤ roundEven z := by
  have hf : n ≤ ⌊z⌋ := le_floor.mpr h
  unfold roundEven
  split_ifs <;> omega

theorem roundEven_le (h : z ≤ n) : roundEven z ≤ n := by
  have hf : ⌊z⌋ ≤ n := by exact_mod_cast (floor_le z).trans h
  -- above the floor only when the number is not an integer
  have hup : (1 : ℚ) / 2 ≤ z - ⌊z⌋ → ⌊z⌋ + 1 ≤ n := by
    intro hhalf
    by_contra hlt
    have heq : n = ⌊z⌋ := by omega
    rw [heq] at h
    linarith
  unfold roundEven
  split_ifs with h1 h2 h3
  · exact hf
  · exact hup h2.le
  · exact hf
  · exact hup (not_lt.mp h1)

end Nearest

section Magnitude

variable {p : ℕ} {x y : ℚ}

theorem Representable.neg (hy : Representable p y) : Representable p (-y) := by
  obtain ⟨m, k, hm, rfl⟩ := hy
  refine ⟨-m, k, by simpa using hm, ?_⟩
  push_cast
  ring

theorem representable_int {n : ℤ} (hn : |n| ≤ 2 ^ p) : Representable p n := ⟨n, 0, hn, by simp⟩

@[simp] theorem roundMag_zero (p : ℕ) : roundMag p 0 = 0 := by
  simp [roundMag, roundEven]

/-- Number of few bits over a coarser power of two: below the leading power of two. -/
theorem coarse_le {m k e : ℤ} (hm : |m| ≤ 2 ^ p) (hk : k < e) :
    (m : ℚ) * 2 ^ k ≤ 2 ^ (e - 1 + p) := by
  have hcast : (m : ℚ) ≤ 2 ^ p := by exact_mod_cast (le_abs_self m).trans hm
  calc (m : ℚ) * 2 ^ k ≤ 2 ^ p * 2 ^ k := by gcongr
    _ ≤ 2 ^ p * 2 ^ (e - 1) := by
      gcongr
      · norm_num
      · omega
    _ = 2 ^ (e - 1 + p) := by rw [zpow_add₀ (by norm_num), zpow_natCast, mul_comm]

/-- Number over a finer power of two: a whole multiple of it. -/
theorem fine_eq {m k e : ℤ} (hk : e ≤ k) :
    ((m * 2 ^ (k - e).toNat : ℤ) : ℚ) * 2 ^ e = m * 2 ^ k := by
  have hexp : ((k - e).toNat : ℤ) = k - e := by omega
  push_cast
  rw [mul_assoc, ← zpow_natCast, ← zpow_add₀ (by norm_num), hexp, sub_add_cancel]

theorem le_roundMag (hp : 0 < p) (hx : 0 < x) (hy : Representable p y) (h : y ≤ x) :
    y ≤ roundMag p x := by
  obtain ⟨m, k, hm, rfl⟩ := hy
  have hpos : (0 : ℚ) < 2 ^ (log 2 x + 1 - p) := by positivity
  unfold roundMag
  generalize he : log 2 x + 1 - p = e at hpos
  have hlog : log 2 x = e - 1 + p := by omega
  by_cases hk : e ≤ k
  · rw [← fine_eq hk] at h ⊢
    gcongr
    apply le_roundEven
    rwa [le_div_iff₀ hpos]
  · -- the leading power of two is itself a multiple
    have hlead : ((2 : ℚ)) ^ (e - 1 + p) ≤ x := by
      rw [← hlog]
      exact_mod_cast zpow_log_le_self (R := ℚ) (b := 2) (by norm_num) hx
    refine (coarse_le hm (not_le.mp hk)).trans ?_
    have hone := fine_eq (m := 1) (k := e - 1 + p) (e := e) (by omega)
    rw [one_mul, cast_one, one_mul] at hone
    rw [← hone] at hlead ⊢
    gcongr
    apply le_roundEven
    rwa [le_div_iff₀ hpos]

theorem roundMag_le (hp : 0 < p) (hx : 0 < x) (hy : Representable p y) (h : x ≤ y) :
    roundMag p x ≤ y := by
  obtain ⟨m, k, hm, rfl⟩ := hy
  have hpos : (0 : ℚ) < 2 ^ (log 2 x + 1 - p) := by positivity
  have hlead : ((2 : ℚ)) ^ log 2 x ≤ x := by
    exact_mod_cast zpow_log_le_self (R := ℚ) (b := 2) (by norm_num) hx
  unfold roundMag
  generalize he : log 2 x + 1 - p = e at hpos
  have hlog : log 2 x = e - 1 + p := by omega
  rw [hlog] at hlead
  by_cases hk : e ≤ k
  · rw [← fine_eq hk] at h ⊢
    gcongr
    apply roundEven_le
    rwa [div_le_iff₀ hpos]
  · -- then the number is the leading power of two
    have hcoarse := coarse_le hm (not_le.mp hk)
    have hone := fine_eq (m := 1) (k := e - 1 + p) (e := e) (by omega)
    rw [one_mul, cast_one, one_mul] at hone
    have hx' : x ≤ 2 ^ (e - 1 + p) := h.trans hcoarse
    have hy' : (2 : ℚ) ^ (e - 1 + p) ≤ m * 2 ^ k := hlead.trans h
    refine le_trans ?_ hy'
    rw [← hone] at hx' ⊢
    gcongr
    apply roundEven_le
    rwa [div_le_iff₀ hpos]

end Magnitude

section Signed

variable {p : ℕ} {x y : ℚ}

theorem round_neg (p : ℕ) (x : ℚ) : round p (-x) = -round p x := by
  unfold round
  rcases lt_trichotomy x 0 with h | rfl | h
  · rw [if_neg (by linarith), if_pos h, neg_neg]
  · simp
  · rw [if_pos (by linarith), if_neg (by linarith), neg_neg]

theorem zero_representable (p : ℕ) : Representable p 0 := ⟨0, 0, by simp, by simp⟩

theorem le_round (hp : 0 < p) (hy : Representable p y) (h : y ≤ x) : y ≤ round p x := by
  unfold round
  split_ifs with hx
  · rw [le_neg]
    exact roundMag_le hp (by linarith) hy.neg (by linarith)
  · rcases (not_lt.mp hx).eq_or_lt with rfl | hx
    · simpa using h
    · exact le_roundMag hp hx hy h

theorem round_le (hp : 0 < p) (hy : Representable p y) (h : x ≤ y) : round p x ≤ y := by
  have hneg := le_round hp hy.neg (neg_le_neg h)
  rw [round_neg] at hneg
  linarith

theorem round_eq (hp : 0 < p) (hy : Representable p y) : round p y = y :=
  le_antisymm (round_le hp hy le_rfl) (le_round hp hy le_rfl)

theorem round_int (hp : 0 < p) {n : ℤ} (hn : |n| ≤ 2 ^ p) : round p n = n :=
  round_eq hp (representable_int hn)

@[simp] theorem trunc_int (n : ℤ) : trunc n = n := by
  unfold trunc
  split_ifs <;> simp

theorem trunc_neg (x : ℚ) : trunc (-x) = -trunc x := by
  unfold trunc
  rcases lt_trichotomy x 0 with h | rfl | h
  · rw [if_neg (by linarith), if_pos h, floor_neg]
  · simp
  · rw [if_pos (by linarith), if_neg (by linarith), ceil_neg]

theorem round_isInt (hp : 0 < p) (n : ℤ) : ∃ k : ℤ, round p n = k := by
  have hmag : ∀ m : ℕ, ∃ k : ℤ, round p ((m : ℤ) : ℚ) = k := by
    intro m
    by_cases hm : m ≤ 2 ^ p
    · exact ⟨m, round_int hp (by rw [Nat.abs_cast]; exact_mod_cast hm)⟩
    · have hbig : p ≤ Nat.log 2 m := Nat.le_log_of_pow_le (by norm_num) (by omega)
      have hexp : ((Nat.log 2 m + 1 - p : ℕ) : ℤ) = Nat.log 2 m + 1 - p := by omega
      refine ⟨roundEven ((m : ℚ) / 2 ^ (log 2 (m : ℚ) + 1 - p)) *
        2 ^ (Nat.log 2 m + 1 - p), ?_⟩
      rw [round, if_neg (by push_cast; linarith [(Nat.cast_nonneg m : (0 : ℚ) ≤ m)])]
      unfold roundMag
      rw [cast_natCast, log_natCast, ← hexp, zpow_natCast]
      push_cast
      ring
  obtain ⟨m, rfl | rfl⟩ := Int.eq_nat_or_neg n
  · exact hmag m
  · obtain ⟨k, hk⟩ := hmag m
    refine ⟨-k, ?_⟩
    rw [cast_neg, round_neg, hk, cast_neg]

theorem le_trunc {n : ℤ} {x : ℚ} (h : (n : ℚ) ≤ x) : n ≤ trunc x := by
  unfold trunc
  split_ifs
  · exact_mod_cast h.trans (le_ceil x)
  · exact le_floor.mpr h

theorem trunc_le {n : ℤ} {x : ℚ} (h : x ≤ n) : trunc x ≤ n := by
  unfold trunc
  split_ifs
  · exact ceil_le.mpr h
  · exact_mod_cast (floor_le x).trans h

end Signed

section Quotient

variable {p : ℕ}

/-- Last number of few bits before the next integer, still over the quotient. -/
theorem floor_round_div (hp : 0 < p) {a b : ℕ} (hb : 0 < b) (hsmall : 2 * (a + b) ≤ 2 ^ p) :
    ⌊round p ((a : ℚ) / b)⌋ = (a / b : ℕ) := by
  obtain ⟨hlow, hhigh⟩ : b ≤ 2 ^ Nat.clog 2 b ∧ 2 ^ Nat.clog 2 b ≤ 2 * b := by
    refine ⟨Nat.le_pow_clog (by norm_num) b, ?_⟩
    rcases Nat.lt_or_ge 1 b with h1 | h1
    · have hlt := Nat.pow_pred_clog_lt_self (b := 2) (by norm_num) h1
      have hpos := Nat.clog_pos (b := 2) (by norm_num) h1
      have hsucc : 2 ^ Nat.clog 2 b = 2 * 2 ^ (Nat.clog 2 b).pred := by
        rw [← pow_succ']
        congr 1
        exact (Nat.succ_pred_eq_of_pos hpos).symm
      omega
    · simp [Nat.clog_of_right_le_one h1]
      omega
  generalize Nat.clog 2 b = k at hlow hhigh
  have hdiv := Nat.div_mul_le_self a b
  have hlt := Nat.lt_div_mul_add (a := a) hb
  generalize a / b = n at hdiv hlt
  have hbq : (0 : ℚ) < b := by exact_mod_cast hb
  rw [floor_eq_iff]
  refine ⟨?_, ?_⟩
  · apply le_round hp (representable_int _)
    · rw [le_div_iff₀ hbq]
      exact_mod_cast hdiv
    · have hn : n ≤ n * b := Nat.le_mul_of_pos_right n hb
      exact_mod_cast (by omega : n ≤ 2 ^ p)
  · -- the next integer less one part in `2 ^ k`
    have hrep : Representable p ((((n + 1) * 2 ^ k - 1 : ℕ) : ℤ) * 2 ^ (-(k : ℤ))) := by
      refine ⟨_, _, ?_, rfl⟩
      have hprod : (n + 1) * 2 ^ k ≤ (n + 1) * (2 * b) := Nat.mul_le_mul_left _ hhigh
      have hsum : (n + 1) * (2 * b) = 2 * (n * b) + 2 * b := by ring
      exact_mod_cast (by omega : (n + 1) * 2 ^ k - 1 ≤ 2 ^ p)
    have hpos : 1 ≤ (n + 1) * 2 ^ k := Nat.mul_pos (by omega) (by positivity)
    have hval : ((((n + 1) * 2 ^ k - 1 : ℕ) : ℤ) : ℚ) * 2 ^ (-(k : ℤ)) = n + 1 - 1 / 2 ^ k := by
      rw [zpow_neg, zpow_natCast]
      push_cast [hpos]
      field_simp
    rw [hval] at hrep
    have hle : (a : ℚ) / b ≤ n + 1 - 1 / 2 ^ k := by
      have hnum : (a : ℚ) + 1 ≤ (n + 1) * b := by
        have hnat : a + 1 ≤ (n + 1) * b := by
          rw [Nat.add_mul, Nat.one_mul]
          omega
        exact_mod_cast hnat
      have hfrac : (1 : ℚ) / 2 ^ k ≤ 1 / b := by
        apply one_div_le_one_div_of_le hbq
        exact_mod_cast hlow
      calc (a : ℚ) / b ≤ ((n + 1) * b - 1) / b := by gcongr; linarith
        _ = n + 1 - 1 / b := by field_simp
        _ ≤ n + 1 - 1 / 2 ^ k := by linarith
    have hround := round_le hp hrep hle
    have hpart : (0 : ℚ) < 1 / 2 ^ k := by positivity
    push_cast
    linarith

theorem round_nonneg (hp : 0 < p) {x : ℚ} (hx : 0 ≤ x) : 0 ≤ round p x :=
  le_round hp (zero_representable p) hx

theorem trunc_of_nonneg {x : ℚ} (hx : 0 ≤ x) : trunc x = ⌊x⌋ := if_neg (not_lt.mpr hx)

theorem trunc_round_div (hp : 0 < p) {a b : ℤ} (hb : b ≠ 0)
    (hsmall : 2 * (a.natAbs + b.natAbs) ≤ 2 ^ p) :
    trunc (round p ((a : ℚ) / b)) = a.tdiv b := by
  obtain ⟨m, ha⟩ := Int.eq_nat_or_neg a
  obtain ⟨n, hbn⟩ := Int.eq_nat_or_neg b
  have hmag : trunc (round p (((m : ℤ) : ℚ) / ((n : ℤ) : ℚ))) = (m : ℤ).tdiv n := by
    rw [trunc_of_nonneg (round_nonneg hp (by positivity))]
    have hfloor := floor_round_div hp (a := m) (b := n) (by omega) (by omega)
    simpa using hfloor
  rcases ha with rfl | rfl <;> rcases hbn with rfl | rfl
  · exact hmag
  · rw [Int.tdiv_neg, Int.cast_neg, div_neg, round_neg, trunc_neg, hmag]
  · rw [Int.neg_tdiv, Int.cast_neg, neg_div, round_neg, trunc_neg, hmag]
  · rw [Int.neg_tdiv, Int.tdiv_neg, Int.cast_neg, Int.cast_neg, neg_div_neg_eq, neg_neg, hmag]

end Quotient

end Atcd.Core.Rounding
