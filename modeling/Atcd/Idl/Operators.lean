import Atcd.Idl.Folding
/-!
# One operator of a constant expression

An operator whose operands are in range, evaluated for an integer type: it gives the exact
value, or none if that is out of range, if and only if it is sound on them.

Results:
- `binary_sound`: for the binary operators;
- `unary_sound`: for the unary ones.
-/
namespace Atcd.Idl

open Atcd.Core.Rounding Option IntType Int

section Bits

def Fits (n : Nat) (a : Int) : Prop := -2 ^ n ≤ a ∧ a < 2 ^ n

theorem fits_ofNat {n m : Nat} : Fits n (Int.ofNat m) ↔ m < 2 ^ n := by
  rw [ofNat_eq_natCast]
  constructor
  · intro h
    exact_mod_cast h.2
  · intro h
    have hpos : (0 : Int) < 2 ^ n := by positivity
    exact ⟨by omega, by exact_mod_cast h⟩

theorem fits_negSucc {n m : Nat} : Fits n (Int.negSucc m) ↔ m < 2 ^ n := by
  unfold Fits
  have hcast : ((2 ^ n : Nat) : Int) = 2 ^ n := by push_cast; rfl
  omega

variable {n : Nat} {a b : Int}

theorem fits_lor (ha : Fits n a) (hb : Fits n b) : Fits n (a.lor b) := by
  rcases a with a | a <;> rcases b with b | b <;>
    simp only [lor, fits_ofNat, fits_negSucc, ← ofNat_eq_natCast] at ha hb ⊢
  · exact Nat.or_lt_two_pow ha hb
  · exact Nat.bitwise_lt_two_pow hb ha
  · exact Nat.bitwise_lt_two_pow ha hb
  · exact Nat.and_lt_two_pow _ hb

theorem fits_xor (ha : Fits n a) (hb : Fits n b) : Fits n (a.xor b) := by
  rcases a with a | a <;> rcases b with b | b <;>
    simp only [Int.xor, fits_ofNat, fits_negSucc, ← Int.ofNat_eq_natCast] at ha hb ⊢ <;>
    exact Nat.xor_lt_two_pow ha hb

theorem fits_land (ha : Fits n a) (hb : Fits n b) : Fits n (a.land b) := by
  rcases a with a | a <;> rcases b with b | b <;>
    simp only [land, fits_ofNat, fits_negSucc, ← ofNat_eq_natCast] at ha hb ⊢
  · exact Nat.and_lt_two_pow _ hb
  · exact Nat.bitwise_lt_two_pow ha hb
  · exact Nat.bitwise_lt_two_pow hb ha
  · exact Nat.or_lt_two_pow ha hb

theorem nonneg_bits (ha : 0 ≤ a) (hb : 0 ≤ b) : 0 ≤ a.lor b ∧ 0 ≤ a.xor b ∧ 0 ≤ a.land b := by
  lift a to Nat using ha
  lift b to Nat using hb
  exact ⟨natCast_nonneg _, natCast_nonneg _, natCast_nonneg _⟩

/-- A range is one of numbers with a sign, or of those without. -/
theorem holds_iff_fits (t : IntType) :
    (∃ n, ∀ v, t.Holds v ↔ Fits n v) ∨ ∃ n, ∀ v, t.Holds v ↔ 0 ≤ v ∧ Fits n v := by
  unfold Fits IntType.Holds
  cases t with
  | short => exact .inl ⟨15, fun v => by simp only [lo, hi]; omega⟩
  | ushort => exact .inr ⟨16, fun v => by simp only [lo, hi]; omega⟩
  | long => exact .inl ⟨31, fun v => by simp only [lo, hi]; omega⟩
  | ulong => exact .inr ⟨32, fun v => by simp only [lo, hi]; omega⟩
  | longlong => exact .inl ⟨63, fun v => by simp only [lo, hi]; omega⟩
  | ulonglong => exact .inr ⟨64, fun v => by simp only [lo, hi]; omega⟩
  | char => exact .inl ⟨7, fun v => by simp only [lo, hi]; omega⟩

variable {t : IntType}

theorem holds_bits (ha : t.Holds a) (hb : t.Holds b) :
    t.Holds (a.lor b) ∧ t.Holds (a.xor b) ∧ t.Holds (a.land b) := by
  rcases holds_iff_fits t with ⟨n, h⟩ | ⟨n, h⟩
  · simp only [h] at ha hb ⊢
    exact ⟨fits_lor ha hb, fits_xor ha hb, fits_land ha hb⟩
  · simp only [h] at ha hb ⊢
    obtain ⟨hor, hxor, hand⟩ := nonneg_bits ha.1 hb.1
    exact ⟨⟨hor, fits_lor ha.2 hb.2⟩, ⟨hxor, fits_xor ha.2 hb.2⟩, ⟨hand, fits_land ha.2 hb.2⟩⟩

theorem lo_le_zero (t : IntType) : t.lo ≤ 0 ∧ 0 ≤ t.hi := by cases t <;> decide

theorem holds_between {v : Int} (ha : t.Holds a) (hlow : min a 0 ≤ v) (hhigh : v ≤ max a 0) :
    t.Holds v := by
  obtain ⟨hlo, hhi⟩ := lo_le_zero t
  obtain ⟨h1, h2⟩ := ha
  exact ⟨by omega, by omega⟩

theorem holds_tmod (ha : t.Holds a) : t.Holds (a.tmod b) := by
  apply holds_between ha
  all_goals
    have habs := natAbs_tmod a b
    have hle := Nat.mod_le a.natAbs b.natAbs
    rcases le_total 0 a with h | h
    · have := tmod_nonneg b h
      omega
    · have := tmod_nonneg b (a := -a) (by omega)
      rw [neg_tmod] at this
      omega

theorem holds_shiftRight (ha : t.Holds a) (k : Nat) : t.Holds (a / 2 ^ k) := by
  have hpos : (0 : Int) < 2 ^ k := by positivity
  apply holds_between ha
  · rcases le_total 0 a with h | h
    · have := ediv_nonneg h hpos.le
      omega
    · have : a ≤ a / 2 ^ k := by
        rw [Int.le_ediv_iff_mul_le hpos]
        nlinarith
      omega
  · rcases le_total 0 a with h | h
    · have := ediv_le_self (2 ^ k) h
      omega
    · have := Int.ediv_nonpos_of_nonpos_of_neg h hpos
      omega

end Bits

section Words

variable {P : DataModel} {t : IntType} {v w : Int}

def word (t : IntType) (v : Int) : ExprValue := .int (.ofInt t v)

theorem word_congr : word t v = word t w ↔ t.wrap v = t.wrap w := by
  simp [word, Word.ofInt]

theorem word_wrap (t : IntType) (v : Int) : word t (t.wrap v) = word t v :=
  word_congr.mpr (wrap_of_holds (t.wrap_holds v))

theorem evalKind_word : evalKind P (.int t) (some (word t v)) = some (word t v) :=
  coerceValue_same (P := P) (Word.ofInt t v)

/-- What a type keeps of a result that it stores: the result, where it is in range. -/
theorem word_keep : some (word t v) = (keep t v).map (word t) ↔ t.Holds v := by
  by_cases h : t.Holds v
  · simp [keep_of_holds h, h]
  · simp [keep_eq_none.mpr h, h]

theorem keep_word (h : t.Holds v) : (keep t v).map (word t) = some (word t v) :=
  (word_keep.mpr h).symm

theorem keep_out (h : ¬t.Holds v) : (keep t v).map (word t) = none := by
  rw [keep_eq_none.mpr h, map_none]

/-- A conversion to a type gives the word that is equal modulo the width. -/
theorem coerceValue_double {d : ℚ} (h : ¬(doubleHi P t < d ∨ d < t.lo)) :
    coerceValue P (.double d) (.int t) = some (word t (trunc d)) := by
  simp only [coerceValue]
  rw [if_neg h, word]

theorem coerceValue_double_out {d : ℚ} (h : doubleHi P t < d ∨ d < t.lo) :
    coerceValue P (.double d) (.int t) = none := by
  simp only [coerceValue]
  rw [if_pos h]

end Words

section Doubles

variable {P : DataModel} {t : IntType}

def Narrow (t : IntType) : Prop := t = .short ∨ t = .ushort ∨ t = .long ∨ t = .ulong

theorem Narrow.holds {v : Int} (ht : Narrow t) (h : t.Holds v) : |v| ≤ 2 ^ 32 := by
  rw [abs_le]
  unfold IntType.Holds at h
  rcases ht with rfl | rfl | rfl | rfl <;> simp only [lo, hi] at h <;> omega

theorem toDouble_int {v : Int} (h : |v| ≤ 2 ^ 53) : toDouble v = v := round_int (by norm_num) h

theorem toDouble_le {x : ℚ} {v : Int} (hv : |v| ≤ 2 ^ 53) (h : x ≤ v) : toDouble x ≤ v :=
  round_le (by norm_num) (representable_int hv) h

theorem le_toDouble {x : ℚ} {v : Int} (hv : |v| ≤ 2 ^ 53) (h : v ≤ x) : v ≤ toDouble x :=
  le_round (by norm_num) (representable_int hv) h

theorem representable_pow (k : Nat) : Representable 53 ((2 ^ k : Int) : ℚ) :=
  ⟨1, k, by norm_num, by simp⟩

/-- The greatest values of 64 bits are rounded up. -/
theorem toDouble_wide_hi : toDouble IntType.longlong.hi = (2 ^ 63 : Int) ∧
    toDouble IntType.ulonglong.hi = (2 ^ 64 : Int) := by decide_cbv

theorem doubleHi_longlong : doubleHi P .longlong = (2 ^ 63 : Int) := by
  exact toDouble_wide_hi.1

theorem doubleHi_ulonglong : doubleHi P .ulonglong = (2 ^ 64 : Int) := by
  exact toDouble_wide_hi.2

theorem doubleHi_lp64 : doubleHi .lp64 .long = (2 ^ 63 : Int) := by
  exact toDouble_wide_hi.1

theorem hi_le_doubleHi (P : DataModel) (t : IntType) : (t.hi : ℚ) ≤ doubleHi P t := by
  have hsmall : |t.hi| ≤ 2 ^ 53 → (t.hi : ℚ) ≤ doubleHi P t := by
    intro h
    apply le_toDouble h
    split_ifs with hlong
    · subst hlong
      cases P <;> norm_num [hi, DataModel.longMax]
    · exact le_rfl
  cases t with
  | longlong =>
    rw [doubleHi_longlong]
    norm_num [hi]
  | ulonglong =>
    rw [doubleHi_ulonglong]
    norm_num [hi]
  | _ => exact hsmall (by decide)

theorem doubleHi_narrow (ht : Narrow t) (h : ¬(t = .long ∧ P = .lp64)) : doubleHi P t = t.hi := by
  have hmax : (if t = .long then (P.longMax : ℚ) else t.hi) = t.hi := by
    split_ifs with hlong
    · subst hlong
      cases P with
      | ilp32 => rfl
      | lp64 => exact absurd ⟨rfl, rfl⟩ h
    · rfl
  rw [doubleHi, hmax]
  apply toDouble_int
  rcases ht with rfl | rfl | rfl | rfl <;> decide

/-- A number in range is kept, converted to `double` and back. -/
theorem coerceValue_holds {v : Int} {d : ℚ} (h : t.Holds v) (hd : d = v) :
    coerceValue P (.double d) (.int t) = some (word t v) := by
  subst hd
  rw [coerceValue_double, trunc_int]
  have hlow : (t.lo : ℚ) ≤ v := by exact_mod_cast h.1
  have hhigh : (v : ℚ) ≤ t.hi := by exact_mod_cast h.2
  have hbound := hi_le_doubleHi P t
  push Not
  exact ⟨by linarith, hlow⟩

theorem Narrow.bounds (ht : Narrow t) : |t.lo - 1| ≤ 2 ^ 53 ∧ |t.hi + 1| ≤ 2 ^ 53 := by
  rcases ht with rfl | rfl | rfl | rfl <;> decide

theorem double_noticed {v : Int} (ht : Narrow t) (hv : t = .long → v ≤ 2 ^ 62) :
    coerceValue P (.double (toDouble v)) (.int t) = (keep t v).map (word t) ↔ noticed P t v := by
  obtain ⟨hloRep, hhiRep⟩ := ht.bounds
  have hnarrow : ¬(t = .longlong ∨ t = .ulonglong) := by
    rcases ht with rfl | rfl | rfl | rfl <;> decide
  by_cases h : t.Holds v
  · have hexact : toDouble v = v := toDouble_int ((ht.holds h).trans (by norm_num))
    rw [coerceValue_holds h hexact, keep_word h]
    simp only [noticed, true_iff]
    exact ⟨fun hwide => absurd hwide hnarrow, fun _ => h.2⟩
  · rw [keep_out h]
    by_cases hlow : v < t.lo
    · have hle : toDouble v ≤ ((t.lo - 1 : Int) : ℚ) :=
        toDouble_le hloRep (by exact_mod_cast le_sub_one_of_lt hlow)
      rw [coerceValue_double_out]
      · simp only [noticed, true_iff]
        have := lo_le_zero t
        exact ⟨fun hwide => absurd hwide hnarrow, fun _ => by omega⟩
      · right
        push_cast at hle
        linarith
    · have hhigh : t.hi < v := by
        by_contra hle
        exact h ⟨not_lt.mp hlow, not_lt.mp hle⟩
      have hge : ((t.hi + 1 : Int) : ℚ) ≤ toDouble v :=
        le_toDouble hhiRep (by exact_mod_cast hhigh)
      by_cases hlong : t = .long ∧ P = .lp64
      · -- the host's bound lets the number through
        have hsmall : toDouble v ≤ ((2 ^ 62 : Int) : ℚ) := by
          apply round_le (by norm_num) (representable_pow 62)
          exact_mod_cast hv hlong.1
        have hbound : ((2 ^ 62 : Int) : ℚ) ≤ doubleHi P t := by
          obtain ⟨rfl, rfl⟩ := hlong
          rw [doubleHi_lp64]
          norm_num
        have hpos : (t.lo : ℚ) ≤ t.hi := by exact_mod_cast (lo_le_zero t).1.trans (lo_le_zero t).2
        rw [coerceValue_double]
        · simp only [noticed, reduceCtorEq, false_iff, not_and]
          intro _ hall
          exact absurd (hall hlong) (not_le.mpr hhigh)
        · push Not
          push_cast at hge
          exact ⟨hsmall.trans hbound, by linarith⟩
      · rw [coerceValue_double_out]
        · simp only [noticed, true_iff]
          exact ⟨fun hwide => absurd hwide hnarrow, fun hl => absurd hl hlong⟩
        · left
          rw [doubleHi_narrow ht hlong]
          push_cast at hge
          linarith

theorem lo_of_neg {b : Int} (hb : t.Holds b) (hneg : b < 0) : t.lo = -t.hi - 1 ∧ 1 ≤ t.hi := by
  unfold IntType.Holds at hb
  cases t <;> simp only [lo, hi] at hb ⊢ <;> omega

/-- Only a division by -1 can leave the range. -/
theorem quotient_between {a b : Int} (ha : t.Holds a) (hb : t.Holds b) (hb0 : b ≠ 0)
    (hm1 : b ≠ -1) : (t.lo : ℚ) ≤ a / b ∧ (a : ℚ) / b ≤ t.hi := by
  obtain ⟨hzlo, hzhi⟩ := lo_le_zero t
  obtain ⟨halo, hahi⟩ := ha
  rcases lt_or_gt_of_ne hb0 with hneg | hpos
  · obtain ⟨hlo, hhi⟩ := lo_of_neg hb hneg
    have hb2 : 2 ≤ -b := by omega
    have hq : (0 : ℚ) < ((-b : Int) : ℚ) := by exact_mod_cast (by omega : 0 < -b)
    have hswap : (a : ℚ) / b = ((-a : Int) : ℚ) / ((-b : Int) : ℚ) := by
      push_cast
      rw [neg_div_neg_eq]
    rw [hswap, le_div_iff₀ hq, div_le_iff₀ hq]
    constructor
    · exact_mod_cast (by nlinarith : t.lo * -b ≤ -a)
    · exact_mod_cast (by nlinarith : -a ≤ t.hi * -b)
  · have hq : (0 : ℚ) < b := by exact_mod_cast hpos
    rw [le_div_iff₀ hq, div_le_iff₀ hq]
    constructor
    · exact_mod_cast (by nlinarith : t.lo * b ≤ a)
    · exact_mod_cast (by nlinarith : a ≤ t.hi * b)

/-- A quotient in `double` is kept as the truncated quotient would be. -/
theorem double_div {a b : Int} (ht : Narrow t) (ha : t.Holds a) (hb : t.Holds b) (hb0 : b ≠ 0) :
    coerceValue P (.double (toDouble (a / b))) (.int t) = ((keep t (a.tdiv b)).map (word t)) ↔
      noticed P t (a.tdiv b) := by
  have hnarrow : ¬(t = .longlong ∨ t = .ulonglong) := by
    rcases ht with rfl | rfl | rfl | rfl <;> decide
  have ha32 := ht.holds ha
  have hb32 := ht.holds hb
  by_cases hm1 : b = -1
  · -- the one quotient that can leave the range is an integer
    subst hm1
    have hq : (a : ℚ) / ((-1 : Int) : ℚ) = ((a.tdiv (-1) : Int) : ℚ) := by
      rw [Int.tdiv_neg, Int.tdiv_one]
      push_cast
      ring
    rw [hq, double_noticed ht]
    rw [Int.tdiv_neg, Int.tdiv_one]
    have := abs_le.mp ha32
    omega
  · have hbq : (b : ℚ) ≠ 0 := by exact_mod_cast hb0
    have htrunc : trunc (toDouble (a / b)) = a.tdiv b := by
      apply trunc_round_div (by norm_num) hb0
      have := abs_le.mp ha32
      have := abs_le.mp hb32
      omega
    obtain ⟨hqlo, hqhi⟩ := quotient_between ha hb hb0 hm1
    obtain ⟨hloRep, hhiRep⟩ := ht.bounds
    rw [abs_le] at hloRep hhiRep
    have hzero := lo_le_zero t
    have hlo : (t.lo : ℚ) ≤ toDouble (a / b) :=
      le_toDouble (abs_le.mpr ⟨by omega, by omega⟩) hqlo
    have hhi : toDouble (a / b) ≤ t.hi := toDouble_le (abs_le.mpr ⟨by omega, by omega⟩) hqhi
    have hholds : t.Holds (a.tdiv b) := by
      rw [← htrunc]
      exact ⟨le_trunc hlo, trunc_le hhi⟩
    have hbound := hi_le_doubleHi P t
    rw [coerceValue_double, htrunc, keep_word hholds]
    · simp only [noticed, true_iff]
      exact ⟨fun hwide => absurd hwide hnarrow, fun _ => hholds.2⟩
    · push Not
      exact ⟨by linarith, hlo⟩

end Doubles

section Binary

variable {P : DataModel} {t : IntType} {a b : Int} {v1 v2 : Expr}

/-- The operator's value, converted to the type again, is the exact one in range. -/
def Exactly (P : DataModel) (t : IntType) (X : Option Int) (q : Except Fault Operands) : Prop :=
  ∃ o, q = .ok o ∧ evalKind P (.int t) o.1 = X.map (word t)

theorem exactly_ok {X : Option Int} {o : Operands} :
    Exactly P t X (.ok o) ↔ evalKind P (.int t) o.1 = X.map (word t) := by
  simp [Exactly]

theorem not_exactly_error {X : Option Int} {f : Fault} : ¬Exactly P t X (.error f) := by
  simp [Exactly]

theorem inInts_eq (ht : t ≠ .char) (ec : BinOp) (ha : t.Holds a) (hb : t.Holds b)
    (h1 : v1.ev = some (word t a)) (h2 : v2.ev = some (word t b)) :
    inInts P t ec v1 v2 = (intOp t ec a b).map fun r =>
      (r.map (word t), v1.coerceEv P (.int t), v2.coerceEv P (.int t)) := by
  have hc1 : (v1.coerceEv P (.int t)).ev = some (word t a) := coerceEv_int h1 ht
  have hc2 : (v2.coerceEv P (.int t)).ev = some (word t b) := coerceEv_int h2 ht
  have hva : (word t a).intval = a := Word.val_ofInt ha
  have hvb : (word t b).intval = b := Word.val_ofInt hb
  simp only [inInts, hc1, hc2, deref, bind, Except.bind, hva, hvb]
  cases intOp t ec a b <;> rfl

variable {ec : BinOp}

theorem inInts_some (ht : t ≠ .char) (ha : t.Holds a) (hb : t.Holds b)
    (h1 : v1.ev = some (word t a)) (h2 : v2.ev = some (word t b)) {r : Int}
    (hr : intOp t ec a b = .ok (some r)) :
    Exactly P t (keep t r) (inInts P t ec v1 v2) ↔ t.Holds r := by
  rw [inInts_eq ht ec ha hb h1 h2, hr, Except.map, exactly_ok, map_some, evalKind_word,
    word_keep]

theorem inInts_none (ht : t ≠ .char) (ha : t.Holds a) (hb : t.Holds b)
    (h1 : v1.ev = some (word t a)) (h2 : v2.ev = some (word t b)) (hr : intOp t ec a b = .ok none) :
    Exactly P t none (inInts P t ec v1 v2) := by
  rw [inInts_eq ht ec ha hb h1 h2, hr, Except.map, exactly_ok]
  rfl

theorem inInts_error (ht : t ≠ .char) (ha : t.Holds a) (hb : t.Holds b)
    (h1 : v1.ev = some (word t a)) (h2 : v2.ev = some (word t b)) {f : Fault} {X : Option Int}
    (hr : intOp t ec a b = .error f) : ¬Exactly P t X (inInts P t ec v1 v2) := by
  rw [inInts_eq ht ec ha hb h1 h2, hr, Except.map]
  exact not_exactly_error

theorem Narrow.ne_ulonglong (ht : Narrow t) : t ≠ .ulonglong := by
  rcases ht with rfl | rfl | rfl | rfl <;> decide

theorem coerceEv_narrow (ht : Narrow t) (ha : t.Holds a) (h1 : v1.ev = some (word t a)) :
    (v1.coerceEv P .double).ev = some (.double a) := by
  have hexact : toDouble a = a := toDouble_int ((ht.holds ha).trans (by norm_num))
  rw [coerceEv_double h1, word, coerceValue, if_neg, Word.val_ofInt ha, hexact]
  rintro ⟨hu, -⟩
  exact ht.ne_ulonglong hu

theorem inDoubles_iff (ht : Narrow t) (ha : t.Holds a) (hb : t.Holds b)
    (h1 : v1.ev = some (word t a)) (h2 : v2.ev = some (word t b)) {X : Option Int} :
    Exactly P t X (inDoubles P ec v1 v2) ↔
      (doubleOp ec a b).bind (fun d => coerceValue P (.double d) (.int t)) = X.map (word t) := by
  simp only [inDoubles, coerceEv_narrow ht ha h1, coerceEv_narrow ht hb h2, deref, bind,
    Except.bind, pure, Except.pure, exactly_ok, ExprValue.dval]
  cases doubleOp ec a b <;> rfl

theorem noticed_wide (ht : t = .longlong ∨ t = .ulonglong) (r : Int) :
    noticed P t r ↔ t.Holds r := by
  constructor
  · intro h
    exact h.1 ht
  · intro h
    exact ⟨fun _ => h, fun hl => by rcases ht with rfl | rfl <;> simp at hl⟩

theorem types (ht : t ≠ .char) : Narrow t ∨ t = .longlong ∨ t = .ulonglong := by
  cases t <;> simp [Narrow] at ht ⊢

theorem not_null {w w' : ExprValue} (h1 : v1.ev = some w) (h2 : v2.ev = some w') :
    ¬(v1.ev = none ∨ v2.ev = none) := by
  simp [h1, h2]

theorem evalBinOp_wide (ht : t = .longlong ∨ t = .ulonglong) (h1 : v1.ev = some (word t a))
    (h2 : v2.ev = some (word t b)) : evalBinOp P (.int t) ec v1 v2 = inInts P t ec v1 v2 := by
  unfold evalBinOp
  rw [if_neg (not_null h1 h2)]
  rcases ht with rfl | rfl <;> rfl

theorem evalBinOp_narrow (ht : Narrow t) (h1 : v1.ev = some (word t a))
    (h2 : v2.ev = some (word t b)) : evalBinOp P (.int t) ec v1 v2 = inDoubles P ec v1 v2 := by
  unfold evalBinOp
  rw [if_neg (not_null h1 h2)]
  rcases ht with rfl | rfl | rfl | rfl <;> rfl

/-- Sums, differences and products. -/
theorem arith_sound (ht : t ≠ .char) (ha : t.Holds a) (hb : t.Holds b)
    (h1 : v1.ev = some (word t a)) (h2 : v2.ev = some (word t b)) {r : Int}
    (hint : intOp t ec a b = .ok (some r)) (hdouble : doubleOp ec a b = some (toDouble r))
    (hr : t = .long → r ≤ 2 ^ 62) :
    Exactly P t (keep t r) (evalBinOp P (.int t) ec v1 v2) ↔ noticed P t r := by
  rcases types ht with hn | hw
  · rw [evalBinOp_narrow hn h1 h2, inDoubles_iff hn ha hb h1 h2, hdouble, bind_some,
      double_noticed hn hr]
  · rw [evalBinOp_wide hw h1 h2, inInts_some ht ha hb h1 h2 hint, noticed_wide hw]

/-- The quotient that leaves the range. -/
theorem not_holds_tdiv (ha : a = t.lo) (hb : b = -1) (hholds : t.Holds b) :
    ¬t.Holds (a.tdiv b) := by
  subst ha hb
  obtain ⟨hlo, -⟩ := lo_of_neg hholds (by decide)
  rw [Int.tdiv_neg, Int.tdiv_one]
  intro h
  have := h.2
  omega

theorem div_sound (ht : t ≠ .char) (ha : t.Holds a) (hb : t.Holds b)
    (h1 : v1.ev = some (word t a)) (h2 : v2.ev = some (word t b)) :
    Exactly P t ((binExact t .div a b).bind (keep t)) (evalBinOp P (.int t) .div v1 v2) ↔
      BinSound P t .div a b := by
  simp only [BinSound, binExact]
  by_cases hb0 : b = 0
  · subst hb0
    simp only [if_true, bind_none, ne_eq, not_true_eq_false, false_implies, iff_true]
    rcases types ht with hn | hw
    · rw [evalBinOp_narrow hn h1 h2, inDoubles_iff hn ha hb h1 h2]
      simp [doubleOp]
    · rw [evalBinOp_wide hw h1 h2]
      exact inInts_none ht ha hb h1 h2 (by simp [intOp])
  · rw [if_neg hb0, bind_some, imp_iff_right hb0]
    rcases types ht with hn | hw
    · have hq : (b : ℚ) ≠ 0 := by exact_mod_cast hb0
      rw [evalBinOp_narrow hn h1 h2, inDoubles_iff hn ha hb h1 h2, doubleOp, if_neg hq,
        bind_some, double_div hn ha hb hb0]
    · rw [evalBinOp_wide hw h1 h2, noticed_wide hw]
      by_cases htrap : a = t.lo ∧ b = -1
      · have hint : intOp t .div a b = .error .divide := by
          simp only [intOp]
          rw [if_neg hb0, if_pos htrap]
        exact iff_of_false (inInts_error ht ha hb h1 h2 hint)
          (not_holds_tdiv htrap.1 htrap.2 hb)
      · have hint : intOp t .div a b = .ok (some (a.tdiv b)) := by
          simp only [intOp]
          rw [if_neg hb0, if_neg htrap]
        exact inInts_some ht ha hb h1 h2 hint

/-- The types that `%` has a branch for. -/
theorem evalModOp_eq (ht : t ≠ .char) (h1 : v1.ev = some (word t a)) (h2 : v2.ev = some (word t b)) :
    evalModOp P (.int t) ec v1 v2 =
      if t = .short ∨ t = .ushort then .ok (none, v1, v2) else inInts P t ec v1 v2 := by
  unfold evalModOp
  rw [if_neg (not_null h1 h2)]
  cases t with
  | char => exact absurd rfl ht
  | short => rfl
  | ushort => rfl
  | long => rfl
  | ulong => rfl
  | longlong => rfl
  | ulonglong => rfl

theorem mod_sound (ht : t ≠ .char) (ha : t.Holds a) (hb : t.Holds b)
    (h1 : v1.ev = some (word t a)) (h2 : v2.ev = some (word t b)) :
    Exactly P t ((binExact t .mod a b).bind (keep t)) (evalModOp P (.int t) .mod v1 v2) ↔
      BinSound P t .mod a b := by
  rw [evalModOp_eq ht h1 h2]
  simp only [BinSound, binExact]
  by_cases hb0 : b = 0
  · subst hb0
    simp only [if_true, bind_none, ne_eq, not_true_eq_false, false_implies, iff_true]
    split_ifs
    · rw [exactly_ok]
      rfl
    · exact inInts_none ht ha hb h1 h2 (by simp [intOp])
  · rw [if_neg hb0, bind_some, imp_iff_right hb0]
    have hholds : t.Holds (a.tmod b) := holds_tmod ha
    by_cases hshort : t = .short ∨ t = .ushort
    · rw [if_pos hshort, exactly_ok, keep_word hholds]
      apply iff_of_false
      · simp
      · rintro ⟨hs, hu, -⟩
        exact hshort.elim hs hu
    · rw [if_neg hshort]
      obtain ⟨hs, hu⟩ := not_or.mp hshort
      by_cases htrap : a = t.lo ∧ b = -1
      · have hint : intOp t .mod a b = .error .divide := by
          simp only [intOp]
          rw [if_neg hb0, if_pos htrap]
        exact iff_of_false (inInts_error ht ha hb h1 h2 hint) fun h => h.2.2 htrap
      · have hint : intOp t .mod a b = .ok (some (a.tmod b)) := by
          simp only [intOp]
          rw [if_neg hb0, if_neg htrap]
        rw [inInts_some ht ha hb h1 h2 hint]
        exact iff_of_true hholds ⟨hs, hu, htrap⟩

theorem evalBitOp_eq (ht : t ≠ .char) (h1 : v1.ev = some (word t a)) (h2 : v2.ev = some (word t b)) :
    evalBitOp P (.int t) ec v1 v2 = inInts P t ec v1 v2 := by
  unfold evalBitOp
  rw [if_neg (not_null h1 h2)]
  cases t with
  | char => exact absurd rfl ht
  | short => rfl
  | ushort => rfl
  | long => rfl
  | ulong => rfl
  | longlong => rfl
  | ulonglong => rfl

/-- An amount below the width is not changed by the promotion. -/
theorem amount_eq (hlow : 0 ≤ b) (hlt : b < t.bits) : b % t.promoted = b := by
  apply emod_eq_of_lt hlow
  unfold promoted
  omega

theorem bit_sound (ht : t ≠ .char) (ha : t.Holds a) (hb : t.Holds b) (h1 : v1.ev = some (word t a))
    (h2 : v2.ev = some (word t b))
    (hec : ec = .or ∨ ec = .xor ∨ ec = .and ∨ ec = .left ∨ ec = .right)
    (hshift : ec = .left ∨ ec = .right → 0 ≤ b ∧ b < t.bits) :
    Exactly P t ((binExact t ec a b).bind (keep t)) (evalBitOp P (.int t) ec v1 v2) ↔
      BinSound P t ec a b := by
  rw [evalBitOp_eq ht h1 h2]
  obtain ⟨hor, hxor, hand⟩ := holds_bits ha hb
  rcases hec with rfl | rfl | rfl | rfl | rfl
  · exact (inInts_some ht ha hb h1 h2 rfl).trans (iff_true_intro hor)
  · exact (inInts_some ht ha hb h1 h2 rfl).trans (iff_true_intro hxor)
  · exact (inInts_some ht ha hb h1 h2 rfl).trans (iff_true_intro hand)
  · have hamount := hshift (.inl rfl)
    simp only [binExact]
    rw [if_pos hamount, bind_some]
    apply inInts_some ht ha hb h1 h2
    simp only [intOp]
    rw [amount_eq hamount.1 hamount.2]
  · have hamount := hshift (.inr rfl)
    simp only [binExact]
    rw [if_pos hamount, bind_some, inInts_some ht ha hb h1 h2]
    · exact iff_of_true (holds_shiftRight ha _) trivial
    · simp only [intOp]
      rw [amount_eq hamount.1 hamount.2]

/-- Products of operands of 32 bits. -/
theorem long_small (h : t.Holds a) (ht : t = .long) : -2 ^ 31 ≤ a ∧ a < 2 ^ 31 := by
  subst ht
  unfold IntType.Holds at h
  simp only [lo, hi] at h
  omega

theorem binary_sound (ht : t ≠ .char) (ha : t.Holds a) (hb : t.Holds b)
    (h1 : v1.ev = some (word t a)) (h2 : v2.ev = some (word t b)) (ec : BinOp)
    (hshift : ec = .left ∨ ec = .right → 0 ≤ b ∧ b < t.bits) :
    Exactly P t ((binExact t ec a b).bind (keep t)) (evalOperator P (.int t) ec v1 v2) ↔
      BinSound P t ec a b := by
  cases ec with
  | add =>
    refine arith_sound ht ha hb h1 h2 rfl (by simp [doubleOp]) fun hl => ?_
    have := long_small ha hl
    have := long_small hb hl
    omega
  | minus =>
    refine arith_sound ht ha hb h1 h2 rfl (by simp [doubleOp]) fun hl => ?_
    have := long_small ha hl
    have := long_small hb hl
    omega
  | mul =>
    refine arith_sound ht ha hb h1 h2 rfl (by simp [doubleOp]) fun hl => ?_
    have := long_small ha hl
    have := long_small hb hl
    nlinarith
  | div => exact div_sound ht ha hb h1 h2
  | mod => exact mod_sound ht ha hb h1 h2
  | or => exact bit_sound ht ha hb h1 h2 (by simp) hshift
  | xor => exact bit_sound ht ha hb h1 h2 (by simp) hshift
  | and => exact bit_sound ht ha hb h1 h2 (by simp) hshift
  | left => exact bit_sound ht ha hb h1 h2 (by simp) hshift
  | right => exact bit_sound ht ha hb h1 h2 (by simp) hshift

end Binary

section Unary

variable {P : DataModel} {t : IntType} {a : Int} {v1 : Expr}

theorem toDouble_wide (h : -2 ^ 63 ≤ a ∧ a ≤ 2 ^ 63) :
    ∃ k : Int, toDouble a = k ∧ -2 ^ 63 ≤ k ∧ k ≤ 2 ^ 63 := by
  obtain ⟨k, hk⟩ := round_isInt (p := 53) (by norm_num) a
  have hlow : ((-2 ^ 63 : Int) : ℚ) ≤ toDouble a := by
    apply le_round (by norm_num)
    · have hrep := (representable_pow 63).neg
      rwa [← cast_neg] at hrep
    · exact_mod_cast h.1
  have hhigh : toDouble a ≤ ((2 ^ 63 : Int) : ℚ) := by
    apply round_le (by norm_num) (representable_pow 63)
    exact_mod_cast h.2
  have hk' : toDouble a = k := hk
  rw [hk'] at hlow hhigh
  exact ⟨k, hk', cast_le.mp hlow, cast_le.mp hhigh⟩

theorem toDouble_lo : toDouble IntType.longlong.lo = IntType.longlong.lo := by
  have hrep := (representable_pow 63).neg
  exact round_eq (by norm_num) hrep

theorem longlong_sign (ha : IntType.longlong.Holds a) {s : Int} (hs : s = 1 ∨ s = -1) :
    coerceValue P (.double (s * toDouble a)) (.int .longlong) =
        (keep .longlong (s * a)).map (word .longlong) ↔
      toDouble a = a ∧ s * a ≤ IntType.longlong.hi := by
  have hrange := ha
  simp only [IntType.Holds, lo, hi] at hrange
  obtain ⟨k, hk, hk1, hk2⟩ := toDouble_wide (a := a) ⟨by omega, by omega⟩
  have hlowest : a = longlong.lo → k = longlong.lo := by
    rintro rfl
    rw [toDouble_lo] at hk
    exact_mod_cast hk.symm
  have hd : (s : ℚ) * toDouble a = ((s * k : Int) : ℚ) := by
    rw [hk]
    push_cast
    rfl
  -- the bound in `double` is one above the greatest value
  have hin : coerceValue P (.double ((s * k : Int) : ℚ)) (.int .longlong) =
      some (word .longlong (s * k)) := by
    rw [coerceValue_double, trunc_int]
    rw [doubleHi_longlong]
    push Not
    constructor
    · exact_mod_cast (by rcases hs with rfl | rfl <;> omega : s * k ≤ 2 ^ 63)
    · exact_mod_cast (by rcases hs with rfl | rfl <;> simp only [lo] <;> omega :
        longlong.lo ≤ s * k)
  rw [hd, hin, hk, Int.cast_inj]
  by_cases hsa : longlong.Holds (s * a)
  · rw [keep_word hsa, some.injEq, word_congr, wrap_of_holds hsa]
    constructor
    · intro hwrap
      refine ⟨?_, hsa.2⟩
      simp only [wrap, bits, lo] at hwrap hlowest
      rcases hs with rfl | rfl <;> omega
    · rintro ⟨rfl, -⟩
      exact wrap_of_holds hsa
  · rw [keep_out hsa]
    simp only [reduceCtorEq, false_iff, not_and, not_le]
    simp only [IntType.Holds, lo, hi] at hsa ⊢
    rcases hs with rfl | rfl <;> omega

theorem ulonglong_back {k : Int} (hk : 0 ≤ k ∧ k ≤ 2 ^ 63) :
    coerceValue P (.double k) (.int .ulonglong) = some (word .ulonglong k) := by
  apply coerceValue_holds _ rfl
  simp only [IntType.Holds, lo, hi]
  omega

theorem operand_double (ha : t.Holds a) (h1 : v1.ev = some (word t a)) :
    (v1.coerceEv P .double).ev =
      if t = .ulonglong ∧ IntType.longlong.hi < a then none else some (.double (toDouble a)) := by
  rw [coerceEv_double h1, word, coerceValue, Word.val_ofInt ha, Word.type_ofInt]

theorem evalUnOp_plus (h1 : v1.ev = some (word t a)) :
    (evalUnOp P .u_plus v1).1 = (v1.coerceEv P .double).ev.map fun ev => .double ev.dval := by
  simp only [evalUnOp, h1]

theorem evalUnOp_minus (h1 : v1.ev = some (word t a)) :
    (evalUnOp P .u_minus v1).1 = (v1.coerceEv P .double).ev.map fun ev => .double (-ev.dval) := by
  simp only [evalUnOp, h1]

theorem plus_sound (ht : t ≠ .char) (ha : t.Holds a) (h1 : v1.ev = some (word t a)) :
    evalKind P (.int t) (evalUnOp P .u_plus v1).1 = (keep t a).map (word t) ↔
      UnSound P t .u_plus a := by
  rw [evalUnOp_plus h1, keep_word ha]
  simp only [UnSound]
  rcases types ht with hn | rfl | rfl
  · rw [coerceEv_narrow hn ha h1, map_some, evalKind]
    refine iff_of_true (coerceValue_holds ha rfl) ?_
    rcases hn with rfl | rfl | rfl | rfl <;> simp
  · rw [operand_double ha h1, if_neg (by simp), map_some, evalKind]
    have hsign := longlong_sign (P := P) ha (.inl rfl)
    simp only [cast_one, one_mul, keep_word ha] at hsign
    refine hsign.trans ?_
    simp [ha.2]
  · by_cases hbig : longlong.hi < a
    · rw [operand_double ha h1, if_pos ⟨rfl, hbig⟩]
      simp [hbig]
    · have hrange := ha
      simp only [IntType.Holds, lo, hi] at hrange hbig
      obtain ⟨k, hk, hk1, hk2⟩ := toDouble_wide (a := a) ⟨by omega, by omega⟩
      have hk0 : 0 ≤ k := by
        have hnonneg := le_toDouble (x := a) (v := 0) (by norm_num) (by exact_mod_cast hrange.1)
        rw [hk] at hnonneg
        exact_mod_cast hnonneg
      have hkin : ulonglong.Holds k := by
        simp only [IntType.Holds, lo, hi]
        omega
      have hle : a ≤ longlong.hi := by
        simp only [hi]
        omega
      rw [operand_double ha h1, if_neg (fun h => absurd h.2 (not_lt.mpr hle)), map_some,
        evalKind, hk]
      simp only [getD_some, ExprValue.dval, ulonglong_back ⟨hk0, hk2⟩, some.injEq,
        word_congr, wrap_of_holds hkin, wrap_of_holds ha]
      simp [hle]

theorem minus_sound (ht : t ≠ .char) (ha : t.Holds a) (h1 : v1.ev = some (word t a)) :
    evalKind P (.int t) (evalUnOp P .u_minus v1).1 = (keep t (-a)).map (word t) ↔
      UnSound P t .u_minus a := by
  rw [evalUnOp_minus h1]
  simp only [UnSound]
  rcases types ht with hn | rfl | rfl
  · have hsmall := hn.holds ha
    have hexact : -(a : ℚ) = toDouble ((-a : Int) : ℚ) := by
      rw [toDouble_int]
      · push_cast
        rfl
      · rw [abs_neg]
        exact hsmall.trans (by norm_num)
    rw [coerceEv_narrow hn ha h1, map_some, evalKind, getD_some, ExprValue.dval,
      hexact, double_noticed hn]
    · rcases hn with rfl | rfl | rfl | rfl <;> simp [noticed]
    · intro _
      have := abs_le.mp hsmall
      omega
  · rw [operand_double ha h1, if_neg (by simp), map_some, evalKind]
    have hsign := longlong_sign (P := P) ha (.inr rfl)
    simp only [cast_neg, cast_one, neg_one_mul] at hsign
    refine hsign.trans ?_
    simp
  · have hrange := ha
    simp only [IntType.Holds, lo, hi] at hrange
    refine iff_of_true ?_ (by simp)
    by_cases hbig : longlong.hi < a
    · rw [operand_double ha h1, if_pos ⟨rfl, hbig⟩, keep_out]
      · rfl
      · simp only [IntType.Holds, lo, hi] at hbig ⊢
        omega
    · rw [operand_double ha h1, if_neg (fun h => hbig h.2), map_some, evalKind,
        getD_some, ExprValue.dval]
      rcases hrange.1.eq_or_lt with hzero | hpos
      · subst hzero
        exact (coerceValue_holds (v := 0) (by decide) (by
          rw [toDouble_int (by norm_num)]
          norm_num)).trans
          (keep_word (by decide)).symm
      · have hone := le_toDouble (x := a) (v := 1) (by norm_num) (by exact_mod_cast hpos)
        push_cast at hone
        rw [coerceValue_double_out, keep_out]
        · simp only [IntType.Holds, lo]
          omega
        · right
          simp only [lo]
          push_cast
          linarith

theorem unary_sound (ht : t ≠ .char) (ha : t.Holds a) (h1 : v1.ev = some (word t a))
    (ec : UnOp) :
    evalKind P (.int t) (evalUnOp P ec v1).1 = (keep t (unExact t ec a)).map (word t) ↔
      UnSound P t ec a := by
  cases ec with
  | u_plus => exact plus_sound ht ha h1
  | u_minus => exact minus_sound ht ha h1
  | bit_neg =>
    refine iff_of_true ?_ trivial
    simp only [evalUnOp, h1, word, Word.type_ofInt, Word.val_ofInt ha, if_neg ht, unExact]
    rw [keep_word (t.wrap_holds _), word_wrap]
    exact evalKind_word

end Unary

end Atcd.Idl
