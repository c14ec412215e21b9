import Atcd.Core.Bytes
import Atcd.Core.Run
/-!
# Coercion of constants (`coerce_value` in `TAO_IDL/ast/ast_expression.cpp`)

The integers, characters and booleans of an `AST_ExprValue`. The members of its union share
their first bytes, so what a wrong tag makes of them is the host's. A value is read and
written in the width of its member; its range is the one of `ACE/ace/Basic_Types.h`, which
for `wchar` is narrower than a `wchar_t` of 32 bits.

Results:
- `coerceValue_exact_iff`: when a coercion keeps the number or fails, and that chains of
  such coercions give what the direct one does.
- `ushort_tagged_char`: an `unsigned short` becomes a `char` where a `wchar` was asked for.
-/
namespace Atcd.Idl.Coercion

open Atcd.Core List

/-- mirrors TAO/TAO_IDL/include/ast_expression.h:125-156 -/
inductive ExprType
  | short
  | ushort
  | long
  | ulong
  | longlong
  | ulonglong
  | char
  | wchar
  | octet
  | bool
  deriving DecidableEq, Repr

namespace ExprType

/-- mirrors ACE/ace/Basic_Types.h:655-667 -/
def lo : ExprType → Int
  | .short => -0x8000
  | .long => -0x80000000
  | .longlong => -0x8000000000000000
  | .char => -0x80
  | _ => 0

/-- mirrors Basic_Types.h:655-667 -/
def hi : ExprType → Int
  | .short => 0x7FFF
  | .ushort | .wchar => 0xFFFF
  | .long => 0x7FFFFFFF
  | .ulong => 0xFFFFFFFF
  | .longlong => 0x7FFFFFFFFFFFFFFF
  | .ulonglong => 0xFFFFFFFFFFFFFFFF
  | .char => 0x7F
  | .octet => 0xFF
  | .bool => 1

def Holds (t : ExprType) (v : Int) : Prop := t.lo ≤ v ∧ v ≤ t.hi

instance (t : ExprType) (v : Int) : Decidable (t.Holds v) := inferInstanceAs (Decidable (_ ∧ _))

end ExprType

/-- `ACE_UINT16`, or what `wchar_t` is. mirrors Basic_Types.h:313-319 -/
inductive WChar
  | uint16
  | int32
  | uint32

structure Host where
  endian : Endian
  wchar : WChar

namespace Host

variable (P : Host)

/-- The size of a member. mirrors ACE/ace/CDR_Base.h:198-221 -/
def size : ExprType → Nat
  | .short | .ushort => 2
  | .long | .ulong => 4
  | .longlong | .ulonglong => 8
  | .char | .octet | .bool => 1
  | .wchar => match P.wchar with
    | .uint16 => 2
    | .int32 | .uint32 => 4

def signed : ExprType → Bool
  | .short | .long | .longlong | .char => true
  | .wchar => match P.wchar with
    | .int32 => true
    | .uint16 | .uint32 => false
  | _ => false

/-- What a member can hold. -/
def lo (t : ExprType) : Int := if P.signed t then -(256 ^ P.size t / 2) else 0

def hi (t : ExprType) : Int :=
  if P.signed t then 256 ^ P.size t / 2 - 1 else 256 ^ P.size t - 1

/-- A number as bytes of a member, and back. -/
def encode (t : ExprType) (v : Int) : List UInt8 :=
  store P.endian (P.size t) (v % (256 ^ P.size t : Nat)).toNat

def decode (t : ExprType) (bs : List UInt8) : Int :=
  if P.signed t then (load P.endian bs : Int).bmod (256 ^ P.size t) else load P.endian bs

theorem range_subset (t : ExprType) : P.lo t ≤ t.lo ∧ t.hi ≤ P.hi t := by
  obtain ⟨e, w⟩ := P
  cases e <;> cases w <;> cases t <;> decide

theorem decode_encode {t : ExprType} {v : Int} (hlo : P.lo t ≤ v) (hhi : v ≤ P.hi t) :
    P.decode t (P.encode t v) = v := by
  have hpos : 0 < 256 ^ P.size t := by positivity
  have hnonneg := Int.emod_nonneg v (by exact_mod_cast hpos.ne' : ((256 ^ P.size t : Nat) : Int) ≠ 0)
  have hlt := Int.emod_lt_of_pos v (by exact_mod_cast hpos : 0 < ((256 ^ P.size t : Nat) : Int))
  have hload : (load P.endian (P.encode t v) : Int) = v % (256 ^ P.size t : Nat) := by
    rw [encode, load_store _ (by omega)]
    omega
  unfold decode
  unfold lo at hlo
  unfold hi at hhi
  split_ifs at hlo hhi ⊢ <;> rw [hload] <;> push_cast at hlt
  · rw [Int.emod_bmod]
    exact Int.bmod_eq_of_le (by push_cast; omega) (by push_cast; omega)
  · exact Int.emod_eq_of_lt hlo (by push_cast; omega)

theorem range_eq {t : ExprType} : t ≠ .wchar → t ≠ .bool → P.lo t = t.lo ∧ P.hi t = t.hi := by
  obtain ⟨e, w⟩ := P
  cases e <;> cases w <;> cases t <;> decide

theorem size_ne_zero (t : ExprType) : P.size t ≠ 0 := by
  obtain ⟨e, w⟩ := P
  cases e <;> cases w <;> cases t <;> decide

theorem decode_range {t : ExprType} {bs : List UInt8} (h : bs.length ≤ P.size t) :
    P.lo t ≤ P.decode t bs ∧ P.decode t bs ≤ P.hi t := by
  have hpos : 0 < 256 ^ P.size t := by positivity
  have hlt : load P.endian bs < 256 ^ P.size t :=
    (load_lt _ bs).trans_le (Nat.pow_le_pow_right (by norm_num) h)
  unfold decode lo hi
  split_ifs
  · have hle := Int.le_bmod (x := load P.endian bs) hpos
    have hlt := Int.bmod_lt (x := load P.endian bs) hpos
    obtain ⟨k, hk⟩ : (2 : Int) ∣ 256 ^ P.size t := dvd_pow (by norm_num) (P.size_ne_zero t)
    push_cast [hk] at hle hlt ⊢
    omega
  · push_cast [← Nat.cast_lt (α := Int)] at hlt
    omega

end Host

/-- The bytes of the union, and the tag.
mirrors ast_expression.h:159-183 -/
structure ExprValue where
  u : List UInt8
  et : ExprType
  deriving DecidableEq, Repr

namespace ExprValue

variable (P : Host) (ev : ExprValue)

def read (t : ExprType) : Int := P.decode t (ev.u.take (P.size t))

/-- A member is written, and a tag. -/
def write (t : ExprType) (v : Int) (et : ExprType) : ExprValue :=
  ⟨P.encode t v ++ ev.u.drop (P.size t), et⟩

/-- The number in the member that the tag names. -/
def num : Int := ev.read P ev.et

/-- `ev` with its number in the member of `t`, which must not meet the test. -/
def cast (t : ExprType) (refused : Int → Bool) : Option ExprValue :=
  if refused (ev.num P) then none else some (ev.write P t (ev.num P) t)

theorem num_range : P.lo ev.et ≤ ev.num P ∧ ev.num P ≤ P.hi ev.et := P.decode_range (by simp)

@[simp] theorem write_et (t : ExprType) (v : Int) (et : ExprType) : (ev.write P t v et).et = et :=
  rfl

theorem read_write {t : ExprType} {v : Int} (h : t.Holds v) (et : ExprType) :
    (ev.write P t v et).read P t = v := by
  have hsub := P.range_subset t
  have htake : (P.encode t v ++ ev.u.drop (P.size t)).take (P.size t) = P.encode t v := by
    simp [Host.encode]
  rw [read, write, htake, P.decode_encode (hsub.1.trans h.1) (h.2.trans hsub.2)]

end ExprValue

def above (t : ExprType) (v : Int) : Bool := v > t.hi

def outside (t : ExprType) (v : Int) : Bool := v > t.hi ∨ v < t.lo

def negative (v : Int) : Bool := v < 0

/-- `(v & max) != v`, of an unsigned number. -/
def masked (t : ExprType) (v : Int) : Bool := v.toNat &&& t.hi.toNat != v.toNat

def never (_ : Int) : Bool := false

/-- Every pair of a target and a tag, with the test it makes.
mirrors TAO/TAO_IDL/ast/ast_expression.cpp:503-1129, 1271-1597 -/
def coerceValue (P : Host) (ev : ExprValue) (t : ExprType) : Option ExprValue :=
  match t, ev.et with
  | .short, .short => some ev
  | .short, .ushort | .short, .ulong | .short, .wchar => ev.cast P .short (above .short)
  | .short, .long | .short, .longlong => ev.cast P .short (outside .short)
  | .short, .ulonglong => ev.cast P .short (masked .short)
  | .short, .bool | .short, .char | .short, .octet => ev.cast P .short never
  | .ushort, .short | .ushort, .char => ev.cast P .ushort negative
  | .ushort, .ushort => some ev
  | .ushort, .long | .ushort, .longlong => ev.cast P .ushort (outside .ushort)
  | .ushort, .ulong => ev.cast P .ushort (above .ushort)
  | .ushort, .ulonglong => ev.cast P .ushort (masked .ushort)
  | .ushort, .bool | .ushort, .wchar | .ushort, .octet => ev.cast P .ushort never
  | .long, .short | .long, .ushort | .long, .bool | .long, .char | .long, .wchar
  | .long, .octet => ev.cast P .long never
  | .long, .long => some ev
  | .long, .ulong => ev.cast P .long (above .long)
  | .long, .longlong => ev.cast P .long (outside .long)
  | .long, .ulonglong => ev.cast P .long (masked .long)
  | .ulong, .short | .ulong, .long | .ulong, .char => ev.cast P .ulong negative
  | .ulong, .ushort | .ulong, .bool | .ulong, .wchar | .ulong, .octet => ev.cast P .ulong never
  | .ulong, .ulong => some ev
  | .ulong, .longlong => ev.cast P .ulong (outside .ulong)
  | .ulong, .ulonglong => ev.cast P .ulong (masked .ulong)
  | .longlong, .longlong => some ev
  | .longlong, .ulonglong => ev.cast P .longlong (above .longlong)
  | .longlong, _ => ev.cast P .longlong never
  | .ulonglong, .short | .ulonglong, .long | .ulonglong, .longlong | .ulonglong, .char =>
    ev.cast P .ulonglong negative
  | .ulonglong, .ulonglong => some ev
  | .ulonglong, _ => ev.cast P .ulonglong never
  | .bool, .bool => some ev
  | .bool, _ => some (ev.write P .bool (if ev.num P = 0 then 0 else 1) .bool)
  | .char, .short | .char, .long | .char, .longlong => ev.cast P .char (outside .char)
  | .char, .ushort | .char, .ulong | .char, .wchar | .char, .octet => ev.cast P .char (above .char)
  | .char, .ulonglong => ev.cast P .char (masked .char)
  | .char, .bool => ev.cast P .char never
  | .char, .char => some ev
  | .wchar, .short | .wchar, .char => ev.cast P .wchar negative
  -- the tag is of the wrong type
  | .wchar, .ushort => some (ev.write P .wchar (ev.num P) .char)
  | .wchar, .long | .wchar, .longlong => ev.cast P .wchar (outside .wchar)
  | .wchar, .ulong => ev.cast P .wchar (above .wchar)
  | .wchar, .ulonglong => ev.cast P .wchar (masked .wchar)
  | .wchar, .bool | .wchar, .octet => ev.cast P .wchar never
  | .wchar, .wchar => some ev
  | .octet, .short | .octet, .long | .octet, .longlong => ev.cast P .octet (outside .octet)
  | .octet, .ushort | .octet, .ulong | .octet, .wchar => ev.cast P .octet (above .octet)
  | .octet, .ulonglong => ev.cast P .octet (masked .octet)
  -- the other way round than in the other types
  | .octet, .bool => some (ev.write P .octet (if ev.num P = 0 then 1 else 0) .octet)
  | .octet, .char => ev.cast P .octet negative
  | .octet, .octet => some ev

/-! ## What a coercion keeps -/

/-- A coercion fails where the number is not in the range of the type, and otherwise gives
the number in that type. -/
def Exact (P : Host) (ev : ExprValue) (t : ExprType) (result : Option ExprValue) : Prop :=
  match result with
  | none => ¬t.Holds (ev.num P)
  | some r => t.Holds (ev.num P) ∧ r.et = t ∧ r.num P = ev.num P

/-- The pairs that work, and what a `wchar` must be where its test is not complete. -/
def Works (P : Host) (ev : ExprValue) (t : ExprType) : Prop :=
  match ev.et, t with
  | .ushort, .wchar | .bool, .octet => False
  | .wchar, .short | .wchar, .char | .wchar, .octet => t.lo ≤ ev.num P
  | .wchar, _ => t.Holds (ev.num P)
  | _, _ => True

/-- A boolean is 0 or 1. -/
def ExprValue.Sound (P : Host) (ev : ExprValue) : Prop := ev.et = .bool → ExprType.bool.Holds (ev.num P)

section Exact

variable {P : Host} {ev r : ExprValue} {t : ExprType} {ts : List ExprType}

theorem exact_cast {refused : Int → Bool} :
    Exact P ev t (ev.cast P t refused) ↔ (refused (ev.num P) = true ↔ ¬t.Holds (ev.num P)) := by
  unfold ExprValue.cast
  split_ifs with h
  · simp [Exact, h]
  · simp only [Exact, h, Bool.false_eq_true, false_iff, not_not, and_iff_left_iff_imp]
    exact fun ht => ⟨rfl, ev.read_write P ht t⟩

theorem exact_same (h : ev.et = t) : Exact P ev t (some ev) ↔ t.Holds (ev.num P) := by
  simp [Exact, h]

theorem masked_eq (t : ExprType) (v : Int) : masked t v = above t v := by
  obtain ⟨k, hk⟩ : ∃ k : Nat, t.hi = 2 ^ k - 1 := by
    cases t
    exacts [⟨15, rfl⟩, ⟨16, rfl⟩, ⟨31, rfl⟩, ⟨32, rfl⟩, ⟨63, rfl⟩, ⟨64, rfl⟩, ⟨7, rfl⟩, ⟨16, rfl⟩,
      ⟨8, rfl⟩, ⟨1, rfl⟩]
  have hcast : ((2 ^ k : Nat) : Int) = 2 ^ k := by push_cast; rfl
  have hpos : 0 < 2 ^ k := by positivity
  have hmask : t.hi.toNat = 2 ^ k - 1 := by omega
  rw [Bool.eq_iff_iff, masked, above, hmask, Nat.and_two_pow_sub_one_eq_mod, bne_iff_ne, ne_eq,
    Nat.mod_eq_iff_lt hpos.ne', decide_eq_true_eq]
  omega

theorem num_holds (hs : ev.Sound P) (h : ev.et ≠ .wchar) : ev.et.Holds (ev.num P) := by
  by_cases hb : ev.et = .bool
  · rw [hb]
    exact hs hb
  have hv := ev.num_range P
  rwa [(P.range_eq h hb).1, (P.range_eq h hb).2] at hv

/-- The pair with the wrong tag. -/
theorem ushort_not_wchar (h : ev.et = .ushort) : ¬Exact P ev .wchar (coerceValue P ev .wchar) := by
  obtain ⟨u, et⟩ := ev
  subst h
  rintro ⟨-, htag, -⟩
  cases htag

/-- The pair that inverts. -/
theorem bool_not_octet (hs : ev.Sound P) (h : ev.et = .bool) :
    ¬Exact P ev .octet (coerceValue P ev .octet) := by
  have hv := hs h
  obtain ⟨u, et⟩ := ev
  subst h
  rintro ⟨-, -, hnum⟩
  by_cases h0 : (⟨u, .bool⟩ : ExprValue).num P = 0
  · rw [if_pos h0, h0] at hnum
    exact absurd ((ExprValue.read_write P _ (by decide : ExprType.octet.Holds 1) .octet).symm.trans hnum)
      (by decide)
  · rw [if_neg h0] at hnum
    exact h0 (hnum.symm.trans (ExprValue.read_write P _ (by decide : ExprType.octet.Holds 0) .octet))

theorem coerceValue_exact (hs : ev.Sound P) (ht : t ≠ .bool) :
    Exact P ev t (coerceValue P ev t) ↔ Works P ev t := by
  have hushort := @ushort_not_wchar P ev
  have hbool := bool_not_octet hs
  have hwide := num_holds hs
  obtain ⟨u, et⟩ := ev
  cases et <;> cases t <;> first
    | exact absurd rfl ht
    | exact iff_of_false (hushort rfl) not_false
    | exact iff_of_false (hbool rfl) not_false
    | simp only [coerceValue, Works, exact_cast, exact_same, never, masked_eq, above, outside,
        negative, ExprType.Holds, ExprType.lo, ExprType.hi, gt_iff_lt, decide_eq_true_eq, ne_eq,
        Bool.false_eq_true, false_iff, not_not, iff_true, reduceCtorEq, not_false_eq_true,
        forall_const, not_true_eq_false, IsEmpty.forall_iff] at hwide ⊢
  all_goals omega

theorem run_num (hs : ev.Sound P) (hts : ∀ x ∈ ts ++ [t], x ≠ .bool)
    (h : AllSteps (coerceValue P) (Works P) ev (ts ++ [t]))
    (hrun : run (coerceValue P) ev (ts ++ [t]) = some r) :
    t.Holds (ev.num P) ∧ r.et = t ∧ r.num P = ev.num P := by
  have hstep : ∀ {ev m x}, ev.Sound P → x ≠ .bool → Works P ev x → coerceValue P ev x = some m →
      x.Holds (ev.num P) ∧ m.et = x ∧ m.num P = ev.num P := by
    intro ev m x hs hx hw hm
    have hexact := (coerceValue_exact hs hx).mpr hw
    rwa [hm] at hexact
  induction ts generalizing ev with
  | nil =>
    obtain ⟨m, hm, hrun⟩ := run_cons_some hrun
    cases hrun
    exact hstep hs (hts t (by simp)) h.1 hm
  | cons x ts ih =>
    obtain ⟨m, hm, hrun⟩ := run_cons_some hrun
    have hx := hts x (by simp)
    obtain ⟨-, het, hnum⟩ := hstep hs hx h.1 hm
    rw [← hnum]
    exact ih (fun hb => absurd (het.symm.trans hb) hx) (fun y hy => hts y (mem_cons_of_mem _ hy))
      (h.2 m hm) hrun

/-- **Coercion keeps the value or fails** on the pairs that work, and chains of such
coercions end where the direct one does. -/
theorem coerceValue_exact_iff (P : Host) {ev : ExprValue} (hs : ev.Sound P) {t : ExprType}
    (ht : t ≠ .bool) :
    (Exact P ev t (coerceValue P ev t) ↔ Works P ev t) ∧
      ∀ ts r, (∀ x ∈ ts ++ [t], x ≠ .bool) → Works P ev t →
        AllSteps (coerceValue P) (Works P) ev (ts ++ [t]) →
        run (coerceValue P) ev (ts ++ [t]) = some r →
        ∃ direct, coerceValue P ev t = some direct ∧ direct.et = t ∧ r.et = t ∧
          direct.num P = r.num P := by
  refine ⟨coerceValue_exact hs ht, fun ts r hts hw hsteps hrun => ?_⟩
  obtain ⟨hholds, het, hnum⟩ := run_num hs hts hsteps hrun
  have hdirect := (coerceValue_exact hs ht).mpr hw
  cases hd : coerceValue P ev t with
  | none =>
    rw [hd] at hdirect
    exact absurd hholds hdirect
  | some d =>
    rw [hd] at hdirect
    exact ⟨d, rfl, hdirect.2.1, het, hdirect.2.2.trans hnum.symm⟩

/-- 65 as an `unsigned short`, by way of a `long long` to an octet. -/
theorem coerceValue_exact_iff_letter : ∃ direct,
    coerceValue ⟨.little, .int32⟩ ⟨[65, 0, 0, 0, 0, 0, 0, 0], .ushort⟩ .octet = some direct ∧
      direct.num ⟨.little, .int32⟩ = 65 := by
  have hruns := (coerceValue_exact_iff ⟨.little, .int32⟩
    (fun h => nomatch h : (⟨[65, 0, 0, 0, 0, 0, 0, 0], .ushort⟩ : ExprValue).Sound _)
    (by decide : ExprType.octet ≠ .bool)).2 [.longlong] ⟨[65, 0, 0, 0, 0, 0, 0, 0], .octet⟩
    (by decide) trivial ⟨trivial, fun t ht => ⟨by cases ht; trivial, fun _ _ => trivial⟩⟩ (by decide)
  obtain ⟨d, hd, -, -, hnum⟩ := hruns
  exact ⟨d, hd, hnum.trans (by decide)⟩

/-- **A wrong tag**: 65 as an `unsigned short`, where a `wchar` is asked for. -/
theorem ushort_tagged_char : ¬∀ t, t ≠ .bool →
    Exact ⟨.little, .int32⟩ ⟨[65, 0, 0, 0, 0, 0, 0, 0], .ushort⟩ t
      (coerceValue ⟨.little, .int32⟩ ⟨[65, 0, 0, 0, 0, 0, 0, 0], .ushort⟩ t) :=
  fun h => ushort_not_wchar rfl (h .wchar (by decide))

end Exact

end Atcd.Idl.Coercion
