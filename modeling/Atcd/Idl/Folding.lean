import Atcd.Idl.Expression
/-!
# What constant folding is to compute

The abstract side of `Idl/Expression`: an expression tree with its exact integer value, which
the type gives only for shift amounts below its width and for `~`. `Sound` says of a tree that
no operator with operands in range is one that the code gets wrong:
- `%` has no branch for `short` and `unsigned short`;
- `long long` and `unsigned long long` wrap around in `+ - *`, every type does in `<<`, and the
  least number by -1 traps;
- a `long` is checked against the `LONG_MAX` of the host;
- the sign of 64 bits is taken in `double`.

Results:
- `Tree.exactIn_of_allIn`, `Tree.exact_of_exactIn`: the value in range is the exact value;
- `Tree.exactIn_none_of_out`, `Tree.exactIn_none_of_zeroDivisor`: where there is none.
-/
namespace Atcd.Idl

open Option

open IntType (longlong)

/-- The tree as it is parsed. -/
inductive Tree
  | lit (w : Word)
  | un (ec : UnOp) (v1 : Tree)
  | bin (ec : BinOp) (v1 v2 : Tree)
  deriving DecidableEq

/-- What an operator means. -/
def binExact (t : IntType) (ec : BinOp) (a b : Int) : Option Int :=
  match ec with
  | .add => some (a + b)
  | .minus => some (a - b)
  | .mul => some (a * b)
  | .div => if b = 0 then none else some (a.tdiv b)
  | .mod => if b = 0 then none else some (a.tmod b)
  | .or => some (a.lor b)
  | .xor => some (a.xor b)
  | .and => some (a.land b)
  | .left => if 0 ≤ b ∧ b < t.bits then some (a * 2 ^ b.toNat) else none
  | .right => if 0 ≤ b ∧ b < t.bits then some (a / 2 ^ b.toNat) else none

def unExact (t : IntType) (ec : UnOp) (a : Int) : Int :=
  match ec with
  | .u_plus => a
  | .u_minus => -a
  | .bit_neg => t.wrap (-a - 1)

def keep (t : IntType) (v : Int) : Option Int := if t.Holds v then some v else none

/-- Whether a result of `+ - * /` that is out of range is noticed: not in the widest types,
and not above the range of a `long` where the host's `long` has more bits. -/
def noticed (P : DataModel) (t : IntType) (r : Int) : Prop :=
  (t = .longlong ∨ t = .ulonglong → t.Holds r) ∧ (t = .long ∧ P = .lp64 → r ≤ t.hi)

/-- Where a binary operator with operands in range is right. -/
def BinSound (P : DataModel) (t : IntType) (ec : BinOp) (a b : Int) : Prop :=
  match ec with
  | .add => noticed P t (a + b)
  | .minus => noticed P t (a - b)
  | .mul => noticed P t (a * b)
  | .div => b ≠ 0 → noticed P t (a.tdiv b)
  | .mod => b ≠ 0 → t ≠ .short ∧ t ≠ .ushort ∧ ¬(a = t.lo ∧ b = -1)
  | .or | .xor | .and | .right => True
  | .left => t.Holds (a * 2 ^ b.toNat)

/-- Where a unary operator with its operand in range is right. -/
def UnSound (P : DataModel) (t : IntType) (ec : UnOp) (a : Int) : Prop :=
  match ec with
  | .u_plus => (t = .longlong ∨ t = .ulonglong → toDouble a = a) ∧
      (t = .ulonglong → a ≤ longlong.hi)
  | .u_minus => (t = .longlong → toDouble a = a ∧ -a ≤ t.hi) ∧
      (t = .long ∧ P = .lp64 → -a ≤ t.hi)
  | .bit_neg => True

namespace Tree

/-- The expression, with no values but the literals'. -/
def expr : Tree → Expr
  | .lit w => .lit (some (.int w))
  | .un ec v1 => .un none ec v1.expr
  | .bin ec v1 v2 => .bin none ec v1.expr v2.expr

/-- The exact value. -/
def exact (t : IntType) : Tree → Option Int
  | .lit w => some w.val
  | .un ec v1 => (v1.exact t).map (unExact t ec)
  | .bin ec v1 v2 => (v1.exact t).bind fun a => (v2.exact t).bind fun b => binExact t ec a b

/-- The exact value, where every subexpression has one in range. -/
def exactIn (t : IntType) : Tree → Option Int
  | .lit w => keep t w.val
  | .un ec v1 => (v1.exactIn t).bind fun a => keep t (unExact t ec a)
  | .bin ec v1 v2 => (v1.exactIn t).bind fun a => (v2.exactIn t).bind fun b =>
      (binExact t ec a b).bind (keep t)

def subtrees : Tree → List Tree
  | .lit w => [.lit w]
  | .un ec v1 => .un ec v1 :: v1.subtrees
  | .bin ec v1 v2 => .bin ec v1 v2 :: (v1.subtrees ++ v2.subtrees)

def AllIn (t : IntType) (e : Tree) : Prop := ∀ s ∈ e.subtrees, ∃ v, s.exact t = some v ∧ t.Holds v

def ZeroDivisor (t : IntType) (e : Tree) : Prop :=
  ∃ ec v1 v2, .bin ec v1 v2 ∈ e.subtrees ∧ (ec = .div ∨ ec = .mod) ∧ v2.exact t = some 0

/-- Shift amounts are below the type's width, wherever the operands are in range. -/
def ShiftsIn (t : IntType) (e : Tree) : Prop :=
  ∀ ec v1 v2, .bin ec v1 v2 ∈ e.subtrees → ec = .left ∨ ec = .right →
    ∀ a b : Int, v1.exactIn t = some a → v2.exactIn t = some b → 0 ≤ b ∧ b < t.bits

/-- Every operator whose operands are in range is right there. -/
def Sound (P : DataModel) (t : IntType) : Tree → Prop
  | .lit _ => True
  | .un ec v1 => v1.Sound P t ∧ ∀ a, v1.exactIn t = some a → UnSound P t ec a
  | .bin ec v1 v2 => v1.Sound P t ∧ v2.Sound P t ∧
      ∀ a b, v1.exactIn t = some a → v2.exactIn t = some b → BinSound P t ec a b

end Tree

section Values

variable {t : IntType} {v : Int}

theorem keep_of_holds (h : t.Holds v) : keep t v = some v := if_pos h

theorem keep_eq_some {w : Int} : keep t v = some w ↔ t.Holds v ∧ v = w := by
  simp [keep]

theorem keep_eq_none : keep t v = none ↔ ¬t.Holds v := by
  simp [keep]

theorem Tree.exactIn_holds : ∀ {e : Tree}, e.exactIn t = some v → t.Holds v
  | .lit w, h => by
    obtain ⟨hw, rfl⟩ := keep_eq_some.mp h
    exact hw
  | .un ec v1, h => by
    simp only [exactIn, bind_eq_some_iff] at h
    obtain ⟨a, -, hk⟩ := h
    obtain ⟨hw, rfl⟩ := keep_eq_some.mp hk
    exact hw
  | .bin ec v1 v2, h => by
    simp only [exactIn, bind_eq_some_iff] at h
    obtain ⟨a, -, b, -, r, -, hk⟩ := h
    obtain ⟨hw, rfl⟩ := keep_eq_some.mp hk
    exact hw

theorem Tree.mem_subtrees (e : Tree) : e ∈ e.subtrees := by
  cases e <;> simp [subtrees]

theorem Tree.exact_of_exactIn : ∀ {e : Tree} {v : Int}, e.exactIn t = some v → e.exact t = some v
  | .lit w, v, h => by
    obtain ⟨-, rfl⟩ := keep_eq_some.mp h
    rfl
  | .un ec v1, v, h => by
    simp only [exactIn, bind_eq_some_iff] at h
    obtain ⟨a, ha, hk⟩ := h
    obtain ⟨-, rfl⟩ := keep_eq_some.mp hk
    simp [exact, exact_of_exactIn ha]
  | .bin ec v1 v2, v, h => by
    simp only [exactIn, bind_eq_some_iff] at h
    obtain ⟨a, ha, b, hb, r, hr, hk⟩ := h
    obtain ⟨-, rfl⟩ := keep_eq_some.mp hk
    simp [exact, exact_of_exactIn ha, exact_of_exactIn hb, hr]

theorem Tree.exactIn_of_allIn : ∀ {e : Tree}, e.AllIn t → ∃ v, e.exactIn t = some v
  | .lit w, h => by
    obtain ⟨v, hv, hin⟩ := h _ (mem_subtrees _)
    obtain rfl : w.val = v := some.inj hv
    exact ⟨_, keep_of_holds hin⟩
  | .un ec v1, h => by
    obtain ⟨v, hv, hin⟩ := h _ (mem_subtrees _)
    obtain ⟨a, ha⟩ := exactIn_of_allIn (e := v1) fun s hs => h s (by simp [subtrees, hs])
    simp only [exact, exact_of_exactIn ha, map_some, some.injEq] at hv
    subst hv
    exact ⟨_, by rw [exactIn, ha, bind_some, keep_of_holds hin]⟩
  | .bin ec v1 v2, h => by
    obtain ⟨v, hv, hin⟩ := h _ (mem_subtrees _)
    obtain ⟨a, ha⟩ := exactIn_of_allIn (e := v1) fun s hs => h s (by simp [subtrees, hs])
    obtain ⟨b, hb⟩ := exactIn_of_allIn (e := v2) fun s hs => h s (by simp [subtrees, hs])
    simp only [exact, exact_of_exactIn ha, exact_of_exactIn hb, bind_some] at hv
    exact ⟨v, by rw [exactIn, ha, hb, bind_some, bind_some, hv, bind_some, keep_of_holds hin]⟩

theorem Tree.exactIn_none_of_mem {s : Tree} (hs : s.exactIn t = none) :
    ∀ {e : Tree}, s ∈ e.subtrees → e.exactIn t = none
  | .lit w, h => by
    obtain rfl : s = .lit w := by simpa [subtrees] using h
    exact hs
  | .un ec v1, h => by
    rcases List.mem_cons.mp h with rfl | h
    · exact hs
    · rw [exactIn, exactIn_none_of_mem hs h, bind_none]
  | .bin ec v1 v2, h => by
    rcases List.mem_cons.mp h with rfl | h
    · exact hs
    · rcases List.mem_append.mp h with h | h
      · rw [exactIn, exactIn_none_of_mem hs h, bind_none]
      · simp [exactIn, exactIn_none_of_mem hs h]

theorem Tree.exactIn_none_of_zeroDivisor {e : Tree} (h : e.ZeroDivisor t) :
    e.exactIn t = none := by
  obtain ⟨ec, v1, v2, hmem, hec, hzero⟩ := h
  apply exactIn_none_of_mem _ hmem
  cases h2 : v2.exactIn t with
  | none => simp [exactIn, h2]
  | some b =>
    obtain rfl : b = 0 := by
      have hb := exact_of_exactIn h2
      rw [hzero] at hb
      exact (some.inj hb).symm
    rcases hec with rfl | rfl <;> simp [exactIn, h2, binExact]

theorem Tree.exactIn_none_of_out {e : Tree} (he : e.exact t = some v) (hout : ¬t.Holds v) :
    e.exactIn t = none := by
  by_contra hne
  obtain ⟨w, hw⟩ := ne_none_iff_exists'.mp hne
  have hexact := exact_of_exactIn hw
  rw [he] at hexact
  obtain rfl := some.inj hexact
  exact hout (exactIn_holds hw)

end Values

end Atcd.Idl
