import Mathlib
/-!
# The implicit default of a union (`TAO_IDL/ast/ast_union.cpp`)

`compute_default_value` counts the case labels to see whether they cover the type of the
discriminator, and else looks for a value without a label, starting over with the next one
after each hit.

A value is the bit pattern of its type: `++` and, for a boolean, `^= true` add 1. An enum
has 32 bits, whatever its members. Wide characters are left out.

Results:
- `search_finds`, `search_covered`: the search ends exactly if there is a value without label;
- `default_unlabelled_iff`: the result is right exactly if the count tells full coverage;
- `same_label_twice`: `case TRUE: case TRUE:` counts as both values.
-/
namespace Atcd.Idl

open BitVec

/-- The types of a discriminator. -/
inductive Disc
  | bool | char | short | ushort | long | ulong | longlong | ulonglong | enum
  deriving DecidableEq, Repr

namespace Disc

def bits : Disc → Nat
  | bool => 1
  | char => 8
  | short | ushort => 16
  | long | ulong | enum => 32
  | longlong | ulonglong => 64

/-- mirrors TAO/TAO_IDL/ast/ast_union.cpp:668-703 -/
def initial : (k : Disc) → BitVec k.bits
  | short => 0x8000
  | long => 0x80000001
  | bool | char | ushort | ulong | longlong | ulonglong | enum => 0

/-- Whether so many labels are all values; `first` is `first_case_found`.
mirrors ast_union.cpp:574-628 -/
def full (k : Disc) (total : UInt64) (first : Bool) : Bool :=
  match k with
  | short | ushort => total > 0xFFFF
  | long | ulong | enum => total > 0xFFFFFFFF
  | longlong | ulonglong => first && total == 0
  | char => total > 0xFF
  | bool => total == 2

end Disc

/-- `AST_UnionBranch`; `none` is the label `default`. -/
structure UnionBranch (n : Nat) where
  labels : List (Option (BitVec n))
  imported : Bool

/-- `AST_Union` with the branches of its scope. -/
structure IdlUnion where
  discType : Disc
  branches : List (UnionBranch discType.bits)

/-- `computed_` and the value where one has been found. -/
structure DefaultValue (n : Nat) where
  computed : Int
  u : Option (BitVec n)

namespace IdlUnion

variable (u : IdlUnion)

/-- All labels, in the order of the scope. -/
def labels : List (Option (BitVec u.discType.bits)) := u.branches.flatMap UnionBranch.labels

/-- The last of the branches that are not imported with a label `default`, or -1.
mirrors ast_union.cpp:866-920 -/
def defaultIndex : Int :=
  ((u.branches.filter (!·.imported)).foldl
    (fun (acc : Int × Int) ub => (acc.1 + 1, if none ∈ ub.labels then acc.1 else acc.2)) (0, -1)).2

/-- `total_case_members` and `first_case_found`.
mirrors ast_union.cpp:537-565 -/
def count : UInt64 × Bool :=
  u.labels.foldl (fun acc l => if l.isSome = true then (acc.1 + 1, true) else acc) (0, false)

/-- The scan for the value, which is started again with the next one after each match. The
fuel is the number of scans.
mirrors ast_union.cpp:707-858 -/
def search : Nat → BitVec u.discType.bits → Option (BitVec u.discType.bits)
  | 0, _ => none
  | fuel + 1, v => if some v ∈ u.labels then search fuel (v + 1) else some v

/-- mirrors ast_union.cpp:530-862 -/
def computeDefaultValue (fuel : Nat) : Option (DefaultValue u.discType.bits) :=
  if u.discType.full u.count.1 u.count.2 = true then
    if u.defaultIndex ≠ -1 then some ⟨-1, none⟩ else some ⟨0, none⟩
  else (u.search fuel u.discType.initial).map fun v => ⟨1, some v⟩

variable {u}

/-- Every value has a label. -/
def Covered (u : IdlUnion) : Prop := ∀ v, some v ∈ u.labels

/-- The result for some fuel: 0, or -1 for the clause `default`, where every value has a
label, and else a value without one. -/
def Right (u : IdlUnion) : Prop :=
  ∃ fuel out, u.computeDefaultValue fuel = some out ∧
    ((out.computed = 0 ∨ out.computed = -1) ∧ u.Covered ∨
      out.computed = 1 ∧ ∃ v, out.u = some v ∧ some v ∉ u.labels)

/-- A value that is `d` further on is found. -/
theorem search_finds (d : Nat) (v : BitVec u.discType.bits)
    (h : some (v + BitVec.ofNat _ d) ∉ u.labels) :
    ∃ r, u.search (d + 1) v = some r ∧ some r ∉ u.labels := by
  induction d generalizing v with
  | zero =>
    have hv : some v ∉ u.labels := by simpa using h
    exact ⟨v, if_neg hv, hv⟩
  | succ d ih =>
    by_cases hv : some v ∈ u.labels
    · have hnext : v + 1 + BitVec.ofNat _ d = v + BitVec.ofNat _ (d + 1) := by
        rw [ofNat_add, add_assoc, add_comm 1]
        rfl
      obtain ⟨r, hr, hfree⟩ := ih (v + 1) (hnext ▸ h)
      exact ⟨r, (if_pos hv).trans hr, hfree⟩
    · exact ⟨v, if_neg hv, hv⟩

theorem search_covered (h : u.Covered) (fuel : Nat) (v : BitVec u.discType.bits) :
    u.search fuel v = none := by
  induction fuel generalizing v with
  | zero => rfl
  | succ fuel ih => exact (if_pos (h v)).trans (ih _)

/-- The number of case labels. -/
def cases (u : IdlUnion) : Nat := u.labels.countP Option.isSome

theorem count_eq (u : IdlUnion) : u.count = (UInt64.ofNat u.cases, decide (0 < u.cases)) := by
  have hfold : ∀ (l : List (Option (BitVec u.discType.bits))) (n : UInt64) (b : Bool),
      l.foldl (fun acc l => if l.isSome = true then (acc.1 + 1, true) else acc) (n, b) =
        (n + UInt64.ofNat (l.countP Option.isSome), b || decide (0 < l.countP Option.isSome)) := by
    intro l
    induction l with
    | nil => simp
    | cons x l ih =>
      intro n b
      rw [List.foldl_cons]
      cases x with
      | none => simp [ih]
      | some v =>
        simp only [Option.isSome_some, if_true, List.countP_cons_of_pos, ih]
        refine Prod.ext ?_ (by simp)
        rw [UInt64.ofNat_add, UInt64.add_assoc, UInt64.add_comm 1]
        rfl
  exact (hfold u.labels 0 false).trans (by simp [cases])

/-- What the numbers of labels are taken for; the count of 64 bits wraps around. -/
def Counted (u : IdlUnion) : Prop :=
  match u.discType with
  | .bool => u.cases % 2 ^ 64 = 2
  | .char => 2 ^ 8 ≤ u.cases % 2 ^ 64
  | .short | .ushort => 2 ^ 16 ≤ u.cases % 2 ^ 64
  | .long | .ulong | .enum => 2 ^ 32 ≤ u.cases % 2 ^ 64
  | .longlong | .ulonglong => 0 < u.cases ∧ u.cases % 2 ^ 64 = 0

theorem full_iff (u : IdlUnion) : u.discType.full u.count.1 u.count.2 = true ↔ u.Counted := by
  rw [count_eq]
  unfold Disc.full Counted
  cases u.discType <;>
    simp [UInt64.lt_iff_toNat_lt, ← UInt64.toNat_inj, UInt64.toNat_ofNat', Nat.lt_iff_add_one_le]

/-- **The implicit default.** The result is right exactly if the number of labels is taken
for all values exactly where every value has a label. -/
theorem default_unlabelled_iff (u : IdlUnion) : u.Right ↔ (u.Counted ↔ u.Covered) := by
  unfold Right computeDefaultValue
  rw [← full_iff]
  by_cases hfull : u.discType.full u.count.1 u.count.2 = true
  · simp only [hfull, if_true, true_iff]
    by_cases hdefault : u.defaultIndex = -1
    · simp [hdefault]
    · simp [hdefault]
  · simp only [hfull, if_false, false_iff, Bool.false_eq_true]
    constructor
    · rintro ⟨fuel, out, hout, hright⟩ hcov
      rw [search_covered hcov] at hout
      cases hout
    · intro hcov
      obtain ⟨v, hv⟩ := not_forall.mp hcov
      have hreach : u.discType.initial + BitVec.ofNat _ (v - u.discType.initial).toNat = v := by
        rw [ofNat_toNat, setWidth_eq, add_comm, sub_add_cancel]
      obtain ⟨r, hr, hfree⟩ := search_finds _ u.discType.initial (hreach.symm ▸ hv)
      exact ⟨_, _, by rw [hr]; rfl, .inr ⟨rfl, r, rfl, hfree⟩⟩

/-- `case TRUE: case TRUE:` leaves FALSE, but two labels are taken for both values. -/
theorem same_label_twice : ¬ ∀ u : IdlUnion, u.Right := by
  intro hall
  have h := (default_unlabelled_iff ⟨.bool, [⟨[some 1, some 1], false⟩]⟩).mp (hall _)
  exact absurd (h.mp rfl 0) (by decide)

end IdlUnion

end Atcd.Idl
