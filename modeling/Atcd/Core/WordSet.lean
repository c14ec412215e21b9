import Mathlib
/-!
# A set of numbers as the bits of words

Numbers below a bound are the bits of a list of words. The bits from the bound on are set
from the start, so that the set is complete when every word has all its bits.

Results:
- `test_mark`, `test_clear`, `test_new`: what marking a number, clearing it and the start say
  about a test;
- `full_iff`: when every word is full.
-/
namespace Atcd.Core.WordSet

open List BitVec Nat

variable {w : Nat}

/-- The bit of a number in its word, as a mask. -/
def bit (w i : Nat) : BitVec w := 1#w <<< (i % w)

def test (ws : List (BitVec w)) (i : Nat) : Bool := (ws.getD (i / w) 0 &&& bit w i) != 0

def mark (ws : List (BitVec w)) (i : Nat) : List (BitVec w) :=
  ws.set (i / w) (ws.getD (i / w) 0 ||| bit w i)

def clear (ws : List (BitVec w)) (i : Nat) : List (BitVec w) :=
  ws.set (i / w) (ws.getD (i / w) 0 &&& ~~~bit w i)

def full (ws : List (BitVec w)) : Bool := ws.all fun b => b == BitVec.allOnes w

/-- The set without a number below the bound. -/
def new (w bound : Nat) : List (BitVec w) :=
  List.replicate (bound / w) 0 ++ [BitVec.allOnes w <<< (bound % w)]

@[simp] theorem length_new (w bound : Nat) : (new w bound).length = bound / w + 1 := by
  simp [new]

@[simp] theorem length_mark (ws : List (BitVec w)) (i : Nat) : (mark ws i).length = ws.length := by
  simp [mark]

@[simp] theorem length_clear (ws : List (BitVec w)) (i : Nat) :
    (clear ws i).length = ws.length := by
  simp [clear]

theorem getLsbD_bit (hw : 0 < w) (i k : Nat) : (bit w i).getLsbD k = decide (k = i % w) := by
  have hlt := mod_lt i hw
  simp only [bit, getLsbD_shiftLeft, getLsbD_one]
  grind

theorem test_eq (hw : 0 < w) (ws : List (BitVec w)) (i : Nat) :
    test ws i = (ws.getD (i / w) 0).getLsbD (i % w) := by
  generalize hb : ws.getD (i / w) 0 = b
  rw [test, hb, Bool.eq_iff_iff, bne_iff_ne]
  constructor
  · intro h
    by_contra hno
    refine h (eq_of_getLsbD_eq fun k hk => ?_)
    rw [getLsbD_and, getLsbD_bit hw]
    by_cases he : k = i % w
    · have hoff : b.getLsbD (i % w) = false := by simpa using hno
      simp [he, hoff]
    · simp [he]
  · intro h hzero
    have hbit := congrArg (fun x => x.getLsbD (i % w)) hzero
    simp [getLsbD_and, getLsbD_bit hw, h] at hbit

/-- A word is replaced: the tests of the other words stay. -/
theorem test_set (hw : 0 < w) {ws : List (BitVec w)} {i : Nat} (hi : i / w < ws.length)
    {b : BitVec w} {p : Bool}
    (hb : ∀ k < w, b.getLsbD k = if k = i % w then p else (ws.getD (i / w) 0).getLsbD k) (j : Nat) :
    test (ws.set (i / w) b) j = if j = i then p else test ws j := by
  rw [test_eq hw, test_eq hw, getD_eq_getElem?_getD, getElem?_set]
  by_cases hword : i / w = j / w
  · have hij : j % w = i % w ↔ j = i := by
      constructor
      · intro h
        rw [← div_add_mod j w, ← div_add_mod i w, h, hword]
      · intro h
        rw [h]
    rw [if_pos hword, if_pos hi, Option.getD_some, hb _ (mod_lt j hw), hword]
    simp only [hij]
  · have hne : j ≠ i := by
      rintro rfl
      exact hword rfl
    rw [if_neg hword, if_neg hne, ← getD_eq_getElem?_getD]

theorem test_mark (hw : 0 < w) {ws : List (BitVec w)} {i : Nat} (hi : i / w < ws.length) (j : Nat) :
    test (mark ws i) j = (decide (j = i) || test ws j) := by
  rw [mark, test_set hw hi (p := true)]
  · by_cases h : j = i <;> simp [h]
  · intro k _
    rw [getLsbD_or, getLsbD_bit hw]
    by_cases h : k = i % w <;> simp [h]

theorem test_clear (hw : 0 < w) {ws : List (BitVec w)} {i : Nat} (hi : i / w < ws.length)
    (j : Nat) : test (clear ws i) j = (decide (j ≠ i) && test ws j) := by
  rw [clear, test_set hw hi (p := false)]
  · by_cases h : j = i <;> simp [h]
  · intro k hk
    rw [getLsbD_and, getLsbD_not, getLsbD_bit hw]
    by_cases h : k = i % w <;> simp [h, hk]

theorem test_new (hw : 0 < w) {bound j : Nat} (hj : j / w ≤ bound / w) :
    test (new w bound) j = decide (bound ≤ j) := by
  have hdiv := div_add_mod bound w
  have hdiv' := div_add_mod j w
  have hlt := mod_lt j hw
  rw [test_eq hw, new]
  rcases Nat.lt_or_eq_of_le hj with hbelow | hsame
  · rw [getD_append _ _ _ _ (by simpa using hbelow)]
    have hle : w * (j / w + 1) ≤ w * (bound / w) := mul_le_mul_left w hbelow
    rw [Nat.mul_add, Nat.mul_one] at hle
    have hno : ¬bound ≤ j := by omega
    simp [hno]
  · rw [getD_append_right _ _ _ _ (by simp [hsame]), hsame]
    simp only [length_replicate, Nat.sub_self, getD_cons_zero, getLsbD_shiftLeft,
      getLsbD_allOnes]
    grind

theorem full_iff (hw : 0 < w) (ws : List (BitVec w)) :
    full ws = true ↔ ∀ j, j / w < ws.length → test ws j = true := by
  simp only [full, all_eq_true, beq_iff_eq]
  constructor
  · intro h j hj
    rw [test_eq hw, getD_eq_getElem _ _ hj, h _ (getElem_mem hj), getLsbD_allOnes]
    simpa using mod_lt j hw
  · intro h b hb
    obtain ⟨k, hk, rfl⟩ := getElem_of_mem hb
    refine eq_of_getLsbD_eq fun i hi => ?_
    have hdiv : (w * k + i) / w = k := by
      rw [mul_add_div hw, div_eq_of_lt hi, Nat.add_zero]
    have hmod : (w * k + i) % w = i := by
      rw [mul_add_mod, mod_eq_of_lt hi]
    have ht := h (w * k + i) (by rw [hdiv]; exact hk)
    rw [test_eq hw, hdiv, hmod, getD_eq_getElem _ _ hk] at ht
    rw [ht, getLsbD_allOnes, decide_eq_true hi]

end Atcd.Core.WordSet
