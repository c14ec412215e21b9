import Atcd.Cdr.Base
/-!
# The growth policy in a `size_t`

`first_size` and `next_size` with sizes that wrap at `2^w`. Without an overflow
the loop is the unbounded one; past the last chunk the size becomes zero, which
no shift takes further.

* `sizes_grow_iff`: the loop ends, and the sizes grow, below the last chunk only.
* `first_size_hangs`: a length of all ones keeps a 32-bit loop going forever.
-/
namespace Atcd.Cdr.SizeT

open Nat

/-- The loop of `first_size`, for at most `fuel` tests of its condition.
mirrors ACE/ace/CDR_Base.inl:207-228 -/
def firstSizeLoop (w minsize : Nat) : Nat → Nat → Option Nat
  | 0, _ => none
  | fuel + 1, newsize =>
    if newsize < minsize then
      if newsize < expGrowthMax then firstSizeLoop w minsize fuel (newsize * 2 % 2 ^ w)
      else firstSizeLoop w minsize fuel ((newsize + linearGrowthChunk) % 2 ^ w)
    else some newsize

/-- mirrors CDR_Base.inl:201-229 -/
def firstSize (w fuel minsize : Nat) : Option Nat :=
  if minsize = 0 then some defaultBufsize else firstSizeLoop w minsize fuel defaultBufsize

/-- mirrors CDR_Base.inl:231-249 -/
def nextSize (w fuel minsize : Nat) : Option Nat :=
  (firstSize w fuel minsize).map fun newsize =>
    if newsize = minsize then
      if newsize < expGrowthMax then newsize * 2 % 2 ^ w
      else (newsize + linearGrowthChunk) % 2 ^ w
    else newsize

/-- The sizes the loop goes through: powers of two, then whole chunks. -/
structure Step (w newsize : Nat) : Prop where
  shape : newsize ∣ expGrowthMax ∨ linearGrowthChunk ∣ newsize
  lt : newsize < 2 ^ w

section

variable {w minsize : Nat}

theorem constants (hw : 17 ≤ w) : expGrowthMax = 65536 ∧ linearGrowthChunk = 65536 ∧
    2 ^ 17 ≤ 2 ^ w ∧ linearGrowthChunk ∣ 2 ^ w :=
  ⟨rfl, rfl, Nat.pow_le_pow_right (by decide) hw, Nat.pow_dvd_pow 2 (show 16 ≤ w by omega)⟩

theorem Step.double {n : Nat} (hw : 17 ≤ w) (h : Step w n) (hn : n < expGrowthMax) :
    Step w (n * 2 % 2 ^ w) := by
  obtain ⟨hE, _, hpow, _⟩ := constants hw
  rw [mod_eq_of_lt (by omega)]
  refine ⟨?_, by omega⟩
  rcases h.shape with hd | hd
  · obtain ⟨k, hk, rfl⟩ := (dvd_prime_pow prime_two).mp (show n ∣ 2 ^ 16 from hd)
    have hk16 : k < 16 := (Nat.pow_lt_pow_iff_right (by decide)).mp (show 2 ^ k < 2 ^ 16 from hn)
    exact .inl (Nat.pow_dvd_pow 2 hk16)
  · exact .inr (hd.mul_right 2)

theorem Step.chunk {n : Nat} (hw : 17 ≤ w) (h : Step w n) (hn : ¬n < expGrowthMax) :
    Step w ((n + linearGrowthChunk) % 2 ^ w) := by
  obtain ⟨hE, hC, _, hdvd⟩ := constants hw
  refine ⟨.inr ((dvd_mod_iff hdvd).mpr (Nat.dvd_add ?_ dvd_rfl)), mod_lt _ (by positivity)⟩
  rcases h.shape with hd | hd
  · have hle := le_of_dvd (by decide) hd
    rw [show n = linearGrowthChunk by omega]
  · exact hd

/-- No size lies inside the last chunk. -/
theorem Step.le {n : Nat} (hw : 17 ≤ w) (h : Step w n) : n ≤ 2 ^ w - linearGrowthChunk := by
  obtain ⟨hE, hC, hpow, b, hb⟩ := constants hw
  have hlt := h.lt
  rcases h.shape with hd | ⟨a, ha⟩
  · have hle := le_of_dvd (by decide) hd
    omega
  · rw [hC] at ha hb ⊢
    omega

theorem loop_step {fuel : Nat} (hw : 17 ≤ w) {n r : Nat} (h : Step w n)
    (hr : firstSizeLoop w minsize fuel n = some r) : Step w r ∧ minsize ≤ r := by
  induction fuel generalizing n with
  | zero => cases hr
  | succ fuel ih =>
    unfold firstSizeLoop at hr
    split at hr
    · split at hr
      · exact ih (h.double hw ‹_›) hr
      · exact ih (h.chunk hw ‹_›) hr
    · cases hr
      exact ⟨h, by omega⟩

theorem firstSize_step {fuel r : Nat} (hw : 17 ≤ w) (hr : firstSize w fuel minsize = some r) :
    Step w r ∧ minsize ≤ r := by
  have hpow := (constants hw).2.2.1
  have hstart : Step w defaultBufsize := ⟨.inl (by decide), by unfold defaultBufsize; omega⟩
  unfold firstSize at hr
  split at hr
  · cases hr
    exact ⟨hstart, by omega⟩
  · exact loop_step hw hstart hr

theorem loop_unbounded (hw : 17 ≤ w) (hmin : minsize ≤ 2 ^ w - linearGrowthChunk)
    (n : { n : Nat // 0 < n }) :
    ∃ fuel, firstSizeLoop w minsize fuel n.1 = some (Cdr.firstSizeLoop minsize n) := by
  obtain ⟨hE, hC, hpow, _⟩ := constants hw
  induction n using Cdr.firstSizeLoop.induct minsize with
  | case1 n hlt hexp ih =>
    obtain ⟨fuel, hf⟩ := ih
    refine ⟨fuel + 1, ?_⟩
    rw [firstSizeLoop, Cdr.firstSizeLoop, if_pos hlt, if_pos hlt, if_pos hexp, if_pos hexp,
      mod_eq_of_lt (by omega), hf]
  | case2 n hlt hexp ih =>
    obtain ⟨fuel, hf⟩ := ih
    refine ⟨fuel + 1, ?_⟩
    rw [firstSizeLoop, Cdr.firstSizeLoop, if_pos hlt, if_pos hlt, if_neg hexp, if_neg hexp,
      mod_eq_of_lt (by omega), hf]
  | case3 n hlt => exact ⟨1, by rw [firstSizeLoop, if_neg hlt, Cdr.firstSizeLoop, if_neg hlt]⟩

theorem firstSize_unbounded (hw : 17 ≤ w) (hmin : minsize ≤ 2 ^ w - linearGrowthChunk) :
    ∃ fuel, firstSize w fuel minsize = some (Cdr.firstSize minsize) := by
  unfold firstSize Cdr.firstSize
  split
  · exact ⟨0, rfl⟩
  · exact loop_unbounded hw hmin ⟨defaultBufsize, by decide⟩

end

/-- **When the sizes grow.** For a `size_t` of 32 or 64 bits: the loop ends with
at least `minsize`, and `next_size` gives more, if and only if `minsize` is more
than a chunk below the end of the range. -/
theorem sizes_grow_iff {w minsize : Nat} (hw : w = 32 ∨ w = 64) (hmin : minsize < 2 ^ w) :
    ((∃ fuel n, firstSize w fuel minsize = some n ∧ minsize ≤ n) ∧
      (0 < minsize → ∃ fuel n, nextSize w fuel minsize = some n ∧ minsize < n)) ↔
      minsize < 2 ^ w - linearGrowthChunk := by
  have hw17 : 17 ≤ w := by omega
  obtain ⟨hE, hC, hpow, _⟩ := constants hw17
  constructor
  · intro ⟨⟨_, n, hn, hle⟩, hnext⟩
    by_contra hge
    obtain ⟨fuel, m, hm, hlt⟩ := hnext (by omega)
    obtain ⟨r, hr, rfl⟩ := Option.map_eq_some_iff.mp hm
    have hrtop := (firstSize_step hw17 hr).1.le hw17
    -- the size is the last chunk, and one more chunk is zero
    split at hlt
    · rw [if_neg (by omega), show r + linearGrowthChunk = 2 ^ w by omega, mod_self] at hlt
      omega
    · omega
  · intro hlt
    obtain ⟨fuel, hf⟩ := firstSize_unbounded hw17 (Nat.le_of_lt hlt)
    have hle := le_firstSize minsize
    refine ⟨⟨fuel, _, hf, hle⟩, fun hpos => ⟨fuel, _, congrArg _ hf, ?_⟩⟩
    dsimp only
    split
    · split <;> rw [mod_eq_of_lt (by omega)] <;> omega
    · omega

theorem sizes_grow_iff_thousand :
    ((∃ fuel n, firstSize 32 fuel 1000 = some n ∧ 1000 ≤ n) ∧
      (0 < 1000 → ∃ fuel n, nextSize 32 fuel 1000 = some n ∧ 1000 < n)) ↔
      1000 < 2 ^ 32 - linearGrowthChunk :=
  sizes_grow_iff (.inl rfl) (by decide)

/-- The length 2^32 - 1 on a 32-bit host: the loop does not end. -/
theorem first_size_hangs : ¬∃ fuel n, firstSize 32 fuel 0xffffffff = some n := by
  rintro ⟨fuel, n, h⟩
  obtain ⟨hs, hle⟩ := firstSize_step (by decide) h
  have htop : n ≤ 2 ^ 32 - 65536 := hs.le (by decide)
  omega

end Atcd.Cdr.SizeT
