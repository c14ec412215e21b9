import Mathlib
/-!
# Binary heap order

An array `key : Nat → κ` is a min-heap on its first `n` entries when no entry
is below its parent (`Ordered`). An entry that may be out of place is sifted:
exchanging it with its parent (`UpTo`) or with a smallest child (`DownFrom`)
moves the only place where the order can fail, until it holds everywhere.

The exchange is composition with `Equiv.swap`; `Within n` says that a
permutation only moves the first `n` entries, so a sift loses and doubles none.

Results:
* `UpTo.swap`, `UpTo.ordered`, `DownFrom.swap`, `DownFrom.ordered`: the step and
  the end of each sift.
* `Ordered.root_le`: the root is a least entry.
-/
namespace Atcd.Core.HeapOrder

open List Function

variable {κ : Type*} [LinearOrder κ]

def parent (i : Nat) : Nat := (i - 1) / 2

def lchild (i : Nat) : Nat := i + i + 1

variable {i s : Nat} {σ : Equiv.Perm Nat}

theorem parent_lt (h : 0 < i) : parent i < i := by unfold parent; omega

theorem parent_eq_iff {p : Nat} (h : 0 < i) : parent i = p ↔ i = lchild p ∨ i = lchild p + 1 := by
  unfold parent lchild; omega

theorem lt_lchild (i : Nat) : i < lchild i := by unfold lchild; omega

def Ordered (key : Nat → κ) (n : Nat) : Prop :=
  ∀ i, 0 < i → i < n → key (parent i) ≤ key i

/-- The order holds but between `s` and its parent. -/
structure UpTo (key : Nat → κ) (n s : Nat) : Prop where
  off : ∀ i, 0 < i → i < n → i ≠ s → key (parent i) ≤ key i
  grand : 0 < s → ∀ c, 0 < c → c < n → parent c = s → key (parent s) ≤ key c

/-- The order holds but between `s` and its children. -/
structure DownFrom (key : Nat → κ) (n s : Nat) : Prop where
  off : ∀ i, 0 < i → i < n → parent i ≠ s → key (parent i) ≤ key i
  grand : 0 < s → ∀ c, 0 < c → c < n → parent c = s → key (parent s) ≤ key c

def Within (n : Nat) (σ : Equiv.Perm Nat) : Prop := ∀ i, n ≤ i → σ i = i

theorem Within.refl (n : Nat) : Within n (Equiv.refl Nat) := fun _ _ => rfl

variable {n : Nat} {key : Nat → κ}

theorem Within.trans {τ : Equiv.Perm Nat} (h : Within n σ) (g : Within n τ) :
    Within n (σ.trans τ) := fun i hi => by rw [Equiv.trans_apply, h i hi, g i hi]

theorem Within.swap {j : Nat} (hi : i < n) (hj : j < n) : Within n (Equiv.swap i j) :=
  fun k hk => Equiv.swap_apply_of_ne_of_ne (by omega) (by omega)

theorem Within.lt (h : Within n σ) (hi : i < n) : σ i < n := by
  by_contra hge
  have := h (σ i) (by omega)
  have := σ.injective this
  omega

theorem Within.symm (h : Within n σ) : Within n σ.symm := fun i hi => by
  rw [Equiv.symm_apply_eq, h i hi]

theorem Within.map_range_perm {α : Type*} (h : Within n σ) (f : Nat → α) :
    ((range n).map (f ∘ σ)).Perm ((range n).map f) := by
  rw [← map_map]
  refine Perm.map f ?_
  have hnodup : ((range n).map σ).Nodup := nodup_range.map σ.injective
  refine (perm_ext_iff_of_nodup hnodup nodup_range).mpr fun i => ?_
  simp only [mem_map, mem_range]
  constructor
  · rintro ⟨j, hj, rfl⟩
    exact h.lt hj
  · exact fun hi => ⟨σ.symm i, h.symm.lt hi, σ.apply_symm_apply i⟩

theorem Ordered.mono {m : Nat} (h : Ordered key n) (hm : m ≤ n) : Ordered key m :=
  fun i h0 hi => h i h0 (by omega)

theorem Ordered.congr {key' : Nat → κ} (h : Ordered key n) (he : ∀ i < n, key' i = key i) :
    Ordered key' n := fun i h0 hi => by
  rw [he i hi, he _ (by have := parent_lt h0; omega)]
  exact h i h0 hi

/-- **The root is a least entry.** -/
theorem Ordered.root_le (h : Ordered key n) : ∀ i, i < n → key 0 ≤ key i := by
  intro i
  induction i using Nat.strongRecOn with
  | ind i ih =>
    intro hi
    by_cases h0 : i = 0
    · rw [h0]
    · have hp := parent_lt (show 0 < i by omega)
      exact (ih _ hp (by omega)).trans (h i (by omega) hi)

/-! ## Up -/

theorem UpTo.of_ordered (h : Ordered key n) : UpTo key (n + 1) n := by
  refine ⟨fun i h0 hi hne => h i h0 (by omega), fun _ c h0 hc hp => ?_⟩
  have := parent_lt h0
  omega

theorem UpTo.ordered (h : UpTo key n s) (hs : s = 0 ∨ key (parent s) ≤ key s) :
    Ordered key n := by
  intro i h0 hi
  by_cases hne : i = s
  · subst hne
    rcases hs with hs | hs
    · omega
    · exact hs
  · exact h.off i h0 hi hne

theorem UpTo.swap (h : UpTo key n s) (h0 : 0 < s) (hs : s < n)
    (hlt : key s < key (parent s)) : UpTo (key ∘ Equiv.swap s (parent s)) n (parent s) := by
  have hps := parent_lt h0
  -- the key of every position after the exchange
  have at_s : (key ∘ Equiv.swap s (parent s)) s = key (parent s) := by simp
  have at_p : (key ∘ Equiv.swap s (parent s)) (parent s) = key s := by simp
  have other : ∀ i, i ≠ s → i ≠ parent s → (key ∘ Equiv.swap s (parent s)) i = key i :=
    fun i h1 h2 => by simp [Equiv.swap_apply_of_ne_of_ne h1 h2]
  refine ⟨?_, ?_⟩
  · intro i hi0 hi hip
    by_cases his : i = s
    · rw [his, at_s, at_p]; exact hlt.le
    · rw [other i his hip]
      by_cases hps' : parent i = s
      · rw [hps', at_s]; exact h.grand h0 i hi0 hi hps'
      · by_cases hpp : parent i = parent s
        · rw [hpp, at_p]
          have := h.off i hi0 hi his
          rw [hpp] at this
          exact hlt.le.trans this
        · rw [other _ hps' hpp]; exact h.off i hi0 hi his
  · intro hp0 c hc0 hc hcp
    have hpc := parent_lt hc0
    have hgp := parent_lt hp0
    rw [other (parent (parent s)) (by omega) (by omega)]
    have hup : key (parent (parent s)) ≤ key (parent s) := h.off _ hp0 (by omega) (by omega)
    by_cases hcs : c = s
    · rw [hcs, at_s]; exact hup
    · rw [other c hcs (by omega)]
      have := h.off c hc0 hc hcs
      rw [hcp] at this
      exact hup.trans this

/-- An entry below its parent put into an ordered array. -/
theorem UpTo.of_update {v : κ} (h : Ordered key n) (h0 : 0 < s) (hs : s < n)
    (hv : v < key (parent s)) : UpTo (update key s v) n s := by
  have hp := parent_lt h0
  refine ⟨fun i hi0 hi hne => ?_, fun _ c hc0 hc hcs => ?_⟩
  · rw [update_of_ne hne]
    by_cases hps : parent i = s
    · rw [hps, update_self]
      have := h i hi0 hi
      rw [hps] at this
      exact hv.le.trans ((h s h0 hs).trans this)
    · rw [update_of_ne hps]; exact h i hi0 hi
  · have hpc := parent_lt hc0
    rw [update_of_ne (by omega), update_of_ne (by omega)]
    have := h c hc0 hc
    rw [hcs] at this
    exact (h s h0 hs).trans this

/-! ## Down -/

theorem DownFrom.of_update {v : κ} (h : Ordered key n) (hs : s < n)
    (hv : s = 0 ∨ key (parent s) ≤ v) : DownFrom (update key s v) n s := by
  refine ⟨fun i hi0 hi hps => ?_, fun h0 c hc0 hc hcs => ?_⟩
  · rw [update_of_ne hps]
    by_cases his : i = s
    · subst his
      rw [update_self]
      rcases hv with hv | hv
      · omega
      · exact hv
    · rw [update_of_ne his]; exact h i hi0 hi
  · have hpc := parent_lt hc0
    have hp := parent_lt h0
    rw [update_of_ne (by omega), update_of_ne (by omega)]
    have := h c hc0 hc
    rw [hcs] at this
    exact (h s h0 hs).trans this

theorem DownFrom.ordered (h : DownFrom key n s)
    (hs : ∀ c, 0 < c → c < n → parent c = s → key s ≤ key c) : Ordered key n := by
  intro i h0 hi
  by_cases hp : parent i = s
  · rw [hp]; exact hs i h0 hi hp
  · exact h.off i h0 hi hp

theorem DownFrom.swap {c : Nat} (h : DownFrom key n s) (hc0 : 0 < c) (hc : c < n)
    (hcs : parent c = s) (hmin : ∀ d, 0 < d → d < n → parent d = s → key c ≤ key d)
    (hlt : key c < key s) : DownFrom (key ∘ Equiv.swap s c) n c := by
  have hsc : s < c := hcs ▸ parent_lt hc0
  have at_s : (key ∘ Equiv.swap s c) s = key c := by simp
  have at_c : (key ∘ Equiv.swap s c) c = key s := by simp
  have other : ∀ i, i ≠ s → i ≠ c → (key ∘ Equiv.swap s c) i = key i :=
    fun i h1 h2 => by simp [Equiv.swap_apply_of_ne_of_ne h1 h2]
  refine ⟨?_, ?_⟩
  · intro i hi0 hi hip
    have hpi := parent_lt hi0
    by_cases hps : parent i = s
    · rw [hps, at_s]
      by_cases hic : i = c
      · rw [hic, at_c]; exact hlt.le
      · rw [other i (by omega) hic]; exact hmin i hi0 hi hps
    · rw [other _ hps hip]
      by_cases his : i = s
      · rw [his, at_s]
        have := h.grand (by omega) c hc0 hc hcs
        rwa [his] at *
      · have hic : i ≠ c := fun e => hps (e ▸ hcs)
        rw [other i his hic]
        exact h.off i hi0 hi hps
  · intro _ d hd0 hd hdc
    have hpd := parent_lt hd0
    rw [hcs, at_s, other d (by omega) (by omega)]
    have := h.off d hd0 hd (by omega)
    rwa [hdc] at this

end Atcd.Core.HeapOrder
