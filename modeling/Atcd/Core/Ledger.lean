import Mathlib
/-!
# A ledger of what is allocated

Entries are made under numbers that are handed out in order and are dropped at most once.
An operation starts out holding some of them and ends up holding others (`Local`): it
touches no entry that it does not hold, and what it leaves behind it holds. Operations
compose. When every entry has exactly one owner (`Ledger`), a local operation of one owner
keeps this, so that nothing is dropped twice, used after it is dropped or lost.

Results:
- `Local.trans`, with one rule for each primitive: `alloc`, `set`, `drop`;
- `Ledger.change`: a local operation keeps the ledger;
- `Ledger.frame`: what the other owners hold is as it was;
- `Ledger.reindex`: owners hand over what they hold.
-/
namespace Atcd.Core

open Function

variable {α ι : Type*} {m m' m'' : Nat → Option α} {n n' n'' : Nat} {F F' F'' : Set Nat}

/-- From the entries `m`, numbered below `n`, to `m'` and `n'`, by who holds `F` before and
`F'` after. -/
structure Local (m m' : Nat → Option α) (n n' : Nat) (F F' : Set Nat) : Prop where
  frame : ∀ k, k ∉ F → k < n → m' k = m k
  next_le : n ≤ n'
  live : ∀ k, m' k ≠ none → k ∈ F' ∨ m k ≠ none ∧ k ∉ F
  own : ∀ k ∈ F', (k ∈ F ∨ n ≤ k) ∧ k < n'
  held : ∀ k ∈ F', m' k ≠ none

theorem ne_of_not_mem {k k₀ : Nat} (hk : k ∉ F) (hk₀ : k₀ ∈ F) : k ≠ k₀ := by
  rintro rfl
  exact hk hk₀

namespace Local

theorem refl (hF : ∀ k ∈ F, m k ≠ none ∧ k < n) : Local m m n n F F where
  frame _ _ _ := rfl
  next_le := Nat.le_refl _
  live k hk := by
    by_cases hkF : k ∈ F
    · exact .inl hkF
    · exact .inr ⟨hk, hkF⟩
  own k hk := ⟨.inl hk, (hF k hk).2⟩
  held k hk := (hF k hk).1

theorem trans (h : Local m m' n n' F F') (g : Local m' m'' n' n'' F' F'') :
    Local m m'' n n'' F F'' where
  frame k hk hn := by
    have hk' : k ∉ F' := by
      intro hmem
      rcases (h.own k hmem).1 with hF | hle
      · exact hk hF
      · omega
    exact (g.frame k hk' (Nat.lt_of_lt_of_le hn h.next_le)).trans (h.frame k hk hn)
  next_le := Nat.le_trans h.next_le g.next_le
  live k hk := by
    rcases g.live k hk with hk | ⟨hk, hno⟩
    · exact .inl hk
    · exact .inr ((h.live k hk).resolve_left hno)
  own k hk := by
    obtain ⟨hor, hlt⟩ := g.own k hk
    refine ⟨?_, hlt⟩
    rcases hor with hk | hle
    · exact (h.own k hk).1
    · exact .inr (Nat.le_trans h.next_le hle)
  held := g.held

theorem held_lt (h : Local m m' n n' F F') : ∀ k ∈ F', m' k ≠ none ∧ k < n' :=
  fun k hk => ⟨h.held k hk, (h.own k hk).2⟩

theorem alloc (hF : ∀ k ∈ F, m k ≠ none ∧ k < n) (a : α) :
    Local m (update m n (some a)) n (n + 1) F (insert n F) where
  frame k _ hn := update_of_ne (Nat.ne_of_lt hn) ..
  next_le := Nat.le_succ n
  live k hk := by
    by_cases he : k = n
    · exact .inl (.inl he)
    · rw [update_of_ne he] at hk
      by_cases hkF : k ∈ F
      · exact .inl (.inr hkF)
      · exact .inr ⟨hk, hkF⟩
  own k hk := by
    rcases hk with rfl | hk
    · exact ⟨.inr (Nat.le_refl _), Nat.lt_succ_self _⟩
    · exact ⟨.inl hk, Nat.lt_succ_of_lt (hF k hk).2⟩
  held k hk := by
    rcases hk with rfl | hk
    · simp
    · rw [update_of_ne (Nat.ne_of_lt (hF k hk).2)]
      exact (hF k hk).1

theorem set (hF : ∀ k ∈ F, m k ≠ none ∧ k < n) {k₀ : Nat} (hk₀ : k₀ ∈ F) (a : α) :
    Local m (update m k₀ (some a)) n n F F where
  frame k hk _ := update_of_ne (ne_of_not_mem hk hk₀) ..
  next_le := Nat.le_refl _
  live k hk := by
    by_cases hkF : k ∈ F
    · exact .inl hkF
    · rw [update_of_ne (ne_of_not_mem hkF hk₀)] at hk
      exact .inr ⟨hk, hkF⟩
  own k hk := ⟨.inl hk, (hF k hk).2⟩
  held k hk := by
    by_cases he : k = k₀
    · simp [he]
    · rw [update_of_ne he]
      exact (hF k hk).1

theorem drop (hF : ∀ k ∈ F, m k ≠ none ∧ k < n) {k₀ : Nat} (hk₀ : k₀ ∈ F) :
    Local m (update m k₀ none) n n F (F \ {k₀}) where
  frame k hk _ := update_of_ne (ne_of_not_mem hk hk₀) ..
  next_le := Nat.le_refl _
  live k hk := by
    by_cases he : k = k₀
    · simp [he] at hk
    · rw [update_of_ne he] at hk
      by_cases hkF : k ∈ F
      · exact .inl ⟨hkF, he⟩
      · exact .inr ⟨hk, hkF⟩
  own k hk := ⟨.inl hk.1, (hF k hk.1).2⟩
  held k hk := by
    rw [update_of_ne hk.2]
    exact (hF k hk.1).1

end Local

/-- Every entry has exactly one owner. -/
structure Ledger (m : Nat → Option α) (n : Nat) (own : ι → Set Nat) : Prop where
  fresh : ∀ k, n ≤ k → m k = none
  held : ∀ i, ∀ k ∈ own i, m k ≠ none
  apart : ∀ i j k, k ∈ own i → k ∈ own j → i = j
  live : ∀ k, m k ≠ none → ∃ i, k ∈ own i

namespace Ledger

variable {own : ι → Set Nat} {i j : ι} {k : Nat}

theorem empty (hm : ∀ k, m k = none) (ho : ∀ i, own i = ∅) : Ledger m n own where
  fresh k _ := hm k
  held i k hk := by
    rw [ho i] at hk
    cases hk
  apart i _ k hk := by
    rw [ho i] at hk
    cases hk
  live k hk := absurd (hm k) hk

/-- What is there is exactly what has one owner. -/
theorem live_iff (h : Ledger m n own) : m k ≠ none ↔ ∃! i, k ∈ own i := by
  constructor
  · intro hk
    obtain ⟨i, hi⟩ := h.live k hk
    exact ⟨i, hi, fun j hj => h.apart j i k hj hi⟩
  · rintro ⟨i, hi, -⟩
    exact h.held i k hi

theorem lt (h : Ledger m n own) (hk : k ∈ own i) : k < n := by
  by_contra hle
  exact h.held i k hk (h.fresh k (by omega))

theorem held_lt (h : Ledger m n own) (i : ι) : ∀ k ∈ own i, m k ≠ none ∧ k < n :=
  fun k hk => ⟨h.held i k hk, h.lt hk⟩

theorem frame (h : Ledger m n own) (hl : Local m m' n n' (own i) F') (hj : j ≠ i)
    (hk : k ∈ own j) : m' k = m k := hl.frame k (fun hi => hj (h.apart j i k hk hi)) (h.lt hk)

theorem change [DecidableEq ι] (h : Ledger m n own) (hl : Local m m' n n' (own i) F') :
    Ledger m' n' (update own i F') where
  fresh k hk := by
    by_contra hlive
    rcases hl.live k hlive with hF | ⟨hm, -⟩
    · have := (hl.own k hF).2
      omega
    · exact hm (h.fresh k (Nat.le_trans hl.next_le hk))
  held j k hk := by
    by_cases he : j = i
    · subst he
      rw [update_self] at hk
      exact hl.held k hk
    · rw [update_of_ne he] at hk
      rw [h.frame hl he hk]
      exact h.held j k hk
  apart j₁ j₂ k h₁ h₂ := by
    -- What the owner of the operation gets is its own or new.
    have hnew : ∀ j, j ≠ i → k ∈ own j → k ∉ F' := by
      intro j hj hk hF
      rcases (hl.own k hF).1 with hold | hle
      · exact hj (h.apart j i k hk hold)
      · have := h.lt hk
        omega
    by_cases e₁ : j₁ = i
    · by_cases e₂ : j₂ = i
      · exact e₁.trans e₂.symm
      · subst e₁
        rw [update_self] at h₁
        rw [update_of_ne e₂] at h₂
        exact absurd h₁ (hnew j₂ e₂ h₂)
    · rw [update_of_ne e₁] at h₁
      by_cases e₂ : j₂ = i
      · subst e₂
        rw [update_self] at h₂
        exact absurd h₂ (hnew j₁ e₁ h₁)
      · rw [update_of_ne e₂] at h₂
        exact h.apart j₁ j₂ k h₁ h₂
  live k hk := by
    rcases hl.live k hk with hF | ⟨hm, hno⟩
    · exact ⟨i, by rwa [update_self]⟩
    · obtain ⟨j, hj⟩ := h.live k hm
      refine ⟨j, ?_⟩
      rwa [update_of_ne]
      rintro rfl
      exact hno hj

/-- The owners exchange what they hold. -/
theorem reindex (h : Ledger m n own) (e : Equiv.Perm ι) : Ledger m n (own ∘ e) where
  fresh := h.fresh
  held i := h.held (e i)
  apart i j k hi hj := e.injective (h.apart (e i) (e j) k hi hj)
  live k hk := by
    obtain ⟨i, hi⟩ := h.live k hk
    refine ⟨e.symm i, ?_⟩
    rwa [comp_apply, e.apply_symm_apply]

end Ledger

end Atcd.Core
