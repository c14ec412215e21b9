import Mathlib
/-!
# Blocks that are shared out

An allocator gives blocks that are not in use to owners, and takes them back. No owner has a
block twice, no two owners have the same, and all that is owned is in use.

Results:
- `Shares.change`: one owner gives back blocks and gets blocks that were free;
- `Shares.reindex`: owners hand over what they have.
-/
namespace Atcd.Core

variable {κ ω ω' : Type*} {used used' : List κ} {blocks blocks' : ω → List κ} {o : ω}

structure Shares (used : List κ) (blocks : ω → List κ) : Prop where
  nodup : ∀ o, (blocks o).Nodup
  in_use : ∀ o, ∀ b ∈ blocks o, b ∈ used
  disjoint : ∀ o o', o ≠ o' → ∀ b ∈ blocks o, b ∉ blocks o'

namespace Shares

theorem change (h : Shares used blocks) (hother : ∀ o', o' ≠ o → blocks' o' = blocks o')
    (hnodup : (blocks' o).Nodup) (hfrom : ∀ b ∈ blocks' o, b ∈ blocks o ∨ b ∉ used)
    (hnew : ∀ b ∈ blocks' o, b ∈ used') (hkept : ∀ b ∈ used, b ∉ blocks o → b ∈ used') :
    Shares used' blocks' := by
  -- what the owner has now, no other owner has
  have hown : ∀ o', o' ≠ o → ∀ b ∈ blocks' o, b ∉ blocks o' := by
    intro o' ho' b hb
    rcases hfrom b hb with hold | hfree
    · exact h.disjoint o o' ho'.symm b hold
    · exact fun hb' => hfree (h.in_use o' b hb')
  refine ⟨fun o' => ?_, fun o' b hb => ?_, fun o₁ o₂ hne b hb₁ => ?_⟩
  · by_cases ho : o' = o
    · exact ho ▸ hnodup
    · rw [hother o' ho]
      exact h.nodup o'
  · by_cases ho : o' = o
    · subst ho
      exact hnew b hb
    · rw [hother o' ho] at hb
      exact hkept b (h.in_use o' b hb) (h.disjoint o' o ho b hb)
  · by_cases h₁ : o₁ = o
    · subst h₁
      rw [hother o₂ hne.symm]
      exact hown o₂ hne.symm b hb₁
    · rw [hother o₁ h₁] at hb₁
      by_cases h₂ : o₂ = o
      · subst h₂
        exact fun hb₂ => hown o₁ h₁ b hb₂ hb₁
      · rw [hother o₂ h₂]
        exact h.disjoint o₁ o₂ hne b hb₁

theorem reindex (h : Shares used blocks) {e : ω' → ω} (he : Function.Injective e) :
    Shares used (blocks ∘ e) where
  nodup o := h.nodup (e o)
  in_use o := h.in_use (e o)
  disjoint o o' hne := h.disjoint (e o) (e o') (he.ne hne)

/-- Two owners of the same block are one. -/
theorem eq_of_mem (h : Shares used blocks) {o o' : ω} {b : κ} (hb : b ∈ blocks o)
    (hb' : b ∈ blocks o') : o = o' := by
  by_contra hne
  exact h.disjoint o o' hne b hb hb'

end Shares
end Atcd.Core
