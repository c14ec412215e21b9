import Mathlib
/-!
# A log of writes

A medium of places is written in the order of a log; what a place has is what was written
there last. After a crash the medium has what a prefix of the log has written.

Results:
- `contents_append_of_not_mem`: places that are not written keep what they have;
- `prefix_append_cases`: a prefix of a log that has grown.
-/
namespace Atcd.Core

open List Function

variable {ω κ α : Type*} [DecidableEq κ] (place : ω → κ) (data : ω → α)

/-- What the places have after the writes. -/
def contents (ws : List ω) : κ → Option α :=
  ws.foldl (fun m w => Function.update m (place w) (some (data w))) fun _ => none

variable {place data} {ws vs : List ω} {w : ω} {k : κ}

theorem contents_concat : contents place data (ws ++ [w]) =
      update (contents place data ws) (place w) (some (data w)) := by
  rw [contents, foldl_append]
  rfl

theorem contents_concat_self : contents place data (ws ++ [w]) (place w) = some (data w) := by
  rw [contents_concat, update_self]

theorem contents_append_of_not_mem (h : ∀ w ∈ vs, place w ≠ k) :
    contents place data (ws ++ vs) k = contents place data ws k := by
  induction vs using reverseRecOn with
  | nil => rw [append_nil]
  | append_singleton vs v ih =>
    rw [← append_assoc, contents_concat,
      update_of_ne (h v (mem_append_right vs (mem_singleton_self v))).symm,
      ih fun w hw => h w (mem_append_left _ hw)]

/-- A place that is written once has that. -/
theorem contents_of_mem (h : w ∈ vs) (hnodup : (vs.map place).Nodup) :
    contents place data (ws ++ vs) (place w) = some (data w) := by
  obtain ⟨l₁, l₂, rfl⟩ := append_of_mem h
  rw [map_append, map_cons] at hnodup
  have hnot : ∀ v ∈ l₂, place v ≠ place w := by
    intro v hv he
    have hcons := (nodup_append.mp hnodup).2.1
    exact (nodup_cons.mp hcons).1 (he ▸ mem_map.mpr ⟨v, hv, rfl⟩)
  have hsplit : ws ++ (l₁ ++ w :: l₂) = (ws ++ l₁ ++ [w]) ++ l₂ := by simp
  rw [hsplit, contents_append_of_not_mem hnot, contents_concat_self]

/-- What a place has was written there. -/
theorem exists_of_contents {d : α} (h : contents place data ws k = some d) :
    ∃ w ∈ ws, place w = k ∧ data w = d := by
  induction ws using reverseRecOn with
  | nil => cases h
  | append_singleton ws v ih =>
    rw [contents_concat] at h
    by_cases hk : k = place v
    · rw [hk, update_self] at h
      exact ⟨v, mem_append_right ws (mem_singleton_self v), hk.symm, Option.some.inj h⟩
    · rw [update_of_ne hk] at h
      obtain ⟨w, hw, hwk⟩ := ih h
      exact ⟨w, mem_append_left _ hw, hwk⟩

theorem prefix_append_cases {p : List ω} (h : p <+: ws ++ vs) :
    p <+: ws ∨ ∃ q, q <+: vs ∧ p = ws ++ q := by
  obtain ⟨rest, hrest⟩ := h
  rcases append_eq_append_iff.mp hrest with ⟨l, rfl, -⟩ | ⟨l, rfl, hl⟩
  · exact .inl ⟨l, rfl⟩
  · exact .inr ⟨l, ⟨rest, hl.symm⟩, rfl⟩

end Atcd.Core
