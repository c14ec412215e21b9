import Mathlib
/-!
# Lists linked by keys

Each node of a list has a key of its own and names the key of the next one; what follows the
last node is a key that no node has, or not yet. These are the lists on a medium whose links
are positions with a number that tells a node from what the place had before.

Results:
- `follows_append`: a list in two parts;
- `Follows.unlink`: the node before names what the removed node named.
-/
namespace Atcd.Core

variable {α κ : Type*}

/-- From the key `k` through the nodes to the key `stop`. -/
def Follows (self next : α → κ) : κ → List α → κ → Prop
  | k, [], stop => k = stop
  | k, a :: as, stop => k = self a ∧ Follows self next (next a) as stop

variable {self next self' next' : α → κ} {k stop : κ} {as bs : List α} {a b : α}

@[simp] theorem follows_nil : Follows self next k [] stop ↔ k = stop := Iff.rfl

@[simp] theorem follows_cons :
    Follows self next k (a :: as) stop ↔ k = self a ∧ Follows self next (next a) as stop := Iff.rfl

theorem follows_append : Follows self next k (as ++ bs) stop ↔
      ∃ mid, Follows self next k as mid ∧ Follows self next mid bs stop := by
  induction as generalizing k with
  | nil => simp
  | cons a as ih =>
    rw [List.cons_append, follows_cons, ih]
    simp only [follows_cons, and_assoc, exists_and_left]

theorem follows_concat :
    Follows self next k (as ++ [a]) stop ↔ Follows self next k as (self a) ∧ next a = stop := by
  rw [follows_append]
  simp

theorem Follows.congr (h : Follows self next k as stop)
    (ha : ∀ a ∈ as, self' a = self a ∧ next' a = next a) : Follows self' next' k as stop := by
  induction as generalizing k with
  | nil => exact h
  | cons a as ih =>
    obtain ⟨hself, hnext⟩ := ha a List.mem_cons_self
    rw [follows_cons, hself, hnext]
    exact ⟨h.1, ih h.2 fun b hb => ha b (List.mem_cons_of_mem a hb)⟩

/-- The first node is taken out. -/
theorem Follows.tail (h : Follows self next k (a :: as) stop) :
    Follows self next (next a) as stop := h.2

theorem Follows.unlink (h : Follows self next k (as ++ a :: b :: bs) stop)
    (hself : ∀ c ∈ as ++ a :: bs, self' c = self c)
    (hnext : ∀ c ∈ as ++ bs, next' c = next c) (ha : next' a = next b) :
    Follows self' next' k (as ++ a :: bs) stop := by
  obtain ⟨mid, has, hmid, -, hbs⟩ := follows_append.mp h
  refine follows_append.mpr ⟨mid, has.congr fun c hc => ?_, ?_, ?_⟩
  · exact ⟨hself c (List.mem_append_left _ hc), hnext c (List.mem_append_left _ hc)⟩
  · rw [hself a (List.mem_append_right _ List.mem_cons_self)]
    exact hmid
  · rw [ha]
    refine hbs.congr fun c hc => ?_
    exact ⟨hself c (List.mem_append_right _ (List.mem_cons_of_mem a hc)),
      hnext c (List.mem_append_right _ hc)⟩

end Atcd.Core
