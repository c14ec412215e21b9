import Mathlib
/-!
# Groups of a keyed stream

Items with a key come in one stream. The items of a key that came since the last
one that closed its group, or since the group was dropped, are open.

Results:
* `filter_unfinished`: what is open of a key depends on the events of that key
  alone.
-/
namespace Atcd.Core

open List

/-- An item comes, or what is open of a key is dropped. -/
inductive DemuxEvent (α κ : Type*) where
  | item (a : α)
  | drop (k : κ)

namespace DemuxEvent

variable {α κ : Type*} [DecidableEq κ]

def keyed (key : α → κ) : DemuxEvent α κ → κ
  | .item a => key a
  | .drop k => k

/-- The open items, in order, after an event. -/
def opens (key : α → κ) (last : α → Bool) (l : List α) : DemuxEvent α κ → List α
  | .item a => if last a = true then l.filter (fun b => key b ≠ key a) else l ++ [a]
  | .drop k => l.filter (fun b => key b ≠ k)

/-- The open items of a stream. -/
def unfinished (key : α → κ) (last : α → Bool) (events : List (DemuxEvent α κ)) : List α :=
  events.foldl (opens key last) []

variable {key : α → κ} {last : α → Bool}

theorem unfinished_concat (events : List (DemuxEvent α κ)) (e : DemuxEvent α κ) :
    unfinished key last (events ++ [e]) = opens key last (unfinished key last events) e := by
  unfold unfinished
  rw [foldl_append]
  rfl

/-- What is open of the key of an event that closes. -/
theorem filter_ne_filter_self (l : List α) (k : κ) :
    (l.filter fun b => key b ≠ k).filter (fun b => key b = k) = [] := by
  rw [filter_filter]
  exact filter_eq_nil_iff.mpr fun b _ => by simp

theorem filter_ne_filter_other (l : List α) {k k' : κ} (h : k' ≠ k) :
    (l.filter fun b => key b ≠ k').filter (fun b => key b = k) = l.filter fun b => key b = k := by
  rw [filter_filter]
  refine filter_congr fun b _ => ?_
  by_cases hb : key b = k
  · simp [hb, h.symm]
  · simp [hb]

/-- **Independence**: the open items of a key are those of its own events. -/
theorem filter_unfinished (k : κ) (events : List (DemuxEvent α κ)) :
    (unfinished key last events).filter (fun a => key a = k) =
      unfinished key last (events.filter fun e => e.keyed key = k) := by
  induction events using reverseRecOn with
  | nil => rfl
  | append_singleton events e ih =>
    rw [unfinished_concat, filter_append]
    by_cases he : e.keyed key = k
    · rw [filter_cons_of_pos (by simpa using he), filter_nil, unfinished_concat, ← ih]
      cases e with
      | item a =>
        obtain rfl : key a = k := he
        simp only [opens]
        split
        · rw [filter_ne_filter_self, filter_filter, filter_eq_nil_iff.mpr]
          exact fun b _ => by simp
        · rw [filter_append, filter_cons_of_pos (by simp), filter_nil]
      | drop k' =>
        obtain rfl : k' = k := he
        simp only [opens]
        rw [filter_ne_filter_self, filter_filter, filter_eq_nil_iff.mpr]
        exact fun b _ => by simp
    · rw [filter_cons_of_neg (by simpa using he), filter_nil, append_nil, ← ih]
      cases e with
      | item a =>
        have ha : key a ≠ k := he
        simp only [opens]
        split
        · exact filter_ne_filter_other _ ha
        · rw [filter_append, filter_cons_of_neg (by simpa using ha), filter_nil, append_nil]
      | drop k' => exact filter_ne_filter_other _ he

end DemuxEvent

end Atcd.Core
