import Mathlib
/-!
# Insertion from the tail

A new item goes behind the last one that does not come later, found by a search
from the tail: items with equal keys stay in the order of their insertion.

Results:
* `tailInsert_perm`: the items are the old ones and the new one.
* `tailInsert_sorted`: a sorted list stays sorted.
* `SortedBy.head_le`: the first item of a sorted list has the least key.
-/
namespace Atcd.Core

open List

variable {α κ : Type*}

def tailInsert (later : α → Bool) (x : α) (l : List α) : List α :=
  l.rdropWhile later ++ x :: l.rtakeWhile later

variable {later : α → Bool} {x : α} {l : List α}

theorem tailInsert_perm : (tailInsert later x l).Perm (x :: l) := by
  refine perm_middle.trans ?_
  rw [rdropWhile_append_rtakeWhile]

variable [LinearOrder κ] (key : α → κ)

def SortedBy (l : List α) : Prop := l.Pairwise (fun a b => key a ≤ key b)

variable {key}

theorem SortedBy.rdropWhile_le (h : SortedBy key l) :
    ∀ y ∈ l.rdropWhile (fun y => decide (key x < key y)), key y ≤ key x := by
  have hsub : SortedBy key (l.rdropWhile (fun y => decide (key x < key y))) :=
    Pairwise.sublist (List.rdropWhile_prefix ..).sublist h
  intro y hy
  have hne := ne_nil_of_mem hy
  have hlast := rdropWhile_last_not _ _ hne
  rw [decide_eq_true_eq, not_lt] at hlast
  rw [← dropLast_append_getLast hne, mem_append, mem_singleton] at hy
  rcases hy with hy | rfl
  · unfold SortedBy at hsub
    rw [← dropLast_append_getLast hne, pairwise_append] at hsub
    exact (hsub.2.2 y hy _ (mem_singleton_self _)).trans hlast
  · exact hlast

theorem tailInsert_sorted (h : SortedBy key l) :
    SortedBy key (tailInsert (fun y => decide (key x < key y)) x l) := by
  have hfront := h.rdropWhile_le (x := x)
  have hback : ∀ y ∈ l.rtakeWhile (fun y => decide (key x < key y)), key x ≤ key y := by
    intro y hy
    have hlt := mem_rtakeWhile_imp hy
    rw [decide_eq_true_eq] at hlt
    exact hlt.le
  refine pairwise_append.mpr
    ⟨Pairwise.sublist (List.rdropWhile_prefix ..).sublist h, ?_, ?_⟩
  · refine pairwise_cons.mpr ⟨hback, ?_⟩
    exact Pairwise.sublist (rtakeWhile_suffix ..).sublist h
  · intro y hy z hz
    rcases mem_cons.mp hz with rfl | hz
    · exact hfront y hy
    · exact (hfront y hy).trans (hback z hz)

theorem SortedBy.head_le {a : α} (h : SortedBy key (a :: l)) : ∀ y ∈ a :: l, key a ≤ key y := by
  intro y hy
  rcases mem_cons.mp hy with rfl | hy
  · exact le_rfl
  · exact (pairwise_cons.mp h).1 y hy

end Atcd.Core
