import Mathlib
/-!
# Tables

A finite map as the list of its entries, in the order in which an iterator finds them. A key
that is bound already keeps its value in `bind` and gets a new one in `rebind`.

Results:
* `find_bind`, `find_rebind`, `find_unbind`: what is found after each operation.
* `nodup_bind`, `nodup_rebind`, `nodup_unbind`: no key is there twice.
-/
namespace Atcd.Core

open List Option

abbrev Table (K V : Type*) := List (K × V)

namespace Table

variable {K V : Type*} [DecidableEq K] {t : Table K V} {k k' : K} {v : V}

def find (t : Table K V) (k : K) : Option V := (List.find? (fun e => e.1 = k) t).map Prod.snd

def keys (t : Table K V) : List K := t.map Prod.fst

def bind (t : Table K V) (k : K) (v : V) : Table K V := if (t.find k).isSome then t else t ++ [(k, v)]

def set (t : Table K V) (k : K) (v : V) : Table K V := t.map fun e => if e.1 = k then (e.1, v) else e

def rebind (t : Table K V) (k : K) (v : V) : Table K V := if (t.find k).isSome then t.set k v else t ++ [(k, v)]

def unbind (t : Table K V) (k : K) : Table K V := t.filter fun e => e.1 ≠ k

@[simp] theorem find_nil (k : K) : find ([] : Table K V) k = none := rfl

theorem find_cons (e : K × V) (t : Table K V) (k : K) : find (e :: t) k = if e.1 = k then some e.2 else find t k := by
  unfold find
  by_cases h : e.1 = k <;> simp [h]

theorem find_append (s t : Table K V) (k : K) : find (s ++ t) k = (find s k).or (find t k) := by
  unfold find
  rw [find?_append]
  cases find? (fun e => e.1 = k) s <;> simp

theorem find_eq_none : t.find k = none ↔ k ∉ t.keys := by
  unfold find keys
  rw [Option.map_eq_none_iff, List.find?_eq_none, List.mem_map]
  constructor
  · rintro h ⟨e, he, rfl⟩
    exact h e he (decide_eq_true rfl)
  · intro h e he hk
    exact h ⟨e, he, of_decide_eq_true hk⟩

theorem mem_keys_of_find (h : t.find k = some v) : k ∈ t.keys := by
  by_contra hk
  rw [find_eq_none.mpr hk] at h
  cases h

theorem mem_of_find (h : t.find k = some v) : (k, v) ∈ t := by
  unfold find at h
  rw [map_eq_some_iff] at h
  obtain ⟨e, he, rfl⟩ := h
  have hk : e.1 = k := by simpa using find?_some he
  rw [← hk]
  exact mem_of_find?_eq_some he

theorem find_of_mem (hnodup : t.keys.Nodup) (h : (k, v) ∈ t) : t.find k = some v := by
  induction t with
  | nil => cases h
  | cons e t ih =>
    rw [find_cons]
    rw [keys, map_cons, nodup_cons] at hnodup
    rcases mem_cons.mp h with rfl | h
    · rw [if_pos rfl]
    · have hne : e.1 ≠ k := by
        rintro rfl
        exact hnodup.1 (mem_map.mpr ⟨(e.1, v), h, rfl⟩)
      rw [if_neg hne, ih hnodup.2 h]

theorem find_bind (t : Table K V) (k : K) (v : V) (k' : K) :
    (t.bind k v).find k' = if k = k' ∧ t.find k = none then some v else t.find k' := by
  unfold bind
  cases hk : t.find k with
  | some w => simp
  | none =>
    rw [isSome_none, if_neg Bool.false_ne_true, find_append, find_cons, find_nil]
    by_cases h : k = k'
    · subst h
      simp [hk]
    · simp [h]

@[simp] theorem keys_set (t : Table K V) (k : K) (v : V) : (t.set k v).keys = t.keys := by
  unfold keys set
  rw [List.map_map]
  refine map_congr_left fun e _ => ?_
  rw [Function.comp]
  split <;> rfl

theorem set_of_not_mem (h : k ∉ t.keys) (v : V) : t.set k v = t := by
  refine (map_congr_left fun e he => ?_).trans (map_id t)
  exact if_neg fun hk => h (mem_map.mpr ⟨e, he, hk⟩)

theorem find_set (t : Table K V) (k : K) (v : V) (k' : K) :
    (t.set k v).find k' = if k = k' ∧ (t.find k).isSome then some v else t.find k' := by
  induction t with
  | nil => simp [set]
  | cons e t ih =>
    rw [set, map_cons, ← set, find_cons, find_cons, find_cons, ih]
    by_cases hk : e.1 = k
    · by_cases hk' : k = k'
      · simp [hk, hk']
      · have hne : e.1 ≠ k' := fun h => hk' (hk.symm.trans h)
        simp [hk, hk']
    · by_cases hk' : k = k'
      · subst hk'
        simp [hk]
      · simp [hk, hk']

theorem find_rebind (t : Table K V) (k : K) (v : V) (k' : K) :
    (t.rebind k v).find k' = if k = k' then some v else t.find k' := by
  unfold rebind
  cases hk : t.find k with
  | some w =>
    rw [isSome_some, if_pos rfl, find_set, hk]
    simp
  | none =>
    rw [isSome_none, if_neg Bool.false_ne_true, find_append, find_cons, find_nil]
    by_cases h : k = k'
    · subst h
      simp [hk]
    · simp [h]

theorem find_unbind (t : Table K V) (k k' : K) : (t.unbind k).find k' = if k = k' then none else t.find k' := by
  induction t with
  | nil => simp [unbind]
  | cons e t ih =>
    unfold unbind at ih ⊢
    rw [filter_cons, find_cons]
    by_cases he : e.1 = k
    · rw [if_neg (by simpa using he), ih]
      by_cases hk : k = k'
      · rw [if_pos hk, if_pos hk]
      · have hne : e.1 ≠ k' := fun h => hk (he.symm.trans h)
        rw [if_neg hk, if_neg hk, if_neg hne]
    · rw [if_pos (by simpa using he), find_cons, ih]
      by_cases hk : k = k'
      · have hne : e.1 ≠ k' := fun h => he (h.trans hk.symm)
        rw [if_pos hk, if_pos hk, if_neg hne]
      · rw [if_neg hk, if_neg hk]

theorem set_of_find (ht : t.keys.Nodup) (h : t.find k = some v) : t.set k v = t := by
  refine (map_congr_left fun e he => ?_).trans (map_id t)
  split
  · rename_i hk
    have hfind : t.find e.1 = some e.2 := find_of_mem ht he
    rw [hk, h] at hfind
    cases hfind
    rfl
  · rfl

theorem find_map {W : Type*} (f : K → V → W) (t : Table K V) (k : K) :
    find (t.map fun e => (e.1, f e.1 e.2)) k = (find t k).map (f k) := by
  induction t with
  | nil => rfl
  | cons e t ih =>
    rw [map_cons, find_cons, find_cons, ih]
    by_cases h : e.1 = k
    · subst h
      simp
    · simp [h]

omit [DecidableEq K] in
theorem keys_map {W : Type*} (f : K → V → W) (t : Table K V) :
    keys (t.map fun e => (e.1, f e.1 e.2)) = keys t := by
  unfold keys
  rw [List.map_map]
  rfl

theorem mem_keys_iff : k ∈ t.keys ↔ t.find k ≠ none := by
  rw [ne_eq, find_eq_none, not_not]

theorem nodup_append_singleton (h : t.keys.Nodup) (hk : t.find k = none) : (keys (t ++ [(k, v)])).Nodup := by
  rw [keys, map_append, nodup_append]
  refine ⟨h, nodup_singleton _, ?_⟩
  rintro a ha b hb rfl
  rw [map_singleton, mem_singleton] at hb
  rw [hb] at ha
  exact find_eq_none.mp hk ha

theorem nodup_bind (h : t.keys.Nodup) : (t.bind k v).keys.Nodup := by
  unfold bind
  cases hk : t.find k with
  | some w => exact h
  | none => exact nodup_append_singleton h hk

theorem nodup_rebind (h : t.keys.Nodup) : (t.rebind k v).keys.Nodup := by
  unfold rebind
  cases hk : t.find k with
  | some w =>
    rw [isSome_some, if_pos rfl, keys_set]
    exact h
  | none => exact nodup_append_singleton h hk

theorem nodup_unbind (h : t.keys.Nodup) : (t.unbind k).keys.Nodup :=
  (filter_sublist.map Prod.fst).nodup h

theorem length_unbind_lt (h : t.find k = some v) : (t.unbind k).length < t.length := by
  refine length_filter_lt_length_iff_exists.mpr ⟨(k, v), mem_of_find h, ?_⟩
  simp

end Table

end Atcd.Core
