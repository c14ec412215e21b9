import Atcd.Core.Table
/-!
# Tables that index records

Records at addresses, and a table from a key that a record may have to its address. The table
indexes the records when it holds exactly the records with a key, each under its own.

Results:
* `Indexes.bind`, `Indexes.keep`, `Indexes.unbind`, `Indexes.drop`: what is to be done to the
  table when a record gets its key, is written with the same key, or goes.
-/
namespace Atcd.Core

open Function Option

variable {A E K : Type*} [DecidableEq A] [DecidableEq K]

/-- The table holds the addresses of exactly the records with a key. -/
def Indexes (t : Table K A) (records : A → Option E) (key : E → Option K) : Prop :=
  ∀ k a, t.find k = some a ↔ ∃ e, records a = some e ∧ key e = some k

namespace Indexes

variable {t : Table K A} {records : A → Option E} {key : E → Option K} {a b : A} {d e : E} {k : K}

omit [DecidableEq A] in
theorem empty (key : E → Option K) : Indexes ([] : Table K A) (fun _ => none) key := by
  intro k a
  constructor
  · intro h
    cases h
  · rintro ⟨e, h, -⟩
    cases h

omit [DecidableEq A] in
theorem key_of_find (h : Indexes t records key) (hk : t.find k = some a) (ha : records a = some e) :
    key e = some k := by
  obtain ⟨d, hd, hkey⟩ := (h k a).mp hk
  rw [ha] at hd
  cases hd
  exact hkey

/-- A record without a key, or a new one, gets a key that no other record has. -/
theorem bind (h : Indexes t records key) (hold : ∀ d, records a = some d → key d = none)
    (he : key e = some k) (hk : t.find k = none) :
    Indexes (t ++ [(k, a)]) (update records a (some e)) key := by
  intro k' b
  rw [Table.find_append, Table.find_cons, Table.find_nil]
  by_cases hb : b = a
  · subst hb
    rw [update_self]
    by_cases hkk : k = k'
    · subst hkk
      rw [hk, if_pos rfl]
      simp [he]
    · rw [if_neg hkk, or_none, h]
      constructor
      · rintro ⟨d, hd, hkey⟩
        rw [hold d hd] at hkey
        cases hkey
      · rintro ⟨d, hd, hkey⟩
        cases hd
        exact absurd (some.inj (he.symm.trans hkey)) hkk
  · rw [update_of_ne hb, ← h]
    by_cases hkk : k = k'
    · subst hkk
      rw [hk, if_pos rfl]
      constructor
      · intro hab
        exact absurd (some.inj hab).symm hb
      · intro hab
        cases hab
    · rw [if_neg hkk, or_none]

theorem keep (h : Indexes t records key) (hold : (records a).bind key = key e) :
    Indexes t (update records a (some e)) key := by
  intro k' b
  rw [h]
  by_cases hb : b = a
  · subst hb
    rw [update_self]
    constructor
    · rintro ⟨d, hd, hkey⟩
      rw [hd, bind_some] at hold
      exact ⟨e, rfl, hold.symm.trans hkey⟩
    · rintro ⟨d, hd, hkey⟩
      cases hd
      rw [hkey] at hold
      exact bind_eq_some_iff.mp hold
  · rw [update_of_ne hb]

/-- A record with a key goes. -/
theorem unbind (h : Indexes t records key) (ha : records a = some e) (he : key e = some k) :
    Indexes (t.unbind k) (update records a none) key := by
  intro k' b
  rw [Table.find_unbind]
  by_cases hb : b = a
  · subst hb
    rw [update_self]
    constructor
    · intro hfind
      split at hfind
      · cases hfind
      · rename_i hkk
        obtain ⟨d, hd, hkey⟩ := (h k' b).mp hfind
        rw [ha] at hd
        cases hd
        exact absurd (some.inj (he.symm.trans hkey)) hkk
    · rintro ⟨d, hd, -⟩
      cases hd
  · rw [update_of_ne hb, ← h]
    by_cases hkk : k = k'
    · subst hkk
      rw [if_pos rfl, (h k a).mpr ⟨e, ha, he⟩]
      constructor
      · intro hab
        cases hab
      · intro hab
        exact absurd (some.inj hab).symm hb
    · rw [if_neg hkk]

theorem drop (h : Indexes t records key) (ha : (records a).bind key = none) :
    Indexes t (update records a none) key := by
  intro k' b
  rw [h]
  by_cases hb : b = a
  · subst hb
    rw [update_self]
    constructor
    · rintro ⟨d, hd, hkey⟩
      rw [hd, bind_some, hkey] at ha
      cases ha
    · rintro ⟨d, hd, -⟩
      cases hd
  · rw [update_of_ne hb]

end Indexes

end Atcd.Core
