import Mathlib
/-!
# Pieces put together in any order

A sequence is cut into pieces, and each piece is written into a buffer at the place
where it begins. Pieces do not overlap, so writing one leaves the others, and when every
piece has been written once, in whatever order and however often, the buffer is the
sequence.

Results:
- `Filled.put`: what a write adds to the pieces that are in place;
- `Filled.all`: the buffer when all pieces are in place.
-/
namespace Atcd.Core

open List

variable {α : Type*}

def overwrite (buf : List α) (pos : Nat) (data : List α) : List α :=
  buf.take pos ++ data ++ buf.drop (pos + data.length)

def pieceStart (ps : List (List α)) (i : Nat) : Nat := (ps.take i).flatten.length

variable {buf data p : List α} {pos k i j : Nat}

theorem length_overwrite (h : pos + data.length ≤ buf.length) :
    (overwrite buf pos data).length = buf.length := by
  simp only [overwrite, length_append, length_take, length_drop]
  omega

theorem getElem?_overwrite (h : pos ≤ buf.length) : (overwrite buf pos data)[k]? =
      if pos ≤ k ∧ k < pos + data.length then data[k - pos]? else buf[k]? := by
  have hlen : (buf.take pos).length = pos := by
    rw [length_take]
    omega
  unfold overwrite
  split
  next hk =>
    rw [append_assoc, getElem?_append_right (by omega), hlen, getElem?_append_left (by omega)]
  next hk =>
    by_cases hlt : k < pos
    · rw [append_assoc, getElem?_append_left (by omega), getElem?_take_of_lt hlt]
    · rw [getElem?_append_right (by rw [length_append]; omega), getElem?_drop,
        length_append, hlen]
      congr 1
      omega

variable {ps : List (List α)}

theorem pieceStart_succ (h : ps[i]? = some p) :
    pieceStart ps (i + 1) = pieceStart ps i + p.length := by
  rw [pieceStart, pieceStart, take_add_one, h, Option.toList_some, flatten_append,
    length_append]
  simp

theorem pieceStart_mono (ps : List (List α)) {i j : Nat} (h : i ≤ j) :
    pieceStart ps i ≤ pieceStart ps j := (((take_prefix_take_left h).sublist).flatten).length_le

theorem pieceStart_length (ps : List (List α)) : pieceStart ps ps.length = ps.flatten.length := by
  rw [pieceStart, take_length]

theorem pieceStart_add_le (h : ps[i]? = some p) :
    pieceStart ps i + p.length ≤ ps.flatten.length := by
  rw [← pieceStart_succ h, ← pieceStart_length]
  refine pieceStart_mono ps ?_
  exact (List.getElem?_eq_some_iff.mp h).1

theorem flatten_at (h : ps[i]? = some p) (hj : j < p.length) :
    ps.flatten[pieceStart ps i + j]? = p[j]? := by
  obtain ⟨hi, hp⟩ := List.getElem?_eq_some_iff.mp h
  have hsplit : ps.take i ++ p :: ps.drop (i + 1) = ps := by
    rw [← hp, getElem_cons_drop, take_append_drop]
  have hflat : ps.flatten = (ps.take i).flatten ++ (p ++ (ps.drop (i + 1)).flatten) := by
    rw [← flatten_cons, ← flatten_append, hsplit]
  rw [hflat, pieceStart, getElem?_append_right (by omega), Nat.add_sub_cancel_left,
    getElem?_append_left hj]

theorem exists_piece (h : k < ps.flatten.length) :
    ∃ i p j, ps[i]? = some p ∧ j < p.length ∧ k = pieceStart ps i + j := by
  induction ps generalizing k with
  | nil => cases h
  | cons q ps ih =>
    by_cases hk : k < q.length
    · exact ⟨0, q, k, rfl, hk, by simp [pieceStart]⟩
    · rw [flatten_cons, length_append] at h
      obtain ⟨i, p, j, hp, hj, he⟩ := ih (by omega : k - q.length < ps.flatten.length)
      refine ⟨i + 1, p, j, hp, hj, ?_⟩
      have hstart : pieceStart (q :: ps) (i + 1) = q.length + pieceStart ps i := by
        simp [pieceStart]
      omega

/-- The pieces in the set are in place in the buffer. -/
structure Filled (ps : List (List α)) (S : Nat → Prop) (buf : List α) : Prop where
  length_eq : buf.length = ps.flatten.length
  piece : ∀ i p, S i → ps[i]? = some p → ∀ j < p.length, buf[pieceStart ps i + j]? = p[j]?

theorem piece_unique {i' j' : Nat} {p' : List α} (h : ps[i]? = some p)
    (h' : ps[i']? = some p') (hj : j < p.length) (hj' : j' < p'.length)
    (he : pieceStart ps i + j = pieceStart ps i' + j') : i = i' := by
  have hstep := pieceStart_succ h
  have hstep' := pieceStart_succ h'
  rcases Nat.lt_trichotomy i i' with hlt | heq | hlt
  · have hle : pieceStart ps (i + 1) ≤ pieceStart ps i' := pieceStart_mono ps hlt
    omega
  · exact heq
  · have hle : pieceStart ps (i' + 1) ≤ pieceStart ps i := pieceStart_mono ps hlt
    omega

theorem Filled.put {S S' : Nat → Prop} (h : Filled ps S buf) {i : Nat} {p : List α}
    (hp : ps[i]? = some p) (hS : ∀ k, S' k → k = i ∨ S k) :
    Filled ps S' (overwrite buf (pieceStart ps i) p) := by
  have hle := pieceStart_add_le hp
  have hlen := h.length_eq
  constructor
  · rw [length_overwrite (by omega), hlen]
  · intro i' p' hi' hp' j hj
    rw [getElem?_overwrite (by omega)]
    split
    next hin =>
      have hi : i = i' := piece_unique (j := pieceStart ps i' + j - pieceStart ps i) hp hp'
        (by omega) hj (by omega)
      cases hi
      rw [Option.some.inj (hp'.symm.trans hp)] at hj ⊢
      rw [Nat.add_sub_cancel_left]
    next hout =>
      rcases hS i' hi' with rfl | hold
      · cases Option.some.inj (hp'.symm.trans hp)
        omega
      · exact h.piece i' p' hold hp' j hj

theorem Filled.all {S : Nat → Prop} (h : Filled ps S buf) (hS : ∀ i < ps.length, S i) :
    buf = ps.flatten := by
  refine ext_getElem? fun k => ?_
  by_cases hk : k < ps.flatten.length
  · obtain ⟨i, p, j, hp, hj, rfl⟩ := exists_piece hk
    rw [h.piece i p (hS i (List.getElem?_eq_some_iff.mp hp).1) hp j hj, flatten_at hp hj]
  · rw [getElem?_eq_none (by rw [h.length_eq]; omega), getElem?_eq_none (by omega)]

end Atcd.Core
