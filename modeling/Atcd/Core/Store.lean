import Atcd.Core.Pieces
/-!
# A store of buffers

A store has a buffer of cells at some of its places. Reading and writing a range are
possible only within a buffer, and freeing only where a buffer is, so that an access past
the end, an access after the release and a second release are steps that do not exist.

Results:
- `write_some`, `read_eq`: what the operations need and give;
- `put_frame`: the other places are as they were.
-/
namespace Atcd.Core

open List Option Function

/-- The cells of the buffer at a place, `none` where there is no buffer. -/
abbrev Store (κ α : Type*) := κ → Option (List α)

namespace Store

variable {κ α : Type*} [DecidableEq κ]

omit [DecidableEq κ] in
def read (m : Store κ α) (p : κ) (off n : Nat) : Option (List α) :=
  (m p).bind fun cells => if off + n ≤ cells.length then some ((cells.drop off).take n) else none

def put (m : Store κ α) (p : κ) (cells : List α) : Store κ α := update m p (some cells)

def write (m : Store κ α) (p : κ) (off : Nat) (data : List α) : Option (Store κ α) :=
  (m p).bind fun cells =>
    if off + data.length ≤ cells.length then some (m.put p (overwrite cells off data)) else none

def free (m : Store κ α) (p : κ) : Option (Store κ α) :=
  (m p).map fun _ => update m p none

variable {m m' : Store κ α} {p q : κ} {off n : Nat} {cells data : List α}

omit [DecidableEq κ] in
theorem read_eq : m.read p off n = some data ↔
    ∃ cells, m p = some cells ∧ off + n ≤ cells.length ∧ data = (cells.drop off).take n := by
  unfold read
  constructor
  · intro h
    obtain ⟨cells, hm, h⟩ := bind_eq_some_iff.mp h
    split at h
    next hle => exact ⟨cells, hm, hle, (some.inj h).symm⟩
    next => cases h
  · rintro ⟨cells, hm, hle, rfl⟩
    rw [hm, bind_some, if_pos hle]

omit [DecidableEq κ] in
theorem read_length (h : m.read p off n = some data) : data.length = n := by
  obtain ⟨cells, -, hle, rfl⟩ := read_eq.mp h
  rw [length_take, length_drop]
  omega

omit [DecidableEq κ] in
theorem read_congr (h : m' p = m p) : m'.read p off n = m.read p off n := by
  rw [read, read, h]

@[simp] theorem put_self : m.put p cells p = some cells := update_self ..

theorem put_frame (h : q ≠ p) : m.put p cells q = m q := update_of_ne h ..

theorem write_some (h : m p = some cells) (hle : off + data.length ≤ cells.length) :
    m.write p off data = some (m.put p (overwrite cells off data)) := by
  rw [write, h, bind_some, if_pos hle]

theorem write_cases (h : m.write p off data = some m') : ∃ cells, m p = some cells ∧
    off + data.length ≤ cells.length ∧ m' = m.put p (overwrite cells off data) := by
  obtain ⟨cells, hm, h⟩ := bind_eq_some_iff.mp h
  split at h
  next hle => exact ⟨cells, hm, hle, (some.inj h).symm⟩
  next => cases h

theorem free_some (h : m p = some cells) : m.free p = some (update m p none) := by
  rw [free, h, map_some]

end Store

/-! ## Ranges of a buffer after a write -/

variable {α : Type*} {buf data : List α} {pos n : Nat}

theorem take_overwrite (h : pos ≤ buf.length) (hn : n ≤ pos) :
    (overwrite buf pos data).take n = buf.take n := by
  rw [overwrite, append_assoc, take_append_of_le_length (by rw [length_take]; omega),
    take_take, Nat.min_eq_left hn]

theorem take_overwrite_end (buf data : List α) (h : pos ≤ buf.length) :
    (overwrite buf pos data).take (pos + data.length) = buf.take pos ++ data := by
  rw [overwrite, take_append_of_le_length, take_of_length_le]
  · rw [length_append, length_take]
    omega
  · rw [length_append, length_take]
    omega

namespace Store

variable {κ : Type*} [DecidableEq κ] {m m' : Store κ α} {p q : κ} {off : Nat} {bs : List α}

theorem read_write (hw : m.write p pos data = some m') (hr : m.read q off n = some bs)
    (h : q ≠ p ∨ off + n ≤ pos) : m'.read q off n = some bs := by
  obtain ⟨cells, hm, hle, rfl⟩ := write_cases hw
  by_cases hq : q = p
  · subst hq
    have hend : off + n ≤ pos := h.resolve_left fun hne => hne rfl
    obtain ⟨cells', hm', hle', rfl⟩ := read_eq.mp hr
    obtain rfl : cells = cells' := some.inj (hm.symm.trans hm')
    refine read_eq.mpr ⟨_, put_self, by rw [length_overwrite hle]; exact hle', ?_⟩
    have hpos : pos ≤ cells.length := by omega
    have htake : drop off ((overwrite cells pos data).take (off + n)) = _ :=
      congrArg (drop off) (take_overwrite hpos hend)
    simpa only [drop_take, Nat.add_sub_cancel_left] using htake.symm
  · rw [read_congr (put_frame hq)]
    exact hr

theorem read_write_end (hw : m.write p (off + n) data = some m')
    (hr : m.read p off n = some bs) : m'.read p off (n + data.length) = some (bs ++ data) := by
  obtain ⟨cells, hm, hle, rfl⟩ := write_cases hw
  obtain ⟨cells', hm', hle', rfl⟩ := read_eq.mp hr
  obtain rfl : cells = cells' := some.inj (hm.symm.trans hm')
  refine read_eq.mpr ⟨_, put_self, by rw [length_overwrite hle]; omega, ?_⟩
  have htake := congrArg (drop off) (take_overwrite_end cells data hle')
  rw [drop_append_of_le_length (by rw [length_take]; omega)] at htake
  simpa only [drop_take, Nat.add_assoc, Nat.add_sub_cancel_left] using htake.symm

end Store

end Atcd.Core
