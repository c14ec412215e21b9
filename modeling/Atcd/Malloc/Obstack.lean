import Atcd.Core.Run
import Atcd.Core.Store
/-!
# Strings in an obstack

`ACE_Obstack_T` builds its strings one behind the other in the chunks of a chain. `request`
moves the current string to the next chunk where the requested characters do not fit, but it
doubles the size of a new chunk once at most, and takes a chunk that is there whatever its
size. So the chunk may be too small for what has been requested.

A character is the list of its bytes, `w` of them. A write outside a chunk is no step.

Results:
- `request_spec`, `append_spec`, `freeze_spec`: what an operation does if there is room;
- `strings_kept`: if there is, at every request, nothing is written outside the chunks, and
  the frozen strings keep their contents;
- `copy_overruns`: a copy of more than twice the size of a chunk does not fit its new chunk.

The sizes do not overflow, and allocation succeeds.
-/
namespace Atcd.Malloc

open Atcd.Core List Function Option Store

/-- `block_`, `cur_` and `end_`, from `contents_` on.
mirrors ACE/ace/Obchunk.h:33-65 -/
structure Obchunk where
  size : Nat
  block : Nat
  cur : Nat

/-- A string that has been frozen, with its terminator. -/
structure Frozen where
  chunk : Nat
  offset : Nat
  bytes : List UInt8

/-- The chain, and what has been asked of it: the characters of the current string, whether it
has been given room, and the strings that are live.
mirrors ACE/ace/Obstack_T.h:116-150 -/
structure Obstack where
  size : Nat
  chunk : Nat → Obchunk
  count : Nat
  curr : Nat
  mem : Store Nat UInt8
  building : List UInt8
  requested : Bool
  live : List Frozen

namespace Obstack

/-- mirrors ACE/ace/Obstack_T.cpp:109-119, Obchunk.cpp:28-34 -/
def newChunk (s : Obstack) : Obstack :=
  { s with
    chunk := update s.chunk s.count ⟨s.size, 0, 0⟩
    count := s.count + 1
    mem := s.mem.put s.count (List.replicate s.size 0) }

/-- The chunk behind the current one, made or used again. -/
def nextChunk (s : Obstack) : Obstack :=
  let s := if s.curr + 1 = s.count then s.newChunk else s
  { s with
    chunk := update s.chunk (s.curr + 1) { s.chunk (s.curr + 1) with block := 0, cur := 0 }
    curr := s.curr + 1 }

/-- `size_` as `request` leaves it. -/
def grownSize (s : Obstack) (len : Nat) : Nat :=
  let temp := s.chunk s.curr
  if s.size < (temp.cur - temp.block) + len then s.size * 2 else s.size

/-- Whether `request` leaves the chunk. -/
def Moves (s : Obstack) (len : Nat) : Prop := (s.chunk s.curr).cur + len ≥ (s.chunk s.curr).size

instance (s : Obstack) (len : Nat) : Decidable (s.Moves len) := inferInstanceAs (Decidable (_ ≤ _))

/-- The string in the chunk `temp` is copied to the current chunk. -/
def carry (s : Obstack) (temp : Nat) : Option Obstack :=
  let c := s.chunk temp
  (s.mem.read temp c.block (c.cur - c.block)).bind fun data =>
    (s.mem.write s.curr 0 data).map fun mem =>
      { s with
        mem
        chunk := update (update s.chunk temp { c with cur := c.block }) s.curr
          { s.chunk s.curr with cur := data.length } }

/-- `len` in bytes; a string without characters is copied to no effect.
mirrors Obstack_T.cpp:34-89 -/
def request (s : Obstack) (len : Nat) : Option Obstack :=
  let s' : Obstack := { s with size := s.grownSize len, requested := true }
  if s.Moves len then s'.nextChunk.carry s.curr else some s'

/-- The characters go to `cur_`. -/
def append (s : Obstack) (data : List UInt8) : Option Obstack :=
  let c := s.chunk s.curr
  (s.mem.write s.curr c.cur data).map fun mem =>
    { s with
      mem
      chunk := update s.chunk s.curr { c with cur := c.cur + data.length }
      building := s.building ++ data }

/-- mirrors Obstack_T.cpp:91-106 -/
def grow (s : Obstack) (c : List UInt8) : Option Obstack :=
  (s.request c.length).bind fun s => s.append c

/-- The string ends, with its terminator, at `cur_`. -/
def finish (s : Obstack) : Obstack :=
  let c := s.chunk s.curr
  { s with
    chunk := update s.chunk s.curr { c with block := c.cur }
    building := []
    requested := false
    live := s.live ++ [⟨s.curr, c.block, s.building⟩] }

/-- mirrors Obstack_T.cpp:209-220 -/
def freeze (w : Nat) (s : Obstack) : Option Obstack := (s.append (List.replicate w 0)).map finish

/-- mirrors Obstack_T.cpp:155-168 -/
def copy (w : Nat) (s : Obstack) (chars : List (List UInt8)) : Option Obstack :=
  (s.request (chars.length * w)).bind fun s => (s.append chars.flatten).bind (freeze w)

/-- The chunk is the one that the address is in.
mirrors Obstack_T.cpp:170-193 -/
def unwind (s : Obstack) (k : Nat) : Option Obstack :=
  s.live[k]?.map fun obj =>
    { s with
      curr := obj.chunk
      chunk := update s.chunk obj.chunk
        { s.chunk obj.chunk with block := obj.offset, cur := obj.offset }
      building := []
      requested := false
      live := s.live.take k }

/-- mirrors Obstack_T.cpp:195-202 -/
def release (s : Obstack) : Obstack :=
  { s with
    curr := 0
    chunk := update s.chunk 0 { s.chunk 0 with block := 0, cur := 0 }
    building := []
    requested := false
    live := [] }

/-- mirrors Obstack_T.cpp:121-137 -/
def start (size : Nat) : Obstack where
  size := size
  chunk := fun _ => ⟨size, 0, 0⟩
  count := 1
  curr := 0
  mem := update (fun _ => none) 0 (some (List.replicate size 0))
  building := []
  requested := false
  live := []

/-! ## Runs -/

inductive Op
  | request (len : Nat)
  | grow (c : List UInt8)
  | freeze
  | copy (chars : List (List UInt8))
  | unwind (k : Nat)
  | release

def step (w : Nat) (s : Obstack) : Op → Option Obstack
  | .request len => s.request (len * w)
  | .grow c => s.grow c
  | .freeze => s.freeze w
  | .copy chars => s.copy w chars
  | .unwind k => s.unwind k
  | .release => some s.release

/-- The characters have their width, a string is given room before it is frozen, and a live
one is unwound. -/
def Legal (w : Nat) (s : Obstack) : Op → Prop
  | .request _ | .release => True
  | .grow c => c.length = w
  | .freeze => s.requested = true
  | .copy chars => ∀ c ∈ chars, c.length = w
  | .unwind k => k < s.live.length

/-- Where the string ends behind `request`, and the size of its chunk then. -/
def spot (s : Obstack) (len : Nat) : Nat :=
  if s.Moves len then (s.chunk s.curr).cur - (s.chunk s.curr).block else (s.chunk s.curr).cur

def capacity (s : Obstack) (len : Nat) : Nat :=
  if s.Moves len then
    if s.curr + 1 = s.count then s.grownSize len else (s.chunk (s.curr + 1)).size
  else (s.chunk s.curr).size

/-- There is room for what is requested and for the terminator. -/
def HasRoom (w : Nat) (s : Obstack) (len : Nat) : Prop := s.spot len + len + w ≤ s.capacity len

def Room (w : Nat) (s : Obstack) : Op → Prop
  | .request len => s.HasRoom w (len * w)
  | .grow _ => s.HasRoom w w
  | .copy chars => s.HasRoom w (chars.length * w)
  | _ => True

instance (w : Nat) (s : Obstack) (op : Op) : Decidable (s.Legal w op) := by
  cases op <;> unfold Legal <;> infer_instance

instance (w : Nat) (s : Obstack) (op : Op) : Decidable (s.Room w op) := by
  cases op <;> unfold Room <;> (try unfold HasRoom) <;> infer_instance

def Kept (s : Obstack) : Prop :=
  ∀ f ∈ s.live, s.mem.read f.chunk f.offset f.bytes.length = some f.bytes

/-! ## The invariant -/

def Frozen.Before (f : Frozen) (chunk offset : Nat) : Prop :=
  f.chunk < chunk ∨ f.chunk = chunk ∧ f.offset + f.bytes.length ≤ offset

structure Inv (w : Nat) (s : Obstack) : Prop where
  curr : s.curr < s.count
  cells : ∀ k < s.count, ∃ cells, s.mem k = some cells ∧ cells.length = (s.chunk k).size
  block : (s.chunk s.curr).block ≤ (s.chunk s.curr).cur
  cur : (s.chunk s.curr).cur ≤ (s.chunk s.curr).size
  building : s.mem.read s.curr (s.chunk s.curr).block
    ((s.chunk s.curr).cur - (s.chunk s.curr).block) = some s.building
  room : s.requested = true → (s.chunk s.curr).cur + w ≤ (s.chunk s.curr).size
  kept : s.Kept
  behind : ∀ f ∈ s.live, Frozen.Before f s.curr (s.chunk s.curr).block
  stacked : s.live.Pairwise fun f g => Frozen.Before f g.chunk g.offset

variable {w : Nat} {s : Obstack}

theorem read_nil {m : Store Nat UInt8} {k off : Nat} {cells : List UInt8} (h : m k = some cells)
    (hoff : off ≤ cells.length) : m.read k off 0 = some [] :=
  read_eq.mpr ⟨cells, h, hoff, by simp⟩

theorem start_inv (w size : Nat) : Inv w (start size) where
  curr := Nat.zero_lt_one
  cells k hk := by
    obtain rfl : k = 0 := Nat.lt_one_iff.mp hk
    exact ⟨_, rfl, length_replicate⟩
  block := Nat.le_refl 0
  cur := Nat.zero_le size
  building := by
    have hmem : (start size).mem 0 = some (replicate size 0) := rfl
    exact read_nil hmem (Nat.zero_le _)
  room h := by cases h
  kept f hf := by cases hf
  behind f hf := by cases hf
  stacked := .nil

theorem nextChunk_spec (hcurr : s.curr < s.count)
    (hcells : ∀ k < s.count, ∃ cells, s.mem k = some cells ∧ cells.length = (s.chunk k).size) :
    s.nextChunk.curr = s.curr + 1 ∧ s.curr + 1 < s.nextChunk.count ∧
      (∀ k < s.nextChunk.count, ∃ cells, s.nextChunk.mem k = some cells ∧
        cells.length = (s.nextChunk.chunk k).size) ∧ s.nextChunk.chunk (s.curr + 1) =
        ⟨if s.curr + 1 = s.count then s.size else (s.chunk (s.curr + 1)).size, 0, 0⟩ ∧
      (∀ k ≤ s.curr, s.nextChunk.chunk k = s.chunk k ∧ s.nextChunk.mem k = s.mem k) := by
  by_cases hnew : s.curr + 1 = s.count
  · refine ⟨by simp [nextChunk, hnew, newChunk], by simp [nextChunk, hnew, newChunk], ?_, ?_, ?_⟩
    · intro k hk
      have hk' : k < s.count + 1 := by simpa [nextChunk, hnew, newChunk] using hk
      by_cases hlast : k = s.count
      · subst hlast
        exact ⟨replicate s.size 0, by simp [nextChunk, hnew, newChunk],
          by simp [nextChunk, hnew, newChunk]⟩
      · obtain ⟨cells, hm, hlen⟩ := hcells k (by omega)
        refine ⟨cells, ?_, ?_⟩
        · simpa [nextChunk, hnew, newChunk, put_frame hlast] using hm
        · simpa [nextChunk, hnew, newChunk, hlast] using hlen
    · simp [nextChunk, hnew, newChunk]
    · intro k hk
      have hne : k ≠ s.count := by omega
      simp [nextChunk, hnew, newChunk, hne, put_frame hne]
  · refine ⟨by simp [nextChunk, hnew], ?_, ?_, by simp [nextChunk, hnew], ?_⟩
    · simp only [nextChunk, hnew, if_false]
      omega
    · intro k hk
      obtain ⟨cells, hm, hlen⟩ := hcells k (by simpa [nextChunk, hnew] using hk)
      refine ⟨cells, by simpa [nextChunk, hnew] using hm, ?_⟩
      by_cases hk1 : k = s.curr + 1
      · subst hk1
        simpa [nextChunk, hnew] using hlen
      · simpa [nextChunk, hnew, hk1] using hlen
    · intro k hk
      have hne : k ≠ s.curr + 1 := by omega
      simp [nextChunk, hnew, hne]

theorem carry_spec {t : Obstack} {temp cap : Nat} (hcurr : t.curr = temp + 1)
    (hcount : temp + 1 < t.count)
    (hcells : ∀ k < t.count, ∃ cells, t.mem k = some cells ∧ cells.length = (t.chunk k).size)
    (hnext : t.chunk (temp + 1) = ⟨cap, 0, 0⟩)
    (hread : t.mem.read temp (t.chunk temp).block ((t.chunk temp).cur - (t.chunk temp).block) =
      some t.building)
    (hfit : t.building.length + w ≤ cap) (hkept : t.Kept) (hlive : ∀ f ∈ t.live, f.chunk ≤ temp)
    (hstacked : t.live.Pairwise fun f g => Frozen.Before f g.chunk g.offset) :
    ∃ u, t.carry temp = some u ∧ Inv w u ∧ u.building = t.building ∧ u.live = t.live ∧
      u.requested = t.requested ∧ u.chunk u.curr = ⟨cap, 0, t.building.length⟩ := by
  obtain ⟨cells, hm, hlen⟩ := hcells (temp + 1) hcount
  rw [hnext] at hlen
  have hlen : cells.length = cap := hlen
  have hroom : 0 + t.building.length ≤ cells.length := by omega
  have hwrite := write_some hm hroom
  generalize hmem : t.mem.put (temp + 1) (overwrite cells 0 t.building) = mem at hwrite
  have hcarry : t.carry temp = some
      { t with
        mem
        chunk := update (update t.chunk temp
          { t.chunk temp with cur := (t.chunk temp).block }) (temp + 1)
          ⟨cap, 0, t.building.length⟩ } := by
    unfold carry
    simp only [hread, bind_some, hcurr, hwrite, map_some, hnext]
  refine ⟨_, hcarry, ?_, rfl, rfl, rfl, by simp [hcurr]⟩
  have hnew : mem.read (temp + 1) 0 t.building.length = some t.building := by
    have hstart : t.mem.write (temp + 1) (0 + 0) t.building = some mem := hwrite
    simpa using read_write_end hstart (read_nil hm (Nat.zero_le _))
  refine ⟨hcurr ▸ hcount, ?_, ?_, ?_, ?_, ?_, ?_, ?_, hstacked⟩
  · intro k hk
    by_cases hk1 : k = temp + 1
    · subst hk1
      refine ⟨overwrite cells 0 t.building, ?_, ?_⟩
      · rw [← hmem]
        exact put_self
      · simpa [length_overwrite hroom] using hlen
    · obtain ⟨cells', hm', hlen'⟩ := hcells k hk
      refine ⟨cells', ?_, ?_⟩
      · rw [← hmem]
        exact (put_frame hk1).trans hm'
      · by_cases hkt : k = temp
        · subst hkt
          simpa [hk1] using hlen'
        · simpa [hk1, hkt] using hlen'
  · simp [hcurr]
  · simp [hcurr]
    omega
  · simpa [hcurr] using hnew
  · simpa [hcurr] using fun _ => hfit
  · intro f hf
    have hchunk := hlive f hf
    exact read_write hwrite (hkept f hf) (.inl (by omega))
  · intro f hf
    have hchunk := hlive f hf
    exact .inl (by simpa [hcurr] using Nat.lt_succ_of_le hchunk)

/-- **The request**: the string, moved or not, has room. -/
theorem request_spec (h : Inv w s) {len : Nat} (hroom : s.HasRoom w len) :
    ∃ t, s.request len = some t ∧ Inv w t ∧ t.building = s.building ∧ t.live = s.live ∧
      t.requested = true ∧ (t.chunk t.curr).cur + len + w ≤ (t.chunk t.curr).size := by
  unfold HasRoom spot capacity at hroom
  unfold request
  by_cases hmove : s.Moves len
  · rw [if_pos hmove, if_pos hmove] at hroom
    obtain ⟨hcurr, hcount, hcells, hnext, hold⟩ :=
      nextChunk_spec (s := { s with size := s.grownSize len, requested := true }) h.curr h.cells
    have hrest : ∀ s : Obstack, s.nextChunk.building = s.building ∧ s.nextChunk.live = s.live ∧
        s.nextChunk.requested = s.requested := by
      intro s
      unfold nextChunk newChunk
      split <;> exact ⟨rfl, rfl, rfl⟩
    have hrest := hrest { s with size := s.grownSize len, requested := true }
    rw [if_pos hmove]
    generalize ({ s with size := s.grownSize len, requested := true } : Obstack).nextChunk = t
      at hcurr hcount hcells hnext hold hrest
    simp only at hcurr hcount hnext hold
    obtain ⟨hbuilding, hlive, hrequested⟩ := hrest
    have hlen := read_length h.building
    have hread := h.building
    rw [← read_congr (hold s.curr (Nat.le_refl _)).2, ← (hold s.curr (Nat.le_refl _)).1,
      ← hbuilding] at hread
    have hkept : t.Kept := by
      intro f hf
      rw [hlive] at hf
      have hchunk : f.chunk ≤ s.curr := (h.behind f hf).elim Nat.le_of_lt fun he => he.1.le
      rw [read_congr (hold f.chunk hchunk).2]
      exact h.kept f hf
    obtain ⟨u, hu, hinv, hb, hl, hr, hchunk⟩ := carry_spec (w := w) hcurr hcount hcells hnext hread
      (by rw [hbuilding, hlen]; omega) hkept
      (fun f hf => (h.behind f (hlive ▸ hf)).elim Nat.le_of_lt fun he => he.1.le)
      (hlive ▸ h.stacked)
    refine ⟨u, hu, hinv, hb.trans hbuilding, hl.trans hlive, hr.trans hrequested, ?_⟩
    rw [hchunk, hbuilding, hlen]
    exact hroom
  · rw [if_neg hmove, if_neg hmove] at hroom
    rw [if_neg hmove]
    exact ⟨_, rfl, ⟨h.curr, h.cells, h.block, h.cur, h.building,
      fun _ => by simp only; omega, h.kept, h.behind, h.stacked⟩, rfl, rfl, rfl, hroom⟩

theorem Inv.of_unrequested (h : Inv w { s with requested := false })
    (hroom : (s.chunk s.curr).cur + w ≤ (s.chunk s.curr).size) : Inv w s :=
  ⟨h.curr, h.cells, h.block, h.cur, h.building, fun _ => hroom, h.kept, h.behind, h.stacked⟩

/-- **The characters** go behind the string. -/
theorem append_spec (h : Inv w s) (data : List UInt8)
    (hfit : (s.chunk s.curr).cur + data.length ≤ (s.chunk s.curr).size) :
    ∃ t, s.append data = some t ∧ Inv w { t with requested := false } ∧ t.curr = s.curr ∧
      t.chunk s.curr = { s.chunk s.curr with cur := (s.chunk s.curr).cur + data.length } := by
  obtain ⟨cells, hm, hlen⟩ := h.cells s.curr h.curr
  have hfit' : (s.chunk s.curr).cur + data.length ≤ cells.length := hlen ▸ hfit
  have hwrite := write_some hm hfit'
  have hblock := h.block
  generalize hmem : s.mem.put s.curr (overwrite cells (s.chunk s.curr).cur data) = mem at hwrite
  have happend : s.append data = some
      { s with
        mem
        chunk := update s.chunk s.curr
          { s.chunk s.curr with cur := (s.chunk s.curr).cur + data.length }
        building := s.building ++ data } := by
    simp only [append, hwrite, map_some]
  refine ⟨_, happend, ⟨h.curr, ?_, ?_, ?_, ?_, fun hr => (Bool.false_ne_true hr).elim, ?_, ?_,
    h.stacked⟩, rfl, update_self ..⟩
  · intro k hk
    by_cases hk1 : k = s.curr
    · subst hk1
      refine ⟨_, hmem ▸ put_self, ?_⟩
      simpa [length_overwrite hfit'] using hlen
    · obtain ⟨cells', hm', hlen'⟩ := h.cells k hk
      exact ⟨cells', hmem ▸ (put_frame hk1).trans hm', by simpa [hk1] using hlen'⟩
  · simp only [update_self]
    omega
  · simpa using hfit
  · have hwrite' := hwrite
    rw [← Nat.add_sub_cancel' hblock] at hwrite'
    have hend := read_write_end hwrite' h.building
    simp only [update_self]
    rw [Nat.sub_add_comm hblock]
    exact hend
  · intro f hf
    apply read_write hwrite (h.kept f hf)
    rcases h.behind f hf with hlt | ⟨-, hle⟩
    · exact .inl (Nat.ne_of_lt hlt)
    · exact .inr (by omega)
  · intro f hf
    simpa [Frozen.Before] using h.behind f hf

theorem finish_inv (h : Inv w { s with requested := false }) : Inv w s.finish := by
  have hbuilding : s.mem.read s.curr _ _ = some s.building := h.building
  have hlen := read_length hbuilding
  have hblock := h.block
  obtain ⟨cells, hm, hcells⟩ := h.cells s.curr h.curr
  have hcur := h.cur
  simp only at hblock hcells hcur hlen
  refine ⟨h.curr, ?_, Nat.le_of_eq (by simp [finish]), ?_, ?_,
    fun hr => (Bool.false_ne_true hr).elim, ?_, ?_, ?_⟩
  · intro k hk
    obtain ⟨cells', hm', hlen'⟩ := h.cells k hk
    refine ⟨cells', hm', hlen'.trans ?_⟩
    by_cases hk1 : k = s.curr
    · subst hk1
      simp [finish]
    · simp [finish, hk1]
  · simpa [finish] using hcur
  · simp only [finish, update_self, Nat.sub_self]
    exact read_nil hm (by rw [hcells]; exact hcur)
  · intro f hf
    rcases mem_append.mp hf with hf | hf
    · exact h.kept f hf
    · obtain rfl := mem_singleton.mp hf
      simp only [hlen]
      exact hbuilding
  · intro f hf
    rcases mem_append.mp hf with hf | hf
    · rcases h.behind f hf with hlt | ⟨he, hle⟩
      · exact .inl hlt
      · refine .inr ⟨he, ?_⟩
        simp only [finish, update_self] at hle ⊢
        omega
    · obtain rfl := mem_singleton.mp hf
      refine .inr ⟨rfl, ?_⟩
      simp only [finish, update_self]
      omega
  · refine pairwise_append.mpr ⟨h.stacked, pairwise_singleton _ _, ?_⟩
    intro f hf g hg
    obtain rfl := mem_singleton.mp hg
    exact h.behind f hf

theorem freeze_spec (h : Inv w s) (hroom : (s.chunk s.curr).cur + w ≤ (s.chunk s.curr).size) :
    ∃ t, s.freeze w = some t ∧ Inv w t := by
  obtain ⟨t, ht, hinv, -, -⟩ := append_spec h (replicate w 0)
    (by rw [length_replicate]; exact hroom)
  exact ⟨t.finish, by rw [freeze, ht, map_some], finish_inv hinv⟩

theorem requested_append (h : Inv w s) (data : List UInt8) (hroom : s.HasRoom w data.length) :
    ∃ t, (s.request data.length).bind (fun s => s.append data) = some t ∧ Inv w t ∧
      (t.chunk t.curr).cur + w ≤ (t.chunk t.curr).size := by
  obtain ⟨u, hu, hinv, -, -, -, hfit⟩ := request_spec h hroom
  obtain ⟨t, ht, hinv', hcurr, hchunk⟩ := append_spec hinv data (by omega)
  have hterm : (t.chunk t.curr).cur + w ≤ (t.chunk t.curr).size := by
    rw [hcurr, hchunk]
    exact hfit
  exact ⟨t, by rw [hu, bind_some, ht], hinv'.of_unrequested hterm, hterm⟩

/-- Back to a place that the chunk has, before which the live strings end. -/
theorem back_inv {chunk offset : Nat} {live : List Frozen} (h : Inv w s) (hchunk : chunk < s.count)
    (hoffset : offset ≤ (s.chunk chunk).size) (hlive : ∀ f ∈ live, f ∈ s.live)
    (hbefore : ∀ f ∈ live, Frozen.Before f chunk offset)
    (hstacked : live.Pairwise fun f g => Frozen.Before f g.chunk g.offset) : Inv w { s with
      curr := chunk
      chunk := update s.chunk chunk { s.chunk chunk with block := offset, cur := offset }
      building := []
      requested := false
      live } := by
  obtain ⟨cells, hm, hlen⟩ := h.cells chunk hchunk
  refine ⟨hchunk, ?_, Nat.le_of_eq (by simp), by simpa using hoffset, ?_,
    fun hr => (Bool.false_ne_true hr).elim, fun f hf => h.kept f (hlive f hf), ?_, hstacked⟩
  · intro k hk
    obtain ⟨cells', hm', hlen'⟩ := h.cells k hk
    refine ⟨cells', hm', hlen'.trans ?_⟩
    by_cases hk1 : k = chunk
    · subst hk1
      simp
    · simp [hk1]
  · simp only [update_self, Nat.sub_self]
    exact read_nil hm (hlen ▸ hoffset)
  · intro f hf
    simpa using hbefore f hf

theorem unwind_spec (h : Inv w s) {k : Nat} (hk : k < s.live.length) :
    ∃ t, s.unwind k = some t ∧ Inv w t := by
  have hmem : s.live[k] ∈ s.live := getElem_mem hk
  have hread := h.kept _ hmem
  obtain ⟨cells, hm, hle, -⟩ := read_eq.mp hread
  have hchunk : s.live[k].chunk < s.count :=
    Nat.lt_of_le_of_lt ((h.behind _ hmem).elim Nat.le_of_lt fun he => he.1.le) h.curr
  obtain ⟨cells', hm', hlen⟩ := h.cells _ hchunk
  obtain rfl : cells = cells' := some.inj (hm.symm.trans hm')
  refine ⟨_, by rw [unwind, getElem?_eq_getElem hk, map_some], back_inv h hchunk
    (by omega) (fun f hf => mem_of_mem_take hf) ?_ (h.stacked.sublist (take_sublist k _))⟩
  intro f hf
  obtain ⟨i, hi, rfl⟩ := mem_iff_getElem.mp hf
  rw [length_take] at hi
  rw [getElem_take]
  exact pairwise_iff_getElem.mp h.stacked i k (by omega) hk (by omega)

/-- **One operation** that has room. -/
theorem step_spec (h : Inv w s) {op : Op} (hop : s.Legal w op ∧ s.Room w op) :
    ∃ t, s.step w op = some t ∧ Inv w t := by
  obtain ⟨hlegal, hroom⟩ := hop
  cases op with
  | request len =>
    obtain ⟨t, ht, hinv, -⟩ := request_spec h hroom
    exact ⟨t, ht, hinv⟩
  | grow c =>
    have hlen : c.length = w := hlegal
    obtain ⟨t, ht, hinv, -⟩ := requested_append h c (hlen ▸ hroom)
    exact ⟨t, ht, hinv⟩
  | freeze => exact freeze_spec h (h.room hlegal)
  | copy chars =>
    have hlen : chars.flatten.length = chars.length * w := by
      rw [length_flatten, map_congr_left hlegal]
      simp
    obtain ⟨t, ht, hinv, hterm⟩ := requested_append h chars.flatten (hlen ▸ hroom)
    obtain ⟨u, hu, hinv'⟩ := freeze_spec hinv hterm
    refine ⟨u, ?_, hinv'⟩
    rw [hlen] at ht
    rw [step, copy, ← bind_assoc, ht, bind_some, hu]
  | unwind k => exact unwind_spec h hlegal
  | release =>
    exact ⟨_, rfl, back_inv h (Nat.zero_lt_of_lt h.curr) (Nat.zero_le _) (by simp) (by simp) .nil⟩

/-- **Strings stay inside their chunks**, and are kept, as long as every request has room. -/
theorem strings_kept {size : Nat} {ops : List Op}
    (h : AllSteps (step w) (fun s op => s.Legal w op ∧ s.Room w op) (start size) ops) :
    ∃ s, run (step w) (start size) ops = some s ∧ s.Kept := by
  obtain ⟨s, hs, hinv⟩ := run_total_of (fun s op hs hop => step_spec hs hop) (start_inv w size) h
  exact ⟨s, hs, hinv.kept⟩

/-- Characters of one byte, of a string that moves to a second chunk, and a string that is
unwound. -/
def moved : List Op :=
  [.request 2, .grow [97], .grow [98], .grow [99], .freeze, .copy [[100]], .unwind 1, .copy [[101]]]

theorem strings_kept_moved : ∃ s, run (step 1) (start 4) moved = some s ∧ s.Kept := by
  have hroom : AllSteps (step 1) (fun s op => s.Legal 1 op ∧ s.Room 1 op) (start 4) moved := by
    decide
  exact strings_kept hroom

/-- A string of nine characters, in an obstack of chunks of 4: its new chunk has 8. -/
theorem copy_overruns :
    ¬ ∀ (w size : Nat) (ops : List Op),
      AllSteps (step w) (fun s op => s.Legal w op) (start size) ops →
        ∃ s, run (step w) (start size) ops = some s ∧ s.Kept := by
  intro h
  obtain ⟨s, hs, -⟩ := h 1 4 [.copy (replicate 9 [97])] ⟨by
    intro c hc
    rw [eq_of_mem_replicate hc]
    rfl, fun _ _ => trivial⟩
  cases hs

end Obstack

end Atcd.Malloc
