import Atcd.Core.Ledger
import Atcd.Sequences.GenericSequence
/-!
# What the operations of a sequence do

An operation on a sequence takes what the sequence owns, its buffer and the strings in it,
to what it owns afterwards (`Frame`).

Results:
- `copy_spec`: the copy constructor makes a sequence beside what there was;
- `setLength_own`, `setLength_lent`: `length`, for a buffer of the sequence and for a lent
  one;
- `assign_spec`, `destroy_spec`: assignment, and the destructor.
-/
namespace Atcd.Sequences
open Atcd.Core List Function Option Traits Store Set Bool Local

variable {T : Type} {t : Traits T} {h h' h'' : Heap T} {B B' B'' S S' S'' : Set Nat}
  {cells cells' : List (Cell T)} {c : Cell T} {b k n : Nat}

/-! ## Elements -/

/-- The elements that buffers of the element type have. -/
def Traits.ok (t : Traits T) : Cell T → Prop
  | .null => t.isString = true
  | .shared => t.isString = true ∧ t.sharesNull = true
  | .str _ => t.isString = true
  | .val _ => t.isString = false
  | .unset => t.isString = false

def ids (cells : List (Cell T)) : Set Nat := {k | Cell.str k ∈ cells}

def Distinct (cells : List (Cell T)) : Prop :=
  cells.Pairwise fun c d => ∀ k, c = .str k → d ≠ .str k

theorem mem_ids : k ∈ ids cells ↔ Cell.str k ∈ cells := Iff.rfl

theorem ids_append : ids (cells ++ cells') = ids cells ∪ ids cells' := by
  ext k
  simp [mem_ids]

theorem ids_cons : ids (c :: cells) = ids [c] ∪ ids cells := by
  rw [← ids_append]
  rfl

@[simp] theorem ids_nil : ids ([] : List (Cell T)) = ∅ := by
  ext k
  simp [mem_ids]

theorem ids_str : ids [(Cell.str k : Cell T)] = {k} := by
  ext l
  simp [mem_ids]

theorem ids_of_not_str (hc : ∀ k, c ≠ .str k) : ids [c] = ∅ := by
  ext k
  simp [mem_ids, Ne.symm (hc k)]

theorem distinct_append : Distinct (cells ++ cells') ↔
    Distinct cells ∧ Distinct cells' ∧ ∀ k ∈ ids cells, k ∉ ids cells' := by
  unfold Distinct
  rw [pairwise_append]
  refine and_congr_right fun _ => and_congr_right fun _ => ?_
  constructor
  · intro hall k hk hk'
    exact hall _ hk _ hk' k rfl rfl
  · intro hall c hc d hd k hck hdk
    subst hck hdk
    exact hall k hc hd

theorem distinct_cons (hd : Distinct (c :: cells)) :
    Distinct cells ∧ ∀ k ∈ ids [c], k ∉ ids cells := by
  have h3 := distinct_append.mp (show Distinct ([c] ++ cells) from hd)
  exact ⟨h3.2.1, h3.2.2⟩

theorem ids_of_values (hok : ∀ c ∈ cells, t.ok c) (hv : t.isString = false) :
    ids cells = ∅ := by
  ext k
  constructor
  · intro hk
    have hs : t.isString = true := hok _ hk
    rw [hv] at hs
    cases hs
  · exact fun hk => hk.elim

theorem distinct_of_ids (he : ids cells = ∅) : Distinct cells := by
  refine pairwise_of_forall_mem_list fun c hc d _ k hck => ?_
  subst hck
  have hk : k ∈ ids cells := hc
  rw [he] at hk
  exact hk.elim

/-- What an operation takes and leaves, of buffers and of strings. -/
structure Frame (h h' : Heap T) (B B' S S' : Set Nat) : Prop where
  bufs : Local h.bufs h'.bufs h.nextBuf h'.nextBuf B B'
  strs : Local h.strs h'.strs h.nextStr h'.nextStr S S'

theorem Frame.trans (hf : Frame h h' B B' S S') (hg : Frame h' h'' B' B'' S' S'') :
    Frame h h'' B B'' S S'' := ⟨hf.bufs.trans hg.bufs, hf.strs.trans hg.strs⟩

theorem Frame.congr (hf : Frame h h' B B' S S') (hB : B' = B'') (hS : S' = S'') :
    Frame h h' B B'' S S'' := hB ▸ hS ▸ hf

/-- What is owned is there. -/
structure Held (h : Heap T) (B S : Set Nat) : Prop where
  bufs : ∀ b ∈ B, h.bufs b ≠ none ∧ b < h.nextBuf
  strs : ∀ k ∈ S, h.strs k ≠ none ∧ k < h.nextStr

theorem Frame.held (hf : Frame h h' B B' S S') : Held h' B' S' :=
  ⟨hf.bufs.held_lt, hf.strs.held_lt⟩

theorem Held.mono (hh : Held h B S) (hB : B' ⊆ B) (hS : S' ⊆ S) : Held h B' S' :=
  ⟨fun b hb => hh.bufs b (hB hb), fun k hk => hh.strs k (hS hk)⟩

theorem Held.refl (hh : Held h B S) : Frame h h B B S S :=
  ⟨Local.refl hh.bufs, Local.refl hh.strs⟩

/-- Elements that are made: new strings at most. -/
structure Adds (t : Traits T) (h h' : Heap T) (cells : List (Cell T)) : Prop where
  bufs : h'.bufs = h.bufs
  nextBuf : h'.nextBuf = h.nextBuf
  nextStr : h.nextStr ≤ h'.nextStr
  keeps : ∀ k < h.nextStr, h'.strs k = h.strs k
  new : ∀ k ∈ ids cells, h.nextStr ≤ k ∧ k < h'.nextStr ∧ h'.strs k ≠ none
  only : ∀ k, h.nextStr ≤ k → h'.strs k ≠ none → h.strs k ≠ none ∨ k ∈ ids cells
  distinct : Distinct cells
  ok : ∀ c ∈ cells, t.ok c

theorem Adds.frame (ha : Adds t h h' cells) (hh : Held h B S) :
    Frame h h' B B S (S ∪ ids cells) := by
  constructor
  · rw [ha.bufs, ha.nextBuf]
    exact refl hh.bufs
  · constructor
    · intro k _ hk
      exact ha.keeps k hk
    · exact ha.nextStr
    · intro k hk
      by_cases hlt : k < h.nextStr
      · rw [ha.keeps k hlt] at hk
        by_cases hS : k ∈ S
        · exact .inl (.inl hS)
        · exact .inr ⟨hk, hS⟩
      · rcases ha.only k (by omega) hk with hk | hk
        · by_cases hS : k ∈ S
          · exact .inl (.inl hS)
          · exact .inr ⟨hk, hS⟩
        · exact .inl (.inr hk)
    · rintro k (hk | hk)
      · exact ⟨.inl hk, Nat.lt_of_lt_of_le (hh.strs k hk).2 ha.nextStr⟩
      · exact ⟨.inr (ha.new k hk).1, (ha.new k hk).2.1⟩
    · rintro k (hk | hk)
      · rw [ha.keeps k (hh.strs k hk).2]
        exact (hh.strs k hk).1
      · exact (ha.new k hk).2.2

theorem Adds.nil (t : Traits T) (h : Heap T) : Adds t h h [] where
  bufs := rfl
  nextBuf := rfl
  nextStr := Nat.le_refl _
  keeps _ _ := rfl
  new k hk := by simp at hk
  only k _ hk := .inl hk
  distinct := Pairwise.nil
  ok := nofun

theorem Adds.append (ha : Adds t h h' cells) (hg : Adds t h' h'' cells') :
    Adds t h h'' (cells ++ cells') where
  bufs := hg.bufs.trans ha.bufs
  nextBuf := hg.nextBuf.trans ha.nextBuf
  nextStr := Nat.le_trans ha.nextStr hg.nextStr
  keeps k hk := (hg.keeps k (Nat.lt_of_lt_of_le hk ha.nextStr)).trans (ha.keeps k hk)
  new k hk := by
    rw [ids_append] at hk
    rcases hk with hk | hk
    · obtain ⟨h1, h2, h3⟩ := ha.new k hk
      refine ⟨h1, Nat.lt_of_lt_of_le h2 hg.nextStr, ?_⟩
      rw [hg.keeps k h2]
      exact h3
    · obtain ⟨h1, h2, h3⟩ := hg.new k hk
      exact ⟨Nat.le_trans ha.nextStr h1, h2, h3⟩
  only k hk hlive := by
    rw [ids_append]
    by_cases hlt : k < h'.nextStr
    · rw [hg.keeps k hlt] at hlive
      exact (ha.only k hk hlive).imp_right .inl
    · rcases hg.only k (by omega) hlive with hold | hnew
      · exact (ha.only k hk hold).imp_right .inl
      · exact .inr (.inr hnew)
  distinct := by
    refine distinct_append.mpr ⟨ha.distinct, hg.distinct, fun k hk hk' => ?_⟩
    have h1 := (ha.new k hk).2.1
    have h2 := (hg.new k hk').1
    omega
  ok c hc := by
    rcases mem_append.mp hc with hc | hc
    · exact ha.ok c hc
    · exact hg.ok c hc

/-- An element without a string of its own. -/
theorem Adds.plain (hc : ∀ k, c ≠ .str k) (hok : t.ok c) : Adds t h h [c] where
  bufs := rfl
  nextBuf := rfl
  nextStr := Nat.le_refl _
  keeps _ _ := rfl
  new k hk := by
    rw [ids_of_not_str hc] at hk
    exact hk.elim
  only k _ hk := .inl hk
  distinct := pairwise_singleton ..
  ok d hd := by
    rw [mem_singleton.mp hd]
    exact hok

theorem Adds.newStr (hs : t.isString = true) (v : T) :
    Adds t h (h.newStr v).1 [(h.newStr v).2] where
  bufs := rfl
  nextBuf := rfl
  nextStr := Nat.le_succ _
  keeps k hk := update_of_ne (Nat.ne_of_lt hk) ..
  new k hk := by
    have he : k = h.nextStr := by simpa [mem_ids, Heap.newStr] using hk
    subst he
    refine ⟨Nat.le_refl _, Nat.lt_succ_self _, ?_⟩
    simp [Heap.newStr]
  only k _ hlive := by
    by_cases he : k = h.nextStr
    · subst he
      exact .inr (mem_singleton_self _)
    · exact .inl (by simpa [Heap.newStr, he] using hlive)
  distinct := pairwise_singleton ..
  ok d hd := by
    rw [mem_singleton.mp hd]
    exact hs

theorem look_newStr (v : T) : (h.newStr v).1.look t (h.newStr v).2 = some (some v) := by
  simp [Heap.newStr, Heap.look]

theorem look_congr (hk : ∀ k, c = .str k → h'.strs k = h.strs k) : h'.look t c = h.look t c := by
  cases c with
  | str k => exact congrArg (Option.map some) (hk k rfl)
  | _ => rfl

theorem map_look_congr (hk : ∀ k ∈ ids cells, h'.strs k = h.strs k) :
    cells.map (h'.look t) = cells.map (h.look t) := by
  refine map_congr_left fun c hc => look_congr fun k he => hk k ?_
  subst he
  exact hc

theorem defaultInitializer_spec (t : Traits T) (h : Heap T) :
    Adds t h (t.defaultInitializer h).1 [(t.defaultInitializer h).2] ∧
      (t.defaultInitializer h).1.look t (t.defaultInitializer h).2 = some (some t.dflt) := by
  unfold defaultInitializer
  by_cases hs : t.isString = true
  · rw [if_pos hs]
    by_cases hn : t.sharesNull = true
    · rw [if_pos hn]
      exact ⟨.plain nofun ⟨hs, hn⟩, rfl⟩
    · rw [if_neg hn]
      exact ⟨.newStr hs t.dflt, look_newStr t.dflt⟩
  · rw [if_neg hs]
    exact ⟨.plain nofun (eq_false_iff.mpr hs), rfl⟩

theorem initialized_spec (t : Traits T) (h : Heap T) (n : Nat) :
    Adds t h (t.initialized h n).1 (t.initialized h n).2 ∧
      (t.initialized h n).2.map ((t.initialized h n).1.look t) =
        replicate n (some (some t.dflt)) := by
  induction n generalizing h with
  | zero => exact ⟨.nil t h, rfl⟩
  | succ n ih =>
    obtain ⟨ha, hv⟩ := defaultInitializer_spec t h
    obtain ⟨hg, hvs⟩ := ih (t.defaultInitializer h).1
    refine ⟨ha.append hg, ?_⟩
    have hfirst : (t.initialized h (n + 1)).1.look t (t.defaultInitializer h).2 =
        some (some t.dflt) := by
      rw [← hv]
      refine look_congr fun k he => hg.keeps k ?_
      have hk : k ∈ ids [(t.defaultInitializer h).2] := by
        rw [he, ids_str]
        rfl
      exact (ha.new k hk).2.1
    change (t.initialized h (n + 1)).1.look t (t.defaultInitializer h).2 :: _ = _
    rw [hfirst, replicate_succ]
    exact congrArg _ hvs

theorem length_initialized (t : Traits T) (h : Heap T) (n : Nat) :
    (t.initialized h n).2.length = n := by
  have hlen := congrArg length (initialized_spec t h n).2
  rwa [length_map, length_replicate] at hlen

/-- The contents can be copied: their lengths fit. -/
def Traits.fits (t : Traits T) (v : Option T) : Prop :=
  ∀ w ∈ v, t.isString = true → t.strlen w < ulongMax

theorem stringDup_spec [DecidableEq T] (hs : t.isString = true) {v : T} (hv : t.fits (some v)) :
    ∃ h' c, t.stringDup h v = some (h', c) ∧ Adds t h h' [c] ∧ h'.look t c = some (some v) := by
  unfold stringDup
  by_cases he : t.sharesNull = true ∧ v = t.dflt
  · rw [if_pos he]
    refine ⟨h, .shared, rfl, .plain nofun ⟨hs, he.1⟩, ?_⟩
    rw [he.2]
    rfl
  · rw [if_neg he, if_pos (hv v rfl hs)]
    exact ⟨_, _, rfl, .newStr hs v, look_newStr v⟩

theorem duplicate_spec [DecidableEq T] (hok : t.ok c) {v : Option T} (hc : h.look t c = some v)
    (hv : t.fits v) : ∃ h' d, t.duplicate h c = some (h', d) ∧ Adds t h h' [d] ∧
      h'.look t d = some v := by
  cases c with
  | null => exact ⟨h, .null, rfl, .plain nofun hok, hc⟩
  | val w => exact ⟨h, .val w, rfl, .plain nofun hok, hc⟩
  | unset => exact ⟨h, .unset, rfl, .plain nofun hok, hc⟩
  | shared =>
    refine ⟨h, .shared, ?_, .plain nofun hok, hc⟩
    rw [duplicate, stringDup, if_pos ⟨hok.2, rfl⟩]
  | str k =>
    obtain ⟨w, hw, rfl⟩ := map_eq_some_iff.mp hc
    rw [duplicate, hw, bind_some]
    exact stringDup_spec hok hv

theorem copied_spec [DecidableEq T] (hok : ∀ c ∈ cells, t.ok c) {vs : List (Option T)}
    (hlt : ∀ k ∈ ids cells, k < h.nextStr) (hc : cells.map (h.look t) = vs.map some)
    (hv : ∀ v ∈ vs, t.fits v) :
    ∃ h' cells', t.copied h cells = some (h', cells') ∧ Adds t h h' cells' ∧
      cells'.map (h'.look t) = vs.map some := by
  induction cells generalizing h vs with
  | nil =>
    cases vs with
    | nil => exact ⟨h, [], rfl, .nil t h, rfl⟩
    | cons v vs => cases hc
  | cons c cells ih =>
    cases vs with
    | nil => cases hc
    | cons v vs =>
      rw [map_cons, map_cons, cons.injEq] at hc
      obtain ⟨h₁, d, hd, ha, hlook⟩ := duplicate_spec (hok c mem_cons_self) hc.1
        (hv v mem_cons_self)
      have hcells : cells.map (h₁.look t) = vs.map some := by
        rw [map_look_congr fun k hk => ha.keeps k (hlt k (mem_cons_of_mem _ hk)), hc.2]
      obtain ⟨h₂, ds, hds, hg, hlooks⟩ := ih (fun e he => hok e (mem_cons_of_mem _ he))
        (fun k hk => Nat.lt_of_lt_of_le (hlt k (mem_cons_of_mem _ hk)) ha.nextStr) hcells
        fun w hw => hv w (mem_cons_of_mem _ hw)
      refine ⟨h₂, d :: ds, ?_, ha.append hg, ?_⟩
      · rw [copied, hd, bind_some]
        dsimp only
        rw [hds]
        rfl
      · rw [map_cons, map_cons, hlooks, ← hlook]
        refine congrArg (· :: _) (look_congr fun k he => hg.keeps k ?_)
        have hk : k ∈ ids [d] := by
          rw [he, ids_str]
          rfl
        exact (ha.new k hk).2.1

/-! ## Release -/

theorem releaseAll_spec (hok : ∀ c ∈ cells, t.ok c) (hs : t.isString = true)
    (hd : Distinct cells) (hh : Held h B S) (hS : ids cells ⊆ S) :
    ∃ h', Traits.releaseAll h cells = some h' ∧ Frame h h' B B S (S \ ids cells) ∧
      h'.bufs = h.bufs := by
  induction cells generalizing h S with
  | nil =>
    refine ⟨h, rfl, hh.refl.congr rfl ?_, rfl⟩
    rw [ids_nil, sdiff_empty]
  | cons c cells ih =>
    obtain ⟨hd', hno⟩ := distinct_cons hd
    have hok' : ∀ e ∈ cells, t.ok e := fun e he => hok e (mem_cons_of_mem _ he)
    have hS' : ids cells ⊆ S := fun k hk => hS (mem_cons_of_mem _ hk)
    have hplain : (∀ k, c ≠ .str k) → release h c = some h → ∃ h',
        releaseAll h (c :: cells) = some h' ∧
          Frame h h' B B S (S \ ids (c :: cells)) ∧ h'.bufs = h.bufs := by
      intro hc hr
      obtain ⟨h', heq, hf, hb⟩ := ih hok' hd' hh hS'
      refine ⟨h', ?_, hf.congr rfl ?_, hb⟩
      · rw [releaseAll, hr, bind_some, heq]
      · rw [ids_cons, ids_of_not_str hc, empty_union]
    have hval : ∀ {p : Prop}, t.isString = false → p := fun hf => by
      rw [hs] at hf
      cases hf
    cases c with
    | null => exact hplain nofun rfl
    | shared => exact hplain nofun rfl
    | val w => exact hval (hok _ mem_cons_self)
    | unset => exact hval (hok _ mem_cons_self)
    | str k =>
      have hk : k ∈ S := hS mem_cons_self
      obtain ⟨v, hv⟩ := ne_none_iff_exists'.mp (hh.strs k hk).1
      have hf : Frame h { h with strs := update h.strs k none } B B S (S \ {k}) :=
        ⟨refl hh.bufs, drop hh.strs hk⟩
      obtain ⟨h', heq, hg, hb⟩ := ih hok' hd' hf.held (by
        intro l hl
        refine ⟨hS' hl, ?_⟩
        rintro rfl
        exact hno l mem_cons_self hl)
      refine ⟨h', ?_, (hf.trans hg).congr rfl ?_, hb⟩
      · rw [releaseAll, release, hv, map_some, bind_some, heq]
      · rw [ids_cons, ids_str, sdiff_sdiff]

theorem releaseRange_spec (hok : ∀ c ∈ cells, t.ok c) (hd : Distinct cells) (hh : Held h B S)
    (hS : ids cells ⊆ S) : ∃ h', t.releaseRange h cells = some h' ∧
      Frame h h' B B S (S \ ids cells) ∧ h'.bufs = h.bufs := by
  unfold releaseRange
  by_cases hs : t.isString = true
  · rw [if_pos hs]
    exact releaseAll_spec hok hs hd hh hS
  · rw [if_neg hs]
    refine ⟨h, rfl, hh.refl.congr rfl ?_, rfl⟩
    rw [ids_of_values hok (eq_false_iff.mpr hs), sdiff_empty]

/-! ## Buffers -/

theorem newBuf_frame (hh : Held h B S) (cells : List (Cell T)) :
    Frame h (h.newBuf cells).1 B (insert h.nextBuf B) S S := ⟨alloc hh.bufs cells, refl hh.strs⟩

def Heap.setBuf (h : Heap T) (b : Nat) (cells : List (Cell T)) : Heap T :=
  { h with bufs := h.bufs.put b cells }

theorem write_eq (hcells : h.bufs b = some cells) (off : Nat) (data : List (Cell T))
    (hroom : off + data.length ≤ cells.length) :
    h.write b off data = some (h.setBuf b (overwrite cells off data)) := by
  rw [Heap.write, write_some hcells hroom, map_some]
  rfl

theorem setBuf_frame (hh : Held h B S) (hb : b ∈ B) (cells : List (Cell T)) :
    Frame h (h.setBuf b cells) B B S S := ⟨set hh.bufs hb _, refl hh.strs⟩

theorem room_room (t : Traits T) (n : Nat) : t.room (t.room n) = t.room n := by
  unfold room
  cases t.bound <;> rfl

/-- A new buffer: elements that can be there, default ones where they are made. -/
structure NewBuf (t : Traits T) (h h' : Heap T) (b : Nat) (cells : List (Cell T)) : Prop where
  here : h'.bufs b = some cells
  new : b = h.nextBuf
  keeps : ∀ b < h.nextBuf, h'.bufs b = h.bufs b
  keepsStr : ∀ k < h.nextStr, h'.strs k = h.strs k
  nextStr : h.nextStr ≤ h'.nextStr
  distinct : Distinct cells
  ok : ∀ c ∈ cells, t.ok c
  room : cells.length = t.room cells.length
  frame : ∀ B S, Held h B S → Frame h h' B (insert b B) S (S ∪ ids cells)

theorem fresh_ok (hs : ¬t.isString = true) : t.ok t.fresh := by
  unfold fresh
  split
  · exact eq_false_iff.mpr hs
  · exact eq_false_iff.mpr hs

theorem fresh_not_str (t : Traits T) (k : Nat) : t.fresh ≠ .str k := by
  unfold fresh
  split <;> nofun

theorem ids_replicate (hc : ∀ k, c ≠ .str k) (n : Nat) : ids (replicate n c) = ∅ := by
  ext k
  constructor
  · intro hk
    exact hc k (eq_of_mem_replicate hk).symm
  · exact fun hk => hk.elim

theorem NewBuf.plain (t : Traits T) (h : Heap T) (hc : ∀ k, c ≠ .str k) (hok : t.ok c)
    (n : Nat) : NewBuf t h (h.newBuf (replicate (t.room n) c)).1 h.nextBuf
      (replicate (t.room n) c) where
  here := put_self
  new := rfl
  keeps b hb := put_frame (Nat.ne_of_lt hb)
  keepsStr _ _ := rfl
  nextStr := Nat.le_refl _
  distinct := distinct_of_ids (ids_replicate hc _)
  ok d hd := by
    rw [eq_of_mem_replicate hd]
    exact hok
  room := by rw [length_replicate, room_room]
  frame B S hh := (newBuf_frame hh _).congr rfl (by rw [ids_replicate hc, union_empty])

/-- A default element, or one that `new value_type[n]` has not initialised. -/
def Traits.vacant (t : Traits T) (h : Heap T) (c : Cell T) : Prop :=
  c = .unset ∨ h.look t c = some (some t.dflt)

theorem Traits.vacant.congr (hv : t.vacant h c) (hk : ∀ k, c = .str k → h'.strs k = h.strs k) :
    t.vacant h' c := hv.imp_right (look_congr hk).trans

theorem allocbuf_spec (t : Traits T) (h : Heap T) (n : Nat) (hr : t.refuses n = false) :
    ∃ h' b cells, t.allocbuf h n = (h', some b) ∧ NewBuf t h h' b cells ∧
      cells.length = t.room n ∧
      (t.isString = true ∨ t.inits = true → ∀ c ∈ cells, h'.look t c = some (some t.dflt)) ∧
      ∀ c ∈ cells, t.vacant h' c := by
  unfold allocbuf
  rw [if_neg (by rw [hr]; exact false_ne_true)]
  by_cases hs : t.isString = true
  · rw [if_pos hs]
    obtain ⟨ha, hv⟩ := initialized_spec t h (t.room n)
    have hlen := length_initialized t h (t.room n)
    have hnext := ha.nextBuf
    have hdflt : ∀ c ∈ (t.initialized h (t.room n)).2,
        (t.initialized h (t.room n)).1.look t c = some (some t.dflt) := by
      intro c hc
      have hmem := mem_map_of_mem (f := (t.initialized h (t.room n)).1.look t) hc
      rw [hv] at hmem
      exact eq_of_mem_replicate hmem
    refine ⟨_, _, (t.initialized h (t.room n)).2, rfl, ?_, hlen, fun _ => hdflt,
      fun c hc => .inr (hdflt c hc)⟩
    · constructor
      · exact put_self
      · exact hnext
      · intro b hb
        exact (put_frame (by omega)).trans (congrFun ha.bufs b)
      · exact ha.keeps
      · exact ha.nextStr
      · exact ha.distinct
      · exact ha.ok
      · rw [hlen, room_room]
      · intro B S hh
        have hf := ha.frame hh
        exact hf.trans (newBuf_frame hf.held _)
  · rw [if_neg hs]
    refine ⟨_, _, _, rfl, .plain t h (fresh_not_str t) (fresh_ok hs) n, length_replicate,
      fun hor c hc => ?_, fun c hc => ?_⟩
    · rw [eq_of_mem_replicate hc, fresh, if_pos (hor.resolve_left hs)]
      rfl
    · rw [eq_of_mem_replicate hc, fresh]
      split
      · exact .inr rfl
      · exact .inl rfl

theorem allocbufNoinit_spec (t : Traits T) (h : Heap T) (n : Nat) (hr : t.refuses n = false) :
    ∃ h' b cells, t.allocbufNoinit h n = (h', some b) ∧ NewBuf t h h' b cells ∧
      cells.length = t.room n ∧ ids cells = ∅ := by
  unfold allocbufNoinit
  rw [if_neg (by rw [hr]; exact false_ne_true)]
  by_cases hs : t.isString = true
  · rw [if_pos hs]
    have hnull : ∀ k, (Cell.null : Cell T) ≠ .str k := nofun
    exact ⟨_, _, _, rfl, .plain t h hnull hs n, length_replicate, ids_replicate hnull _⟩
  · rw [if_neg hs]
    exact ⟨_, _, _, rfl, .plain t h (fresh_not_str t) (fresh_ok hs) n, length_replicate,
      ids_replicate (fresh_not_str t) _⟩

theorem freebuf_spec (hh : Held h B S) (hb : b ∈ B) (hcells : h.bufs b = some cells)
    (hok : ∀ c ∈ cells, t.ok c) (hd : Distinct cells) (hroom : cells.length = t.room cells.length)
    (hS : ids cells ⊆ S) :
    ∃ h', t.freebuf h (some b) = some h' ∧ Frame h h' B (B \ {b}) S (S \ ids cells) := by
  obtain ⟨h₁, hrel, hf, hbufs⟩ := releaseRange_spec hok hd hh hS
  have hcells₁ : h₁.bufs b = some cells := by rw [hbufs, hcells]
  refine ⟨{ h₁ with bufs := update h₁.bufs b none }, ?_, hf.trans ⟨?_, ?_⟩⟩
  · have hread : h.bufs.read b 0 (t.room cells.length) = some cells := by
      refine read_eq.mpr ⟨cells, hcells, by omega, ?_⟩
      rw [← hroom, drop_zero, take_length]
    rw [freebuf, hcells, bind_some, hread, bind_some, hrel,
      bind_some, free_some hcells₁, map_some]
  · exact drop hf.held.bufs hb
  · exact refl hf.held.strs

/-! ## Sequences -/

def Seq.bufs (x : Seq) : Set Nat := {b | x.release = true ∧ x.buffer = some b}

def Seq.strs (h : Heap T) (x : Seq) : Set Nat :=
  {k | ∃ b cells, x.release = true ∧ x.buffer = some b ∧ h.bufs b = some cells ∧ k ∈ ids cells}

variable {x : Seq} {v : List (Option T)} {bare behind : List (Cell T)}

theorem bufs_owned (hr : x.release = true) (hb : x.buffer = some b) : x.bufs = {b} := by
  ext l
  simp [Seq.bufs, hr, hb, eq_comm]

theorem strs_owned (hr : x.release = true) (hb : x.buffer = some b) (hcells : h.bufs b = some cells) :
    x.strs h = ids cells := by
  ext k
  simp [Seq.strs, hr, hb, hcells]

theorem bufs_none (hx : x.release = false ∨ x.buffer = none) : x.bufs = ∅ := by
  ext l
  rcases hx with hx | hx <;> simp [Seq.bufs, hx]

theorem strs_none (hx : x.release = false ∨ x.buffer = none) : x.strs h = ∅ := by
  ext l
  rcases hx with hx | hx <;> simp [Seq.strs, hx]

/-- The sequence shows the list, and behind it a buffer of its own is vacant. -/
structure Shows (t : Traits T) (h : Heap T) (x : Seq) (v : List (Option T)) : Prop where
  length_le : x.length ≤ x.maximum
  maximum_le : x.maximum ≤ t.room x.maximum
  none : x.buffer = none → x.length = 0 ∧ v = []
  some : ∀ b, x.buffer = some b → ∃ cells, h.bufs b = some cells ∧ x.maximum ≤ cells.length ∧
    (∀ c ∈ cells, t.ok c) ∧ (cells.take x.length).map (h.look t) = v.map some ∧
    (x.release = true → Distinct cells ∧ cells.length = t.room cells.length ∧
      ∀ c ∈ (cells.take x.maximum).drop x.length, t.vacant h c)

theorem Shows.congr (hx : Shows t h x v) (hb : ∀ b, x.buffer = .some b → h'.bufs b = h.bufs b)
    (hs : ∀ b cells, x.buffer = .some b → h.bufs b = .some cells →
      ∀ k ∈ ids cells, h'.strs k = h.strs k) : Shows t h' x v where
  length_le := hx.length_le
  maximum_le := hx.maximum_le
  none := hx.none
  some b hbuf := by
    obtain ⟨cells, hcells, hmax, hok, hv, hown⟩ := hx.some b hbuf
    refine ⟨cells, (hb b hbuf).trans hcells, hmax, hok, ?_, fun hr => ?_⟩
    · rw [← hv]
      exact map_look_congr fun k hk => hs b cells hbuf hcells k (mem_of_mem_take hk)
    · obtain ⟨hd, hroom, hvacant⟩ := hown hr
      refine ⟨hd, hroom, fun c hc => (hvacant c hc).congr fun k he => ?_⟩
      exact hs b cells hbuf hcells k (mem_ids.mpr (he ▸ mem_of_mem_take (mem_of_mem_drop hc)))

/-- The destructor can release what the sequence has. -/
def Traits.drops (t : Traits T) (x : Seq) : Prop :=
  x.release = true → x.buffer = none → t.isString = true → t.bound.getD 0 = 0

/-- What a sequence has of its own is in order. -/
def Tidy (t : Traits T) (h : Heap T) (x : Seq) : Prop :=
  x.release = true → ∀ b, x.buffer = some b → ∃ cells, h.bufs b = some cells ∧
    (∀ c ∈ cells, t.ok c) ∧ Distinct cells ∧ cells.length = t.room cells.length

theorem Shows.tidy (hx : Shows t h x v) : Tidy t h x := by
  intro hr b hb
  obtain ⟨cells, hcells, -, hok, -, hown⟩ := hx.some b hb
  exact ⟨cells, hcells, hok, (hown hr).1, (hown hr).2.1⟩

theorem destroy_spec (hx : Tidy t h x) (hd : t.drops x) (hh : Held h B S) (hB : x.bufs ⊆ B)
    (hS : x.strs h ⊆ S) :
    ∃ h', x.destroy t h = some h' ∧ Frame h h' B (B \ x.bufs) S (S \ x.strs h) := by
  unfold Seq.destroy
  by_cases hr : x.release = true
  · rw [if_pos hr]
    cases hb : x.buffer with
    | none =>
      refine ⟨h, ?_, hh.refl.congr ?_ ?_⟩
      · rw [freebuf, if_neg]
        rintro ⟨hs, hpos⟩
        rw [hd hr hb hs] at hpos
        cases hpos
      · rw [bufs_none (.inr hb), sdiff_empty]
      · rw [strs_none (.inr hb), sdiff_empty]
    | some b =>
      obtain ⟨cells, hcells, hok, hdist, hroom⟩ := hx hr b hb
      rw [bufs_owned hr hb, strs_owned hr hb hcells] at *
      exact freebuf_spec hh (hB rfl) hcells hok hdist hroom hS
  · have hr' := eq_false_iff.mpr hr
    rw [if_neg hr, bufs_none (.inl hr'), strs_none (.inl hr'), sdiff_empty, sdiff_empty]
    exact ⟨h, rfl, hh.refl⟩

theorem overwrite_twice (front behind new : List (Cell T))
    (hlen : front.length + behind.length ≤ new.length) :
    overwrite (overwrite new front.length behind) 0 front =
      front ++ (behind ++ new.drop (front.length + behind.length)) := by
  have htake : (new.take front.length).length = front.length := by
    rw [length_take]
    omega
  unfold overwrite
  rw [take_zero, nil_append, Nat.zero_add, append_assoc, drop_left' htake]

/-- A new buffer without strings whose elements from `len` on are then default ones. -/
structure Built (t : Traits T) (h h' : Heap T) (b len : Nat) (bare behind : List (Cell T)) :
    Prop where
  here : h'.bufs b = some (overwrite bare len behind)
  new : b = h.nextBuf
  plain : ids bare = ∅
  room : bare.length = t.room bare.length
  keeps : ∀ b < h.nextBuf, h'.bufs b = h.bufs b
  keepsStr : ∀ k < h.nextStr, h'.strs k = h.strs k
  nextStr : h.nextStr ≤ h'.nextStr
  distinct : Distinct behind
  ok : ∀ c ∈ behind, t.ok c
  okBare : ∀ c ∈ bare, t.ok c
  newStr : ∀ k ∈ ids behind, h.nextStr ≤ k ∧ k < h'.nextStr
  look : behind.map (h'.look t) = List.replicate behind.length (some (some t.dflt))
  frame : ∀ B S, Held h B S → Frame h h' B (insert b B) S (S ∪ ids behind)

theorem build_spec (t : Traits T) (h : Heap T) (len : Nat) (hr : t.refuses n = false)
    (hlen : len ≤ n) (hroom : n ≤ t.room n) :
    ∃ h₁ b h₂ bare behind, t.allocbufNoinit h n = (h₁, some b) ∧
      (t.initialized h₁ (n - len)).1.write b len (t.initialized h₁ (n - len)).2 = some h₂ ∧
      Built t h h₂ b len bare behind ∧ behind.length = n - len ∧ bare.length = t.room n := by
  obtain ⟨h₁, b, bare, halloc, hnew, hblen, hids⟩ := allocbufNoinit_spec t h n hr
  obtain ⟨ha, hv⟩ := initialized_spec t h₁ (n - len)
  have hlen' := length_initialized t h₁ (n - len)
  generalize hi : t.initialized h₁ (n - len) = r at ha hv hlen'
  obtain ⟨h₂, behind⟩ := r
  dsimp only at ha hv hlen'
  have hcells : h₂.bufs b = some bare := (congrFun ha.bufs b).trans hnew.here
  have hb := hnew.new
  have hnext := hnew.nextStr
  refine ⟨h₁, b, h₂.setBuf b (overwrite bare len behind), bare, behind, halloc, ?_, ?_, hlen',
    hblen⟩
  · rw [hi]
    dsimp only
    exact write_eq hcells _ _ (by omega)
  · constructor
    · exact put_self
    · exact hb
    · exact hids
    · exact hnew.room
    · intro l hl
      exact (put_frame (by omega)).trans ((congrFun ha.bufs l).trans (hnew.keeps l hl))
    · intro k hk
      exact (ha.keeps k (by omega)).trans (hnew.keepsStr k hk)
    · exact Nat.le_trans hnext ha.nextStr
    · exact ha.distinct
    · exact ha.ok
    · exact hnew.ok
    · intro k hk
      exact ⟨Nat.le_trans hnext (ha.new k hk).1, (ha.new k hk).2.1⟩
    · rw [hlen']
      exact hv
    · intro B S hh
      have hf := hnew.frame B S hh
      have hg := ha.frame hf.held
      refine (hf.trans (hg.trans (setBuf_frame hg.held (.inl rfl) _))).congr rfl ?_
      rw [hids, union_empty]

theorem Built.vacant (hbt : Built t h h' b len bare behind) : ∀ c ∈ behind, t.vacant h' c := by
  intro c hc
  have hmem := mem_map_of_mem (f := h'.look t) hc
  rw [hbt.look] at hmem
  exact .inr (eq_of_mem_replicate hmem)

/-- What is live is numbered below the next. -/
structure Below (h : Heap T) : Prop where
  bufs : ∀ b, h.bufs b ≠ none → b < h.nextBuf
  strs : ∀ k, h.strs k ≠ none → k < h.nextStr

/-- The strings of elements that show something are there. -/
theorem live_of_look {vs : List (Option T)} (hv : cells.map (h.look t) = vs.map some) :
    ∀ k ∈ ids cells, h.strs k ≠ none := by
  intro k hk hnone
  have hmem := mem_map_of_mem (f := h.look t) (mem_ids.mp hk)
  rw [hv] at hmem
  obtain ⟨v, -, hv⟩ := mem_map.mp hmem
  rw [Heap.look, hnone] at hv
  cases hv

/-- A sequence made beside what there was. -/
structure Made (t : Traits T) (h h' : Heap T) (x : Seq) (v : List (Option T)) : Prop where
  shows : Shows t h' x v
  keeps : ∀ b < h.nextBuf, h'.bufs b = h.bufs b
  keepsStr : ∀ k < h.nextStr, h'.strs k = h.strs k
  new : ∀ b ∈ x.bufs, h.nextBuf ≤ b
  newStr : ∀ k ∈ x.strs h', h.nextStr ≤ k
  frame : ∀ B S, Held h B S → Frame h h' B (B ∪ x.bufs) S (S ∪ x.strs h')

/-- A sequence without a buffer of its own. -/
theorem Made.none (hx : Shows t h x v) (hn : x.release = false ∨ x.buffer = none) :
    Made t h h x v where
  shows := hx
  keeps _ _ := rfl
  keepsStr _ _ := rfl
  new b hb := by
    rw [bufs_none hn] at hb
    exact hb.elim
  newStr k hk := by
    rw [strs_none hn] at hk
    exact hk.elim
  frame B S hh := hh.refl.congr (by rw [bufs_none hn, union_empty])
    (by rw [strs_none hn, union_empty])

theorem ids_drop (hids : ids cells = ∅) (n : Nat) : ids (cells.drop n) = ∅ := by
  ext k
  constructor
  · intro hk
    rw [← hids]
    exact mem_of_mem_drop hk
  · exact fun hk => hk.elim

variable {len old : Nat} {co final : List (Cell T)}

theorem Built.assemble (hbt : Built t h h' b len bare behind) (front : List (Cell T))
    (hlen : front.length + behind.length ≤ bare.length) (hok : ∀ c ∈ front, t.ok c)
    (hd : Distinct front) (hapart : ∀ k ∈ ids front, k ∉ ids behind)
    (he : cells = front ++ (behind ++ bare.drop (front.length + behind.length))) :
    ids cells = ids front ∪ ids behind ∧ Distinct cells ∧ (∀ c ∈ cells, t.ok c) ∧
      cells.length = bare.length := by
  have hrest := ids_drop hbt.plain (front.length + behind.length)
  subst he
  refine ⟨?_, ?_, ?_, ?_⟩
  · rw [ids_append, ids_append, hrest, union_empty]
  · refine distinct_append.mpr ⟨hd, distinct_append.mpr ⟨hbt.distinct, distinct_of_ids hrest, ?_⟩,
      ?_⟩
    · rw [hrest]
      exact fun k _ hk => hk
    · rw [ids_append, hrest, union_empty]
      exact hapart
  · intro c hc
    rcases mem_append.mp hc with hc | hc
    · exact hok c hc
    rcases mem_append.mp hc with hc | hc
    · exact hbt.ok c hc
    · exact hbt.okBare c (mem_of_mem_drop hc)
  · rw [length_append, length_append, length_drop]
    omega

theorem copy_spec [DecidableEq T] {y : Seq} (hb : Below h) (hy : Shows t h y v)
    (hr : y.buffer ≠ none → y.maximum ≠ 0 → t.refuses y.maximum = false) (hv : ∀ w ∈ v, t.fits w) :
    ∃ h' x, Seq.copy t h y = some (h', x) ∧ (x.release = true ∨ x.buffer = none) ∧
      Made t h h' x v := by
  unfold Seq.copy
  have hempty : y.length = 0 → v = [] → Shows t h ⟨y.maximum, y.length, none, false⟩ v := by
    intro hl hv
    exact ⟨hy.length_le, hy.maximum_le, fun _ => ⟨hl, hv⟩, nofun⟩
  cases hbuf : y.buffer with
  | none =>
    obtain ⟨hl, hnil⟩ := hy.none hbuf
    exact ⟨h, _, rfl, .inr rfl, .none (hempty hl hnil) (.inl rfl)⟩
  | some src =>
    obtain ⟨cells, hcells, hmax, hok, hlook, -⟩ := hy.some src hbuf
    have hvlen := congrArg length hlook
    have hyl := hy.length_le
    rw [length_map, length_take, length_map] at hvlen
    dsimp only
    by_cases h0 : y.maximum = 0
    · rw [if_pos h0]
      have hl : y.length = 0 := by omega
      have hnil : v = [] := eq_nil_of_length_eq_zero (by omega)
      exact ⟨h, _, rfl, .inr rfl, .none (hempty hl hnil) (.inl rfl)⟩
    · rw [if_neg h0]
      obtain ⟨h₁, b, h₂, bare, behind, halloc, hwrite, hbt, hblen, hnlen⟩ :=
        build_spec t h _ (hr (by rw [hbuf]; nofun) h0) hy.length_le hy.maximum_le
      have hroom := hy.maximum_le
      have hsrc : src < h.nextBuf := hb.bufs src (by rw [hcells]; nofun)
      -- The visible elements of the source are as they were.
      have hcells₂ : h₂.bufs src = some cells := (hbt.keeps src hsrc).trans hcells
      have hread : h₂.bufs.read src 0 y.length = some (cells.take y.length) :=
        read_eq.mpr ⟨cells, hcells₂, by omega, by rw [drop_zero]⟩
      have hlive := live_of_look hlook
      have hlook₂ : (cells.take y.length).map (h₂.look t) = v.map some := by
        rw [map_look_congr fun k hk => hbt.keepsStr k (hb.strs k (hlive k hk)), hlook]
      obtain ⟨h₃, front, hcopy, ha, hlook₃⟩ := copied_spec
        (fun c hc => hok c (mem_of_mem_take hc))
        (fun k hk => Nat.lt_of_lt_of_le (hb.strs k (hlive k hk)) hbt.nextStr) hlook₂ hv
      have hflen := congrArg length hlook₃
      rw [length_map, length_map] at hflen
      have hfront : front.length = y.length := by omega
      have hcells₃ : h₃.bufs b = some (overwrite bare y.length behind) :=
        (congrFun ha.bufs b).trans hbt.here
      have hblen₃ : (overwrite bare y.length behind).length = bare.length :=
        length_overwrite (by omega)
      have hwrite₃ := write_eq hcells₃ 0 front (by omega)
      have hall := overwrite_twice front behind bare (by omega)
      rw [hfront] at hall
      rw [hall] at hwrite₃
      obtain ⟨hids, hdist, hokall, hlen⟩ := hbt.assemble _ (by omega) ha.ok ha.distinct (by
        intro k hk hk'
        have h1 := (ha.new k hk).1
        have h2 := (hbt.newStr k hk').2
        omega) (by rw [hfront])
      generalize hfinal : front ++ (behind ++ bare.drop (y.length + behind.length)) = final at *
      have htake : final.take y.length = front := by
        rw [← hfinal, take_left' hfront]
      refine ⟨h₃.setBuf b final, ⟨y.maximum, y.length, some b, true⟩, ?_, .inl rfl, ?_⟩
      · rw [halloc]
        dsimp only [bind_eq_bind, bind_some]
        rw [hwrite, bind_some, hread, bind_some, hcopy, bind_some]
        rw [hwrite₃]
        rfl
      · have hhere : (h₃.setBuf b final).bufs b = some final := put_self
        have hstrs := strs_owned (x := ⟨y.maximum, y.length, some b, true⟩) rfl rfl hhere
        have hbufs := bufs_owned (x := ⟨y.maximum, y.length, some b, true⟩) rfl rfl
        constructor
        · refine ⟨hyl, hroom, nofun, ?_⟩
          intro l hl
          cases hl
          refine ⟨final, hhere, by dsimp only; omega, hokall, ?_, fun _ => ⟨hdist, ?_, fun c hc => ?_⟩⟩
          · dsimp only
            rw [htake]
            exact hlook₃
          · rw [hlen]
            exact hbt.room
          · dsimp only at hc
            rw [← hfinal, drop_take, drop_left' hfront, take_left' hblen] at hc
            refine (hbt.vacant c hc).congr fun k he => ?_
            exact ha.keeps k (hbt.newStr k (mem_ids.mpr (he ▸ hc))).2
        · intro l hl
          have hne : l ≠ b := by
            have := hbt.new
            omega
          exact (put_frame hne).trans ((congrFun ha.bufs l).trans (hbt.keeps l hl))
        · intro k hk
          exact (ha.keeps k (Nat.lt_of_lt_of_le hk hbt.nextStr)).trans (hbt.keepsStr k hk)
        · intro l hl
          rw [hbufs] at hl
          exact Nat.le_of_eq (hl.trans hbt.new).symm
        · intro k hk
          rw [hstrs, hids] at hk
          rcases hk with hk | hk
          · exact Nat.le_trans hbt.nextStr (ha.new k hk).1
          · exact (hbt.newStr k hk).1
        · intro B S hh
          have hf := hbt.frame B S hh
          have hg := hf.trans (ha.frame hf.held)
          refine (hg.trans (setBuf_frame hg.held (.inl rfl) final)).congr ?_ ?_
          · rw [hbufs, union_singleton]
          · rw [hstrs, hids, union_comm (ids front), union_assoc]

/-! ## `length` -/

theorem copySwapRange_spec (hold : h.bufs old = some co)
    (hnew : h.bufs b = some cells) (hne : old ≠ b) (hl : len ≤ co.length)
    (hl' : len ≤ cells.length) : t.copySwapRange h old b len =
      some ((if t.isString then h.setBuf old (overwrite co 0 (cells.take len)) else h).setBuf b
        (overwrite cells 0 (co.take len))) := by
  have hread : h.bufs.read old 0 len = some (co.take len) :=
    read_eq.mpr ⟨co, hold, by omega, by rw [drop_zero]⟩
  have hread' : h.bufs.read b 0 len = some (cells.take len) :=
    read_eq.mpr ⟨cells, hnew, by omega, by rw [drop_zero]⟩
  have hroom : 0 + (cells.take len).length ≤ co.length := by
    rw [length_take]
    omega
  have hroom' : 0 + (co.take len).length ≤ cells.length := by
    rw [length_take]
    omega
  rw [copySwapRange, hread, bind_some, hread', bind_some]
  by_cases hs : t.isString = true
  · rw [if_pos hs, if_pos hs, write_eq hold _ _ hroom, bind_some]
    exact write_eq ((put_frame hne.symm).trans hnew) _ _ hroom'
  · rw [if_neg hs, if_neg hs, bind_some]
    exact write_eq hnew _ _ hroom'

/-- The old buffer behind the exchanged elements keeps its strings. -/
theorem exchanged (hbare : ids bare = ∅) (hl : len ≤ co.length)
    (hl' : len ≤ bare.length) (hok : ∀ c ∈ co, t.ok c) (hokb : ∀ c ∈ bare, t.ok c)
    (hd : Distinct co) : ids (overwrite co 0 (bare.take len)) = ids (co.drop len) ∧
      Distinct (overwrite co 0 (bare.take len)) ∧
      (∀ c ∈ overwrite co 0 (bare.take len), t.ok c) ∧
      (overwrite co 0 (bare.take len)).length = co.length ∧
      ids co = ids (co.take len) ∪ ids (co.drop len) ∧
      ∀ k ∈ ids (co.take len), k ∉ ids (co.drop len) := by
  have htl : (bare.take len).length = len := by
    rw [length_take]
    omega
  have he : overwrite co 0 (bare.take len) = bare.take len ++ co.drop len := by
    rw [overwrite, take_zero, nil_append, htl, Nat.zero_add]
  have hids : ids (bare.take len) = ∅ := by
    ext k
    constructor
    · intro hk
      rw [← hbare]
      exact mem_of_mem_take hk
    · exact fun hk => hk.elim
  have hsplit : co = co.take len ++ co.drop len := (take_append_drop len co).symm
  have hd' := hd
  rw [hsplit] at hd'
  obtain ⟨-, hdd, hapart⟩ := distinct_append.mp hd'
  refine ⟨?_, ?_, ?_, length_overwrite (by omega), ?_, hapart⟩
  · rw [he, ids_append, hids, empty_union]
  · rw [he]
    refine distinct_append.mpr ⟨distinct_of_ids hids, hdd, ?_⟩
    rw [hids]
    exact fun k hk => hk.elim
  · rw [he]
    intro c hc
    rcases mem_append.mp hc with hc | hc
    · exact hokb c (mem_of_mem_take hc)
    · exact hok c (mem_of_mem_drop hc)
  · rw [← ids_append, ← hsplit]

/-- The new sequence after the exchange, and what is left of the old one. -/
structure Swapped (t : Traits T) (h h' : Heap T) (x : Seq) (b n : Nat) (v : List (Option T)) :
    Prop where
  shows : Shows t h' ⟨n, n, some b, true⟩
    (v ++ List.replicate (n - v.length) (some t.dflt))
  tidy : Tidy t h' x
  new : b ∉ x.bufs
  apart : ∀ k ∈ Seq.strs h' ⟨n, n, some b, true⟩, k ∉ x.strs h'
  frame : ∃ S', Frame h h' x.bufs (insert b x.bufs) (x.strs h) S' ∧
    S' = Seq.strs h' ⟨n, n, some b, true⟩ ∪ x.strs h'

theorem destroy_beside {z : Seq} (hz : z.release = true ∨ z.buffer = none) (hshows : Shows t h' z v)
    (htidy : Tidy t h' x) (hd : t.drops x) (hB : ∀ b ∈ z.bufs, b ∉ x.bufs)
    (hS : ∀ k ∈ z.strs h', k ∉ x.strs h')
    (hf : Frame h h' x.bufs (x.bufs ∪ z.bufs) (x.strs h) (x.strs h' ∪ z.strs h')) :
    ∃ h'', x.destroy t h' = some h'' ∧ Shows t h'' z v ∧
      Frame h h'' x.bufs z.bufs (x.strs h) (z.strs h'') := by
  obtain ⟨h'', heq, hg⟩ := destroy_spec htidy hd hf.held subset_union_left
    subset_union_left
  -- The destructor leaves what the other sequence owns.
  obtain ⟨g, heq', hown⟩ := destroy_spec htidy hd
    (hf.held.mono subset_union_left subset_union_left) subset_rfl subset_rfl
  cases heq.symm.trans heq'
  have hbufs : ∀ b ∈ z.bufs, h''.bufs b = h'.bufs b :=
    fun b hb => hown.bufs.frame b (hB b hb) (hf.held.bufs b (.inr hb)).2
  have hstrs : ∀ k ∈ z.strs h', h''.strs k = h'.strs k :=
    fun k hk => hown.strs.frame k (hS k hk) (hf.held.strs k (.inr hk)).2
  have hmine : ∀ b, z.buffer = some b → z.release = true := by
    intro b hb
    refine hz.resolve_right fun hnone => ?_
    rw [hb] at hnone
    cases hnone
  have hzs : z.strs h'' = z.strs h' := by
    ext k
    constructor
    · rintro ⟨b, cells, hr, hb, hcells, hk⟩
      exact ⟨b, cells, hr, hb, (hbufs b ⟨hr, hb⟩).symm.trans hcells, hk⟩
    · rintro ⟨b, cells, hr, hb, hcells, hk⟩
      exact ⟨b, cells, hr, hb, (hbufs b ⟨hr, hb⟩).trans hcells, hk⟩
  refine ⟨h'', heq, hshows.congr ?_ ?_, (hf.trans hg).congr ?_ ?_⟩
  · exact fun b hb => hbufs b ⟨hmine b hb, hb⟩
  · exact fun b cells hb hcells k hk => hstrs k ⟨b, cells, hmine b hb, hb, hcells, hk⟩
  · ext b
    constructor
    · rintro ⟨hb | hb, hno⟩
      · exact absurd hb hno
      · exact hb
    · exact fun hb => ⟨.inr hb, hB b hb⟩
  · rw [hzs]
    ext k
    constructor
    · rintro ⟨hk | hk, hno⟩
      · exact absurd hk hno
      · exact hk
    · exact fun hk => ⟨.inr hk, hS k hk⟩

/-- The end of the branch of `length` that allocates. -/
theorem Swapped.destroy (hw : Swapped t h h' x b n v) (hd : t.drops x) :
    ∃ h'', x.destroy t h' = some h'' ∧
      Shows t h'' ⟨n, n, some b, true⟩ (v ++ replicate (n - v.length) (some t.dflt)) ∧
      Frame h h'' x.bufs (Seq.bufs ⟨n, n, some b, true⟩) (x.strs h)
        (Seq.strs h'' ⟨n, n, some b, true⟩) := by
  obtain ⟨S', hf, rfl⟩ := hw.frame
  have hbufs : Seq.bufs ⟨n, n, some b, true⟩ = {b} := bufs_owned rfl rfl
  refine destroy_beside (.inl rfl) hw.shows hw.tidy hd ?_ hw.apart (hf.congr ?_ ?_)
  · intro l hl
    rw [hbufs] at hl
    cases hl
    exact hw.new
  · rw [hbufs, union_singleton]
  · exact union_comm ..

theorem Shows.length_eq (hx : Shows t h x v) : v.length = x.length := by
  cases hb : x.buffer with
  | none =>
    obtain ⟨hl, rfl⟩ := hx.none hb
    exact hl.symm
  | some b =>
    obtain ⟨cells, -, hmax, -, hv, -⟩ := hx.some b hb
    have hlen := congrArg length hv
    have hle := hx.length_le
    rw [length_map, length_take, length_map] at hlen
    omega

/-- The new buffer shows the elements in front and default ones behind them. -/
theorem Built.shows {front : List (Cell T)} (hbt : Built t h h' b len bare behind)
    (hn : len + behind.length = n) (hroom : n ≤ t.room n) (hlen : bare.length = t.room n)
    (hfinal : final = front ++ (behind ++ bare.drop (front.length + behind.length)))
    (hfront : front.length = len) (hok : ∀ c ∈ final, t.ok c) (hd : Distinct final)
    (hfl : final.length = bare.length) (hhere : h''.bufs b = some final)
    (hstrs : h''.strs = h'.strs) (hv : front.map (h''.look t) = v.map some) (hvl : v.length = len) :
    Shows t h'' ⟨n, n, some b, true⟩ (v ++ replicate (n - v.length) (some t.dflt)) := by
  refine ⟨Nat.le_refl _, hroom, nofun, ?_⟩
  intro l hl
  cases hl
  refine ⟨final, hhere, by dsimp only; omega, hok, ?_, fun _ => ⟨hd, ?_, fun c hc => ?_⟩⟩
  · have htake : final.take n = front ++ behind := by
      rw [hfinal, ← append_assoc, take_left']
      rw [length_append]
      omega
    have hbehind : behind.map (h''.look t) = replicate (n - v.length) (some (some t.dflt)) := by
      rw [map_look_congr fun k _ => congrFun hstrs k, hbt.look]
      congr 1
      omega
    rw [htake, map_append, hv, hbehind, map_append, map_replicate]
  · rw [hfl]
    exact hbt.room
  · dsimp only at hc
    rw [drop_take, Nat.sub_self, take_zero] at hc
    cases hc

theorem Seq.strs_lt (hh : Held h B (x.strs h)) : ∀ k ∈ x.strs h, k < h.nextStr :=
  fun k hk => (hh.strs k hk).2

theorem swapped_empty (hx : Shows t h x v) (hh : Held h x.bufs (x.strs h))
    (hbt : Built t h h' b 0 bare behind) (hl : x.length = 0) (hn : behind.length = n)
    (hroom : n ≤ t.room n) (hlen : bare.length = t.room n) : Swapped t h h' x b n v := by
  have hvl := hx.length_eq
  have hnil : v = [] := eq_nil_of_length_eq_zero (hvl.trans hl)
  have hall : overwrite bare 0 behind = [] ++ (behind ++ bare.drop (0 + behind.length)) := by
    rw [overwrite, take_zero, nil_append, nil_append]
  obtain ⟨hids, hd, hok, hfl⟩ := hbt.assemble [] (by
    rw [length_nil]
    omega) (fun _ hc => absurd hc not_mem_nil) Pairwise.nil (by simp) hall
  have hstrs : Seq.strs h' ⟨n, n, some b, true⟩ = ids behind := by
    rw [strs_owned rfl rfl hbt.here, hids, ids_nil, empty_union]
  have hbold : ∀ l ∈ x.bufs, h'.bufs l = h.bufs l := fun l hl => hbt.keeps l (hh.bufs l hl).2
  have hsold : x.strs h' = x.strs h := by
    ext k
    constructor
    · rintro ⟨l, cells, hr, hb, hcells, hk⟩
      exact ⟨l, cells, hr, hb, (hbold l ⟨hr, hb⟩).symm.trans hcells, hk⟩
    · rintro ⟨l, cells, hr, hb, hcells, hk⟩
      exact ⟨l, cells, hr, hb, (hbold l ⟨hr, hb⟩).trans hcells, hk⟩
  constructor
  · exact hbt.shows (by omega) hroom hlen hall rfl hok hd hfl hbt.here rfl (by rw [hnil]; rfl)
      (hvl.trans hl)
  · intro hr l hb
    obtain ⟨cells, hcells, hrest⟩ := hx.tidy hr l hb
    exact ⟨cells, (hbold l ⟨hr, hb⟩).trans hcells, hrest⟩
  · intro hmem
    have := (hh.bufs b hmem).2
    have := hbt.new
    omega
  · intro k hk
    rw [hstrs] at hk
    rw [hsold]
    intro hk'
    have h1 := Seq.strs_lt hh k hk'
    have h2 := (hbt.newStr k hk).1
    omega
  · exact ⟨_, hbt.frame _ _ hh, by rw [hstrs, hsold, union_comm]⟩

/-- What is left of the old buffer after the exchange of its first elements. -/
structure Left (t : Traits T) (x : Seq) (co front co' : List (Cell T)) : Prop where
  ids_eq : x.release = true → ids co = ids front ∪ ids co'
  apart : x.release = true → ∀ k ∈ ids front, k ∉ ids co'
  distinct : x.release = true → Distinct co' ∧ Distinct front
  ok : ∀ c ∈ co', t.ok c
  length_eq : co'.length = co.length
  lent : x.release = false → ids front = ∅

theorem swapped_of {co' : List (Cell T)} {h₃ : Heap T} (hb : Below h)
    (hx : Shows t h x v) (hh : Held h x.bufs (x.strs h)) (hbt : Built t h h' b x.length bare behind)
    (hold : x.buffer = some old) (hco : h.bufs old = some co) (hn : x.length + behind.length = n)
    (hroom : n ≤ t.room n) (hlen : bare.length = t.room n)
    (hleft : Left t x co (co.take x.length) co')
    (hfinal : final = co.take x.length ++ (behind ++ bare.drop (x.length + behind.length)))
    (hhere : h₃.bufs b = some final) (hthere : h₃.bufs old = some co') (hstrs : h₃.strs = h'.strs)
    (hf : Held h' (insert b x.bufs) (x.strs h ∪ ids behind) → Frame h' h₃ (insert b x.bufs)
      (insert b x.bufs) (x.strs h ∪ ids behind) (x.strs h ∪ ids behind)) :
    Swapped t h h₃ x b n v := by
  obtain ⟨cells, hcells, hmax, hok, hlook, hown⟩ := hx.some old hold
  cases hco.symm.trans hcells
  have hxl := hx.length_le
  have hfl : (co.take x.length).length = x.length := by
    rw [length_take]
    omega
  have hlive := live_of_look hlook
  have hfrontlt : ∀ k ∈ ids (co.take x.length), k < h.nextStr :=
    fun k hk => hb.strs k (hlive k hk)
  have hfd : Distinct (co.take x.length) := by
    by_cases hr : x.release = true
    · exact (hleft.distinct hr).2
    · exact distinct_of_ids (hleft.lent (eq_false_iff.mpr hr))
  have hall : final = co.take x.length ++
      (behind ++ bare.drop ((co.take x.length).length + behind.length)) := by rwa [hfl]
  obtain ⟨hids, hd, hokf, hfinlen⟩ := hbt.assemble _ (by omega)
    (fun c hc => hok c (mem_of_mem_take hc)) hfd (by
      intro k hk hk'
      have h1 := hfrontlt k hk
      have h2 := (hbt.newStr k hk').1
      omega) hall
  have hnew : Seq.strs h₃ ⟨n, n, some b, true⟩ = ids (co.take x.length) ∪ ids behind := by
    rw [strs_owned rfl rfl hhere, hids]
  constructor
  · refine hbt.shows hn hroom hlen hall hfl hokf hd hfinlen hhere hstrs ?_
      hx.length_eq
    rw [← hlook]
    refine map_look_congr fun k hk => ?_
    exact (congrFun hstrs k).trans (hbt.keepsStr k (hfrontlt k hk))
  · intro hr l hl
    cases hold.symm.trans hl
    refine ⟨co', hthere, hleft.ok, (hleft.distinct hr).1, ?_⟩
    rw [hleft.length_eq]
    exact (hown hr).2.1
  · intro hmem
    have := (hh.bufs b hmem).2
    have := hbt.new
    omega
  · intro k hk hk'
    rw [hnew] at hk
    by_cases hr : x.release = true
    · rw [strs_owned hr hold hthere] at hk'
      rcases hk with hk | hk
      · exact hleft.apart hr k hk hk'
      · have hkold : k ∈ x.strs h := by
          rw [strs_owned hr hold hco, hleft.ids_eq hr]
          exact .inr hk'
        have h1 := Seq.strs_lt hh k hkold
        have h2 := (hbt.newStr k hk).1
        omega
    · rw [strs_none (.inl (eq_false_iff.mpr hr))] at hk'
      exact hk'
  · have hg := hbt.frame _ _ hh
    refine ⟨_, hg.trans (hf hg.held), ?_⟩
    rw [hnew]
    by_cases hr : x.release = true
    · rw [strs_owned hr hold hco, strs_owned hr hold hthere, hleft.ids_eq hr, union_right_comm]
    · have hr' := eq_false_iff.mpr hr
      rw [strs_none (.inl hr'), strs_none (.inl hr'), hleft.lent hr', union_empty]

theorem swapped_some (hb : Below h) (hx : Shows t h x v)
    (hh : Held h x.bufs (x.strs h)) (hbt : Built t h h' b x.length bare behind)
    (hold : x.buffer = some old) (hco : h.bufs old = some co) (hn : x.length + behind.length = n)
    (hroom : n ≤ t.room n) (hlen : bare.length = t.room n)
    (hstring : t.isString = true → x.release = true) :
    ∃ h₃, t.copySwapRange h' old b x.length = some h₃ ∧ Swapped t h h₃ x b n v := by
  obtain ⟨cells, hcells, hmax, hok, hlook, hown⟩ := hx.some old hold
  cases hco.symm.trans hcells
  have hxl := hx.length_le
  have holdlt : old < h.nextBuf := hb.bufs old (by rw [hco]; nofun)
  have hbnew := hbt.new
  have hne : old ≠ b := by omega
  have hco' : h'.bufs old = some co := (hbt.keeps old holdlt).trans hco
  have hfl : (co.take x.length).length = x.length := by
    rw [length_take]
    omega
  have hswap := copySwapRange_spec (t := t) hco' hbt.here hne (by omega : x.length ≤ co.length)
    (by rw [length_overwrite (by omega)]; omega)
  have htake : (overwrite bare x.length behind).take x.length = bare.take x.length :=
    take_overwrite (by omega) (Nat.le_refl _)
  have hall := overwrite_twice (co.take x.length) behind bare (by omega)
  rw [hfl] at hall
  rw [htake, hall] at hswap
  refine ⟨_, hswap, ?_⟩
  by_cases hs : t.isString = true
  · rw [if_pos hs]
    have hr := hstring hs
    obtain ⟨hids, hd, hokl, hlenl, hsplit, hapart⟩ := exchanged hbt.plain
      (by omega : x.length ≤ co.length) (by omega) hok hbt.okBare (hown hr).1
    have hleft : Left t x co (co.take x.length) (overwrite co 0 (bare.take x.length)) := by
      refine ⟨fun _ => by rw [hids]; exact hsplit, fun _ => by rw [hids]; exact hapart,
        fun _ => ⟨hd, (hown hr).1.sublist (take_sublist ..)⟩, hokl, hlenl, ?_⟩
      intro hf
      rw [hr] at hf
      cases hf
    refine swapped_of hb hx hh hbt hold hco hn hroom hlen hleft rfl put_self
      ((put_frame hne).trans put_self) rfl fun hheld => ?_
    have hf := setBuf_frame hheld (.inr ⟨hr, hold⟩ : old ∈ insert b x.bufs)
      (overwrite co 0 (bare.take x.length))
    exact hf.trans (setBuf_frame hf.held (.inl rfl) _)
  · rw [if_neg hs]
    have hval := ids_of_values hok (eq_false_iff.mpr hs)
    have hfront : ids (co.take x.length) = ∅ := by
      ext k
      constructor
      · intro hk
        rw [← hval]
        exact mem_of_mem_take hk
      · exact fun hk => hk.elim
    have hleft : Left t x co (co.take x.length) co := by
      refine ⟨fun _ => by rw [hfront, empty_union], fun _ k hk => ?_,
        fun _ => ⟨distinct_of_ids hval, distinct_of_ids hfront⟩, hok, rfl, fun _ => hfront⟩
      rw [hfront] at hk
      exact hk.elim
    exact swapped_of hb hx hh hbt hold hco hn hroom hlen hleft rfl put_self
      ((put_frame hne).trans hco') rfl fun hheld => setBuf_frame hheld (.inl rfl) _

/-- An operation on a sequence: what it owns and shows afterwards. -/
structure Changes (t : Traits T) (h h' : Heap T) (x x' : Seq) (v : List (Option T)) : Prop where
  shows : Shows t h' x' v
  frame : Frame h h' x.bufs x'.bufs (x.strs h) (x'.strs h')

theorem grow_spec (hb : Below h) (hx : Shows t h x v) (hh : Held h x.bufs (x.strs h))
    (hn : x.maximum < n) (hroom : n ≤ t.room n) (hr : t.refuses n = false) (hd : t.drops x)
    (hstring : t.isString = true → x.release = false → x.length = 0) :
    ∃ h' x', x.grow t h n = some (h', x') ∧ x'.release = true ∧
      Changes t h h' x x' (v ++ replicate (n - v.length) (some t.dflt)) := by
  have hxl := hx.length_le
  obtain ⟨h₁, b, h₂, bare, behind, halloc, hwrite, hbt, hblen, hlen⟩ :=
    build_spec t h x.length hr (by omega) hroom
  have hswap : ∃ h₃, x.moveTo t h₂ b = some h₃ ∧ Swapped t h h₃ x b n v := by
    unfold Seq.moveTo
    by_cases h0 : x.length = 0
    · rw [if_pos h0]
      rw [h0] at hbt hblen
      exact ⟨h₂, rfl, swapped_empty hx hh hbt h0 (by omega) hroom hlen⟩
    · rw [if_neg h0]
      cases hold : x.buffer with
      | none => exact absurd (hx.none hold).1 h0
      | some old =>
        obtain ⟨co, hco, -⟩ := hx.some old hold
        refine swapped_some hb hx hh hbt hold hco (by omega) hroom hlen ?_
        intro hs
        by_contra hrel
        exact h0 (hstring hs (eq_false_iff.mpr hrel))
  obtain ⟨h₃, hcopy, hw⟩ := hswap
  obtain ⟨h₄, hdestroy, hshows, hf⟩ := hw.destroy hd
  refine ⟨h₄, ⟨n, n, some b, true⟩, ?_, rfl, hshows, hf⟩
  unfold Seq.grow
  rw [halloc]
  dsimp only [bind_eq_bind, bind_some]
  rw [hwrite, bind_some]
  rw [hcopy, bind_some, hdestroy]
  rfl

theorem first_spec (hx : Shows t h x []) (hb : x.buffer = none) (hh : Held h x.bufs (x.strs h))
    (hle : n ≤ x.maximum)
    (hn : n = 0 ∨ t.refuses x.maximum = false ∧ (t.isString = true ∨ t.inits = true)) :
    Changes t h (t.allocbuf h x.maximum).1 x ⟨x.maximum, n, (t.allocbuf h x.maximum).2, true⟩
      (replicate n (some t.dflt)) := by
  have hxb := bufs_none (x := x) (.inr hb)
  have hxs := strs_none (x := x) (h := h) (.inr hb)
  rw [hxb, hxs] at hh
  by_cases hr : t.refuses x.maximum = true
  · have h0 : n = 0 := by
      refine hn.resolve_right fun hor => ?_
      rw [hr] at hor
      cases hor.1
    subst h0
    have halloc : t.allocbuf h x.maximum = (h, none) := by rw [allocbuf, if_pos hr]
    rw [halloc]
    refine ⟨⟨Nat.zero_le _, hx.maximum_le, fun _ => ⟨rfl, rfl⟩, nofun⟩, ?_⟩
    rw [hxb, hxs]
    exact hh.refl.congr (bufs_none (.inr rfl)).symm (strs_none (.inr rfl)).symm
  · obtain ⟨h', b, cells, halloc, hnew, hlen, hdflt, hvacant⟩ :=
      allocbuf_spec t h x.maximum (eq_false_iff.mpr hr)
    rw [halloc]
    have hroom := hx.maximum_le
    refine ⟨⟨hle, hx.maximum_le, nofun, ?_⟩, ?_⟩
    · intro l hl
      cases hl
      refine ⟨cells, hnew.here, by dsimp only; omega, hnew.ok, ?_,
        fun _ => ⟨hnew.distinct, hnew.room,
          fun c hc => hvacant c (mem_of_mem_take (mem_of_mem_drop hc))⟩⟩
      rw [map_replicate]
      refine eq_replicate_iff.mpr ⟨?_, ?_⟩
      · rw [length_map, length_take]
        dsimp only
        omega
      · intro o ho
        obtain ⟨d, hd, rfl⟩ := mem_map.mp ho
        rcases hn with rfl | ⟨-, hor⟩
        · rw [take_zero] at hd
          cases hd
        · exact hdflt hor d (mem_of_mem_take hd)
    · rw [hxb, hxs]
      refine (hnew.frame ∅ ∅ hh).congr ?_ ?_
      · rw [bufs_owned rfl rfl, LawfulSingleton.insert_empty_eq]
      · rw [strs_owned rfl rfl hnew.here, empty_union]

/-- The sequence is cut, and what is no longer visible is replaced by default elements. -/
theorem shrink_spec (hx : Shows t h x v) (hh : Held h x.bufs (x.strs h)) (hbuf : x.buffer = some b)
    (hr : x.release = true) (hn : n < x.length) :
    ∃ h₁ h', ((h.bufs.read b n (x.length - n)).bind fun cells => t.releaseRange h cells) =
        some h₁ ∧
      (t.initialized h₁ (x.length - n)).1.write b n (t.initialized h₁ (x.length - n)).2 =
        some h' ∧ Changes t h h' x { x with length := n } (v.take n) := by
  obtain ⟨co, hco, hmax, hok, hlook, hown⟩ := hx.some b hbuf
  obtain ⟨hd, hroom, hvacant⟩ := hown hr
  have hxl := hx.length_le
  have hxs := strs_owned hr hbuf hco
  have hxb := bufs_owned hr hbuf
  -- The elements that stay, those that are replaced, and those behind them.
  generalize hA : co.take n = A
  generalize hM : (co.drop n).take (x.length - n) = M
  generalize hP : (co.drop n).drop (x.length - n) = P
  have hsplit : co = A ++ (M ++ P) := by rw [← hA, ← hM, ← hP, take_append_drop,
    take_append_drop]
  have hAl : A.length = n := by
    rw [← hA, length_take]
    omega
  have hMl : M.length = x.length - n := by
    rw [← hM, length_take, length_drop]
    omega
  have hd' := hd
  rw [hsplit] at hd'
  obtain ⟨hdA, hdMP, hapart⟩ := distinct_append.mp hd'
  obtain ⟨hdM, hdP, hMP⟩ := distinct_append.mp hdMP
  rw [ids_append] at hapart
  have hidsco : ids co = ids A ∪ (ids M ∪ ids P) := by rw [hsplit, ids_append, ids_append]
  have hMS : ids M ⊆ x.strs h := by
    rw [hxs, hidsco]
    exact fun k hk => .inr (.inl hk)
  have hokM : ∀ c ∈ M, t.ok c := by
    intro c hc
    refine hok c ?_
    rw [hsplit]
    exact mem_append_right _ (mem_append_left _ hc)
  obtain ⟨h₁, hrel, hf, hbufs⟩ := releaseRange_spec hokM hdM hh hMS
  obtain ⟨h₁', hrel', hf', -⟩ := releaseRange_spec hokM hdM (hh.mono subset_rfl hMS) subset_rfl
  cases hrel.symm.trans hrel'
  have hread : h.bufs.read b n (x.length - n) = some M :=
    read_eq.mpr ⟨co, hco, by omega, hM.symm⟩
  refine ⟨h₁, ?_⟩
  rw [hread, bind_some]
  obtain ⟨ha, hv⟩ := initialized_spec t h₁ (x.length - n)
  have hds := length_initialized t h₁ (x.length - n)
  generalize t.initialized h₁ (x.length - n) = r at ha hv hds ⊢
  obtain ⟨h₂, ds⟩ := r
  dsimp only at ha hv hds ⊢
  have hco₂ : h₂.bufs b = some co := by rw [ha.bufs, hbufs, hco]
  have hfinal : overwrite co n ds = A ++ (ds ++ P) := by
    rw [overwrite, hA, hds, append_assoc, ← drop_drop, hP]
  refine ⟨h₂.setBuf b (overwrite co n ds), hrel, write_eq hco₂ _ _ (by omega), ?_⟩
  rw [hfinal]
  have hhere : (h₂.setBuf b (A ++ (ds ++ P))).bufs b = some (A ++ (ds ++ P)) := put_self
  have hkept : ∀ k ∈ ids co, k ∉ ids M → h₂.strs k = h.strs k := by
    intro k hk hm
    have hlt := (hh.strs k (by rw [hxs]; exact hk)).2
    refine (ha.keeps k (Nat.lt_of_lt_of_le hlt hf.strs.next_le)).trans ?_
    exact hf'.strs.frame k hm hlt
  have hkeep : ∀ k ∈ ids A, h₂.strs k = h.strs k := fun k hk =>
    hkept k (by rw [hidsco]; exact .inl hk) fun hm => hapart k hk (.inl hm)
  have hnew : ∀ k ∈ ids co, k ∉ ids ds := by
    intro k hk hk'
    have h1 := (hh.strs k (by rw [hxs]; exact hk)).2
    have h2 := (ha.new k hk').1
    have h3 := hf.strs.next_le
    omega
  constructor
  · refine ⟨by dsimp only; omega, hx.maximum_le, ?_, ?_⟩
    · intro hnone
      rw [hbuf] at hnone
      cases hnone
    · intro l hl
      cases hbuf.symm.trans hl
      refine ⟨_, hhere, ?_, ?_, ?_, fun _ => ⟨?_, ?_, fun c hc => ?_⟩⟩
      · rw [length_append, length_append, hds, ← hMl, ← length_append,
          ← length_append, ← hsplit]
        exact hmax
      · intro c hc
        rcases mem_append.mp hc with hc | hc
        · exact hok c (by rw [hsplit]; exact mem_append_left _ hc)
        rcases mem_append.mp hc with hc | hc
        · exact ha.ok c hc
        · refine hok c ?_
          rw [hsplit]
          exact mem_append_right _ (mem_append_right _ hc)
      · dsimp only
        rw [take_left' hAl]
        refine (map_look_congr (h := h) hkeep).trans ?_
        rw [map_take, ← hlook, ← map_take, take_take, Nat.min_eq_left (by omega), hA]
      · refine distinct_append.mpr ⟨hdA, distinct_append.mpr ⟨ha.distinct, hdP, ?_⟩, ?_⟩
        · intro k hk hk'
          refine hnew k ?_ hk
          rw [hidsco]
          exact .inr (.inr hk')
        · rw [ids_append]
          rintro k hk (hk' | hk')
          · refine hnew k ?_ hk'
            rw [hidsco]
            exact .inl hk
          · exact hapart k hk (.inr hk')
      · have hlen : (A ++ (ds ++ P)).length = co.length := by
          rw [hsplit]
          simp only [length_append]
          omega
        rw [hlen]
        exact hroom
      · dsimp only at hc
        rw [drop_take, drop_left' hAl, take_append, hds] at hc
        rcases mem_append.mp hc with hc | hc
        · have hmem := mem_map_of_mem (f := h₂.look t) (mem_of_mem_take hc)
          rw [hv] at hmem
          exact .inr (eq_of_mem_replicate hmem)
        · -- what was behind the visible elements before
          have hbehind : (co.take x.maximum).drop x.length =
              P.take (x.maximum - n - (x.length - n)) := by
            have h1 : n + (x.length - n) = x.length := by omega
            have h2 : x.maximum - n - (x.length - n) = x.maximum - x.length := by omega
            rw [drop_take, ← hP, drop_drop, h1, h2]
          refine (hvacant c (hbehind ▸ hc)).congr fun k he => ?_
          have hk : k ∈ ids P := mem_ids.mpr (he ▸ mem_of_mem_take hc)
          exact hkept k (by rw [hidsco]; exact .inr (.inr hk)) fun hm => hMP k hm hk
  · have hg := ha.frame hf.held
    have hbx : b ∈ x.bufs := by
      rw [hxb]
      rfl
    refine (hf.trans (hg.trans (setBuf_frame hg.held hbx _))).congr rfl ?_
    rw [strs_owned (x := { x with length := n }) hr hbuf hhere, hxs, hidsco, ids_append,
      ids_append]
    ext k
    have hkA := hapart k
    simp only [mem_union, mem_sdiff] at hkA ⊢
    tauto

theorem relength_spec {w : List (Option T)} (hx : Shows t h x v) (hh : Held h x.bufs (x.strs h))
    (hbuf : x.buffer = some b) (hn : n ≤ x.maximum) (hle : x.release = true → x.length ≤ n)
    (hw : ∀ cells, h.bufs b = some cells → (cells.take n).map (h.look t) = w.map some) :
    Changes t h h x { x with length := n } w := by
  constructor
  · refine ⟨hn, hx.maximum_le, ?_, ?_⟩
    · intro hnone
      rw [hbuf] at hnone
      cases hnone
    · intro l hl
      cases hbuf.symm.trans hl
      obtain ⟨cells, hcells, hmax, hok, -, hown⟩ := hx.some b hbuf
      refine ⟨cells, hcells, hmax, hok, hw cells hcells, fun hr => ?_⟩
      obtain ⟨hd, hroom, hvacant⟩ := hown hr
      exact ⟨hd, hroom, fun c hc => hvacant c ((drop_sublist_drop_left _ (hle hr)).subset hc)⟩
  · exact hh.refl

/-- What `length` needs: the elements that become visible in a buffer of the sequence are
initialised, and a buffer that is not the sequence's is left only by a sequence of values
or by an empty one. -/
def LengthOk (t : Traits T) (h : Heap T) (x : Seq) (n : Nat) : Prop :=
  if n ≤ x.maximum then
    (x.buffer = none → n = 0 ∨
      t.refuses x.maximum = false ∧ (t.isString = true ∨ t.inits = true)) ∧
    (x.release = true → ∀ b ∈ x.buffer, ∀ cells ∈ h.bufs b,
      ∀ c ∈ (cells.take n).drop x.length, c ≠ .unset)
  else t.refuses n = false ∧ t.drops x ∧
    (t.isString = true → x.release = false → x.length = 0)

theorem setLength_own (hb : Below h) (hx : Shows t h x v) (hh : Held h x.bufs (x.strs h))
    (hroom : n ≤ t.room n) (hok : LengthOk t h x n)
    (hown : ¬(x.release = false ∧ x.buffer.isSome = true ∧ n ≤ x.maximum)) :
    ∃ h' x', x.setLength t h n = some (h', x') ∧ x'.release = true ∧
      Changes t h h' x x' (v.take n ++ replicate (n - v.length) (some t.dflt)) := by
  have hvl := hx.length_eq
  have hxl := hx.length_le
  unfold Seq.setLength
  unfold LengthOk at hok
  by_cases hn : n ≤ x.maximum
  · rw [if_pos hn] at hok
    rw [if_pos hn]
    cases hbuf : x.buffer with
    | none =>
      obtain ⟨-, rfl⟩ := hx.none hbuf
      have hf := first_spec hx hbuf hh hn (hok.1 hbuf)
      refine ⟨_, _, rfl, rfl, ?_⟩
      rw [take_nil, nil_append, length_nil, Nat.sub_zero]
      exact hf
    | some b =>
      have hr : x.release = true := by
        by_contra hr
        refine hown ⟨eq_false_iff.mpr hr, ?_, hn⟩
        rw [hbuf]
        rfl
      dsimp only
      by_cases hlt : n < x.length
      · rw [if_pos ⟨hlt, hr⟩]
        obtain ⟨h₁, h', hrel, hwrite, hc⟩ := shrink_spec hx hh hbuf hr hlt
        obtain ⟨cells, hread, hrel⟩ := bind_eq_some_iff.mp hrel
        refine ⟨h', { x with length := n }, ?_, hr, ?_⟩
        · dsimp only [bind_eq_bind]
          rw [hread, bind_some, hrel, bind_some, hwrite, ← hbuf]
          rfl
        · have h0 : n - v.length = 0 := by omega
          rw [h0, replicate_zero, append_nil]
          exact hc
      · rw [if_neg (fun hc => hlt hc.1)]
        refine ⟨h, { x with length := n }, by rw [← hbuf], hr,
          relength_spec hx hh hbuf hn (fun _ => by omega) fun cells hcells => ?_⟩
        obtain ⟨co, hco, hmax, -, hlook, hown⟩ := hx.some b hbuf
        cases hcells.symm.trans hco
        have hsplit : cells.take n = cells.take x.length ++ (cells.take n).drop x.length := by
          have he := (take_append_drop x.length (cells.take n)).symm
          rwa [take_take, Nat.min_eq_left (by omega)] at he
        have htail : ((cells.take n).drop x.length).map (h.look t) =
            replicate (n - v.length) (some (some t.dflt)) := by
          refine eq_replicate_iff.mpr ⟨?_, ?_⟩
          · rw [length_map, length_drop, length_take]
            omega
          · intro o ho
            obtain ⟨d, hd, rfl⟩ := mem_map.mp ho
            have hmem : d ∈ (cells.take x.maximum).drop x.length :=
              ((take_sublist_take_left hn).drop x.length).subset hd
            exact ((hown hr).2.2 d hmem).resolve_left (hok.2 hr b hbuf cells hcells d hd)
        rw [hsplit, map_append, hlook, htail, map_append, map_replicate,
          take_of_length_le (by omega)]
  · rw [if_neg hn] at hok
    rw [if_neg hn, take_of_length_le (by omega)]
    exact grow_spec hb hx hh (by omega) hroom hok.1 hok.2.1 hok.2.2

theorem setLength_lent (hr : x.release = false) (hbuf : x.buffer = some b) (hn : n ≤ x.maximum) :
    x.setLength t h n = some (h, { x with length := n }) := by
  rw [Seq.setLength, if_pos hn, hbuf]
  dsimp only
  rw [if_neg]
  rintro ⟨-, ht⟩
  rw [hr] at ht
  cases ht

/-! ## The other operations -/

theorem assign_spec [DecidableEq T] {y : Seq} (hb : Below h) (hx : Tidy t h x)
    (hh : Held h x.bufs (x.strs h)) (hd : t.drops x) (hy : Shows t h y v)
    (hr : y.buffer ≠ none → y.maximum ≠ 0 → t.refuses y.maximum = false) (hv : ∀ w ∈ v, t.fits w) :
    ∃ h' x', x.assign t h y = some (h', x') ∧ (x'.release = true ∨ x'.buffer = none) ∧
      Changes t h h' x x' v := by
  obtain ⟨h₁, z, hcopy, hz, hm⟩ := copy_spec hb hy hr hv
  have hbold : ∀ b ∈ x.bufs, h₁.bufs b = h.bufs b := fun b hb => hm.keeps b (hh.bufs b hb).2
  have hsold : x.strs h₁ = x.strs h := by
    ext k
    constructor
    · rintro ⟨b, cells, hr, hb, hcells, hk⟩
      exact ⟨b, cells, hr, hb, (hbold b ⟨hr, hb⟩).symm.trans hcells, hk⟩
    · rintro ⟨b, cells, hr, hb, hcells, hk⟩
      exact ⟨b, cells, hr, hb, (hbold b ⟨hr, hb⟩).trans hcells, hk⟩
  have htidy : Tidy t h₁ x := by
    intro hr b hb
    obtain ⟨cells, hcells, hrest⟩ := hx hr b hb
    exact ⟨cells, (hbold b ⟨hr, hb⟩).trans hcells, hrest⟩
  have hframe : Frame h h₁ x.bufs (x.bufs ∪ z.bufs) (x.strs h) (x.strs h₁ ∪ z.strs h₁) := by
    rw [hsold]
    exact hm.frame _ _ hh
  obtain ⟨h₂, hdestroy, hshows, hf⟩ := destroy_beside hz hm.shows htidy hd
    (fun b hb hb' => by
      have h1 := hm.new b hb
      have h2 := (hh.bufs b hb').2
      omega)
    (fun k hk hk' => by
      rw [hsold] at hk'
      have h1 := hm.newStr k hk
      have h2 := (hh.strs k hk').2
      omega) hframe
  refine ⟨h₂, z, ?_, hz, hshows, hf⟩
  rw [Seq.assign, hcopy]
  dsimp only [bind_eq_bind, bind_some]
  rw [hdestroy]
  rfl

end Atcd.Sequences
