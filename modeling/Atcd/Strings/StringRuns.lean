import Atcd.Strings.StringBase
/-!
# Strings as values

A string is in one of three states (`Holds`): it shares `NULL_String_`, it has adopted a
caller's buffer, or it owns a block. An operation on one string (`Local`) frees at most
that string's block, writes to blocks only, and leaves the blocks of other strings, the
callers' buffers and `NULL_String_` as they are, provided that it does not write in place
over an adopted buffer.

Results:
- `values`: a run that writes in place only in owned blocks is possible, and in the state
  it reaches every string holds its sequence and nothing but blocks has been written;
- `overwrites_adopted`: a copying `set` writes to the adopted buffer.
-/
namespace Atcd.Strings
open Atcd.Core List Function Option Store Nat Str Bool

variable {σ χ : Type*} {c : CharType χ} {h h' : Heap χ} {x x' : Str} {v : List χ} {b : Bool}
  {s : Option Ptr} {p : Ptr} {k n len slen : Nat}

/-! ## What a string holds -/

/-- The three states of a string that holds `v`, with the terminator if it is a copy. -/
inductive Holds (c : CharType χ) (h : Heap χ) : Str → List χ → Bool → Prop
  | shared (b : Bool) (hnull : h.cells .null = some [some c.nul]) : Holds c h Str.null [] b
  | adopted {i off n : Nat} {v : List χ} {cells : List (Option χ)} (hn : n ≠ 0)
      (hcells : h.cells (.caller i) = some cells) (hin : off + n ≤ cells.length)
      (hlen : v.length ≤ n) (htake : (cells.drop off).take v.length = v.map some) :
      Holds c h ⟨v.length, n, some ⟨.caller i, off⟩, false⟩ v false
  | owned {k : Nat} {v : List χ} {b : Bool} {cells : List (Option χ)}
      (hcells : h.cells (.heap k) = some cells) (hlen : v.length < cells.length)
      (htake : cells.take v.length = v.map some)
      (hnul : b = true → cells[v.length]? = some (some c.nul)) :
      Holds c h ⟨v.length, cells.length, some ⟨.heap k, 0⟩, true⟩ v b

def Str.owns (x : Str) (k : Nat) : Prop := x.release = true ∧ x.rep = some ⟨.heap k, 0⟩

theorem Str.owns_unique {l : Nat} (hk : x.owns k) (hl : x.owns l) : k = l := by
  have he := hk.2.symm.trans hl.2
  cases he
  rfl

theorem Str.not_owns_of_release (hx : x.release = false) : ¬x.owns k := by
  intro ho
  rw [ho.1] at hx
  cases hx

/-- A string that owns a block has room in it. -/
def OwnOk (h : Heap χ) (x : Str) : Prop :=
  x.release = true → ∃ k cells, x = ⟨x.len, cells.length, some ⟨.heap k, 0⟩, true⟩ ∧
    h.cells (.heap k) = some cells ∧ x.len < cells.length

theorem Holds.ownOk (hx : Holds c h x v b) : OwnOk h x := by
  intro hr
  cases hx with
  | shared => cases hr
  | adopted => cases hr
  | @owned k v b cells hcells hlen htake hnul => exact ⟨k, cells, rfl, hcells, hlen⟩

theorem OwnOk.raw : OwnOk h Str.raw := nofun

theorem OwnOk.cells (hx : OwnOk h x) (ho : x.owns k) : ∃ cells, h.cells (.heap k) = some cells ∧
    x = ⟨x.len, cells.length, some ⟨.heap k, 0⟩, true⟩ ∧ x.len < cells.length := by
  obtain ⟨l, cells, he, hcells, hlen⟩ := hx ho.1
  have hlk : l = k := by
    refine owns_unique (x := x) ?_ ho
    rw [he]
    exact ⟨rfl, rfl⟩
  subst hlk
  exact ⟨cells, hcells, he, hlen⟩

theorem Holds.len_eq (hx : Holds c h x v b) : x.len = v.length := by
  cases hx <;> rfl

theorem Holds.read (hx : Holds c h x v b) : ∃ p, x.rep = some p ∧ p.place ≠ .arg ∧
    (∀ k, p.place = .heap k → x.owns k) ∧
    h.cells.read p.place p.off v.length = some (v.map some) := by
  cases hx with
  | shared b hnull =>
    refine ⟨_, rfl, nofun, nofun, ?_⟩
    exact read_eq.mpr ⟨_, hnull, zero_le _, rfl⟩
  | adopted hn hcells hin hlen htake =>
    refine ⟨_, rfl, nofun, nofun, ?_⟩
    exact read_eq.mpr ⟨_, hcells, by dsimp only; omega, htake.symm⟩
  | owned hcells hlen htake hnul =>
    refine ⟨_, rfl, nofun, ?_, ?_⟩
    · intro l hl
      cases hl
      exact ⟨rfl, rfl⟩
    · exact read_eq.mpr ⟨_, hcells, by dsimp only; omega, htake.symm⟩

theorem Holds.congr (hx : Holds c h x v b)
    (hcells : ∀ p, x.rep = some p → h'.cells p.place = h.cells p.place) : Holds c h' x v b := by
  cases hx with
  | shared b hnull => exact .shared b ((hcells _ rfl).trans hnull)
  | adopted hn hc hin hlen htake => exact .adopted hn ((hcells _ rfl).trans hc) hin hlen htake
  | owned hc hlen htake hnul => exact .owned ((hcells _ rfl).trans hc) hlen htake hnul

/-! ## What an operation on one string does to the heap -/

structure Local (h h' : Heap χ) (x x' : Str) : Prop where
  frame : ∀ p, p ≠ .arg → (∀ k, p = .heap k → ¬x.owns k ∧ k < h.next) →
    h'.cells p = h.cells p
  next_le : h.next ≤ h'.next
  live : ∀ k, h'.cells (.heap k) ≠ none →
    x'.owns k ∨ h.cells (.heap k) ≠ none ∧ ¬x.owns k
  owns : ∀ k, x'.owns k → (x.owns k ∨ h.next ≤ k) ∧ k < h'.next
  writes : ∀ p ∈ h'.writes, p ∈ h.writes ∨ p.isHeap = true

theorem Local.refl (h : Heap χ) (hown : ∀ k, x'.owns k → x.owns k ∧ k < h.next)
    (hkeep : ∀ k, x.owns k → x'.owns k) : Local h h x x' where
  frame _ _ _ := rfl
  next_le := Nat.le_refl _
  live k hk := by
    by_cases ho : x.owns k
    · exact .inl (hkeep k ho)
    · exact .inr ⟨hk, ho⟩
  owns k hk := ⟨.inl (hown k hk).1, (hown k hk).2⟩
  writes p hp := .inl hp

variable {cells : List (Option χ)} {cs : List χ}

/-- A write into the block of the string. -/
theorem Local.inPlace (h' : Heap χ) (ho : x.owns k) (ho' : x'.owns k) (hk : k < h.next)
    (hcells : h'.cells = h.cells.put (.heap k) cells) (hnext : h'.next = h.next)
    (hwrites : ∀ p ∈ h'.writes, p ∈ h.writes ∨ p.isHeap = true) : Local h h' x x' where
  frame p _ hp := by
    rw [hcells]
    refine put_frame ?_
    rintro rfl
    exact (hp k rfl).1 ho
  next_le := Nat.le_of_eq hnext.symm
  live l hl := by
    by_cases he : l = k
    · exact .inl (he ▸ ho')
    · refine .inr ⟨?_, fun hol => he (owns_unique hol ho)⟩
      rw [hcells, put_frame (fun hp => he (Place.heap.inj hp))] at hl
      exact hl
  owns l hl := by
    cases owns_unique hl ho'
    exact ⟨.inl ho, by omega⟩
  writes := hwrites

/-- The string gives up its block. -/
structure Dropped (h h' : Heap χ) (x : Str) : Prop where
  frame : ∀ p, (∀ k, p = .heap k → ¬x.owns k) → h'.cells p = h.cells p
  freed : ∀ k, x.owns k → h'.cells (.heap k) = none
  next_eq : h'.next = h.next
  writes_eq : h'.writes = h.writes

theorem freeRep_spec (hx : OwnOk h x) : ∃ h', x.freeRep h = some h' ∧ Dropped h h' x := by
  by_cases hr : x.release = true
  · obtain ⟨k, cells, he, hcells, hlen⟩ := hx hr
    have ho : x.owns k := by
      rw [he]
      exact ⟨rfl, rfl⟩
    have hbuf : x.bufLen ≠ 0 := by
      have hb : x.bufLen = cells.length := by rw [he]
      omega
    refine ⟨{ h with cells := update h.cells (.heap k) none }, ?_, ?_, ?_, rfl, rfl⟩
    · rw [freeRep, if_pos ⟨hbuf, hr⟩, ho.2, bind_some]
      change (h.cells.free (.heap k)).map _ = _
      rw [free_some hcells]
      rfl
    · intro p hp
      refine update_of_ne ?_ _ _
      rintro rfl
      exact hp k rfl ho
    · intro l hl
      cases owns_unique hl ho
      exact update_self ..
  · refine ⟨h, ?_, fun _ _ => rfl, fun k hk => absurd hk.1 hr, rfl, rfl⟩
    rw [freeRep, if_neg (fun hc => hr hc.2)]

theorem Dropped.local (hd : Dropped h h' x) (hx' : x'.release = false) : Local h h' x x' where
  frame p _ hp := hd.frame p fun k hk => (hp k hk).1
  next_le := Nat.le_of_eq hd.next_eq.symm
  live k hk := by
    by_cases ho : x.owns k
    · exact absurd (hd.freed k ho) hk
    · rw [hd.frame _ (fun l hl => by cases hl; exact ho)] at hk
      exact .inr ⟨hk, ho⟩
  owns k hk := absurd hk (not_owns_of_release hx')
  writes p hp := .inl (hd.writes_eq ▸ hp)

/-- The string has a new block in place of the one that it had. -/
structure Moved (h h' : Heap χ) (x : Str) (cells : List (Option χ)) : Prop where
  frame : ∀ p, p ≠ .heap h.next → (∀ k, p = .heap k → ¬x.owns k) → h'.cells p = h.cells p
  freed : ∀ k, k ≠ h.next → x.owns k → h'.cells (.heap k) = none
  new : h'.cells (.heap h.next) = some cells
  next_eq : h'.next = h.next + 1
  writes : ∀ p ∈ h'.writes, p ∈ h.writes ∨ p.isHeap = true

theorem Moved.local (hm : Moved h h' x cells) (hx' : x'.owns h.next) : Local h h' x x' where
  frame p _ hp := by
    refine hm.frame p ?_ fun k hk => (hp k hk).1
    rintro rfl
    exact Nat.lt_irrefl _ (hp _ rfl).2
  next_le := by
    rw [hm.next_eq]
    omega
  live k hk := by
    by_cases he : k = h.next
    · exact .inl (he ▸ hx')
    · by_cases ho : x.owns k
      · exact absurd (hm.freed k he ho) hk
      · rw [hm.frame _ (fun hp => he (Place.heap.inj hp))
          (fun l hl => by cases hl; exact ho)] at hk
        exact .inr ⟨hk, ho⟩
  owns k hk := by
    cases owns_unique hk hx'
    rw [hm.next_eq]
    exact ⟨.inr (Nat.le_refl _), lt_succ_self _⟩
  writes := hm.writes

/-- A further write into the new block. -/
theorem Moved.put (hm : Moved h h' x cells) (cells' : List (Option χ)) (ws : List Place)
    (hws : ∀ p ∈ ws, p ∈ h'.writes ∨ p.isHeap = true) : Moved h { h' with
      cells := h'.cells.put (.heap h.next) cells'
      writes := ws } x cells' where
  frame p hp ho := (put_frame hp).trans (hm.frame p hp ho)
  freed k hk ho := (put_frame fun he => hk (Place.heap.inj he)).trans (hm.freed k hk ho)
  new := put_self
  next_eq := hm.next_eq
  writes p hp := by
    rcases hws p hp with hp | hp
    · exact hm.writes p hp
    · exact .inr hp

theorem OwnOk.congr (hx : OwnOk h x)
    (hcells : ∀ k, x.owns k → h'.cells (.heap k) = h.cells (.heap k)) : OwnOk h' x := by
  intro hr
  obtain ⟨k, cells, he, hc, hlen⟩ := hx hr
  refine ⟨k, cells, he, (hcells k ?_).trans hc, hlen⟩
  rw [he]
  exact ⟨rfl, rfl⟩

def Fresh (h : Heap χ) : Prop := ∀ k, h.next ≤ k → h.cells (.heap k) = none

theorem OwnOk.not_owns_next (hx : OwnOk h x) (hf : Fresh h) : ¬x.owns h.next := by
  intro ho
  obtain ⟨cells, hcells, -⟩ := hx.cells ho
  rw [hf _ (Nat.le_refl _)] at hcells
  cases hcells

/-- There is a new block beside what was there. -/
structure Grown (h h' : Heap χ) (cells : List (Option χ)) : Prop where
  frame : ∀ p, p ≠ .heap h.next → h'.cells p = h.cells p
  new : h'.cells (.heap h.next) = some cells
  next_eq : h'.next = h.next + 1
  writes : ∀ p ∈ h'.writes, p ∈ h.writes ∨ p.isHeap = true

theorem Grown.malloc (h : Heap χ) (n : Nat) : Grown h (h.malloc n).1 (replicate n none) where
  frame _ hp := put_frame hp
  new := put_self
  next_eq := rfl
  writes _ hp := .inl hp

theorem Grown.put (hg : Grown h h' cells) (cells' : List (Option χ)) : Grown h { h' with
      cells := h'.cells.put (.heap h.next) cells'
      writes := .heap h.next :: h'.writes } cells' where
  frame p hp := (put_frame hp).trans (hg.frame p hp)
  new := put_self
  next_eq := hg.next_eq
  writes p hp := by
    rcases mem_cons.mp hp with rfl | hp
    · exact .inr rfl
    · exact hg.writes p hp

theorem Grown.ownOk (hg : Grown h h' cells) (hf : Fresh h) (hx : OwnOk h x) : OwnOk h' x := by
  refine hx.congr fun k ho => hg.frame _ ?_
  intro he
  cases he
  exact hx.not_owns_next hf ho

/-- The old block is released beside the new one. -/
theorem Grown.freeRep (hg : Grown h h' cells) (hf : Fresh h) (hx : OwnOk h x) :
    ∃ h₂, x.freeRep h' = some h₂ ∧ Moved h h₂ x cells := by
  have hnot := hx.not_owns_next hf
  obtain ⟨h₂, hfree, hd⟩ := freeRep_spec (hg.ownOk hf hx)
  refine ⟨h₂, hfree, ?_⟩
  constructor
  · intro p hp ho
    exact (hd.frame p ho).trans (hg.frame p hp)
  · intro k _ ho
    exact hd.freed k ho
  · rw [hd.frame _ (fun k hk => by cases hk; exact hnot)]
    exact hg.new
  · exact hd.next_eq.trans hg.next_eq
  · intro p hp
    exact hg.writes p (hd.writes_eq ▸ hp)

/-! ## The operations on one string -/

def Source (h : Heap χ) (p : Ptr) (cs : List χ) : Prop :=
  h.cells.read p.place p.off cs.length = some (cs.map some)

theorem chars_eq (hs : Source h p cs) : h.chars (some p) cs.length = cs := by
  unfold Source at hs
  simp [Heap.chars, hs]

theorem chars_zero : h.chars s 0 = [] := by
  cases s with
  | none => rfl
  | some p =>
    have hread : ∀ data, h.cells.read p.place p.off 0 = some data → data = [] :=
      fun data hd => eq_nil_of_length_eq_zero (read_length hd)
    unfold Heap.chars
    rw [bind_some]
    cases he : h.cells.read p.place p.off 0 with
    | none => rfl
    | some data =>
      rw [hread data he]
      rfl

theorem source_of_readable (hr : h.readable p n = true) :
    ∃ cs, cs.length = n ∧ Source h p cs := by
  unfold Heap.readable at hr
  split at hr
  next data hd =>
    have hlen := read_length hd
    rw [List.all_eq_true] at hr
    refine ⟨data.filterMap id, ?_⟩
    have hmap : (data.filterMap id).map some = data := by
      clear hd hlen
      induction data with
      | nil => rfl
      | cons d data ih =>
        obtain ⟨e, rfl⟩ := isSome_iff_exists.mp (hr d mem_cons_self)
        rw [filterMap_cons_some (by rfl), map_cons, ih fun y hy => hr y (mem_cons_of_mem _ hy)]
    have hl : (data.filterMap id).length = n := by
      rw [← length_map (f := some), hmap, hlen]
    refine ⟨hl, ?_⟩
    rw [Source, hl, hmap, hd]
  next => cases hr

theorem writes_cons_cons {ws : List Place} :
    ∀ p ∈ Place.heap k :: .heap k :: ws, p ∈ ws ∨ p.isHeap = true := by
  intro q hq
  rcases mem_cons.mp hq with rfl | hq
  · exact .inr rfl
  rcases mem_cons.mp hq with rfl | hq
  · exact .inr rfl
  exact .inl hq

theorem memcpy_spec {d : Option Ptr} {q : Ptr} (off : Nat) (hq : d = some q)
    (hcells : h.cells q.place = some cells) (hs : Source h p cs)
    (hroom : q.off + off + cs.length ≤ cells.length)
    (hapart : q.place = p.place → p.off + cs.length ≤ q.off + off) :
    h.memcpy d off (some p) cs.length = some { h with
      cells := h.cells.put q.place (overwrite cells (q.off + off) (cs.map some))
      writes := q.place :: h.writes } := by
  rw [Heap.memcpy, hq, bind_some, bind_some, hs, bind_some, if_neg,
    Heap.write, bind_some, write_some hcells (by rwa [length_map]), map_some]
  rintro ⟨he, -, hhi⟩
  have := hapart he
  omega

theorem write_spec {q : Ptr} (off : Nat) (data : List (Option χ)) (hq : s = some q)
    (hcells : h.cells q.place = some cells) (hroom : q.off + off + data.length ≤ cells.length) :
    h.write s off data = some { h with
      cells := h.cells.put q.place (overwrite cells (q.off + off) data)
      writes := q.place :: h.writes } := by
  rw [Heap.write, hq, bind_some, write_some hcells hroom, map_some]

/-- A block after the terminator is written behind its characters. -/
theorem terminated (hlen : v.length < cells.length) (htake : cells.take v.length = v.map some) :
    (overwrite cells v.length [some c.nul]).length = cells.length ∧
      (overwrite cells v.length [some c.nul]).take v.length = v.map some ∧
      (overwrite cells v.length [some c.nul])[v.length]? = some (some c.nul) := by
  refine ⟨length_overwrite (by rwa [length_singleton]), ?_, ?_⟩
  · rw [take_overwrite (Nat.le_of_lt hlen) (Nat.le_refl _), htake]
  · rw [getElem?_overwrite (Nat.le_of_lt hlen), if_pos (by simp), Nat.sub_self]
    rfl

theorem copyIn_spec (hq : x.rep = some ⟨.heap k, 0⟩) (hcells : h.cells (.heap k) = some cells)
    (hs : Source h p cs) (hroom : cs.length < cells.length) (hapart : p.place ≠ .heap k) :
    ∃ cells', x.copyIn c h (some p) cs.length = some { h with
        cells := (h.cells.put (.heap k) cells')
        writes := .heap k :: .heap k :: h.writes } ∧
      cells'.length = cells.length ∧ cells'.take cs.length = cs.map some ∧
      cells'[cs.length]? = some (some c.nul) := by
  have hlen : (overwrite cells 0 (cs.map some)).length = cells.length := by
    refine length_overwrite ?_
    rw [length_map]
    omega
  have htake : (overwrite cells 0 (cs.map some)).take cs.length = cs.map some := by
    have he := take_overwrite_end cells (cs.map some) (zero_le cells.length)
    rwa [Nat.zero_add, length_map, take_zero, nil_append] at he
  obtain ⟨h1, h2, h3⟩ := terminated (c := c) (by rw [hlen]; exact hroom) htake
  refine ⟨_, ?_, h1.trans hlen, h2, h3⟩
  rw [copyIn, memcpy_spec 0 hq hcells hs (by dsimp only; omega)
    (fun he => absurd he.symm hapart)]
  dsimp only [bind_eq_bind, bind_some]
  rw [write_spec _ _ hq put_self]
  · dsimp only
    rw [Nat.zero_add, Nat.zero_add]
    congr 2
    exact update_idem ..
  · dsimp only
    rw [Nat.zero_add, Nat.zero_add, hlen]
    exact hroom

/-- The caller's part of a call with a pointer argument. -/
def Argument (h : Heap χ) (x : Str) (s : Option Ptr) (len : Nat) (release : Bool) : Prop :=
  ∀ p, s = some p → len ≠ 0 → h.readable p len = true ∧
    (release = false → p.place.isCaller = true) ∧ ∀ k, x.owns k → p.place ≠ .heap k

theorem source_not_fresh (hf : Fresh h) (hs : Source h p cs) : p.place ≠ .heap h.next := by
  intro he
  obtain ⟨cells, hc, -, -⟩ := read_eq.mp hs
  rw [he, hf h.next (Nat.le_refl _)] at hc
  cases hc

theorem Source.congr (hs : Source h p cs) (hcells : h'.cells p.place = h.cells p.place) :
    Source h' p cs := (read_congr hcells).trans hs

theorem set_null (hx : OwnOk h x) (hnull : h.cells .null = some [some c.nul])
    (hs : s = none ∨ len = 0) (release : Bool) : ∃ h' x', x.set c h s len release = some (h', x') ∧
      Local h h' x x' ∧ Holds c h' x' (h.chars s len) release := by
  obtain ⟨h', hfree, hd⟩ := freeRep_spec hx
  refine ⟨h', null, ?_, hd.local rfl, ?_⟩
  · rw [Str.set, if_neg, if_pos hs, hfree]
    · rfl
    · rintro ⟨hne, hlen, -⟩
      exact hs.elim hne hlen
  · have hv : h.chars s len = [] := by
      rcases hs with rfl | rfl
      · rfl
      · exact chars_zero
    rw [hv]
    exact .shared _ ((hd.frame .null nofun).trans hnull)

theorem set_adopt (hx : OwnOk h x) (hlen : len ≠ 0) (harg : Argument h x (some p) len false) :
    ∃ h' x', x.set c h (some p) len false = some (h', x') ∧
      Local h h' x x' ∧ Holds c h' x' (h.chars (some p) len) false := by
  obtain ⟨hread, hcaller, -⟩ := harg p rfl hlen
  obtain ⟨cs, rfl, hs⟩ := source_of_readable hread
  obtain ⟨h', hfree, hd⟩ := freeRep_spec hx
  refine ⟨h', ⟨cs.length, cs.length, some p, false⟩, ?_, hd.local rfl, ?_⟩
  · rw [Str.set, if_neg (fun hc => Bool.false_ne_true hc.2.2.1), if_neg, if_pos rfl, hfree]
    · rfl
    · rintro (hc | hc)
      · cases hc
      · exact hlen hc
  · rw [chars_eq hs]
    obtain ⟨place, off⟩ := p
    cases place with
    | caller i =>
      obtain ⟨cells, hc, hin, htake⟩ := read_eq.mp hs
      exact .adopted hlen ((hd.frame (.caller i) nofun).trans hc) hin (Nat.le_refl _) htake.symm
    | null => cases hcaller rfl
    | heap k => cases hcaller rfl
    | arg => cases hcaller rfl

theorem set_more (hf : Fresh h) (hx : OwnOk h x) (hlen : len ≠ 0)
    (harg : Argument h x (some p) len true) (hsmall : x.bufLen < len + 1) :
    ∃ h' x', x.set c h (some p) len true = some (h', x') ∧
      Local h h' x x' ∧ Holds c h' x' (h.chars (some p) len) true := by
  obtain ⟨hread, -, hown⟩ := harg p rfl hlen
  obtain ⟨cs, rfl, hs⟩ := source_of_readable hread
  have hne := source_not_fresh hf hs
  obtain ⟨h2, hfree, hm⟩ := (Grown.malloc h (cs.length + 1)).freeRep hf hx
  have hs2 : Source h2 p cs := hs.congr (hm.frame _ hne fun k hk ho => hown k ho hk)
  obtain ⟨cells, hcopy, hclen, htake, hnul⟩ := copyIn_spec (c := c)
    (x := ⟨cs.length, cs.length + 1, some ⟨.heap h.next, 0⟩, true⟩) rfl hm.new hs2
    (by rw [length_replicate]; omega) hne
  rw [length_replicate] at hclen
  have hmoved := hm.put cells (.heap h.next :: .heap h.next :: h2.writes)
    writes_cons_cons
  refine ⟨_, ⟨cs.length, cs.length + 1, some ⟨.heap h.next, 0⟩, true⟩, ?_,
    hmoved.local ⟨rfl, rfl⟩, ?_⟩
  · rw [Str.set, if_pos ⟨nofun, hlen, rfl, hsmall⟩]
    dsimp only [Heap.malloc, bind_eq_bind] at hfree ⊢
    rw [hfree, bind_some, hcopy]
    rfl
  · rw [chars_eq hs, ← hclen]
    exact .owned put_self (by omega) htake fun _ => hnul

open Local

theorem set_room (hx : OwnOk h x) (hk : ∀ k, x.owns k → k < h.next) (hlen : len ≠ 0)
    (harg : Argument h x (some p) len true) (hr : x.release = true) (hroom : len < x.bufLen) :
    ∃ h' x', x.set c h (some p) len true = some (h', x') ∧
      Local h h' x x' ∧ Holds c h' x' (h.chars (some p) len) true := by
  obtain ⟨hread, -, hown⟩ := harg p rfl hlen
  obtain ⟨cs, rfl, hs⟩ := source_of_readable hread
  obtain ⟨k, cells, he, hcells, -⟩ := hx hr
  have ho : x.owns k := by
    rw [he]
    exact ⟨rfl, rfl⟩
  have hb : x.bufLen = cells.length := by rw [he]
  obtain ⟨cells', hcopy, hclen, htake, hnul⟩ := copyIn_spec (c := c) ho.2 hcells hs
    (by omega) (hown k ho)
  refine ⟨_, { x with len := cs.length }, ?_, inPlace { h with
      cells := h.cells.put (.heap k) cells'
      writes := .heap k :: .heap k :: h.writes } ho ⟨hr, ho.2⟩ (hk k ho) rfl rfl
      writes_cons_cons, ?_⟩
  · rw [Str.set, if_neg (fun hc => by have := hc.2.2.2; omega), if_neg,
      if_neg (fun hc => by cases hc), hcopy]
    · rfl
    · rintro (hc | hc)
      · cases hc
      · exact hlen hc
  · rw [chars_eq hs, he]
    rw [← hclen]
    exact .owned put_self (by omega) htake fun _ => hnul

theorem set_spec (hf : Fresh h) (hnull : h.cells .null = some [some c.nul]) (hx : OwnOk h x)
    (hk : ∀ k, x.owns k → k < h.next) {release : Bool} (harg : Argument h x s len release)
    (hmine : release = true → s ≠ none → len ≠ 0 → x.release = true ∨ x.bufLen < len + 1) :
    ∃ h' x', x.set c h s len release = some (h', x') ∧
      Local h h' x x' ∧ Holds c h' x' (h.chars s len) release := by
  by_cases hs : s = none ∨ len = 0
  · exact set_null hx hnull hs release
  · obtain ⟨hne, hlen⟩ := not_or.mp hs
    obtain ⟨p, rfl⟩ := ne_none_iff_exists'.mp hne
    cases release with
    | false => exact set_adopt hx hlen harg
    | true =>
      by_cases hsmall : x.bufLen < len + 1
      · exact set_more hf hx hlen harg hsmall
      · have hr := (hmine rfl hne hlen).resolve_right hsmall
        exact set_room hx hk hlen harg hr (by omega)

theorem appended (cs : List χ) (hlen : v.length + cs.length < cells.length)
    (htake : cells.take v.length = v.map some) :
    (overwrite cells v.length (cs.map some)).length = cells.length ∧
      (overwrite cells v.length (cs.map some)).take (v ++ cs).length = (v ++ cs).map some := by
  refine ⟨length_overwrite (by rw [length_map]; omega), ?_⟩
  have he := take_overwrite_end cells (cs.map some) (by omega : v.length ≤ cells.length)
  rwa [length_map, htake, ← length_append, ← map_append] at he

theorem append_room (hx : Holds c h x v b) (hk : ∀ k, x.owns k → k < h.next) (hs : Source h p cs)
    (hr : x.release = true) (hroom : x.bufLen ≥ x.len + cs.length + 1)
    (hsame : ∀ k, x.owns k → p.place = .heap k → p.off + cs.length ≤ x.len) :
    ∃ h', (h.memcpy x.rep x.len (some p) cs.length).bind
        (fun h => h.write x.rep (x.len + cs.length) [some c.nul]) = some h' ∧
      Local h h' x { x with len := x.len + cs.length } ∧
      Holds c h' { x with len := x.len + cs.length } (v ++ cs) true := by
  cases hx with
  | shared => cases hr
  | adopted => cases hr
  | @owned k v b cells hcells hlen htake hnul =>
    dsimp only at hroom
    obtain ⟨hlen1, htake1⟩ := appended cs (by omega) htake
    obtain ⟨hlen2, htake2, hnul2⟩ := terminated (c := c)
      (by rw [hlen1, length_append]; omega) htake1
    have hcopy := memcpy_spec (d := some ⟨.heap k, 0⟩) v.length rfl hcells hs
      (by dsimp only; omega) (fun he => by
        have := hsame k ⟨rfl, rfl⟩ he.symm
        dsimp only at this ⊢
        omega)
    rw [Nat.zero_add] at hcopy
    rw [hcopy, bind_some]
    have hwrite := write_spec (s := some ⟨.heap k, 0⟩) (v.length + cs.length)
      [some c.nul] (h := { h with
        cells := h.cells.put (.heap k) (overwrite cells v.length (cs.map some))
        writes := .heap k :: h.writes }) rfl put_self
      (by rw [hlen1, length_singleton]; dsimp only; omega)
    rw [Nat.zero_add] at hwrite
    refine ⟨_, hwrite, ?_, ?_⟩
    · refine inPlace _ ⟨rfl, rfl⟩ ⟨rfl, rfl⟩ (hk k ⟨rfl, rfl⟩)
        (update_idem ..) rfl writes_cons_cons
    · rw [← length_append]
      have hh := Holds.owned (c := c) (h := { h with
        cells := put (h.cells.put (.heap k) (overwrite cells v.length (cs.map some)))
          (.heap k) (overwrite (overwrite cells v.length (cs.map some)) (v ++ cs).length
            [some c.nul])
        writes := .heap k :: .heap k :: h.writes }) (b := true) put_self
        (by rw [hlen2, hlen1, length_append]; omega) htake2 fun _ => hnul2
      rw [hlen2, hlen1] at hh
      exact hh

theorem grow_spec (hf : Fresh h) (hx : Holds c h x v b) (hs : Source h p cs) :
    ∃ h' cells, x.grow h (some p) cs.length = some (h', ⟨x.len,
        max (x.len + cs.length + 1) (x.bufLen + x.bufLen / 2), some ⟨.heap h.next, 0⟩, true⟩) ∧
      Moved h h' x cells ∧
      cells.length = max (x.len + cs.length + 1) (x.bufLen + x.bufLen / 2) ∧
      cells.take (v ++ cs).length = (v ++ cs).map some := by
  obtain ⟨q, hq, -, -, hv⟩ := hx.read
  generalize hN : max (x.len + cs.length + 1) (x.bufLen + x.bufLen / 2) = N
  have hroom : v.length + cs.length + 1 ≤ N := by
    rw [← hx.len_eq, ← hN]
    exact Nat.le_max_left ..
  have hg := Grown.malloc h N
  -- The old characters, then those of the argument.
  have hv1 : Source (h.malloc N).1 q v := Source.congr hv (hg.frame _ (source_not_fresh hf hv))
  have hcopy1 := memcpy_spec (d := some ⟨.heap h.next, 0⟩) 0 rfl hg.new hv1
    (by rw [length_replicate]; dsimp only; omega)
    (fun he => absurd he.symm (source_not_fresh hf hv))
  have hg1 := hg.put (overwrite (replicate N none) (0 + 0) (v.map some))
  have hlen1 : (overwrite (replicate N none) (0 + 0) (v.map some)).length = N := by
    rw [length_overwrite, length_replicate]
    rw [length_replicate, length_map]
    omega
  have htake1 : (overwrite (replicate N none) (0 + 0) (v.map some)).take v.length =
      v.map some := by
    have he := take_overwrite_end (replicate N none) (v.map some)
      (zero_le _)
    rwa [Nat.zero_add, length_map, take_zero, nil_append] at he
  have hs1 : Source { (h.malloc N).1 with
      cells := (h.malloc N).1.cells.put (.heap h.next)
        (overwrite (replicate N none) (0 + 0) (v.map some))
      writes := .heap h.next :: (h.malloc N).1.writes } p cs :=
    hs.congr (hg1.frame _ (source_not_fresh hf hs))
  have hcopy2 := memcpy_spec (d := some ⟨.heap h.next, 0⟩) v.length rfl hg1.new hs1
    (by rw [hlen1]; dsimp only; omega) (fun he => absurd he.symm (source_not_fresh hf hs))
  have hg2 := hg1.put (overwrite (overwrite (replicate N none) (0 + 0)
    (v.map some)) (0 + v.length) (cs.map some))
  obtain ⟨h₄, hfree, hm⟩ := hg2.freeRep hf hx.ownOk
  obtain ⟨hlen2, htake2⟩ := appended cs (by omega) htake1
  refine ⟨h₄, _, ?_, hm, ?_, ?_⟩
  · rw [grow, hN, hq, hx.len_eq]
    dsimp only [bind_eq_bind]
    have hmalloc : h.malloc N = ((h.malloc N).1, ⟨.heap h.next, 0⟩) := rfl
    rw [hmalloc]
    rw [hcopy1, bind_some, hcopy2, bind_some, hfree]
    rfl
  · rw [Nat.zero_add v.length, hlen2, hlen1]
  · rw [Nat.zero_add v.length]
    exact htake2

theorem append_spec (hf : Fresh h) (hx : Holds c h x v b) (hk : ∀ k, x.owns k → k < h.next)
    (hcs : cs ≠ []) (hnpos : cs.length ≠ Str.npos) (hs : Source h p cs)
    (hsame : ∀ k, x.owns k → p.place = .heap k → p.off + cs.length ≤ x.len)
    (hmine : x.release = true ∨ x.bufLen < x.len + cs.length + 1) :
    ∃ h' x', x.append c h (some p) cs.length = some (h', x') ∧
      Local h h' x x' ∧ Holds c h' x' (v ++ cs) true := by
  have hpos : cs.length > 0 ∧ cs.length ≠ npos := ⟨length_pos_iff.mpr hcs, hnpos⟩
  by_cases hroom : x.bufLen ≥ x.len + cs.length + 1
  · have hr := hmine.resolve_right (by omega)
    obtain ⟨h', heq, hloc, hh⟩ := append_room hx hk hs hr hroom hsame
    obtain ⟨h₁, hcopy, hwrite⟩ := bind_eq_some_iff.mp heq
    refine ⟨h', _, ?_, hloc, hh⟩
    rw [append, if_pos hpos, if_pos hroom, hcopy]
    dsimp only [map_some, bind_eq_bind, bind_some]
    rw [hwrite]
    rfl
  · obtain ⟨h₁, cells, hgrow, hm, hlen, htake⟩ := grow_spec hf hx hs
    have hroom : (v ++ cs).length < cells.length := by
      rw [hlen, length_append, ← hx.len_eq]
      omega
    obtain ⟨hlen', htake', hnul⟩ := terminated (c := c) hroom htake
    have hwrite := write_spec (s := some ⟨.heap h.next, 0⟩) (x.len + cs.length)
      [some c.nul] rfl hm.new (by
        rw [length_singleton, hx.len_eq, ← length_append]
        dsimp only
        omega)
    have hsum : 0 + (x.len + cs.length) = (v ++ cs).length := by
      rw [Nat.zero_add, hx.len_eq, length_append]
    rw [hsum] at hwrite
    have hm' := hm.put (overwrite cells (v ++ cs).length [some c.nul])
      (.heap h.next :: h₁.writes) (fun p hp => by
        rcases mem_cons.mp hp with rfl | hp
        · exact .inr rfl
        · exact .inl hp)
    refine ⟨_, ⟨x.len + cs.length, max (x.len + cs.length + 1) (x.bufLen + x.bufLen / 2),
      some ⟨.heap h.next, 0⟩, true⟩, ?_, hm'.local ⟨rfl, rfl⟩, ?_⟩
    · rw [append, if_pos hpos, if_neg ‹_›, hgrow]
      dsimp only [bind_eq_bind, bind_some]
      rw [hwrite]
      rfl
    · have hv : x.len + cs.length = (v ++ cs).length := by omega
      rw [← hlen, ← hlen', hv]
      exact .owned put_self (by omega) htake' fun _ => hnul

theorem append_nil (h : Heap χ) (x : Str) (s : Option Ptr) (hs : slen = 0 ∨ slen = Str.npos) :
    x.append c h s slen = some (h, x) := by
  rw [append, if_neg]
  rintro ⟨hpos, hne⟩
  rcases hs with rfl | rfl
  · cases hpos
  · exact hne rfl

theorem room_eq (hsize : 0 < c.size) (hfit : n * c.size < 2 ^ 64) : Str.room c n = n := by
  rw [room, mod_eq_of_lt hfit, Nat.mul_div_cancel n hsize]

theorem emptied (hcells : h.cells (.heap k) = some cells) (hpos : 0 < cells.length) :
    Holds c h ⟨0, cells.length, some ⟨.heap k, 0⟩, true⟩ [] false :=
  .owned (v := []) hcells hpos rfl nofun

/-- The heap after the write to the first cells of a block. -/
def Heap.head (h : Heap χ) (k : Nat) (cells data : List (Option χ)) : Heap χ :=
  { h with
    cells := h.cells.put (.heap k) (overwrite cells (0 + 0) data)
    writes := .heap k :: h.writes }

theorem head_spec (data : List (Option χ)) (hcells : h.cells (.heap k) = some cells)
    (hroom : data.length ≤ cells.length) :
    h.write (some ⟨.heap k, 0⟩) 0 data = some (h.head k cells data) ∧
      (overwrite cells (0 + 0) data).length = cells.length := by
  have hle : 0 + 0 + data.length ≤ cells.length := by omega
  exact ⟨write_spec _ _ rfl hcells hle, length_overwrite hle⟩

theorem emptied_head {data : List (Option χ)} (hroom : data.length ≤ cells.length)
    (hpos : 0 < cells.length) :
    Holds c (h.head k cells data) ⟨0, cells.length, some ⟨.heap k, 0⟩, true⟩ [] false := by
  have hl : (overwrite cells (0 + 0) data).length = cells.length := length_overwrite (by omega)
  rw [← hl] at hpos ⊢
  exact emptied put_self hpos

theorem Local.head {data : List (Option χ)} (hl : Local h h' x x') (ho : x'.owns k) :
    Local h (h'.head k cells data) x x' where
  frame p hp hno := by
    refine (put_frame ?_).trans (hl.frame p hp hno)
    rintro rfl
    have hk := hl.owns k ho
    have hn := hno k rfl
    rcases hk.1 with hk | hk
    · exact hn.1 hk
    · omega
  next_le := hl.next_le
  live l hlive := by
    by_cases he : l = k
    · exact .inl (he ▸ ho)
    · refine hl.live l ?_
      change (h'.cells.put _ _) _ ≠ _ at hlive
      rwa [put_frame (fun hp => he (Place.heap.inj hp))] at hlive
  owns := hl.owns
  writes p hp := by
    rcases mem_cons.mp hp with rfl | hp
    · exact .inr rfl
    · exact hl.writes p hp

/-- `fast_resize` before its write: an empty string that owns a block with room. -/
theorem resized (hx : OwnOk h x) (hk : ∀ k, x.owns k → k < h.next)
    (hsize : 0 < c.size) (hfit : (len + 1) * c.size < 2 ^ 64)
    (hmine : x.release = true ∨ x.bufLen < len + 1) : ∃ h' k cells, x.fastResize c h len =
        (if len > 0 then (h'.write (some ⟨.heap k, 0⟩) 0 [some c.nul]).bind fun h =>
            some (h, ⟨0, cells.length, some ⟨.heap k, 0⟩, true⟩)
          else some (h', ⟨0, cells.length, some ⟨.heap k, 0⟩, true⟩)) ∧
      Local h h' x ⟨0, cells.length, some ⟨.heap k, 0⟩, true⟩ ∧
      h'.cells (.heap k) = some cells ∧ 0 < cells.length := by
  by_cases hsmall : x.bufLen ≤ len
  · have hle : (len + 1) * 1 ≤ (len + 1) * c.size := mul_le_mul_left _ hsize
    have hmod : (len + 1) % 2 ^ 64 = len + 1 := mod_eq_of_lt (by omega)
    obtain ⟨h₀, hfree₀, hd⟩ := freeRep_spec hx
    have hnext := hd.next_eq
    have hm : Moved h (h₀.malloc (len + 1)).1 x (replicate (len + 1) none) := by
      constructor
      · intro p hp ho
        refine (put_frame ?_).trans (hd.frame p ho)
        rwa [hnext]
      · intro k hne ho
        refine (put_frame ?_).trans (hd.freed k ho)
        intro he
        exact hne ((Place.heap.inj he).trans hnext)
      · rw [← hnext]
        exact put_self
      · exact congrArg (· + 1) hnext
      · intro p hp
        exact .inl (hd.writes_eq ▸ hp)
    refine ⟨_, h.next, replicate (len + 1) none, ?_, hm.local ⟨rfl, rfl⟩, hm.new, ?_⟩
    · rw [fastResize, if_pos hsmall, hfree₀, hmod, room_eq hsize hfit]
      dsimp only [bind_eq_bind, bind_some, Heap.malloc]
      rw [hnext, length_replicate]
    · rw [length_replicate]
      omega
  · have hr := hmine.resolve_right (by omega)
    obtain ⟨k, cells, he, hcells, hlen⟩ := hx hr
    have ho : x.owns k := by
      rw [he]
      exact ⟨rfl, rfl⟩
    refine ⟨h, k, cells, ?_, refl h ?_ ?_, hcells, by omega⟩
    · rw [fastResize, if_neg hsmall]
      dsimp only [bind_eq_bind, bind_some]
      rw [he]
    · intro l hl
      cases hl.2
      exact ⟨ho, hk k ho⟩
    · intro l hl
      cases owns_unique hl ho
      exact ⟨rfl, rfl⟩

theorem fastResize_block (hx : OwnOk h x) (hk : ∀ k, x.owns k → k < h.next)
    (hsize : 0 < c.size) (hfit : (len + 1) * c.size < 2 ^ 64)
    (hmine : x.release = true ∨ x.bufLen < len + 1) : ∃ h' k cells, x.fastResize c h len =
        some (h', ⟨0, cells.length, some ⟨.heap k, 0⟩, true⟩) ∧
      Local h h' x ⟨0, cells.length, some ⟨.heap k, 0⟩, true⟩ ∧
      h'.cells (.heap k) = some cells ∧ 0 < cells.length := by
  obtain ⟨h₀, k, cells, heq, hloc, hcells, hpos⟩ := resized hx hk hsize hfit hmine
  by_cases hlen : len > 0
  · obtain ⟨hwrite, hl⟩ := head_spec [some c.nul] hcells hpos
    rw [if_pos hlen, hwrite, bind_some] at heq
    refine ⟨h₀.head k cells [some c.nul], k, overwrite cells (0 + 0) [some c.nul], ?_, ?_,
      put_self, ?_⟩
    · rw [hl]
      exact heq
    · rw [hl]
      exact hloc.head ⟨rfl, rfl⟩
    · omega
  · rw [if_neg hlen] at heq
    exact ⟨h₀, k, cells, heq, hloc, hcells, hpos⟩

theorem fastResize_spec (hx : Holds c h x v b)
    (hk : ∀ k, x.owns k → k < h.next) (hsize : 0 < c.size) (hfit : (len + 1) * c.size < 2 ^ 64)
    (hmine : len ≠ 0 → x.release = true ∨ x.bufLen < len + 1) :
    ∃ h' x', x.fastResize c h len = some (h', x') ∧ Local h h' x x' ∧
      Holds c h' x' [] false := by
  by_cases hm : x.release = true ∨ x.bufLen < len + 1
  · obtain ⟨h', k, cells, heq, hloc, hcells, hpos⟩ := fastResize_block hx.ownOk hk hsize hfit hm
    exact ⟨h', _, heq, hloc, emptied hcells hpos⟩
  · -- An adopted buffer stays where the length is zero.
    obtain ⟨hr, hroom⟩ := not_or.mp hm
    have hlen : len = 0 := by
      by_contra hne
      exact hm (hmine hne)
    subst hlen
    refine ⟨h, { x with len := 0 }, ?_, refl h (fun k ho => absurd ho.1 hr)
      fun k ho => absurd ho.1 hr, ?_⟩
    · rw [fastResize, if_neg (by omega)]
      rfl
    · cases hx with
      | shared => exact absurd Nat.zero_lt_one hroom
      | adopted hn hcells hin hlen htake =>
        exact .adopted (v := []) hn hcells hin (zero_le _) rfl
      | owned => exact absurd rfl hr

theorem resize_spec (hx : OwnOk h x) (hk : ∀ k, x.owns k → k < h.next)
    (hsize : 0 < c.size) (hfit : (len + 1) * c.size < 2 ^ 64)
    (hmine : x.release = true ∨ x.bufLen < len + 1) (ch : χ) :
    ∃ h' x', x.resize c h len ch = some (h', x') ∧ Local h h' x x' ∧ Holds c h' x' [] false := by
  obtain ⟨h₀, k, cells, heq, hloc, hcells, hpos⟩ := fastResize_block hx hk hsize hfit hmine
  have hroom : (replicate cells.length (some (c.fill ch))).length ≤ cells.length :=
    Nat.le_of_eq length_replicate
  obtain ⟨hwrite, -⟩ := head_spec _ hcells hroom
  refine ⟨h₀.head k cells (replicate cells.length (some (c.fill ch))), _, ?_,
    hloc.head ⟨rfl, rfl⟩, emptied_head hroom hpos⟩
  rw [resize, heq]
  dsimp only [bind_eq_bind, bind_some]
  rw [hwrite]
  rfl

theorem fastClear_spec (hx : Holds c h x v b) (hk : ∀ k, x.owns k → k < h.next)
    (hnull : h.cells .null = some [some c.nul]) :
    ∃ h' x', x.fastClear c h = some (h', x') ∧ Local h h' x x' ∧ Holds c h' x' [] false := by
  cases hx with
  | shared =>
    refine ⟨h, null, rfl, refl h ?_ ?_, .shared _ hnull⟩
    · exact fun k ho => absurd ho.1 false_ne_true
    · exact fun k ho => absurd ho.1 false_ne_true
  | adopted =>
    refine ⟨h, null, rfl, refl h ?_ ?_, .shared _ hnull⟩
    · exact fun k ho => absurd ho.1 false_ne_true
    · exact fun k ho => absurd ho.1 false_ne_true
  | @owned k v b cells hcells hlen htake hnul =>
    have hpos : 0 < cells.length := by omega
    obtain ⟨hwrite, -⟩ := head_spec [some c.nul] hcells hpos
    refine ⟨h.head k cells [some c.nul], ⟨0, cells.length, some ⟨.heap k, 0⟩, true⟩, ?_,
      (refl h ?_ ?_).head ⟨rfl, rfl⟩, emptied_head hpos hpos⟩
    · rw [fastClear, if_pos rfl, if_pos nofun]
      rw [hwrite]
      rfl
    · intro l ho
      exact ⟨ho, hk l ho⟩
    · exact fun l ho => ho

theorem clear_spec (hx : Holds c h x v b) (hk : ∀ k, x.owns k → k < h.next)
    (hnull : h.cells .null = some [some c.nul]) (release : Bool) :
    ∃ h' x', x.clear c h release = some (h', x') ∧ Local h h' x x' ∧
      Holds c h' x' [] false := by
  cases release with
  | false => exact fastClear_spec hx hk hnull
  | true =>
    obtain ⟨h', hfree, hd⟩ := freeRep_spec hx.ownOk
    refine ⟨h', null, ?_, hd.local rfl, .shared _ ((hd.frame .null nofun).trans hnull)⟩
    rw [clear, if_pos rfl, hfree]
    rfl

/-! ## Runs -/

/-- What `set` is promised of its argument: characters to read, a caller's buffer to
adopt, and not the buffer that the string owns. -/
def Given (h : Heap χ) (x : Str) (s : Option Ptr) (len : Nat) (release : Bool) : Prop :=
  ∀ p ∈ s, len ≠ 0 → h.readable p len = true ∧ (release = false → p.place.isCaller = true) ∧
    ¬(x.release = true ∧ x.rep.map Ptr.place = some p.place)

/-- What `append` is promised of its argument: characters to read, in the string's own
buffer only those of the string. -/
def GivenTail (h : Heap χ) (x : Str) (s : Option Ptr) (slen : Nat) : Prop :=
  slen ≠ 0 → ∃ p ∈ s, h.readable p slen = true ∧
    (x.release = true → x.rep.map Ptr.place = some p.place → p.off + slen ≤ x.len)

/-- What the callers promise. Names are those of strings that exist, and no string has
`npos` characters. -/
def Legal [DecidableEq χ] (c : CharType χ) (s : State σ χ) : Act σ χ → Prop
  | .construct a => s.strings a = none
  | .constructWith a p len release => s.strings a = none ∧ Given s.heap Str.raw p len release
  | .constructCopy a b => s.strings a = none ∧ (s.strings b).isSome = true
  | .constructRoom a _ _ => s.strings a = none
  | .destroy a => (s.strings a).isSome = true
  | .set a p len release => ∃ x ∈ s.strings a, Given s.heap x p len release
  | .setZ a p release =>
    ∃ x ∈ s.strings a, ∃ len ∈ s.heap.argLen c.nul p, Given s.heap x p len release
  | .assign a b => (s.strings a).isSome = true ∧ (s.strings b).isSome = true
  | .assignZ a p => ∃ x ∈ s.strings a, p ≠ none →
    ∃ len ∈ s.heap.argLen c.nul p, Given s.heap x p len true
  | .append a p slen => ∃ x ∈ s.strings a, slen ≠ Str.npos → GivenTail s.heap x p slen
  | .appendZ a p => ∃ x ∈ s.strings a, ∃ len ∈ s.heap.argLen c.nul p, len ≠ Str.npos ∧
    GivenTail s.heap x p len
  | .plus a b => (s.strings a).isSome = true ∧ ∃ y ∈ s.strings b, y.len ≠ Str.npos
  | .plusChar a _ => (s.strings a).isSome = true
  | .resize a _ _ => (s.strings a).isSome = true
  | .fastResize a _ => (s.strings a).isSome = true
  | .clear a _ => (s.strings a).isSome = true
  | .fastClear a => (s.strings a).isSome = true
  | .swap a b => (s.strings a).isSome = true ∧ (s.strings b).isSome = true

instance (x : Str) (s : Option Ptr) (h : Heap χ) (len : Nat) (release : Bool) :
    Decidable (Given h x s len release) :=
  inferInstanceAs (Decidable (∀ p ∈ s, _))

instance (x : Str) (s : Option Ptr) (h : Heap χ) (slen : Nat) :
    Decidable (GivenTail h x s slen) :=
  inferInstanceAs (Decidable (slen ≠ 0 → ∃ p ∈ s, _))

instance [DecidableEq χ] (s : State σ χ) (a : Act σ χ) : Decidable (Legal c s a) := by
  cases a <;> dsimp only [Legal] <;> infer_instance

def Str.mine (x : Str) (n : Nat) : Prop := x.release = true ∨ x.bufLen < n

/-- The operation writes in place only in a block, and the bytes that `fast_resize` asks
for are counted in 64 bits. -/
def Apart [DecidableEq χ] (c : CharType χ) (s : State σ χ) : Act σ χ → Prop
  | .set a p len true => ∀ x ∈ s.strings a, p ≠ none → len ≠ 0 → x.mine (len + 1)
  | .setZ a p true => ∀ x ∈ s.strings a, ∀ len ∈ s.heap.argLen c.nul p, p ≠ none → len ≠ 0 →
    x.mine (len + 1)
  | .assign a b => a ≠ b → ∀ x ∈ s.strings a, ∀ y ∈ s.strings b, y.len ≠ 0 →
    x.mine (y.len + 1)
  | .assignZ a p => ∀ x ∈ s.strings a, ∀ len ∈ s.heap.argLen c.nul p, p ≠ none → len ≠ 0 →
    x.mine (len + 1)
  | .append a _ slen => ∀ x ∈ s.strings a, slen ≠ 0 → x.mine (x.len + slen + 1)
  | .appendZ a p => ∀ x ∈ s.strings a, ∀ slen ∈ s.heap.argLen c.nul p, slen ≠ 0 →
    x.mine (x.len + slen + 1)
  | .plus a b => ∀ x ∈ s.strings a, ∀ y ∈ s.strings b, y.len ≠ 0 →
    x.mine (x.len + y.len + 1)
  | .plusChar a _ => ∀ x ∈ s.strings a, x.mine (x.len + 1 + 1)
  | .resize a len _ => (len + 1) * c.size < 2 ^ 64 ∧ ∀ x ∈ s.strings a, x.mine (len + 1)
  | .fastResize a len => (len + 1) * c.size < 2 ^ 64 ∧
    ∀ x ∈ s.strings a, len ≠ 0 → x.mine (len + 1)
  | .constructRoom _ len _ => (len + 1) * c.size < 2 ^ 64
  | _ => True

instance (x : Str) (n : Nat) : Decidable (x.mine n) :=
  inferInstanceAs (Decidable (_ ∨ _))

instance [DecidableEq σ] [DecidableEq χ] (s : State σ χ) (a : Act σ χ) :
    Decidable (Apart c s a) := by
  cases a with
  | set a p len release => cases release <;> dsimp only [Apart] <;> infer_instance
  | setZ a p release => cases release <;> dsimp only [Apart] <;> infer_instance
  | _ => dsimp only [Apart]; infer_instance

/-- The invariant. -/
structure Good (c : CharType χ) (callers : Nat → List (Option χ)) (s : State σ χ) : Prop where
  fresh : Fresh s.heap
  null : s.heap.cells .null = some [some c.nul]
  caller : ∀ i, s.heap.cells (.caller i) = some (callers i)
  writes : ∀ p ∈ s.heap.writes, p.isHeap = true
  holds : ∀ a x, s.strings a = some x → Holds c s.heap x (s.value a) (s.copied a)
  distinct : ∀ a b x y k, s.strings a = some x → s.strings b = some y → x.owns k → y.owns k →
    a = b
  live : ∀ k, s.heap.cells (.heap k) ≠ none → ∃ a x, s.strings a = some x ∧ x.owns k

theorem Given.argument {release : Bool} (hgiven : Given h x s len release) :
    Argument h x s len release := by
  intro p hp hlen
  obtain ⟨hread, hcaller, hapart⟩ := hgiven p hp hlen
  refine ⟨hread, hcaller, fun k ho he => hapart ⟨ho.1, ?_⟩⟩
  rw [ho.2, he]
  rfl

theorem readable_of_source (hs : Source h p cs) : h.readable p cs.length = true := by
  rw [Heap.readable, hs, List.all_eq_true]
  intro d hd
  obtain ⟨e, -, rfl⟩ := mem_map.mp hd
  rfl

/-- The characters of one string as the argument of a `set` on another. -/
theorem Holds.argument {y : Str} (hy : Holds c h y v b) (hapart : ∀ k, x.owns k → ¬y.owns k) :
    Argument h x y.rep y.len true ∧ h.chars y.rep y.len = v := by
  obtain ⟨q, hq, -, hqo, hread⟩ := hy.read
  rw [hq, hy.len_eq]
  refine ⟨?_, chars_eq hread⟩
  intro p hp _
  cases hp
  exact ⟨readable_of_source hread, nofun, fun k ho he => hapart k ho (hqo k he)⟩

theorem append_given (hf : Fresh h) (hx : Holds c h x v b) (hk : ∀ k, x.owns k → k < h.next)
    (hgiven : GivenTail h x s slen) (hnpos : slen ≠ Str.npos)
    (hmine : slen ≠ 0 → x.mine (x.len + slen + 1)) :
    ∃ h' x', x.append c h s slen = some (h', x') ∧ Local h h' x x' ∧
      Holds c h' x' (v ++ h.chars s slen) (b || slen != 0) := by
  by_cases hslen : slen = 0
  · subst hslen
    rw [chars_zero, List.append_nil]
    refine ⟨h, x, append_nil h x s (.inl rfl), refl h ?_ fun _ ho => ho, ?_⟩
    · exact fun k ho => ⟨ho, hk k ho⟩
    · rw [bne_self_eq_false, Bool.or_false]
      exact hx
  · obtain ⟨p, hp, hread, hsame⟩ := hgiven hslen
    cases hp
    obtain ⟨cs, rfl, hs⟩ := source_of_readable hread
    rw [chars_eq hs]
    have hflag : (b || cs.length != 0) = true := by simp [hslen]
    rw [hflag]
    refine append_spec hf hx hk ?_ hnpos hs ?_ (hmine hslen)
    · rintro rfl
      exact hslen rfl
    · intro k ho he
      refine hsame ho.1 ?_
      rw [ho.2, he]
      rfl

theorem owns_lt (hf : Fresh h) (hx : OwnOk h x) (ho : x.owns k) : k < h.next := by
  obtain ⟨cells, hcells, -⟩ := hx.cells ho
  by_contra hk
  rw [hf k (by omega)] at hcells
  cases hcells

variable [DecidableEq σ] {st : State σ χ} {callers : Nat → List (Option χ)} {a : σ}

theorem Good.put (hg : Good c callers st) (hown : ∀ k, x.owns k → st.strings a = some x)
    (hsame : ∀ y, st.strings a = some y → y = x) (hl : Local st.heap h' x x')
    (hx' : Holds c h' x' v b) : Good c callers (st.put a (h', x') v b) := by
  have hlt : ∀ b y k, st.strings b = some y → y.owns k → k < st.heap.next :=
    fun b y k hy ho => owns_lt hg.fresh (hg.holds b y hy).ownOk ho
  -- What another string owns is not the changed string's.
  have hother : ∀ b y k, b ≠ a → st.strings b = some y → y.owns k → ¬x.owns k :=
    fun b y k hba hy ho hxo => hba (hg.distinct b a y x k hy (hown k hxo) ho hxo)
  constructor
  · intro k hk
    by_contra hlive
    rcases hl.live k hlive with ho | ⟨hold, -⟩
    · have := (hl.owns k ho).2
      change h'.next ≤ k at hk
      omega
    · have := hl.next_le
      change h'.next ≤ k at hk
      exact hold (hg.fresh k (by omega))
  · exact (hl.frame .null nofun nofun).trans hg.null
  · intro i
    exact (hl.frame (.caller i) nofun nofun).trans (hg.caller i)
  · intro p hp
    rcases hl.writes p hp with hp | hp
    · exact hg.writes p hp
    · exact hp
  · intro b' y hy
    by_cases hba : b' = a
    · subst hba
      cases (update_self (f := st.strings) ..).symm.trans hy
      change Holds c h' x' (update st.value b' v b') (update st.copied b' b b')
      rw [update_self, update_self]
      exact hx'
    · have hy' : st.strings b' = some y := (update_of_ne hba ..).symm.trans hy
      change Holds c h' y (update st.value a v b') (update st.copied a b b')
      rw [update_of_ne hba, update_of_ne hba]
      have hold := hg.holds b' y hy'
      refine hold.congr fun p hp => hl.frame _ ?_ ?_
      · obtain ⟨q, hq, hne, -⟩ := hold.read
        cases hp.symm.trans hq
        exact hne
      · intro k hk
        obtain ⟨q, hq, -, hqo, -⟩ := hold.read
        cases hp.symm.trans hq
        exact ⟨hother b' y k hba hy' (hqo k hk), hlt b' y k hy' (hqo k hk)⟩
  · -- The changed string owns what it owned, or a new block.
    have hnew : ∀ b y k, b ≠ a → st.strings b = some y → y.owns k → ¬x'.owns k := by
      intro b y k hba hy ho hxo
      rcases (hl.owns k hxo).1 with hold | hge
      · exact hother b y k hba hy ho hold
      · have := hlt b y k hy ho
        omega
    intro a₁ a₂ y z k hy hz hyo hzo
    by_cases h1 : a₁ = a
    · by_cases h2 : a₂ = a
      · exact h1.trans h2.symm
      · subst h1
        cases (update_self (f := st.strings) ..).symm.trans hy
        exact absurd hyo (hnew a₂ z k h2 ((update_of_ne h2 ..).symm.trans hz) hzo)
    · have hy' : st.strings a₁ = some y := (update_of_ne h1 ..).symm.trans hy
      by_cases h2 : a₂ = a
      · subst h2
        cases (update_self (f := st.strings) ..).symm.trans hz
        exact absurd hzo (hnew a₁ y k h1 hy' hyo)
      · exact hg.distinct a₁ a₂ y z k hy' ((update_of_ne h2 ..).symm.trans hz) hyo hzo
  · intro k hk
    rcases hl.live k hk with ho | ⟨hold, hno⟩
    · exact ⟨a, x', update_self .., ho⟩
    · obtain ⟨b', y, hy, ho⟩ := hg.live k hold
      by_cases hba : b' = a
      · subst hba
        rw [hsame y hy] at ho
        exact absurd ho hno
      · exact ⟨b', y, (update_of_ne hba ..).trans hy, ho⟩

/-- An operation on a string that exists. -/
theorem Good.change (hg : Good c callers st) (hx : st.strings a = some x)
    {f : Str → Option (Heap χ × Str)} (hf : ∃ h' x', f x = some (h', x') ∧
      Local st.heap h' x x' ∧ Holds c h' x' v b) :
    ∃ t, st.change a f v b = some t ∧ Good c callers t := by
  obtain ⟨h', x', heq, hl, hh⟩ := hf
  refine ⟨_, ?_, hg.put (fun k _ => hx) ?_ hl hh⟩
  · rw [State.change, hx, bind_some, heq, map_some]
  · intro y hy
    exact some.inj (hy.symm.trans hx)

/-- A constructor. -/
theorem Good.create (hg : Good c callers st) (ha : st.strings a = none)
    {r : Option (Heap χ × Str)} (hf : ∃ h' x', r = some (h', x') ∧
      Local st.heap h' Str.raw x' ∧ Holds c h' x' v b) :
    ∃ t, st.create a r v b = some t ∧ Good c callers t := by
  obtain ⟨h', x', heq, hl, hh⟩ := hf
  refine ⟨st.put a (h', x') v b, ?_,
    hg.put (x := raw) (fun k ho => absurd ho.1 false_ne_true) ?_ hl hh⟩
  · rw [State.create, if_pos ha, heq, map_some]
  · intro y hy
    rw [ha] at hy
    cases hy

theorem Good.destroy (hg : Good c callers st) (hx : st.strings a = some x) :
    ∃ h', x.freeRep st.heap = some h' ∧ Good c callers { st with
      heap := h'
      strings := update st.strings a none } := by
  obtain ⟨h', hfree, hd⟩ := freeRep_spec (hg.holds a x hx).ownOk
  have hstr : ∀ b y, update st.strings a none b = some y →
      b ≠ a ∧ st.strings b = some y := by
    intro b y hy
    by_cases hba : b = a
    · subst hba
      rw [update_self] at hy
      cases hy
    · exact ⟨hba, (update_of_ne hba ..).symm.trans hy⟩
  refine ⟨h', hfree, ?_⟩
  constructor
  · intro k hk
    rw [hd.next_eq] at hk
    by_cases ho : x.owns k
    · exact hd.freed k ho
    · exact (hd.frame _ (fun l hl => by cases hl; exact ho)).trans (hg.fresh k hk)
  · exact (hd.frame .null nofun).trans hg.null
  · intro i
    exact (hd.frame (.caller i) nofun).trans (hg.caller i)
  · intro p hp
    exact hg.writes p (hd.writes_eq ▸ hp)
  · intro b y hy
    obtain ⟨hba, hy⟩ := hstr b y hy
    have hold := hg.holds b y hy
    refine hold.congr fun p hp => hd.frame _ fun k hk ho => ?_
    obtain ⟨q, hq, -, hqo, -⟩ := hold.read
    cases hp.symm.trans hq
    exact hba (hg.distinct b a y x k hy hx (hqo k hk) ho)
  · intro a₁ a₂ y z k hy hz
    exact hg.distinct a₁ a₂ y z k (hstr a₁ y hy).2 (hstr a₂ z hz).2
  · intro k hk
    by_cases ho : x.owns k
    · exact absurd (hd.freed k ho) hk
    · have hlive : st.heap.cells (.heap k) ≠ none := by
        rw [← hd.frame _ (fun l hl => by cases hl; exact ho)]
        exact hk
      obtain ⟨b, y, hy, hyo⟩ := hg.live k hlive
      refine ⟨b, y, (update_of_ne ?_ ..).trans hy, hyo⟩
      rintro rfl
      cases hx.symm.trans hy
      exact ho hyo

theorem Good.swap (hg : Good c callers st) {a₂ : σ} {y : Str} (hx : st.strings a = some x)
    (hy : st.strings a₂ = some y) : Good c callers
      ((st.put a (st.heap, y) (st.value a₂) (st.copied a₂)).put a₂ (st.heap, x) (st.value a)
        (st.copied a)) := by
  -- A name has what the exchanged name had.
  have hperm : ∃ e : σ → σ, (∀ b, e (e b) = b) ∧ ∀ b, ∀ t, t = ((st.put a (st.heap, y)
      (st.value a₂) (st.copied a₂)).put a₂ (st.heap, x) (st.value a) (st.copied a)) →
      t.strings b = st.strings (e b) ∧ t.value b = st.value (e b) ∧
        t.copied b = st.copied (e b) := by
    refine ⟨Equiv.swap a a₂, Equiv.swap_apply_self a a₂, ?_⟩
    rintro b t rfl
    rw [Equiv.swap_apply_def]
    dsimp only [State.put]
    by_cases h2 : b = a₂
    · subst h2
      by_cases h1 : b = a
      · subst h1
        simp [hx]
      · simp [h1, hx]
    · by_cases h1 : b = a
      · subst h1
        simp [h2, hy]
      · simp [h1, h2]
  obtain ⟨e, hinv, he⟩ := hperm
  generalize hst : (st.put a (st.heap, y) (st.value a₂) (st.copied a₂)).put a₂ (st.heap, x)
    (st.value a) (st.copied a) = t at he
  have hheap : t.heap = st.heap := by rw [← hst]; rfl
  have hstr : ∀ b, t.strings b = st.strings (e b) := fun b => (he b t rfl).1
  refine ⟨hheap ▸ hg.fresh, hheap ▸ hg.null, hheap ▸ hg.caller, hheap ▸ hg.writes, ?_, ?_, ?_⟩
  · intro b z hz
    rw [hheap, (he b t rfl).2.1, (he b t rfl).2.2]
    exact hg.holds (e b) z ((hstr b).symm.trans hz)
  · intro b₁ b₂ z w k hz hw hzo hwo
    have hee := hg.distinct (e b₁) (e b₂) z w k ((hstr b₁).symm.trans hz)
      ((hstr b₂).symm.trans hw) hzo hwo
    rw [← hinv b₁, ← hinv b₂, hee]
  · intro k hk
    rw [hheap] at hk
    obtain ⟨b, z, hz, hzo⟩ := hg.live k hk
    exact ⟨e b, z, by rw [hstr, hinv, hz], hzo⟩

omit [DecidableEq σ] in
theorem Good.owns_lt (hg : Good c callers st) (hx : st.strings a = some x) (k : Nat)
    (ho : x.owns k) : k < st.heap.next := Strings.owns_lt hg.fresh (hg.holds a x hx).ownOk ho

/-- `set` on a string that exists. -/
theorem Good.set (hg : Good c callers st) (hx : st.strings a = some x) {release : Bool}
    (harg : Argument st.heap x s len release)
    (hmine : release = true → s ≠ none → len ≠ 0 → x.mine (len + 1)) :
    ∃ t, st.change a (·.set c st.heap s len release) (st.heap.chars s len) release = some t ∧
      Good c callers t :=
  hg.change hx (set_spec hg.fresh hg.null (hg.holds a x hx).ownOk (hg.owns_lt hx) harg hmine)

/-- The buffer of a string that is not there yet is always too small. -/
theorem Good.setRaw (hg : Good c callers st) (ha : st.strings a = none) {release : Bool}
    (harg : Argument st.heap Str.raw s len release) :
    ∃ t, st.create a (Str.raw.set c st.heap s len release) (st.heap.chars s len) release =
      some t ∧ Good c callers t :=
  hg.create ha (set_spec hg.fresh hg.null OwnOk.raw (fun _ ho => absurd ho.1 false_ne_true)
    harg fun _ _ _ => .inr (succ_pos len))

/-- The same with a null-terminated argument. -/
theorem Good.setZ [DecidableEq χ] (hg : Good c callers st) (hx : st.strings a = some x)
    {release : Bool} (hlen : st.heap.argLen c.nul s = some len)
    (harg : Argument st.heap x s len release)
    (hmine : release = true → s ≠ none → len ≠ 0 → x.mine (len + 1)) :
    ∃ t, st.change a (·.setZ c st.heap s release) (st.charsZ c s) release = some t ∧
      Good c callers t := by
  have hv : st.charsZ c s = st.heap.chars s len := by rw [State.charsZ, hlen, getD_some]
  rw [hv]
  refine hg.change hx ?_
  dsimp only [Str.setZ]
  rw [hlen, bind_some]
  exact set_spec hg.fresh hg.null (hg.holds a x hx).ownOk (hg.owns_lt hx) harg hmine

theorem Good.plus (hg : Good c callers st) {a₂ : σ} {y : Str} (hx : st.strings a = some x)
    (hy : st.strings a₂ = some y) (hnpos : y.len ≠ Str.npos)
    (hmine : y.len ≠ 0 → x.mine (x.len + y.len + 1)) :
    ∃ t, st.change a (·.append c st.heap y.rep y.len) (st.value a ++ st.value a₂)
      (st.copied a || y.len != 0) = some t ∧ Good c callers t := by
  have hhy := hg.holds a₂ y hy
  obtain ⟨q, hq, -, hqo, hread⟩ := hhy.read
  have hv : st.heap.chars y.rep y.len = st.value a₂ := by
    rw [hq, hhy.len_eq]
    exact chars_eq hread
  rw [← hv]
  refine hg.change hx (append_given hg.fresh (hg.holds a x hx) (hg.owns_lt hx) ?_ hnpos hmine)
  intro _
  refine ⟨q, hq, ?_, ?_⟩
  · rw [hhy.len_eq]
    exact readable_of_source hread
  · intro hr hplace
    obtain ⟨k, cells, he, -, -⟩ := (hg.holds a x hx).ownOk hr
    have ho : x.owns k := by
      rw [he]
      exact ⟨rfl, rfl⟩
    rw [ho.2] at hplace
    have hqk : q.place = .heap k := (some.inj hplace).symm
    have ha := hg.distinct a a₂ x y k hx hy ho (hqo k hqk)
    subst ha
    cases hx.symm.trans hy
    cases hq.symm.trans ho.2
    exact Nat.le_of_eq (Nat.zero_add _)

omit [DecidableEq σ] in
theorem Good.arg (hg : Good c callers st) (cells : List (Option χ)) :
    Good c callers { st with heap := { st.heap with cells := st.heap.cells.put .arg cells } } := by
  have hframe : ∀ p, p ≠ .arg → st.heap.cells.put .arg cells p = st.heap.cells p :=
    fun p hp => put_frame hp
  refine ⟨?_, ?_, ?_, hg.writes, ?_, hg.distinct, ?_⟩
  · intro k hk
    exact (hframe (.heap k) nofun).trans (hg.fresh k hk)
  · exact (hframe .null nofun).trans hg.null
  · intro i
    exact (hframe (.caller i) nofun).trans (hg.caller i)
  · intro b x hx
    have hold := hg.holds b x hx
    refine hold.congr fun p hp => hframe _ ?_
    obtain ⟨q, hq, hne, -⟩ := hold.read
    cases hp.symm.trans hq
    exact hne
  · intro k hk
    refine hg.live k ?_
    exact hk

theorem Good.plusChar (hg : Good c callers st) (hx : st.strings a = some x) (ch : χ)
    (hmine : x.mine (x.len + 1 + 1)) :
    ∃ t, st.change a (·.appendChar c st.heap ch) (st.value a ++ [ch]) true = some t ∧
      Good c callers t := by
  have hg' := hg.arg [some ch]
  have hput : st.heap.cells.put .arg [some ch] .arg = some [some ch] := put_self
  have hs : Source { st.heap with cells := st.heap.cells.put .arg [some ch] } ⟨.arg, 0⟩ [ch] :=
    read_eq.mpr ⟨[some ch], hput, Nat.le_refl _, rfl⟩
  have hone : [ch].length ≠ npos := by
    rw [length_singleton]
    decide
  exact hg'.change hx (append_spec hg'.fresh (hg'.holds a x hx) (hg'.owns_lt hx)
    (cons_ne_nil ch []) hone hs (fun k _ he => by cases he) hmine)

/-- **Step lemma.** -/
theorem good_step [DecidableEq χ] (hsize : 0 < c.size) (hg : Good c callers st) {act : Act σ χ}
    (hl : Legal c st act) (hap : Apart c st act) :
    ∃ t, step c st act = some t ∧ Good c callers t := by
  have hraw : ∀ k, raw.owns k → k < st.heap.next := fun _ ho => absurd ho.1 false_ne_true
  cases act with
  | construct a =>
    refine hg.create hl ⟨st.heap, null, rfl, refl _ ?_ ?_, .shared _ hg.null⟩
    · exact fun k ho => absurd ho.1 false_ne_true
    · exact fun k ho => absurd ho.1 false_ne_true
  | constructWith a p len release => exact hg.setRaw hl.1 hl.2.argument
  | constructCopy a a₂ =>
    obtain ⟨y, hy⟩ := isSome_iff_exists.mp hl.2
    obtain ⟨harg, hv⟩ := (hg.holds a₂ y hy).argument
      (x := raw) fun _ ho => absurd ho.1 false_ne_true
    have hset := hg.setRaw hl.1 harg
    rw [hv] at hset
    rw [step, hy, bind_some]
    exact hset
  | constructRoom a len ch =>
    exact hg.create hl (resize_spec OwnOk.raw hraw hsize hap (.inr (succ_pos len)) ch)
  | destroy a =>
    obtain ⟨x, hx⟩ := isSome_iff_exists.mp hl
    obtain ⟨h', hfree, hgood⟩ := hg.destroy hx
    refine ⟨_, ?_, hgood⟩
    rw [step, hx, bind_some, hfree, map_some]
  | set a p len release =>
    obtain ⟨x, hx, hgiven⟩ := hl
    refine hg.set hx hgiven.argument ?_
    rintro rfl
    exact hap x hx
  | setZ a p release =>
    obtain ⟨x, hx, len, hlen, hgiven⟩ := hl
    refine hg.setZ hx hlen hgiven.argument ?_
    rintro rfl
    exact hap x hx len hlen
  | assign a a₂ =>
    obtain ⟨x, hx⟩ := isSome_iff_exists.mp hl.1
    obtain ⟨y, hy⟩ := isSome_iff_exists.mp hl.2
    rw [step, hy, bind_some]
    by_cases ha : a = a₂
    · rw [if_pos ha]
      exact ⟨st, rfl, hg⟩
    · rw [if_neg ha]
      obtain ⟨harg, hv⟩ := (hg.holds a₂ y hy).argument
        (x := x) fun k ho hyo => ha (hg.distinct a a₂ x y k hx hy ho hyo)
      rw [← hv]
      exact hg.set hx harg fun _ _ => hap ha x hx y hy
  | assignZ a p =>
    obtain ⟨x, hx, hsome⟩ := hl
    rw [step]
    by_cases hp : p = none
    · rw [if_pos hp]
      exact ⟨st, rfl, hg⟩
    · rw [if_neg hp]
      obtain ⟨len, hlen, hgiven⟩ := hsome hp
      exact hg.setZ hx hlen hgiven.argument fun _ => hap x hx len hlen
  | append a p slen =>
    obtain ⟨x, hx, hgiven⟩ := hl
    rw [step]
    by_cases hnpos : slen = npos
    · have hflag : (st.copied a || slen != npos && slen != 0) = st.copied a := by
        simp [hnpos]
      rw [if_pos hnpos, hflag]
      refine hg.change hx ⟨st.heap, x, append_nil _ x p (.inr hnpos), refl _ ?_ ?_,
        hg.holds a x hx⟩
      · exact fun k ho => ⟨ho, hg.owns_lt hx k ho⟩
      · exact fun _ ho => ho
    · have hflag : (slen != npos && slen != 0) = (slen != 0) := by simp [hnpos]
      rw [if_neg hnpos, hflag]
      exact hg.change hx (append_given hg.fresh (hg.holds a x hx) (hg.owns_lt hx) (hgiven hnpos)
        hnpos (hap x hx))
  | appendZ a p =>
    obtain ⟨x, hx, len, hlen, hnpos, hgiven⟩ := hl
    have hv : st.charsZ c p = st.heap.chars p len := by
      rw [State.charsZ, hlen, getD_some]
    rw [step, hv, hlen, getD_some]
    refine hg.change hx ?_
    dsimp only [appendZ]
    rw [hlen, bind_some]
    exact append_given hg.fresh (hg.holds a x hx) (hg.owns_lt hx) hgiven hnpos
      (hap x hx len hlen)
  | plus a a₂ =>
    obtain ⟨x, hx⟩ := isSome_iff_exists.mp hl.1
    obtain ⟨y, hy, hnpos⟩ := hl.2
    rw [step, hy, bind_some]
    exact hg.plus hx hy hnpos (hap x hx y hy)
  | plusChar a ch =>
    obtain ⟨x, hx⟩ := isSome_iff_exists.mp hl
    exact hg.plusChar hx ch (hap x hx)
  | resize a len ch =>
    obtain ⟨x, hx⟩ := isSome_iff_exists.mp hl
    exact hg.change hx (resize_spec (hg.holds a x hx).ownOk (hg.owns_lt hx) hsize hap.1
      (hap.2 x hx) ch)
  | fastResize a len =>
    obtain ⟨x, hx⟩ := isSome_iff_exists.mp hl
    exact hg.change hx (fastResize_spec (hg.holds a x hx) (hg.owns_lt hx) hsize hap.1
      (hap.2 x hx))
  | clear a release =>
    obtain ⟨x, hx⟩ := isSome_iff_exists.mp hl
    exact hg.change hx (clear_spec (hg.holds a x hx) (hg.owns_lt hx) hg.null release)
  | fastClear a =>
    obtain ⟨x, hx⟩ := isSome_iff_exists.mp hl
    exact hg.change hx (fastClear_spec (hg.holds a x hx) (hg.owns_lt hx) hg.null)
  | swap a a₂ =>
    obtain ⟨x, hx⟩ := isSome_iff_exists.mp hl.1
    obtain ⟨y, hy⟩ := isSome_iff_exists.mp hl.2
    refine ⟨_, ?_, hg.swap hx hy⟩
    rw [step, hx, bind_some, hy, bind_some]

omit [DecidableEq σ] in
theorem good_init (c : CharType χ) (callers : Nat → List (Option χ)) :
    Good c callers (init c callers : State σ χ) :=
  ⟨fun _ _ => rfl, rfl, fun _ => rfl, nofun, nofun, nofun, fun _ hk => absurd rfl hk⟩

/-- What is said of the strings: each holds its sequence, an owned buffer has room, a copy
is terminated, and only blocks have been written, so that `NULL_String_` and the callers'
buffers are as they were. -/
structure Values (c : CharType χ) (callers : Nat → List (Option χ)) (s : State σ χ) : Prop where
  value : ∀ a x, s.strings a = some x → x.len = (s.value a).length ∧
    ∃ p, x.rep = some p ∧ s.heap.cells.read p.place p.off x.len = some ((s.value a).map some)
  room : ∀ a x, s.strings a = some x → x.release = true → x.len < x.bufLen
  terminated : ∀ a x, s.strings a = some x → s.copied a = true →
    ∃ p, x.rep = some p ∧ s.heap.cells.read p.place (p.off + x.len) 1 = some [some c.nul]
  writes : ∀ p ∈ s.heap.writes, p.isHeap = true
  null : s.heap.cells .null = some [some c.nul]
  caller : ∀ i, s.heap.cells (.caller i) = some (callers i)

omit [DecidableEq σ] in
theorem Good.keeps (hg : Good c callers st) : Values c callers st := by
  refine ⟨?_, ?_, ?_, hg.writes, hg.null, hg.caller⟩
  · intro a x hx
    have hh := hg.holds a x hx
    obtain ⟨p, hp, -, -, hread⟩ := hh.read
    refine ⟨hh.len_eq, p, hp, ?_⟩
    rw [hh.len_eq]
    exact hread
  · intro a x hx hr
    obtain ⟨k, cells, he, -, hlen⟩ := (hg.holds a x hx).ownOk hr
    rw [he]
    exact hlen
  · intro a x hx hc
    have hh := hg.holds a x hx
    rw [hc] at hh
    generalize st.value a = v at hh
    cases hh with
    | shared _ hnull => exact ⟨_, rfl, read_eq.mpr ⟨_, hnull, Nat.le_refl _, rfl⟩⟩
    | @owned k v b cells hcells hlen htake hnul =>
      refine ⟨_, rfl, read_eq.mpr ⟨cells, hcells, ?_, ?_⟩⟩
      · dsimp only
        omega
      · have hget := hnul rfl
        rw [getElem?_eq_some_iff] at hget
        obtain ⟨hlt, hget⟩ := hget
        rw [Nat.zero_add, drop_eq_getElem_cons hlt, hget]
        rfl

/-- A run in which every operation that does not allocate writes in place only in a block
of its own string is possible, and leaves all strings with their values. -/
theorem values [DecidableEq χ] (c : CharType χ) (hsize : 0 < c.size)
    (callers : Nat → List (Option χ)) (acts : List (Act σ χ))
    (hacts : AllSteps (step c) (fun s a => Legal c s a ∧ Apart c s a) (init c callers) acts) :
    ∃ s, run (step c) (init c callers) acts = some s ∧ Values c callers s := by
  have hstep : ∀ (s : State σ χ) (a : Act σ χ), Good c callers s → Legal c s a ∧ Apart c s a →
      ∃ t, step c s a = some t ∧ Good c callers t :=
    fun s a hg hl => good_step hsize hg hl.1 hl.2
  obtain ⟨s, hrun, hg⟩ := run_total_of hstep (good_init c callers) hacts
  exact ⟨s, hrun, hg.keeps⟩

/-- Characters as numbers, in a program with two buffers. -/
def asciiChars : CharType Nat := ⟨0, 1, id⟩

def twoBuffers : Nat → List (Option Nat)
  | 0 => [some 1, some 2, some 3, some 4, some 0]
  | _ => [some 7, some 8, some 0]

/-- A buffer is adopted, and its string is appended to itself, copied and exchanged. -/
def adoptAppend : List (Act Nat Nat) :=
  [.construct 0, .setZ 0 (some ⟨.caller 0, 0⟩) false, .plus 0 0, .plusChar 0 9,
    .constructCopy 1 0, .set 1 (some ⟨.caller 1, 0⟩) 2 true, .swap 0 1, .fastResize 1 3]

theorem values_adoptAppend : ∃ s, run (step asciiChars) (init asciiChars twoBuffers) adoptAppend =
    some s ∧ Values asciiChars twoBuffers s :=
  values asciiChars (by decide) twoBuffers adoptAppend (by decide +kernel)

/-- The adopted buffer has four characters, and `set` is then given two to copy. -/
def adoptSet : List (Act Nat Nat) :=
  [.construct 0, .set 0 (some ⟨.caller 0, 0⟩) 4 false, .set 0 (some ⟨.caller 1, 0⟩) 2 true]

/-- `set` with `release == true` copies into the adopted buffer. -/
theorem overwrites_adopted : ¬∀ (callers : Nat → List (Option Nat)) (acts : List (Act Nat Nat))
    (s : State Nat Nat),
    AllSteps (step asciiChars) (Legal asciiChars) (init asciiChars callers) acts →
      run (step asciiChars) (init asciiChars callers) acts = some s →
      Values asciiChars callers s := by
  intro hall
  have hex : ∃ s, run (step asciiChars) (init asciiChars twoBuffers) adoptSet = some s ∧
      s.heap.writes.all Place.isHeap = false := ⟨_, rfl, rfl⟩
  obtain ⟨s, hrun, hwrites⟩ := hex
  have hvals := hall twoBuffers _ s (by decide_cbv) hrun
  rw [all_eq_true.mpr hvals.writes] at hwrites
  cases hwrites

end Atcd.Strings
