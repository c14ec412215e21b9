import Atcd.Malloc.Malloc
import Atcd.Core.SortedRing
import Atcd.Core.Tiling
/-!
# The allocator never hands out overlapping memory

The free blocks are a sorted ring with the dummy header in it, and free and allocated blocks
tile the chunks. Putting a block into the list is a link and at most two merges.

Results:
- `malloc_keeps`: as long as no request comes near the end of `size_t`, every call returns,
  the ring, the tiling and the room of the blocks are kept, and a request that fails leaves
  the list as it was;
- `freed_whole`: when everything has been freed, no free block has memory of the pool beside it;
- `no_room`: the largest request gets a block without room.
-/
namespace Atcd.Malloc
open Atcd.Core List Function Option Finset Nat State Heap

variable {lay : Layout} {h h' : Heap} {lo base b c currp blockp n : Nat} {S : Finset Nat}
  {A R E : Set Nat}

/-- The list is the ring of `S`, and the blocks of `A` are allocated. Blocks of `E` may touch
their successors. -/
structure Valid (lay : Layout) (h : Heap) (lo base : Nat) (S : Finset Nat) (A R E : Set Nat) :
    Prop where
  ring : SortedRing S h.next
  base_mem : base ∈ S
  base_size : h.size base = 0
  freep : h.freep ∈ S
  card : S.card ≤ h.inserted + 1
  tiles : Tiles ((↑S \ {base}) ∪ A) (fun b => h.size b * lay.header) R
  apart : ∀ b ∈ A, b ∉ S
  unmerged : ∀ b ∈ S, b ≠ base → b ∉ E → b + h.size b * lay.header ≠ h.next b
  lo_lt : lo < base
  reserved : ∀ x, lo ≤ x → x < base + lay.header → x ∉ R

namespace Valid

theorem base_not (hv : Valid lay h lo base S A R E) : base ∉ A :=
  fun hA => hv.apart base hA hv.base_mem

theorem mem_blocks (hb : b ∈ S) (hne : b ≠ base) : b ∈ (↑S \ {base}) ∪ A := .inl ⟨hb, hne⟩

theorem beside_base (hv : Valid lay h lo base S A R E) (hb : b ∈ (↑S \ {base}) ∪ A) :
    b + h.size b * lay.header < base ∨ base + lay.header ≤ b := by
  have hlt := hv.lo_lt
  rcases hv.tiles.outside hb (by omega) hv.reserved with h1 | h1
  · exact .inl (by omega)
  · exact .inr h1

theorem end_le (hv : Valid lay h lo base S A R E) (hb : b ∈ (↑S \ {base}) ∪ A) (hc : c ∈ S)
    (hlt : b < c) : b + h.size b * lay.header ≤ c := by
  by_cases hne : c = base
  · subst hne
    rcases hv.beside_base hb with h1 | h1 <;> omega
  · exact hv.tiles.apart b hb c (mem_blocks hc hne) hlt

/-! ## `shared_free` -/

/-- The loop finds where a block belongs. -/
theorem place (hv : Valid lay h lo base S A R E) (hx : blockp ∉ S) :
    ∃ currp ∈ S, h.place blockp (h.inserted + 1) h.freep = some currp ∧
      Gap currp (h.next currp) blockp := by
  obtain ⟨t, ht, hgap⟩ := hv.ring.exists_gap hv.base_mem hx
  have hcard := hv.card
  have hwalk : ∀ fuel b, b ∈ S → steps S t b < fuel →
      ∃ currp ∈ S, h.place blockp fuel b = some currp ∧ Gap currp (h.next currp) blockp := by
    intro fuel
    induction fuel with
    | zero => exact fun b _ hlt => absurd hlt (not_lt_zero _)
    | succ fuel ih =>
      intro b hb hlt
      unfold Heap.place
      by_cases h1 : blockp ≤ b ∨ h.next b ≤ blockp
      · rw [if_pos h1]
        by_cases h2 : h.next b ≤ b ∧ (b < blockp ∨ blockp < h.next b)
        · rw [if_pos h2]
          exact ⟨b, hb, rfl, .inr h2⟩
        · rw [if_neg h2]
          have hbt : b ≠ t := by
            rintro rfl
            rcases hgap with hg | hg
            · omega
            · exact h2 hg
          have := hv.ring.steps_next hb ht hbt
          exact ih _ (hv.ring.next_mem hb) (by omega)
      · rw [if_neg h1]
        exact ⟨b, hb, rfl, .inl (by omega)⟩
  have hlt : steps S t h.freep < h.inserted + 1 := by
    have := steps_lt (t := t) hv.freep
    omega
  exact hwalk _ _ hv.freep hlt

end Valid

namespace Heap

/-- A block is put between one of the list and its successor. -/
def link (h : Heap) (blockp currp : Nat) : Heap :=
  { h with
    next := Function.update (Function.update h.next blockp (h.next currp)) currp blockp
    freep := currp
    inserted := h.inserted + 1 }

/-- A block of the list takes in its successor if they touch. -/
def merge (lay : Layout) (h : Heap) (b : Nat) : Heap :=
  if b + h.size b * lay.header = h.next b then
    { h with
      size := Function.update h.size b (h.size b + h.size (h.next b))
      next := Function.update h.next b (h.next (h.next b)) }
  else h

theorem merge_pos (hn : h.next b = c) (hadj : b + h.size b * lay.header = c) :
    h.merge lay b = { h with
      size := update h.size b (h.size b + h.size c)
      next := update h.next b (h.next c) } := by
  subst hn
  exact if_pos hadj

theorem merge_neg (hn : h.next b = c) (hadj : b + h.size b * lay.header ≠ c) :
    h.merge lay b = h := by
  subst hn
  exact if_neg hadj

theorem joinLower_eq (hne : currp ≠ blockp) (n : Nat) : { h.joinLower lay blockp currp with
      freep := currp
      inserted := n } = ({ h with
        next := update h.next currp blockp
        freep := currp
        inserted := n } : Heap).merge lay currp := by
  have hnext : ({ h with
      next := update h.next currp blockp
      freep := currp
      inserted := n } : Heap).next currp = blockp := update_self ..
  unfold joinLower
  by_cases hlow : currp + h.size currp * lay.header = blockp
  · rw [if_pos hlow]
    refine Eq.trans ?_ (merge_pos hnext hlow).symm
    dsimp only
    rw [update_of_ne hne.symm, update_idem]
  · rw [if_neg hlow]
    exact (merge_neg hnext hlow).symm

theorem link_next (hne : currp ≠ blockp) : (h.link blockp currp).next blockp = h.next currp := by
  unfold link
  dsimp only
  rw [update_of_ne hne.symm, update_self]

theorem joinUpper_eq (hne : currp ≠ blockp) (hself : h.next currp ≠ blockp)
    (hadj : blockp + h.size blockp * lay.header = h.next currp → h.next currp ≠ currp) :
    { h.joinUpper lay blockp currp with
      next := update (h.joinUpper lay blockp currp).next currp blockp
      freep := currp
      inserted := h.inserted + 1 } = (h.link blockp currp).merge lay blockp := by
  unfold joinUpper
  by_cases hup : blockp + h.size blockp * lay.header = h.next currp
  · rw [if_pos hup, merge_pos (link_next hne) hup]
    unfold link
    dsimp only
    rw [update_of_ne (hadj hup), update_of_ne hself, update_comm hne, update_idem]
  · rw [if_neg hup, merge_neg (link_next hne) hup, link]

theorem join_eq (hne : currp ≠ blockp) (hself : h.next currp ≠ blockp)
    (hadj : blockp + h.size blockp * lay.header = h.next currp → h.next currp ≠ currp) :
    { (h.joinUpper lay blockp currp).joinLower lay blockp currp with
      freep := currp
      inserted := h.inserted + 1 } = ((h.link blockp currp).merge lay blockp).merge lay currp := by
  rw [joinLower_eq hne, joinUpper_eq hne hself hadj]

theorem merge_next (hne : c ≠ b) : (h.merge lay b).next c = h.next c := by
  unfold merge
  split
  · exact update_of_ne hne ..
  · rfl

theorem merge_size (hne : c ≠ b) : (h.merge lay b).size c = h.size c := by
  unfold merge
  split
  · exact update_of_ne hne ..
  · rfl

theorem merge_freep : (h.merge lay b).freep = h.freep := by
  unfold merge
  split <;> rfl

end Heap

namespace Valid

theorem mono {E' : Set Nat} (hv : Valid lay h lo base S A R E) (hE : E ⊆ E') :
    Valid lay h lo base S A R E' :=
  { hv with unmerged := fun b hb hne hno => hv.unmerged b hb hne fun he => hno (hE he) }

theorem link (hv : Valid lay h lo base S A R ∅) (hA : blockp ∈ A) (hc : currp ∈ S)
    (hgap : Gap currp (h.next currp) blockp) :
    Valid lay (h.link blockp currp) lo base (insert blockp S) (A \ {blockp}) R
      {currp, blockp} where
  ring := hv.ring.insert hc (hv.apart _ hA) hgap
  base_mem := mem_insert_of_mem hv.base_mem
  base_size := hv.base_size
  freep := mem_insert_of_mem hc
  card := by
    have hins := card_insert_le blockp S
    have hcard := hv.card
    change (insert blockp S).card ≤ h.inserted + 1 + 1
    omega
  tiles := by
    refine hv.tiles.congr ?_ fun b _ => rfl
    have hbase : blockp ≠ base := by
      rintro rfl
      exact hv.base_not hA
    ext x
    by_cases hx : x = blockp
    · subst hx
      simp [hA, hbase]
    · simp [hx]
  apart b hb hS := by
    rcases mem_insert.mp hS with rfl | hS
    · exact hb.2 rfl
    · exact hv.apart b hb.1 hS
  unmerged b hb hne hno := by
    have hbc : b ≠ currp := fun he => hno (.inl he)
    have hbx : b ≠ blockp := fun he => hno (.inr he)
    have hnext : (h.link blockp currp).next b = h.next b := by
      unfold Heap.link
      dsimp only
      rw [update_of_ne hbc, update_of_ne hbx]
    rw [hnext]
    exact hv.unmerged b ((mem_insert.mp hb).resolve_left hbx) hne nofun
  lo_lt := hv.lo_lt
  reserved := hv.reserved

/-- A merge takes the successor of `b` off the list. -/
theorem merge (hv : Valid lay h lo base S A R E) (hb : b ∈ S) (hself : h.next b ≠ b)
    (hn : b + h.size b * lay.header = h.next b → h.next b ∉ E ∧ h.next b ≠ h.freep) :
    ∃ S', Valid lay (h.merge lay b) lo base S' A R (E \ {b}) ∧
      (∀ d ∈ S, (b + h.size b * lay.header = h.next b → d ≠ h.next b) → d ∈ S') ∧
      ∀ d ∈ S, ∃ d' ∈ S', h.size d ≤ (h.merge lay b).size d' := by
  by_cases hadj : b + h.size b * lay.header = h.next b
  · obtain ⟨hE, hfree⟩ := hn hadj
    rw [merge_pos rfl hadj]
    generalize hc : h.next b = c at *
    have hcS : c ∈ S := hc ▸ hv.ring.next_mem hb
    have hbase : b ≠ base := by
      rintro rfl
      rw [hv.base_size, Nat.zero_mul, Nat.add_zero] at hadj
      exact hself hadj.symm
    have hcbase : c ≠ base := by
      rintro rfl
      rcases hv.beside_base (mem_blocks hb hbase) with h1 | h1 <;> omega
    have hkept : ∀ d ∈ S, d ≠ c → d ∈ S.erase c := fun d hd hne => mem_erase.mpr ⟨hne, hd⟩
    refine ⟨S.erase c, ?_, fun d hd hne => hkept d hd (hne hadj), ?_⟩
    rotate_left
    · intro d hd
      dsimp only
      by_cases hdc : d = c
      · subst hdc
        refine ⟨b, hkept b hb hself.symm, ?_⟩
        rw [update_self]
        exact Nat.le_add_left ..
      · refine ⟨d, hkept d hd hdc, ?_⟩
        by_cases hdb : d = b
        · subst hdb
          rw [update_self]
          exact Nat.le_add_right ..
        · rw [update_of_ne hdb]
    constructor
    · have hring := hv.ring.remove hb (by rwa [hc])
      rwa [hc] at hring
    · exact mem_erase.mpr ⟨hcbase.symm, hv.base_mem⟩
    · exact (update_of_ne hbase.symm ..).trans hv.base_size
    · exact mem_erase.mpr ⟨hfree.symm, hv.freep⟩
    · exact Nat.le_trans (card_erase_le) hv.card
    · have hjoin : Tiles (((↑S \ {base}) ∪ A) \ {c})
          (fun d => update h.size b (h.size b + h.size c) d * lay.header) R := by
        refine hv.tiles.join (mem_blocks hb hbase) (mem_blocks hcS hcbase) hadj ?_ ?_
        · rw [update_self, Nat.add_mul]
        · intro d _ hdb _
          rw [update_of_ne hdb]
      refine hjoin.congr ?_ fun d _ => rfl
      have hcA : c ∉ A := fun hA => hv.apart c hA hcS
      ext x
      by_cases hx : x = c
      · subst hx
        simp [hcA]
      · simp [hx]
    · exact fun d hA hS => hv.apart d hA (mem_of_mem_erase hS)
    · intro d hd hne hno
      obtain ⟨hdc, hdS⟩ := mem_erase.mp hd
      by_cases hdb : d = b
      · subst hdb
        dsimp only
        rw [update_self, update_self, Nat.add_mul, ← Nat.add_assoc, hadj]
        exact hv.unmerged c hcS hcbase hE
      · dsimp only
        rw [update_of_ne hdb, update_of_ne hdb]
        exact hv.unmerged d hdS hne fun he => hno ⟨he, hdb⟩
    · exact hv.lo_lt
    · exact hv.reserved
  · rw [merge_neg rfl hadj]
    refine ⟨S, ⟨hv.ring, hv.base_mem, hv.base_size, hv.freep, hv.card, hv.tiles, hv.apart, ?_,
      hv.lo_lt, hv.reserved⟩, fun d hd _ => hd, fun d hd => ⟨d, hd, Nat.le_refl _⟩⟩
    intro d hd hne hno
    by_cases hdb : d = b
    · subst hdb
      exact hadj
    · exact hv.unmerged d hd hne fun he => hno ⟨he, hdb⟩

/-- **`shared_free`.** An allocated block goes to the list. -/
theorem insertBlock (hv : Valid lay h lo base S A R ∅) (hA : blockp ∈ A) :
    ∃ h' S', h.insert lay blockp = some h' ∧ Valid lay h' lo base S' (A \ {blockp}) R ∅ ∧
      (∀ d ∈ A, d ≠ blockp → h'.size d = h.size d) ∧ ∃ d ∈ S', h.size blockp ≤ h'.size d := by
  have hx : blockp ∉ S := hv.apart _ hA
  obtain ⟨currp, hc, hplace, hgap⟩ := hv.place hx
  have hne : currp ≠ blockp := by
    rintro rfl
    exact hx hc
  have hself : h.next currp ≠ blockp := by
    intro he
    exact hx (he ▸ hv.ring.next_mem hc)
  have hadj : blockp + h.size blockp * lay.header = h.next currp → h.next currp ≠ currp := by
    intro hadj he
    -- Then the dummy header is alone in the list, and no block touches it.
    have hbase : base = currp := by
      by_contra hno
      exact hv.ring.next_ne hc hv.base_mem hno he
    rcases hv.beside_base (.inr hA) with h1 | h1 <;> omega
  have hlink := hv.link hA hc hgap
  have hnext := link_next (h := h) hne
  obtain ⟨S₁, hv₁, hS₁, hbig₁⟩ := hlink.merge (mem_insert_self ..) (by rwa [hnext, ne_eq,
    eq_comm, ← ne_eq, ne_comm]) (by
    intro hup
    rw [hnext] at hup ⊢
    have := hadj hup
    refine ⟨?_, this⟩
    rintro (he | he)
    · exact this he
    · exact hself he)
  have hnext₁ : ((h.link blockp currp).merge lay blockp).next currp = blockp :=
    (merge_next hne).trans (update_self ..)
  have hc₁ : currp ∈ S₁ := by
    refine hS₁ currp (mem_insert_of_mem hc) fun hup he => ?_
    rw [hnext] at hup he
    exact hadj hup he.symm
  obtain ⟨S₂, hv₂, -, hbig₂⟩ := hv₁.merge hc₁ (by rw [hnext₁]; exact hne.symm) (by
    intro _
    rw [hnext₁, merge_freep]
    exact ⟨fun he => he.2 rfl, hne.symm⟩)
  refine ⟨_, S₂, ?_, hv₂.mono ?_, ?_, ?_⟩
  · rw [Heap.insert, hplace, map_some, Heap.join_eq hne hself hadj]
  · rintro d ⟨⟨hd | hd, hno⟩, hno'⟩
    · exact hno' hd
    · exact hno hd
  · intro d hd hdne
    have hdc : d ≠ currp := by
      rintro rfl
      exact hv.apart _ hd hc
    rw [merge_size hdc, merge_size hdne]
    rfl
  · obtain ⟨d₁, hd₁, hle₁⟩ := hbig₁ blockp (mem_insert_self ..)
    obtain ⟨d₂, hd₂, hle₂⟩ := hbig₂ d₁ hd₁
    exact ⟨d₂, hd₂, Nat.le_trans hle₁ hle₂⟩

/-! ## `shared_malloc` -/

theorem scan (hv : Valid lay h lo base S A R ∅) (n : Nat) :
    ∃ r, h.scan n (h.inserted + 1) h.freep (h.next h.freep) = some r ∧
      (∀ p c, r = some (p, c) → p ∈ S ∧ c = h.next p ∧ n ≤ h.size c) ∧
      (r = none → ∀ x ∈ S, h.size x < n) := by
  have hcard := hv.card
  -- The induction is on the fuel; what has been passed is too small.
  have hwalk : ∀ fuel p, p ∈ S → steps S h.freep (h.next p) < fuel →
      (∀ x ∈ S, x = h.next p ∨ nearer h.freep (h.next p) x ∨ h.size x < n) →
      ∃ r, h.scan n fuel p (h.next p) = some r ∧
        (∀ p c, r = some (p, c) → p ∈ S ∧ c = h.next p ∧ n ≤ h.size c) ∧
        (r = none → ∀ x ∈ S, h.size x < n) := by
    intro fuel
    induction fuel with
    | zero => exact fun p _ hlt => absurd hlt (not_lt_zero _)
    | succ fuel ih =>
      intro p hp hlt hseen
      have hc := hv.ring.next_mem hp
      unfold Heap.scan
      by_cases h1 : n ≤ h.size (h.next p)
      · rw [if_pos h1]
        refine ⟨_, rfl, ?_, nofun⟩
        intro p' c' he
        cases he
        exact ⟨hp, rfl, h1⟩
      · rw [if_neg h1]
        by_cases h2 : h.next p = h.freep
        · rw [if_pos h2]
          refine ⟨_, rfl, nofun, fun _ x hx => ?_⟩
          rcases hseen x hx with rfl | hnear | hsmall
          · omega
          · rw [h2] at hnear
            exact absurd hnear not_nearer_end
          · exact hsmall
        · rw [if_neg h2]
          have := hv.ring.steps_next hc hv.freep h2
          refine ih _ hc (by omega) fun x hx => ?_
          rcases hseen x hx with rfl | hnear | hsmall
          · exact .inr (.inr (by omega))
          · rcases (nearer_next (hv.ring _ hc) hv.freep h2 hx).mp hnear with he | hnear
            · exact .inl he
            · exact .inr (.inl hnear)
          · exact .inr (.inr hsmall)
  refine hwalk _ _ hv.freep ?_ fun x hx => ?_
  · have := steps_lt (t := h.freep) (hv.ring.next_mem hv.freep)
    omega
  · rcases nearer_first (hv.ring _ hv.freep) hx with he | hnear
    · exact .inl he
    · exact .inr (.inl hnear)

/-- A block is taken, whole or from the end of a greater one. -/
theorem take (hv : Valid lay h lo base S A R ∅) {p : Nat} (hp : p ∈ S) (hn : 0 < n)
    (hfit : n ≤ h.size (h.next p)) : ∃ h' b S', h.take lay n p (h.next p) = (h', b) ∧ b ∉ A ∧
      Valid lay h' lo base S' (insert b A) R ∅ ∧ h'.size b = n ∧
      ∀ d ∈ A, h'.size d = h.size d := by
  have hcS := hv.ring.next_mem hp
  have hcbase : h.next p ≠ base := by
    intro he
    rw [he, hv.base_size] at hfit
    omega
  have hcp : h.next p ≠ p := by
    intro he
    exact hv.ring.next_ne hp hv.base_mem (fun hb => hcbase (he.trans hb.symm)) he
  have hcblock : h.next p ∈ (↑S \ {base}) ∪ A := mem_blocks hcS hcbase
  have hpos := lay.header_pos
  have hnp := hv.ring p hp
  unfold Heap.take
  by_cases hexact : h.size (h.next p) = n
  · rw [if_pos hexact]
    refine ⟨_, h.next p, S.erase (h.next p), rfl, fun hA => hv.apart _ hA hcS, ?_, hexact,
      fun _ _ => rfl⟩
    constructor
    · exact hv.ring.remove hp hcp
    · exact mem_erase.mpr ⟨hcbase.symm, hv.base_mem⟩
    · exact hv.base_size
    · exact mem_erase.mpr ⟨hcp.symm, hp⟩
    · exact Nat.le_trans card_erase_le hv.card
    · refine hv.tiles.congr ?_ fun _ _ => rfl
      ext x
      by_cases hx : x = h.next p
      · simp [hx, hcS, hcbase]
      · simp [hx]
    · rintro b (rfl | hb) hS
      · exact notMem_erase _ _ hS
      · exact hv.apart b hb (mem_of_mem_erase hS)
    · intro b hb hne _
      obtain ⟨hbc, hbS⟩ := mem_erase.mp hb
      dsimp only
      by_cases hbp : b = p
      · subst hbp
        rw [update_self]
        have hend := hv.tiles.pos b (mem_blocks hbS hne)
        have hnn := hv.ring _ hcS
        rcases hnp.2 with ⟨hlt, -⟩ | ⟨-, hall⟩
        · have hle := hv.end_le (mem_blocks hbS hne) hcS hlt
          rcases hnn.2 with ⟨hlt', -⟩ | ⟨-, hall'⟩
          · omega
          · have := hall' b hbS
            omega
        · have := hall _ hnn.1
          omega
      · rw [update_of_ne hbp]
        exact hv.unmerged b hbS hne nofun
    · exact hv.lo_lt
    · exact hv.reserved
  · rw [if_neg hexact]
    dsimp only
    generalize hc : h.next p = c at *
    generalize hrest : h.size c - n = rest
    have hrpos : 0 < rest := by omega
    have hsize : h.size c = rest + n := by omega
    have hmul : h.size c * lay.header = rest * lay.header + n * lay.header := by
      rw [hsize, Nat.add_mul]
    have hrm : 0 < rest * lay.header := Nat.mul_pos hrpos hpos
    have hnm : 0 < n * lay.header := Nat.mul_pos hn hpos
    generalize htail : c + rest * lay.header = tail
    have hnew : tail ∉ (↑S \ {base}) ∪ A := hv.tiles.not_within hcblock (by omega) (by omega)
    have htbase : tail ≠ base := by
      rintro rfl
      rcases hv.beside_base hcblock with h1 | h1 <;> omega
    have htS : tail ∉ S := fun hS => hnew (.inl ⟨hS, htbase⟩)
    have htA : tail ∉ A := fun hA => hnew (.inr hA)
    have hct : c ≠ tail := by omega
    refine ⟨_, tail, S, rfl, htA, ?_, ?_, ?_⟩
    · constructor
      · intro b hb
        have hbt : b ≠ tail := by
          rintro rfl
          exact htS hb
        dsimp only
        rw [update_of_ne hbt]
        exact hv.ring b hb
      · exact hv.base_mem
      · dsimp only
        rw [update_of_ne htbase.symm, update_of_ne hcbase.symm]
        exact hv.base_size
      · exact hp
      · exact hv.card
      · have hcut : Tiles (insert tail ((↑S \ {base}) ∪ A)) (fun d =>
            update (update h.size c rest) tail n d * lay.header) R := by
          refine hv.tiles.cut hcblock hnm (by omega) (by omega) ?_ ?_ ?_
          · rw [update_of_ne hct, update_self]
            omega
          · rw [update_self]
          · intro d hd hdc
            have hdt : d ≠ tail := by
              rintro rfl
              exact hnew hd
            rw [update_of_ne hdt, update_of_ne hdc]
        refine hcut.congr ?_ fun _ _ => rfl
        ext x
        simp only [Set.mem_union, Set.mem_insert_iff]
        tauto
      · rintro b (rfl | hb) hS
        · exact htS hS
        · exact hv.apart b hb hS
      · intro b hb hne _
        have hbt : b ≠ tail := by
          rintro rfl
          exact htS hb
        dsimp only
        rw [update_of_ne hbt, update_of_ne hbt]
        by_cases hbc : b = c
        · subst hbc
          rw [update_self]
          obtain ⟨hnS, ⟨hlt, -⟩ | ⟨hle, -⟩⟩ := hv.ring b hb
          · have := hv.end_le hcblock hnS hlt
            omega
          · omega
        · rw [update_of_ne hbc]
          exact hv.unmerged b hb hne nofun
      · exact hv.lo_lt
      · exact hv.reserved
    · exact update_self ..
    · intro d hd
      have hdt : d ≠ tail := by
        rintro rfl
        exact htA hd
      have hdc : d ≠ c := by
        rintro rfl
        exact hv.apart _ hd hcS
      dsimp only
      rw [update_of_ne hdt, update_of_ne hdc]

theorem addBlock (hv : Valid lay h lo base S A R ∅) (p size : Nat) (hsize : 0 < size)
    (hout : ∀ x, p ≤ x → x < p + size * lay.header → x ∉ R)
    (hbeside : p + size * lay.header ≤ lo ∨ base + lay.header ≤ p) : ∃ h' S', ({ h with
        next := update h.next p 0
        size := update h.size p size } : Heap).insert lay p = some h' ∧
      Valid lay h' lo base S' A (R ∪ {x | p ≤ x ∧ x < p + size * lay.header}) ∅ ∧
      (∀ d ∈ A, h'.size d = h.size d) ∧ ∃ d ∈ S', size ≤ h'.size d := by
  have hpos := lay.header_pos
  have hlo := hv.lo_lt
  have hlen : 0 < size * lay.header := Nat.mul_pos hsize hpos
  have hnew : p ∉ (↑S \ {base}) ∪ A := by
    intro hp
    have := hv.tiles.pos p hp
    exact hout p (Nat.le_refl p) (by omega) (hv.tiles.mem hp (Nat.le_refl p) (by omega))
  have hpbase : p ≠ base := by
    rintro rfl
    omega
  have hpS : p ∉ S := fun hS => hnew (.inl ⟨hS, hpbase⟩)
  have hpA : p ∉ A := fun hA => hnew (.inr hA)
  have hsame : ∀ d, d ≠ p → update h.size p size d = h.size d := fun d hd => update_of_ne hd ..
  have hv' : Valid lay { h with
      next := update h.next p 0
      size := update h.size p size } lo base S (insert p A)
      (R ∪ {x | p ≤ x ∧ x < p + size * lay.header}) ∅ := by
    constructor
    · intro b hb
      have hbp : b ≠ p := fun he => hpS (he ▸ hb)
      dsimp only
      rw [update_of_ne hbp]
      exact hv.ring b hb
    · exact hv.base_mem
    · exact (hsame base hpbase.symm).trans hv.base_size
    · exact hv.freep
    · exact hv.card
    · have hcongr : Tiles ((↑S \ {base}) ∪ A)
          (fun b => update h.size p size b * lay.header) R :=
        hv.tiles.congr rfl fun b hb => by rw [hsame b fun he => hnew (he ▸ hb)]
      have hadd := hcongr.add (a := p) (by rwa [update_self])
        (by rwa [update_self])
      rw [update_self] at hadd
      refine hadd.congr ?_ fun _ _ => rfl
      ext x
      simp only [Set.mem_union, Set.mem_insert_iff]
      tauto
    · rintro b (rfl | hb) hS
      · exact hpS hS
      · exact hv.apart b hb hS
    · intro b hb hne hno
      have hbp : b ≠ p := fun he => hpS (he ▸ hb)
      dsimp only
      rw [update_of_ne hbp, update_of_ne hbp]
      exact hv.unmerged b hb hne hno
    · exact hv.lo_lt
    · rintro x h1 h2 (hR | hx)
      · exact hv.reserved x h1 h2 hR
      · obtain ⟨h3, h4⟩ := hx
        omega
  obtain ⟨h', S', hins, hvi, hsizes, hbig⟩ := hv'.insertBlock (.inl rfl)
  refine ⟨h', S', hins, ?_, ?_, ?_⟩
  · have hA : insert p A \ {p} = A := by
      ext x
      by_cases hx : x = p
      · simp [hx, hpA]
      · simp [hx]
    rwa [hA] at hvi
  · intro d hd
    have hdp : d ≠ p := fun he => hpA (he ▸ hd)
    exact (hsizes d (.inr hd) hdp).trans (hsame d hdp)
  · dsimp only at hbig
    rwa [update_self] at hbig

theorem not_touching (hv : Valid lay h lo base S A R ∅) (hb : b ∈ S) (hne : b ≠ base)
    (hc : c ∈ S) : b + h.size b * lay.header ≠ c := by
  intro he
  have hpos := hv.tiles.pos b (mem_blocks hb hne)
  obtain ⟨hn, ⟨hlt, hall⟩ | ⟨hle, hall⟩⟩ := hv.ring b hb
  · have hend := hv.end_le (mem_blocks hb hne) hn hlt
    have := hall c hc
    exact hv.unmerged b hb hne nofun (by omega)
  · have := hall c hc
    omega

end Valid

/-! ## Calls -/

/-- Where the blocks of a chunk begin. -/
def Chunk.start (lay : Layout) (c : Chunk) : Nat :=
  if c.control then c.addr + lay.controlBlock else c.addr

/-- As many headers as there is room for, in the control block's chunk if there is room for
more than one. -/
def Chunk.length (lay : Layout) (c : Chunk) : Nat :=
  if c.control then
    if lay.controlBlock + lay.header < c.bytes then
      (c.bytes - lay.controlBlock) / lay.header * lay.header
    else 0
  else c.bytes / lay.header * lay.header

/-- The chunks of the pool, less the control block. -/
def region (lay : Layout) (chunks : List Chunk) : Set Nat :=
  {x | ∃ c ∈ chunks, c.start lay ≤ x ∧ x < c.start lay + c.length lay}

theorem region_cons (lay : Layout) (c : Chunk) (chunks : List Chunk) :
    region lay (c :: chunks) =
      region lay chunks ∪ {x | c.start lay ≤ x ∧ x < c.start lay + c.length lay} := by
  ext x
  simp [region, or_comm]

def State.blocks (lay : Layout) (s : State) : Set Nat :=
  {b | b + lay.header ∈ s.allocated.map Prod.fst}

structure Good (lay : Layout) (s : State) : Prop where
  closed : s.cb = none → s.chunks = [] ∧ s.allocated = []
  opened : ∀ cb, s.cb = some cb → ∃ S,
    Valid lay s.heap cb (lay.base cb) S (s.blocks lay) (region lay s.chunks) ∅
  control : ∀ cb, s.cb = some cb →
    ∃ bytes, ⟨cb, bytes, true⟩ ∈ s.chunks ∧ lay.controlBlock ≤ bytes
  room : ∀ e ∈ s.allocated, ∃ b, e.1 = b + lay.header ∧
    lay.header + e.2 ≤ s.heap.size b * lay.header

theorem base_end (lay : Layout) (cb : Nat) : lay.base cb + lay.header = cb + lay.controlBlock := by
  have := lay.header_lt
  unfold Layout.base
  omega

theorem div_mul_le (lay : Layout) (n : Nat) : n / lay.header * lay.header ≤ n :=
  div_mul_le_self n lay.header

theorem Chunk.within (lay : Layout) (c : Chunk) : c.addr ≤ c.start lay ∧
    (c.length lay = 0 ∨ c.start lay + c.length lay ≤ c.addr + c.bytes) := by
  unfold Chunk.start Chunk.length
  split
  · refine ⟨Nat.le_add_right .., ?_⟩
    split
    · have := div_mul_le lay (c.bytes - lay.controlBlock)
      omega
    · exact .inl rfl
  · refine ⟨Nat.le_refl _, .inr ?_⟩
    have := div_mul_le lay c.bytes
    omega

def Apart (addr bytes : Nat) (c : Chunk) : Prop :=
  addr + bytes ≤ c.addr ∨ c.addr + c.bytes ≤ addr

theorem not_mem_region {chunks : List Chunk} {addr bytes x : Nat}
    (hap : ∀ c ∈ chunks, Apart addr bytes c) (h1 : addr ≤ x) (h2 : x < addr + bytes) :
    x ∉ region lay chunks := by
  rintro ⟨c, hc, h3, h4⟩
  obtain ⟨h5, h6⟩ := c.within lay
  rcases hap c hc with h7 | h7 <;> omega

variable {s : State}

theorem Good.addBlock (hg : Good lay s) {cb : Nat} (hcb : s.cb = some cb) (p size : Nat) (c : Chunk)
    (hstart : c.start lay = p) (hlen : c.length lay = size * lay.header) (hsize : 0 < size)
    (hout : ∀ x, p ≤ x → x < p + size * lay.header → x ∉ region lay s.chunks)
    (hbeside : p + size * lay.header ≤ cb ∨ lay.base cb + lay.header ≤ p) :
    ∃ s', { s with chunks := c :: s.chunks }.addBlock lay p size = some s' ∧ Good lay s' ∧
      s'.cb = some cb ∧ s'.allocated = s.allocated ∧ s'.chunks = c :: s.chunks ∧
      ∃ S, Valid lay s'.heap cb (lay.base cb) S (s'.blocks lay) (region lay s'.chunks) ∅ ∧
        ∃ d ∈ S, size ≤ s'.heap.size d := by
  obtain ⟨S, hv⟩ := hg.opened cb hcb
  obtain ⟨h', S', hins, hv', hsizes, hbig⟩ := hv.addBlock p size hsize hout hbeside
  have hne : ¬(p + lay.header = 0 ∨ s.cb = none) := by
    have hpos := lay.header_pos
    rw [hcb]
    rintro (he | he)
    · omega
    · cases he
  have hreg : region lay (c :: s.chunks) =
      region lay s.chunks ∪ {x | p ≤ x ∧ x < p + size * lay.header} := by
    rw [region_cons, hstart, hlen]
  refine ⟨{ s with
    chunks := c :: s.chunks
    heap := h' }, ?_, ⟨?_, ?_, ?_, ?_⟩, hcb, rfl, rfl, S', ?_, hbig⟩
  · unfold State.addBlock State.sharedFree
    rw [if_neg hne, Nat.add_sub_cancel]
    exact congrArg (Option.map _) hins
  · intro he
    exact absurd (he.symm.trans hcb) nofun
  · intro cb' hcb'
    cases hcb.symm.trans hcb'
    refine ⟨S', ?_⟩
    rw [hreg]
    exact hv'
  · intro cb' hcb'
    obtain ⟨bytes, hmem, hle⟩ := hg.control cb' hcb'
    exact ⟨bytes, mem_cons_of_mem _ hmem, hle⟩
  · intro e he
    obtain ⟨b, heb, hroom⟩ := hg.room e he
    refine ⟨b, heb, ?_⟩
    have hb : b ∈ s.blocks lay := mem_map.mpr ⟨e, he, heb⟩
    rwa [hsizes b hb]
  · change Valid lay h' cb (lay.base cb) S' (s.blocks lay) (region lay (c :: s.chunks)) ∅
    rw [hreg]
    exact hv'

theorem Good.takeBlock (hg : Good lay s) {cb p nbytes : Nat} (hcb : s.cb = some cb)
    (hv : Valid lay s.heap cb (lay.base cb) S (s.blocks lay) (region lay s.chunks) ∅) (hp : p ∈ S)
    (hfit : n ≤ s.heap.size (s.heap.next p)) (hroom : lay.header + nbytes ≤ n * lay.header) :
    Good lay (State.handOut nbytes (s.takeBlock lay n p (s.heap.next p))) := by
  have hpos := lay.header_pos
  have hn : 0 < n := by
    by_contra hno
    have h0 : n = 0 := by omega
    rw [h0, Nat.zero_mul] at hroom
    omega
  obtain ⟨h', b, S', htake, hb, hv', hsize, hsizes⟩ := hv.take hp hn hfit
  unfold State.takeBlock
  rw [htake]
  have hblocks : blocks lay { s with
      heap := h'
      allocated := (b + lay.header, nbytes) :: s.allocated } = insert b (s.blocks lay) := by
    ext d
    simp [blocks]
  refine ⟨?_, ?_, hg.control, ?_⟩
  · intro he
    exact absurd (he.symm.trans hcb) nofun
  · intro cb' hcb'
    cases hcb.symm.trans hcb'
    refine ⟨S', ?_⟩
    change Valid lay h' cb (lay.base cb) S' (blocks lay { s with
      heap := h'
      allocated := (b + lay.header, nbytes) :: s.allocated }) (region lay s.chunks) ∅
    rw [hblocks]
    exact hv'
  · intro e he
    rcases mem_cons.mp he with rfl | he
    · refine ⟨b, rfl, ?_⟩
      change _ ≤ h'.size b * lay.header
      rwa [hsize]
    · obtain ⟨d, hed, hle⟩ := hg.room e he
      refine ⟨d, hed, ?_⟩
      have hd : d ∈ s.blocks lay := mem_map.mpr ⟨e, he, hed⟩
      change _ ≤ h'.size d * lay.header
      rwa [hsizes d hd]

/-- What the pool promises of its replies to a request, beside a range that is in `size_t`:
chunks beside each other and those it has given, with at least as many bytes as asked for. -/
def Fresh (lay : Layout) (s : State) (request : Nat) (replies : List Reply) : Prop :=
  (∀ r ∈ replies, ∀ c ∈ r, 0 < c.1 ∧ request ≤ c.2 ∧ c.1 + c.2 ≤ lay.sizes ∧
    ∀ d ∈ s.chunks, Apart c.1 c.2 d) ∧
  replies.Pairwise fun r r' => ∀ c ∈ r, ∀ c' ∈ r', c.1 + c.2 ≤ c'.1 ∨ c'.1 + c'.2 ≤ c.1

/-- **`shared_malloc`.** The pool is asked at most once. -/
theorem Good.search (hg : Good lay s) {cb nbytes : Nat} (hcb : s.cb = some cb)
    (hn : n * lay.header < lay.sizes) (hroom : lay.header + nbytes ≤ n * lay.header)
    {replies : List Reply} (hfresh : Fresh lay s (lay.request n) replies) :
    ∃ s' r, State.search lay n replies s = some (s', r) ∧
      Good lay (State.handOut nbytes (s', r)) ∧ (r = none → s' = s) := by
  have hpos := lay.header_pos
  obtain ⟨S, hv⟩ := hg.opened cb hcb
  obtain ⟨r, hscan, hfound, hnone⟩ := hv.scan n
  have hreq : lay.request n = n * lay.header := mod_eq_of_lt hn
  unfold State.search
  rw [hscan, bind_some]
  cases r with
  | some pc =>
    obtain ⟨p, c⟩ := pc
    obtain ⟨hp, rfl, hfit⟩ := hfound p c rfl
    exact ⟨_, _, rfl, hg.takeBlock hcb hv hp hfit hroom, nofun⟩
  | none =>
    cases replies with
    | nil => exact ⟨s, none, rfl, hg, fun _ => rfl⟩
    | cons reply replies =>
      cases reply with
      | none => exact ⟨s, none, rfl, hg, fun _ => rfl⟩
      | some c =>
        obtain ⟨addr, bytes⟩ := c
        obtain ⟨-, hbytes, -, hap⟩ := hfresh.1 _ mem_cons_self _ rfl
        rw [hreq] at hbytes
        have hunits : n ≤ bytes / lay.header := (le_div_iff_mul_le hpos).mpr hbytes
        have hn0 : 0 < n := by
          by_contra hno
          have h0 : n = 0 := by omega
          rw [h0, Nat.zero_mul] at hroom
          omega
        have hdiv := div_mul_le lay bytes
        obtain ⟨bytes', hctrl, hle⟩ := hg.control cb hcb
        obtain ⟨s', hgrow, hg', hcb', halloc, -, S', hv', d, hd, hbig⟩ := hg.addBlock hcb
          addr (bytes / lay.header) ⟨addr, bytes, false⟩ rfl rfl (by omega) (fun x h1 h2 =>
            not_mem_region hap h1 (by omega)) (by
            have hend := base_end lay cb
            have := hap _ hctrl
            unfold Apart at this
            dsimp only at this
            omega)
        dsimp only
        have hgrow' : s.grow lay addr bytes = some s' := hgrow
        rw [hgrow', bind_some]
        unfold State.search
        obtain ⟨r, hscan', hfound', hnone'⟩ := hv'.scan n
        rw [hscan', bind_some]
        cases r with
        | some pc =>
          obtain ⟨p, c⟩ := pc
          obtain ⟨hp, rfl, hfit⟩ := hfound' p c rfl
          exact ⟨_, _, rfl, hg'.takeBlock hcb' hv' hp hfit hroom, nofun⟩
        | none =>
          have := hnone' rfl d hd
          omega

/-- Requests whose size in headers, in bytes, is still in `size_t`. -/
def Layout.fits (lay : Layout) (nbytes : Nat) : Prop :=
  ((nbytes + lay.header - 1) / lay.header + 1) * lay.header < lay.sizes

theorem Layout.fits.units {nbytes : Nat} (hf : lay.fits nbytes) :
    lay.nunits nbytes * lay.header < lay.sizes ∧
      lay.header + nbytes ≤ lay.nunits nbytes * lay.header ∧ nbytes < lay.sizes := by
  have hpos := lay.header_pos
  have hlt := lt_mul_div_succ (nbytes + lay.header - 1) hpos
  rw [Nat.mul_comm] at hlt
  have hmod : (nbytes + lay.header - 1) % lay.sizes = nbytes + lay.header - 1 :=
    mod_eq_of_lt (Nat.lt_trans hlt hf)
  unfold Layout.nunits
  unfold Layout.fits at hf
  rw [hmod]
  omega

theorem Good.sharedMalloc (hg : Good lay s) {nbytes : Nat} (hf : lay.fits nbytes)
    {replies : List Reply} (hfresh : Fresh lay s (lay.request (lay.nunits nbytes)) replies) :
    ∃ s' r, s.sharedMalloc lay nbytes replies = some (s', r) ∧
      Good lay (State.handOut nbytes (s', r)) ∧ (r = none → s' = s) := by
  unfold State.sharedMalloc
  by_cases hcb : s.cb = none
  · rw [if_pos hcb]
    exact ⟨s, none, rfl, hg, fun _ => rfl⟩
  · rw [if_neg hcb]
    obtain ⟨cb, hcb⟩ := ne_none_iff_exists'.mp hcb
    obtain ⟨hn, hroom, -⟩ := hf.units
    exact hg.search hcb hn hroom hfresh

theorem Good.free (hg : Good lay s) {ptr : Nat} (hptr : ptr = 0 ∨ ptr ∈ s.allocated.map Prod.fst) :
    ∃ s', s.sharedFree lay ptr = some s' ∧
      Good lay { s' with allocated := s'.allocated.filter fun e => e.1 ≠ ptr } := by
  have hpos := lay.header_pos
  by_cases hzero : ptr = 0
  · refine ⟨s, if_pos (.inl hzero), ?_⟩
    have hall : s.allocated.filter (fun e => e.1 ≠ ptr) = s.allocated := by
      refine List.filter_eq_self.mpr fun e he => ?_
      obtain ⟨b, heb, -⟩ := hg.room e he
      refine decide_eq_true ?_
      omega
    rwa [hall]
  · obtain ⟨e, he, rfl⟩ := List.mem_map.mp (hptr.resolve_left hzero)
    obtain ⟨b, heb, -⟩ := hg.room e he
    have hcb : s.cb ≠ none := by
      intro hno
      rw [(hg.closed hno).2] at he
      cases he
    obtain ⟨cb, hcb'⟩ := Option.ne_none_iff_exists'.mp hcb
    obtain ⟨S, hv⟩ := hg.opened cb hcb'
    have hb : b ∈ s.blocks lay := List.mem_map.mpr ⟨e, he, heb⟩
    obtain ⟨h', S', hins, hv', hsizes, -⟩ := hv.insertBlock hb
    have hblocks : blocks lay { s with
        heap := h'
        allocated := s.allocated.filter fun e' => e'.1 ≠ e.1 } = s.blocks lay \ {b} := by
      ext d
      simp only [blocks, List.mem_map, List.mem_filter, Set.mem_ofPred_eq, Set.mem_sdiff,
        Set.mem_singleton_iff, decide_eq_true_eq]
      constructor
      · rintro ⟨e', ⟨hmem, hne⟩, hd⟩
        exact ⟨⟨e', hmem, hd⟩, by omega⟩
      · rintro ⟨⟨e', hmem, hd⟩, hne⟩
        exact ⟨e', ⟨hmem, by omega⟩, hd⟩
    refine ⟨{ s with heap := h' }, ?_, ⟨?_, ?_, hg.control, ?_⟩⟩
    · unfold sharedFree
      rw [if_neg (by rintro (hz | hz); exacts [hzero hz, hcb hz]), heb, Nat.add_sub_cancel, hins,
        Option.map_some]
    · intro hno
      exact absurd hno hcb
    · intro cb' hcb''
      cases hcb'.symm.trans hcb''
      refine ⟨S', ?_⟩
      rw [hblocks]
      exact hv'
    · intro e' he'
      obtain ⟨hmem, hne⟩ := List.mem_filter.mp he'
      have hne' := of_decide_eq_true hne
      obtain ⟨d, hed, hle⟩ := hg.room e' hmem
      refine ⟨d, hed, ?_⟩
      have hd : d ∈ s.blocks lay := List.mem_map.mpr ⟨e', hmem, hed⟩
      rwa [hsizes d hd (by omega)]

/-- The dummy header alone. -/
theorem valid_base {cb : Nat} (hnext : h.next (lay.base cb) = lay.base cb)
    (hsize : h.size (lay.base cb) = 0) (hfreep : h.freep = lay.base cb) :
    Valid lay h cb (lay.base cb) {lay.base cb} ∅ ∅ ∅ := by
  constructor
  · intro b hb
    rw [Finset.mem_singleton] at hb
    subst hb
    rw [hnext]
    refine ⟨Finset.mem_singleton_self _, .inr ⟨Nat.le_refl _, fun d hd => ?_⟩⟩
    rw [Finset.mem_singleton] at hd
    omega
  · exact Finset.mem_singleton_self _
  · exact hsize
  · rw [hfreep]
    exact Finset.mem_singleton_self _
  · rw [card_singleton]
    omega
  · refine ⟨?_, ?_, ?_⟩
    · simp
    · simp
    · simp
  · exact fun _ hb => absurd hb (Set.notMem_empty _)
  · intro b hb hne
    exact absurd (Finset.mem_singleton.mp hb) hne
  · have := lay.header_lt
    unfold Layout.base
    omega
  · exact fun _ _ _ => Set.notMem_empty _

theorem Good.openPool (hg : Good lay s) (hcb : s.cb = none) {reply : Reply}
    (hreply : ∀ c ∈ reply, lay.controlBlock ≤ c.2) :
    ∃ s', s.openPool lay reply = some s' ∧ Good lay s' := by
  obtain ⟨hchunks, halloc⟩ := hg.closed hcb
  cases reply with
  | none => exact ⟨s, rfl, hg⟩
  | some c =>
    obtain ⟨cb, rounded⟩ := c
    have hle : lay.controlBlock ≤ rounded := hreply _ rfl
    have hpos := lay.header_pos
    have hend := base_end lay cb
    have hbase : Valid lay { s.heap with
        next := update s.heap.next (lay.base cb) (lay.base cb)
        size := update s.heap.size (lay.base cb) 0
        freep := lay.base cb } cb (lay.base cb) {lay.base cb} ∅ ∅ ∅ :=
      valid_base (update_self ..) (update_self ..) rfl
    have hblocks : ∀ (c : Option Nat) h chunks, blocks lay ⟨c, h, chunks, s.allocated⟩ = ∅ := by
      intro c h chunks
      ext d
      simp [blocks, halloc]
    have hempty : region lay [] = ∅ := by
      ext x
      simp [region]
    unfold State.openPool
    dsimp only
    rw [hchunks]
    by_cases hroom : lay.controlBlock + lay.header < rounded
    · rw [if_pos hroom]
      have hunits : 0 < (rounded - lay.controlBlock) / lay.header := div_pos (by omega) hpos
      obtain ⟨h', S', hins, hv', -, -⟩ := hbase.addBlock (lay.base cb + lay.header) _ hunits
        (fun _ _ _ => Set.notMem_empty _) (.inr (Nat.le_refl _))
      refine ⟨{ s with
        cb := some cb
        chunks := [⟨cb, rounded, true⟩]
        heap := h' }, ?_, ⟨nofun, ?_, ?_, ?_⟩⟩
      · unfold State.addBlock State.sharedFree
        rw [if_neg (by rintro (he | he); exacts [by omega, nomatch he]), Nat.add_sub_cancel]
        exact congrArg (Option.map _) hins
      · intro cb' he
        cases he
        refine ⟨S', ?_⟩
        have hreg : region lay [⟨cb, rounded, true⟩] = ∅ ∪ {x | lay.base cb + lay.header ≤ x ∧
            x < lay.base cb + lay.header +
              (rounded - lay.controlBlock) / lay.header * lay.header} := by
          have hlen : Chunk.length lay ⟨cb, rounded, true⟩ =
              (rounded - lay.controlBlock) / lay.header * lay.header := by
            unfold Chunk.length
            rw [if_pos rfl, if_pos hroom]
          rw [region_cons, hempty, hlen, hend]
          rfl
        rw [hblocks, hreg]
        exact hv'
      · intro cb' he
        cases he
        exact ⟨rounded, mem_cons_self, hle⟩
      · intro e he
        rw [halloc] at he
        cases he
    · rw [if_neg hroom]
      refine ⟨_, rfl, ⟨nofun, ?_, ?_, ?_⟩⟩
      · intro cb' he
        cases he
        refine ⟨{lay.base cb}, ?_⟩
        have hreg : region lay [⟨cb, rounded, true⟩] = ∅ := by
          have hlen : Chunk.length lay ⟨cb, rounded, true⟩ = 0 := by
            unfold Chunk.length
            rw [if_pos rfl, if_neg hroom]
          rw [region_cons, hempty, hlen]
          ext x
          simp only [Set.empty_union, Set.mem_ofPred_eq, Set.mem_empty_iff_false, iff_false]
          omega
        rw [hblocks, hreg]
        exact hbase
      · intro cb' he
        cases he
        exact ⟨rounded, mem_cons_self, hle⟩
      · intro e he
        rw [halloc] at he
        cases he

/-! ## Runs -/

/-- What the pool and the callers promise: the pool is opened once, and a pointer is freed
that has been handed out and not been freed since, or a null pointer. -/
def Legal (lay : Layout) (s : State) : Act → Prop
  | .openPool reply => s.cb = none ∧ ∀ c ∈ reply, 0 < c.1 ∧ lay.controlBlock ≤ c.2 ∧
    c.1 + c.2 ≤ lay.sizes
  | .malloc nbytes replies | .calloc nbytes replies =>
    Fresh lay s (lay.request (lay.nunits nbytes)) replies
  | .callocArray n_elem elem_size replies =>
    Fresh lay s (lay.request (lay.nunits (n_elem * elem_size % lay.sizes))) replies
  | .free ptr => ptr = 0 ∨ ptr ∈ s.allocated.map Prod.fst

/-- The condition on the requests. -/
def Fits (lay : Layout) : Act → Prop
  | .malloc nbytes _ | .calloc nbytes _ => lay.fits nbytes
  | .callocArray n_elem elem_size _ => lay.fits (n_elem * elem_size)
  | _ => True

/-- **Step lemma.** -/
theorem good_step (hg : Good lay s) {act : Act} (hl : Legal lay s act) (hf : Fits lay act) :
    ∃ s', step lay s act = some s' ∧ Good lay s' := by
  cases act with
  | openPool reply => exact hg.openPool hl.1 fun c hc => (hl.2 c hc).2.1
  | malloc nbytes replies =>
    obtain ⟨s', r, heq, hgood, -⟩ := hg.sharedMalloc hf hl
    exact ⟨_, congrArg (Option.map _) heq, hgood⟩
  | calloc nbytes replies =>
    obtain ⟨s', r, heq, hgood, -⟩ := hg.sharedMalloc hf hl
    exact ⟨_, congrArg (Option.map _) heq, hgood⟩
  | callocArray n_elem elem_size replies =>
    have hmod : n_elem * elem_size % lay.sizes = n_elem * elem_size := mod_eq_of_lt hf.units.2.2
    dsimp only [Legal] at hl
    rw [hmod] at hl
    obtain ⟨s', r, heq, hgood, -⟩ := hg.sharedMalloc hf hl
    refine ⟨_, ?_, hgood⟩
    rw [step, callocArray, calloc, hmod, heq, map_some]
  | free ptr =>
    obtain ⟨s', heq, hgood⟩ := hg.free hl
    exact ⟨_, congrArg (Option.map _) heq, hgood⟩

theorem good_init : Good lay init :=
  ⟨fun _ => ⟨rfl, rfl⟩, nofun, nofun, fun e he => by cases he⟩

/-- The list is a ring in ascending order of blocks that do not touch, with the dummy header
in it; the blocks of the list and the allocated ones tile the chunks. -/
structure FreeList (lay : Layout) (s : State) (cb : Nat) (S : Finset Nat) : Prop where
  freep : s.heap.freep ∈ S
  base : lay.base cb ∈ S ∧ s.heap.size (lay.base cb) = 0
  sorted : SortedRing S s.heap.next
  unmerged : ∀ b ∈ S, b ≠ lay.base cb → ∀ c ∈ S, b + s.heap.size b * lay.header ≠ c
  apart : ∀ b ∈ s.blocks lay, b ∉ S
  tiles : Tiles ((↑S \ {lay.base cb}) ∪ s.blocks lay) (fun b => s.heap.size b * lay.header)
    (region lay s.chunks)

structure Keeps (lay : Layout) (s : State) : Prop where
  list : ∀ cb, s.cb = some cb → ∃ S, FreeList lay s cb S
  /-- Behind its header every block has room for what was asked for. -/
  room : ∀ e ∈ s.allocated, ∃ b, e.1 = b + lay.header ∧
    e.1 + e.2 ≤ b + s.heap.size b * lay.header

theorem Good.keeps (hg : Good lay s) : Keeps lay s where
  list cb hcb := by
    obtain ⟨S, hv⟩ := hg.opened cb hcb
    exact ⟨S, hv.freep, ⟨hv.base_mem, hv.base_size⟩, hv.ring,
      fun b hb hne c hc => hv.not_touching hb hne hc, hv.apart, hv.tiles⟩
  room e he := by
    obtain ⟨b, heb, hle⟩ := hg.room e he
    exact ⟨b, heb, by omega⟩

/-- In a run whose requests are not near the end of `size_t` every call returns, blocks
never overlap and have room, and a request that is refused changes nothing. -/
theorem malloc_keeps (lay : Layout) (acts : List Act)
    (hacts : AllSteps (step lay) (fun s act => Legal lay s act ∧ Fits lay act) init acts) :
    ∃ s, run (step lay) init acts = some s ∧ Keeps lay s ∧
      ∀ nbytes replies s', lay.fits nbytes →
        Fresh lay s (lay.request (lay.nunits nbytes)) replies →
        s.sharedMalloc lay nbytes replies = some (s', none) → s' = s := by
  have hstep : ∀ (s : State) (act : Act), Good lay s → Legal lay s act ∧ Fits lay act →
      ∃ s', step lay s act = some s' ∧ Good lay s' := fun s act hg hl => good_step hg hl.1 hl.2
  obtain ⟨s, hrun, hg⟩ := run_total_of hstep good_init hacts
  refine ⟨s, hrun, hg.keeps, ?_⟩
  intro nbytes replies s' hf hfresh heq
  obtain ⟨s₂, r, heq₂, -, hsame⟩ := hg.sharedMalloc hf hfresh
  cases heq.symm.trans heq₂
  exact hsame rfl

instance (a n : Nat) (c : Chunk) : Decidable (Apart a n c) := inferInstanceAs (Decidable (_ ∨ _))

instance (lay : Layout) (s : State) (request : Nat) (replies : List Reply) :
    Decidable (Fresh lay s request replies) := inferInstanceAs (Decidable (_ ∧ _))

instance (lay : Layout) (s : State) : ∀ act, Decidable (Legal lay s act)
  | .openPool _ => inferInstanceAs (Decidable (_ ∧ _))
  | .malloc .. | .calloc .. | .callocArray .. => inferInstanceAs (Decidable (Fresh ..))
  | .free _ => inferInstanceAs (Decidable (_ ∨ _))

instance (lay : Layout) (nbytes : Nat) : Decidable (lay.fits nbytes) :=
  inferInstanceAs (Decidable (_ < _))

instance (lay : Layout) : ∀ act, Decidable (Fits lay act)
  | .malloc .. | .calloc .. | .callocArray .. => inferInstanceAs (Decidable (_ < _))
  | .openPool _ | .free _ => inferInstanceAs (Decidable True)

/-- Headers of 32 bytes, and `size_t` of 64 bits. -/
def wide : Layout := ⟨32, 1120, 2 ^ 64, by decide, by decide⟩

/-- The control block's chunk has room for one request; for the next the pool grows, the
third finds no room, and the blocks are freed. -/
def growFree : List Act :=
  [.openPool (some (4096, 1300)), .malloc 100 [], .callocArray 10 20 [some (65536, 4096)],
    .malloc 8000 [none], .free 5248, .calloc 10 [], .free 69408, .free 0]

theorem malloc_keeps_growFree : ∃ s, run (step wide) init growFree = some s ∧ Keeps wide s ∧
    ∀ nbytes replies s', wide.fits nbytes →
      Fresh wide s (wide.request (wide.nunits nbytes)) replies →
      s.sharedMalloc wide nbytes replies = some (s', none) → s' = s :=
  malloc_keeps wide growFree (by decide +kernel)

/-- No free block has memory of the pool beside it. -/
def Whole (lay : Layout) (s : State) (cb : Nat) : Prop :=
  ∃ S, FreeList lay s cb S ∧ ∀ b ∈ S, b ≠ lay.base cb →
    b + s.heap.size b * lay.header ∉ region lay s.chunks ∧ ∀ x, x + 1 = b → x ∉ region lay s.chunks

/-- **Nothing stays in pieces**: when everything has been freed, the free blocks are whole. -/
theorem freed_whole (lay : Layout) {acts : List Act} {s : State} {cb : Nat}
    (hacts : AllSteps (step lay) (fun s act => Legal lay s act ∧ Fits lay act) init acts)
    (hrun : run (step lay) init acts = some s) (hnone : s.allocated = []) (hcb : s.cb = some cb) :
    Whole lay s cb := by
  obtain ⟨t, ht, hg⟩ := run_total_of (fun s act hg hl => good_step hg hl.1 hl.2) good_init hacts
  cases hrun.symm.trans ht
  obtain ⟨S, hfree⟩ := hg.keeps.list cb hcb
  have htiles := hfree.tiles
  have hblocks : s.blocks lay = ∅ := by simp [State.blocks, hnone]
  rw [hblocks, Set.union_empty] at htiles
  exact ⟨S, hfree, fun b hb hne => htiles.isolated ⟨hb, hne⟩
    fun c hc d hd => hfree.unmerged c hc.1 hc.2 d hd.1⟩

/-- Two blocks are freed, the first one first. -/
def freedActs : List Act := [.openPool (some (4096, 8192)), .malloc 100 [], .malloc 50 [],
  .free 12160, .free 12064]

theorem freed_whole_two : ∃ s, run (step wide) init freedActs = some s ∧ Whole wide s 4096 := by
  have hex : (run (step wide) init freedActs).map (fun s => (s.allocated, s.cb)) =
      some ([], some 4096) := by decide_cbv
  obtain ⟨s, hrun, heq⟩ := map_eq_some_iff.mp hex
  obtain ⟨hnone, hcb⟩ := Prod.mk.injEq .. ▸ heq
  exact ⟨s, hrun, freed_whole wide (by decide +kernel) hrun hnone hcb⟩

def largest : List Act := [.openPool (some (4096, 8192)), .malloc (2 ^ 64 - 1) []]

/-- Its size in headers is computed as 1, so it gets the last header of the chunk. -/
theorem no_room : ¬∀ (acts : List Act) (s : State), AllSteps (step wide) (Legal wide) init acts →
    run (step wide) init acts = some s → Keeps wide s := by
  intro hall
  have hex : (run (step wide) init largest).map (fun s => (s.allocated, s.heap.size 12256)) =
      some ([(12288, 2 ^ 64 - 1)], 1) := by decide_cbv
  obtain ⟨s, hrun, heq⟩ := map_eq_some_iff.mp hex
  obtain ⟨halloc, hsize⟩ := Prod.mk.injEq .. ▸ heq
  have hkeeps := hall _ s (by decide +kernel) hrun
  obtain ⟨b, hb, hroom⟩ := hkeeps.room (12288, 2 ^ 64 - 1) (by rw [halloc]; exact .head _)
  have hb' : b = 12256 := by
    change 12288 = b + 32 at hb
    omega
  rw [hb', hsize] at hroom
  exact absurd hroom (by decide)

end Atcd.Malloc
