import Mathlib
/-!
# Rings in ascending order

A ring of numbers each of which points to the next greater one, the greatest to the least
(`CycSucc`). A walk along the ring to one of its elements `t` comes nearer to it at every
step (`nearer`), so that it gets there within as many steps as there are elements.

Results:
- `SortedRing.insert`, `SortedRing.remove`: what the writes of an insertion and a removal do;
- `SortedRing.steps_next`, `steps_lt`: a walk gets nearer, and is never long;
- `SortedRing.exists_gap`: every number that is not in the ring belongs somewhere.
-/
namespace Atcd.Core

open Finset Function

variable {S : Finset Nat} {next : Nat → Nat} {b c t x : Nat}

/-- `c` comes after `b` in the ring of `S`. -/
def CycSucc (S : Finset Nat) (b c : Nat) : Prop :=
  c ∈ S ∧ (b < c ∧ (∀ d ∈ S, d ≤ b ∨ c ≤ d) ∨ c ≤ b ∧ ∀ d ∈ S, c ≤ d ∧ d ≤ b)

def SortedRing (S : Finset Nat) (next : Nat → Nat) : Prop := ∀ b ∈ S, CycSucc S b (next b)

/-- `x` belongs between `b` and its successor `c`. -/
def Gap (b c x : Nat) : Prop := b < x ∧ x < c ∨ c ≤ b ∧ (b < x ∨ x < c)

/-- Going up from `b` to `t`, around the end if need be, one comes past `x`. -/
def nearer (t b x : Nat) : Prop := if b ≤ t then b < x ∧ x ≤ t else b < x ∨ x ≤ t

instance : Decidable (nearer t b x) :=
  inferInstanceAs (Decidable (if b ≤ t then _ ∧ _ else _ ∨ _))

theorem not_nearer_self : ¬nearer t b b := by
  unfold nearer
  split <;> omega

theorem not_nearer_end : ¬nearer t t x := by
  unfold nearer
  rw [if_pos (Nat.le_refl t)]
  omega

theorem nearer_next (hb : CycSucc S b c) (ht : t ∈ S) (hne : b ≠ t) (hx : x ∈ S) :
    nearer t b x ↔ x = c ∨ nearer t c x := by
  obtain ⟨hc, ⟨hlt, hall⟩ | ⟨hle, hall⟩⟩ := hb
  · have hxs := hall x hx
    have hts := hall t ht
    unfold nearer
    split <;> split <;> omega
  · have hxs := hall x hx
    have hts := hall t ht
    unfold nearer
    split <;> split <;> omega

/-- The walk from the element after `t` comes past all. -/
theorem nearer_first (hb : CycSucc S t c) (hx : x ∈ S) : x = c ∨ nearer t c x := by
  obtain ⟨hc, ⟨hlt, hall⟩ | ⟨hle, hall⟩⟩ := hb
  · have hxs := hall x hx
    unfold nearer
    split <;> omega
  · have hxs := hall x hx
    unfold nearer
    split <;> omega

/-- How far it is from `b` to `t`. -/
def steps (S : Finset Nat) (t b : Nat) : Nat := (S.filter (nearer t b)).card

theorem steps_lt (hb : b ∈ S) : steps S t b < S.card := by
  refine card_lt_card (filter_ssubset.mpr ⟨b, hb, not_nearer_self⟩)

namespace SortedRing

theorem next_mem (h : SortedRing S next) (hb : b ∈ S) : next b ∈ S := (h b hb).1

theorem steps_next (h : SortedRing S next) (hb : b ∈ S) (ht : t ∈ S) (hne : b ≠ t) :
    steps S t (next b) < steps S t b := by
  have hc := h b hb
  refine card_lt_card ⟨?_, ?_⟩
  · intro x hx
    obtain ⟨hxS, hnear⟩ := mem_filter.mp hx
    exact mem_filter.mpr ⟨hxS, (nearer_next hc ht hne hxS).mpr (.inr hnear)⟩
  · intro hsub
    have hmem : next b ∈ S.filter (nearer t b) :=
      mem_filter.mpr ⟨hc.1, (nearer_next hc ht hne hc.1).mpr (.inl rfl)⟩
    exact not_nearer_self (mem_filter.mp (hsub hmem)).2

theorem next_inj (h : SortedRing S next) (hb : b ∈ S) (hc : c ∈ S) (he : next b = next c) :
    b = c := by
  obtain ⟨-, hb'⟩ := h b hb
  obtain ⟨-, hc'⟩ := h c hc
  rcases hb' with ⟨h1, h2⟩ | ⟨h1, h2⟩ <;> rcases hc' with ⟨h3, h4⟩ | ⟨h3, h4⟩
  · have := h2 c hc
    have := h4 b hb
    omega
  · have := h2 c hc
    have := h4 b hb
    omega
  · have := h2 c hc
    omega
  · have := h2 c hc
    have := h4 b hb
    omega

/-- Where the ring has more than one element, no element is its own successor. -/
theorem next_ne (h : SortedRing S next) (hb : b ∈ S) (hc : c ∈ S) (hne : c ≠ b) :
    next b ≠ b := by
  obtain ⟨-, hb'⟩ := h b hb
  rcases hb' with ⟨h1, -⟩ | ⟨-, h2⟩
  · omega
  · have := h2 c hc
    omega

theorem insert (h : SortedRing S next) (hb : b ∈ S) (hx : x ∉ S) (hgap : Gap b (next b) x) :
    SortedRing (insert x S) (update (update next x (next b)) b x) := by
  obtain ⟨hn, hs⟩ := h b hb
  intro d hd
  by_cases hdb : d = b
  · subst hdb
    rw [update_self]
    refine ⟨mem_insert_self x S, ?_⟩
    rcases hgap with hg | hg
    · refine .inl ⟨hg.1, fun e he => ?_⟩
      rcases mem_insert.mp he with rfl | he
      · exact .inr (Nat.le_refl _)
      · rcases hs with ⟨-, hall⟩ | ⟨hle, -⟩
        · have := hall e he
          omega
        · omega
    · rcases hs with ⟨hlt, -⟩ | ⟨-, hall⟩
      · omega
      · by_cases hlt : d < x
        · refine .inl ⟨hlt, fun e he => ?_⟩
          rcases mem_insert.mp he with rfl | he
          · exact .inr (Nat.le_refl _)
          · exact .inl (hall e he).2
        · refine .inr ⟨by omega, fun e he => ?_⟩
          rcases mem_insert.mp he with rfl | he
          · omega
          · have := hall e he
            omega
  · rw [update_of_ne hdb]
    by_cases hdx : d = x
    · subst hdx
      rw [update_self]
      refine ⟨mem_insert_of_mem hn, ?_⟩
      rcases hgap with hg | hg
      · refine .inl ⟨hg.2, fun e he => ?_⟩
        rcases mem_insert.mp he with rfl | he
        · exact .inl (Nat.le_refl _)
        · rcases hs with ⟨-, hall⟩ | ⟨hle, -⟩
          · have := hall e he
            omega
          · omega
      · rcases hs with ⟨hlt, -⟩ | ⟨-, hall⟩
        · omega
        · by_cases hlt : d < next b
          · refine .inl ⟨hlt, fun e he => ?_⟩
            rcases mem_insert.mp he with rfl | he
            · exact .inl (Nat.le_refl _)
            · exact .inr (hall e he).1
          · refine .inr ⟨by omega, fun e he => ?_⟩
            rcases mem_insert.mp he with rfl | he
            · omega
            · have := hall e he
              omega
    · rw [update_of_ne hdx]
      have hdS := (mem_insert.mp hd).resolve_left hdx
      obtain ⟨hm, hsd⟩ := h d hdS
      refine ⟨mem_insert_of_mem hm, ?_⟩
      rcases hsd with ⟨hlt, hall⟩ | ⟨hle, hall⟩
      · refine .inl ⟨hlt, fun e he => ?_⟩
        rcases mem_insert.mp he with rfl | he
        · have := hall b hb
          rcases hs with ⟨hbn, hs⟩ | ⟨hbn, hs⟩
          · have := hs d hdS
            rcases hgap with hg | hg <;> omega
          · have := hs d hdS
            rcases hgap with hg | hg <;> omega
        · exact hall e he
      · refine .inr ⟨hle, fun e he => ?_⟩
        rcases mem_insert.mp he with rfl | he
        · have := hall b hb
          rcases hs with ⟨hbn, hs⟩ | ⟨hbn, hs⟩
          · have := hs d hdS
            rcases hgap with hg | hg <;> omega
          · have := hs d hdS
            rcases hgap with hg | hg <;> omega
        · exact hall e he

theorem remove (h : SortedRing S next) (hb : b ∈ S) (hne : next b ≠ b) :
    SortedRing (S.erase (next b)) (update next b (next (next b))) := by
  obtain ⟨hn, hs⟩ := h b hb
  obtain ⟨hnn, hs'⟩ := h _ hn
  intro d hd
  obtain ⟨hdn, hdS⟩ := mem_erase.mp hd
  by_cases hdb : d = b
  · subst hdb
    rw [update_self]
    have hnn' : next (next d) ≠ next d := h.next_ne hn hdS hne.symm
    refine ⟨mem_erase.mpr ⟨hnn', hnn⟩, ?_⟩
    by_cases hlt : d < next (next d)
    · refine .inl ⟨hlt, fun e he => ?_⟩
      obtain ⟨hen, heS⟩ := mem_erase.mp he
      rcases hs with ⟨h1, hs⟩ | ⟨h1, hs⟩ <;> rcases hs' with ⟨h2, hs'⟩ | ⟨h2, hs'⟩
      · have := hs e heS
        have := hs' e heS
        omega
      · have := hs e heS
        omega
      · have := hs e heS
        omega
      · have := hs e heS
        omega
    · refine .inr ⟨by omega, fun e he => ?_⟩
      obtain ⟨hen, heS⟩ := mem_erase.mp he
      rcases hs with ⟨h1, hs⟩ | ⟨h1, hs⟩ <;> rcases hs' with ⟨h2, hs'⟩ | ⟨h2, hs'⟩
      · have := hs e heS
        omega
      · have := hs e heS
        have := hs' e heS
        omega
      · have := hs e heS
        have := hs' e heS
        omega
      · have := hs e heS
        omega
  · rw [update_of_ne hdb]
    obtain ⟨hm, hsd⟩ := h d hdS
    have hne' : next d ≠ next b := fun he => hdb (h.next_inj hdS hb he)
    refine ⟨mem_erase.mpr ⟨hne', hm⟩, ?_⟩
    rcases hsd with ⟨hlt, hall⟩ | ⟨hle, hall⟩
    · exact .inl ⟨hlt, fun e he => hall e (mem_of_mem_erase he)⟩
    · exact .inr ⟨hle, fun e he => hall e (mem_of_mem_erase he)⟩

theorem exists_gap (h : SortedRing S next) (hb : b ∈ S) (hx : x ∉ S) :
    ∃ t ∈ S, Gap t (next t) x := by
  by_cases hbelow : ∃ y ∈ S, y < x
  · obtain ⟨y, hy, hlt⟩ := hbelow
    obtain ⟨t, ht, hmax⟩ := (S.filter (· < x)).exists_max_image id
      ⟨y, mem_filter.mpr ⟨hy, hlt⟩⟩
    obtain ⟨htS, htx⟩ := mem_filter.mp ht
    refine ⟨t, htS, ?_⟩
    obtain ⟨hn, ⟨hlt', -⟩ | ⟨hle, -⟩⟩ := h t htS
    · left
      refine ⟨htx, ?_⟩
      by_contra hge
      have hne : next t ≠ x := by
        rintro rfl
        exact hx hn
      have := hmax (next t) (mem_filter.mpr ⟨hn, by omega⟩)
      dsimp only [id] at this
      omega
    · exact .inr ⟨hle, .inl htx⟩
  · obtain ⟨t, ht, hmax⟩ := S.exists_max_image id ⟨b, hb⟩
    refine ⟨t, ht, .inr ?_⟩
    obtain ⟨hn, ⟨hlt', -⟩ | ⟨hle, -⟩⟩ := h t ht
    · have := hmax _ hn
      dsimp only [id] at this
      omega
    · refine ⟨hle, .inr ?_⟩
      by_contra hge
      have hne : next t ≠ x := by
        rintro rfl
        exact hx hn
      exact hbelow ⟨next t, hn, by omega⟩

end SortedRing

end Atcd.Core
