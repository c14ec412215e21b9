import Mathlib
/-!
# Blocks that tile a region

Blocks are intervals of addresses, from where they start for their length. They tile a
region when they do not overlap and together are the region. A block can be added beside
the region, two that touch can be joined, and one can be cut.

Results:
- `Tiles.add`, `Tiles.join`, `Tiles.cut`: these keep the tiling;
- `Tiles.outside`: where a block is that has to be beside an interval.
-/
namespace Atcd.Core

structure Tiles (B : Set Nat) (len : Nat → Nat) (R : Set Nat) : Prop where
  pos : ∀ b ∈ B, 0 < len b
  apart : ∀ b ∈ B, ∀ c ∈ B, b < c → b + len b ≤ c
  cover : ∀ x, x ∈ R ↔ ∃ b ∈ B, b ≤ x ∧ x < b + len b

namespace Tiles

variable {B B' : Set Nat} {len len' : Nat → Nat} {R : Set Nat} {a b c n : Nat}

theorem congr (h : Tiles B len R) (hB : B' = B) (hlen : ∀ b ∈ B, len' b = len b) :
    Tiles B' len' R := by
  subst hB
  refine ⟨fun b hb => ?_, fun b hb c hc hlt => ?_, fun x => ?_⟩
  · rw [hlen b hb]
    exact h.pos b hb
  · rw [hlen b hb]
    exact h.apart b hb c hc hlt
  · rw [h.cover x]
    constructor
    · rintro ⟨b, hb, hx⟩
      exact ⟨b, hb, by rwa [hlen b hb]⟩
    · rintro ⟨b, hb, hx⟩
      exact ⟨b, hb, by rwa [hlen b hb] at hx⟩

theorem mem (h : Tiles B len R) (hb : b ∈ B) {x : Nat} (hle : b ≤ x) (hlt : x < b + len b) :
    x ∈ R := (h.cover x).mpr ⟨b, hb, hle, hlt⟩

/-- A block is before or behind an interval that is outside the region. -/
theorem outside (h : Tiles B len R) (hb : b ∈ B) {lo hi : Nat} (hlo : lo < hi)
    (hout : ∀ x, lo ≤ x → x < hi → x ∉ R) : b + len b ≤ lo ∨ hi ≤ b := by
  by_contra hno
  have hpos := h.pos b hb
  by_cases hle : lo ≤ b
  · exact hout b hle (by omega) (h.mem hb (Nat.le_refl b) (by omega))
  · exact hout lo (Nat.le_refl lo) hlo (h.mem hb (by omega) (by omega))

theorem not_within (h : Tiles B len R) (hb : b ∈ B) (hlt : b < c) (hend : c < b + len b) :
    c ∉ B := by
  intro hc
  have := h.apart b hb c hc hlt
  omega

/-- A block beside the region. -/
theorem add (h : Tiles B len R) (hpos : 0 < len a) (hout : ∀ x, a ≤ x → x < a + len a → x ∉ R) :
    Tiles (insert a B) len (R ∪ {x | a ≤ x ∧ x < a + len a}) := by
  have hbeside : ∀ b ∈ B, b + len b ≤ a ∨ a + len a ≤ b :=
    fun b hb => h.outside hb (by omega) hout
  refine ⟨?_, ?_, ?_⟩
  · rintro b (rfl | hb)
    · exact hpos
    · exact h.pos b hb
  · rintro b (rfl | hb) c (rfl | hc) hlt
    · omega
    · have hpc := h.pos c hc
      rcases hbeside c hc with h1 | h1
      · omega
      · exact h1
    · rcases hbeside b hb with h1 | h1
      · exact h1
      · omega
    · exact h.apart b hb c hc hlt
  · intro x
    constructor
    · rintro (hx | hx)
      · obtain ⟨b, hb, hx⟩ := (h.cover x).mp hx
        exact ⟨b, .inr hb, hx⟩
      · exact ⟨a, .inl rfl, hx⟩
    · rintro ⟨b, rfl | hb, hx⟩
      · exact .inr hx
      · exact .inl (h.mem hb hx.1 hx.2)

theorem join (h : Tiles B len R) (hb : b ∈ B) (hc : c ∈ B) (hbc : b + len b = c)
    (hlen : len' b = len b + len c) (hother : ∀ d ∈ B, d ≠ b → d ≠ c → len' d = len d) :
    Tiles (B \ {c}) len' R := by
  have hpb := h.pos b hb
  refine ⟨?_, ?_, ?_⟩
  · rintro d ⟨hd, hdc⟩
    by_cases hdb : d = b
    · subst hdb
      omega
    · rw [hother d hd hdb hdc]
      exact h.pos d hd
  · rintro d ⟨hd, hdc⟩ e ⟨he, hec⟩ hlt
    by_cases hdb : d = b
    · subst hdb
      have h1 := h.apart d hb e he hlt
      have hec' : e ≠ c := hec
      have h2 := h.apart c hc e he (by omega)
      omega
    · rw [hother d hd hdb hdc]
      exact h.apart d hd e he hlt
  · intro x
    rw [h.cover x]
    constructor
    · rintro ⟨d, hd, hx⟩
      by_cases hdb : d = b
      · subst hdb
        exact ⟨d, ⟨hd, fun he => by
          have he' : d = c := he
          omega⟩, by omega⟩
      · by_cases hdc : d = c
        · subst hdc
          exact ⟨b, ⟨hb, fun he => by
            have he' : b = d := he
            omega⟩, by omega⟩
        · exact ⟨d, ⟨hd, hdc⟩, by rwa [hother d hd hdb hdc]⟩
    · rintro ⟨d, ⟨hd, hdc⟩, hx⟩
      by_cases hdb : d = b
      · subst hdb
        by_cases hxc : x < c
        · exact ⟨d, hd, by omega⟩
        · exact ⟨c, hc, by omega⟩
      · rw [hother d hd hdb hdc] at hx
        exact ⟨d, hd, hx⟩

/-- The end of a block is cut off. -/
theorem cut (h : Tiles B len R) (hb : b ∈ B) (hn : 0 < n) (hlt : n < len b)
    (hc : c = b + (len b - n)) (hlen : len' b = len b - n) (hnew : len' c = n)
    (hother : ∀ d ∈ B, d ≠ b → len' d = len d) : Tiles (insert c B) len' R := by
  refine ⟨?_, ?_, ?_⟩
  · rintro d (rfl | hd)
    · omega
    · by_cases hdb : d = b
      · subst hdb
        omega
      · rw [hother d hd hdb]
        exact h.pos d hd
  · rintro d (rfl | hd) e (rfl | he) hde
    · omega
    · have := h.apart b hb e he (by omega)
      omega
    · by_cases hdb : d = b
      · subst hdb
        omega
      · rw [hother d hd hdb]
        rcases Nat.lt_or_gt_of_ne hdb with h1 | h1
        · have := h.apart d hd b hb h1
          omega
        · have := h.apart b hb d hd h1
          omega
    · by_cases hdb : d = b
      · subst hdb
        have := h.apart d hd e he hde
        omega
      · rw [hother d hd hdb]
        exact h.apart d hd e he hde
  · intro x
    rw [h.cover x]
    constructor
    · rintro ⟨d, hd, hx⟩
      by_cases hdb : d = b
      · subst hdb
        by_cases hxc : x < c
        · exact ⟨d, .inr hd, by omega⟩
        · exact ⟨c, .inl rfl, by omega⟩
      · exact ⟨d, .inr hd, by rwa [hother d hd hdb]⟩
    · rintro ⟨d, rfl | hd, hx⟩
      · exact ⟨b, hb, by omega⟩
      · by_cases hdb : d = b
        · subst hdb
          exact ⟨d, hd, by omega⟩
        · rw [hother d hd hdb] at hx
          exact ⟨d, hd, hx⟩

/-- When no block ends where another one begins, each is a whole stretch of the region. -/
theorem isolated (h : Tiles B len R) (hb : b ∈ B) (hun : ∀ b ∈ B, ∀ c ∈ B, b + len b ≠ c) :
    b + len b ∉ R ∧ ∀ x, x + 1 = b → x ∉ R := by
  constructor
  · intro hr
    obtain ⟨c, hc, hle, hlt⟩ := (h.cover _).mp hr
    rcases Nat.lt_trichotomy c b with hcb | rfl | hbc
    · have := h.apart c hc b hb hcb
      have := h.pos b hb
      omega
    · omega
    · have := h.apart b hb c hc hbc
      exact hun b hb c hc (by omega)
  · rintro x rfl hr
    obtain ⟨c, hc, hle, hlt⟩ := (h.cover x).mp hr
    have := h.apart c hc (x + 1) hb (by omega)
    exact hun c hc (x + 1) hb (by omega)

end Tiles

end Atcd.Core
