import Atcd.Maps.HashMap
/-!
# The hash map is a finite map

The buckets are rings of their own entries, and all entries together are those of the map
that is to be implemented.

Results:
- `Shape.sharedFind`: a look-up finds the entry of the key or that there is none;
- `Shape.link`, `Shape.write`, `Shape.unlink`, `Shape.unbindAll`: what the four primitives do;
- `Shape.exec`: every call keeps the shape and returns what a finite map returns.
-/
namespace Atcd.Maps
open Atcd.Core List Function Option HashMap Table Nat

variable {K V : Type*} {c : Keys K} {s : HashMap c V} {L : Nat → List Nat} {i a entry : Nat}
  {k : K} {v : V} {e : K × V}

theorem Keys.cls_eq {k k' : K} : c.cls k = c.cls k' ↔ c.equal k k' = true :=
  ⟨fun h => Quotient.exact (s := c.setoid) h, fun h => Quotient.sound (s := c.setoid) h⟩

def order (total : Nat) (L : Nat → List Nat) : List Nat := (List.range total).flatMap L

/-- An entry as one of the finite map. -/
def entryOf (c : Keys K) (node : Nat → Option (K × V)) (a : Nat) : Option (c.Class × K × V) :=
  (node a).map fun e => (c.cls e.1, e)

/-- The buckets of `s` are the rings of `L`. -/
structure Shape (s : HashMap c V) (L : Nat → List Nat) : Prop where
  pos : 0 < s.total_size
  ring : ∀ i < s.total_size, s.links.Ring (.bucket i) ((L i).map .entry)
  home : ∀ i, ∀ a ∈ L i, i < s.total_size ∧
    ∃ e, s.node a = some e ∧ c.hash e.1 % s.total_size = i
  covers : ∀ a e, s.node a = some e → a ∈ L (c.hash e.1 % s.total_size)
  count : s.cur_size = (order s.total_size L).length
  perm : ((order s.total_size L).map (entryOf c s.node)).Perm (s.ref.map some)
  keys : s.ref.keys.Nodup

theorem order_update {total : Nat} (L : Nat → List Nat) (hi : i < total) :
    ∃ rest, ∀ x, (order total (update L i x)).Perm (x ++ rest) := by
  obtain ⟨l₁, l₂, heq⟩ := append_of_mem (mem_range.mpr hi)
  have hnodup := nodup_range (n := total)
  rw [heq] at hnodup
  have hmid := nodup_middle.mp hnodup
  obtain ⟨hnot, -⟩ := nodup_cons.mp hmid
  refine ⟨l₁.flatMap L ++ l₂.flatMap L, fun x => ?_⟩
  have hsame : ∀ l : List Nat, i ∉ l → l.flatMap (update L i x) = l.flatMap L := by
    intro l hl
    refine congrArg flatten (map_congr_left fun j hj => ?_)
    have hji : j ≠ i := by
      rintro rfl
      exact hl hj
    exact update_of_ne hji ..
  have hout := fun h => hnot (mem_append.mpr h)
  unfold order
  rw [heq, flatMap_append, flatMap_cons, update_self,
    hsame l₁ fun h => hout (.inl h), hsame l₂ fun h => hout (.inr h)]
  rw [← append_assoc, ← append_assoc]
  exact perm_append_comm.append_right _

namespace Shape

theorem mem_order (h : Shape s L) : a ∈ order s.total_size L ↔ ∃ e, s.node a = some e := by
  unfold order
  rw [mem_flatMap]
  constructor
  · rintro ⟨i, -, ha⟩
    obtain ⟨-, e, he, -⟩ := h.home i a ha
    exact ⟨e, he⟩
  · rintro ⟨e, he⟩
    exact ⟨_, mem_range.mpr (mod_lt _ h.pos), h.covers a e he⟩

theorem find_iff (h : Shape s L) {q : c.Class} :
    s.ref.find q = some e ↔ ∃ a, s.node a = some e ∧ c.cls e.1 = q := by
  have hmem : (q, e) ∈ s.ref ↔ ∃ a ∈ order s.total_size L, entryOf c s.node a = some (q, e) := by
    rw [← List.mem_map, h.perm.mem_iff, List.mem_map]
    simp
  constructor
  · intro hf
    obtain ⟨a, -, ha⟩ := hmem.mp (mem_of_find hf)
    obtain ⟨e', he', heq⟩ := map_eq_some_iff.mp ha
    cases heq
    exact ⟨a, he', rfl⟩
  · rintro ⟨a, ha, rfl⟩
    refine find_of_mem h.keys (hmem.mpr ⟨a, h.mem_order.mpr ⟨e, ha⟩, ?_⟩)
    rw [entryOf, ha, map_some]

theorem find_node (h : Shape s L) (ha : s.node a = some e) : s.ref.find (c.cls e.1) = some e :=
  h.find_iff.mpr ⟨a, ha, rfl⟩

theorem keys_nodup (h : Shape s L) :
    ((order s.total_size L).map fun a => (s.node a).map fun e => c.cls e.1).Nodup := by
  have hkeys : ((s.ref.map some).map (Option.map Prod.fst)).Nodup := by
    rw [List.map_map]
    have := h.keys.map (some_injective _)
    rwa [Table.keys, List.map_map] at this
  have hperm := (h.perm.map (Option.map Prod.fst)).nodup_iff.mpr hkeys
  rw [List.map_map] at hperm
  refine (map_congr_left fun a _ => ?_) ▸ hperm
  simp [entryOf, comp_def]

theorem nodup (h : Shape s L) : (order s.total_size L).Nodup := h.keys_nodup.of_map _

theorem unique (h : Shape s L) {b : Nat} {e' : K × V} (ha : s.node a = some e)
    (hb : s.node b = some e') (heq : c.cls e.1 = c.cls e'.1) : a = b := by
  refine inj_on_of_nodup_map h.keys_nodup (h.mem_order.mpr ⟨e, ha⟩)
    (h.mem_order.mpr ⟨e', hb⟩) ?_
  rw [ha, hb, map_some, map_some, heq]

theorem bucket_of (h : Shape s L) (ha : a ∈ L i) (he : s.node a = some e) :
    c.hash e.1 % s.total_size = i := by
  obtain ⟨-, e', he', hi⟩ := h.home i a ha
  cases he.symm.trans he'
  exact hi

theorem disjoint (h : Shape s L) {j : Nat} (hi : a ∈ L i) (hj : a ∈ L j) : i = j := by
  obtain ⟨-, e, he, hhash⟩ := h.home i a hi
  exact hhash.symm.trans (h.bucket_of hj he)

theorem length_le (h : Shape s L) (hi : i < s.total_size) : (L i).length ≤ s.cur_size := by
  rw [h.count]
  exact (sublist_flatten_of_mem (mem_map.mpr ⟨i, mem_range.mpr hi, rfl⟩)).length_le

/-! ## Finding -/

/-- The loop along the rest of a bucket. -/
theorem findFrom {loc fuel : Nat} {p : Ptr} {l : List Nat}
    (hpath : s.links.Path (p :: l.map .entry ++ [.bucket loc]))
    (hnode : ∀ a ∈ l, ∃ e, s.node a = some e) (hfuel : l.length < fuel) :
    s.findFrom k loc fuel (s.links.next p) =
      some (l.find? fun a => (s.node a).any fun e => c.equal e.1 k) := by
  induction l generalizing p fuel with
  | nil =>
    obtain ⟨fuel, rfl⟩ := exists_eq_succ_of_ne_zero (Nat.ne_of_gt hfuel)
    have hnext : s.links.next p = .bucket loc := (isChain_cons_cons.mp hpath).1.1
    rw [hnext]
    exact if_pos rfl
  | cons a l ih =>
    obtain ⟨fuel, rfl⟩ := exists_eq_succ_of_ne_zero (Nat.ne_of_gt (Nat.lt_of_le_of_lt
      (zero_le _) hfuel))
    obtain ⟨hpa, hrest⟩ := isChain_cons_cons.mp hpath
    obtain ⟨e, he⟩ := hnode a mem_cons_self
    have hnext : s.links.next p = .entry a := hpa.1
    rw [hnext, HashMap.findFrom, if_neg nofun, find?_cons, he, bind_some, any_some]
    cases heq : c.equal e.1 k with
    | true => rfl
    | false =>
      exact ih hrest (fun b hb => hnode b (mem_cons_of_mem a hb))
        (lt_of_succ_lt_succ hfuel)

/-- **`shared_find`.** -/
theorem sharedFind (h : Shape s L) (k : K) (entry : Nat) :
    ∃ loc, loc = c.hash k % s.total_size ∧
      (s.ref.find (c.cls k) = none → s.sharedFind k entry = some (-1, entry, loc)) ∧
      ∀ e, s.ref.find (c.cls k) = some e →
        ∃ a, s.node a = some e ∧ s.sharedFind k entry = some (0, a, loc) := by
  have hloc : c.hash k % s.total_size < s.total_size := mod_lt _ h.pos
  have hfind := findFrom (k := k) (h.ring _ hloc).path (fun a ha =>
    let ⟨_, e, he, _⟩ := h.home _ a ha
    ⟨e, he⟩) (lt_add_one_of_le (h.length_le hloc))
  refine ⟨_, rfl, ?_, ?_⟩
  · intro hnone
    have hno : (L (c.hash k % s.total_size)).find? (fun a =>
        (s.node a).any fun e => c.equal e.1 k) = none := by
      refine find?_eq_none.mpr fun a ha hany => ?_
      obtain ⟨e, he, heq⟩ := (any_eq_true _ _).mp hany
      rw [← Keys.cls_eq.mpr heq, h.find_node he] at hnone
      cases hnone
    unfold HashMap.sharedFind
    rw [if_neg (Nat.ne_of_gt h.pos)]
    dsimp only
    rw [hfind, hno]
    rfl
  · intro e he
    obtain ⟨a, ha, hcls⟩ := h.find_iff.mp he
    have hequal := Keys.cls_eq.mp hcls
    have hmem : a ∈ L (c.hash k % s.total_size) := by
      have := h.covers a e ha
      rwa [c.respects _ _ hequal] at this
    have hsome : (L (c.hash k % s.total_size)).find? (fun a =>
        (s.node a).any fun e => c.equal e.1 k) = some a := by
      cases hfound : (L (c.hash k % s.total_size)).find? (fun a =>
        (s.node a).any fun e => c.equal e.1 k) with
      | none =>
        have hany := find?_eq_none.mp hfound a hmem
        rw [ha, any_some, hequal] at hany
        exact absurd rfl hany
      | some b =>
        have hb := find?_some hfound
        obtain ⟨e', he', heq'⟩ := (any_eq_true _ _).mp hb
        rw [h.unique he' ha ((Keys.cls_eq.mpr heq').trans hcls.symm)]
    refine ⟨a, ha, ?_⟩
    unfold HashMap.sharedFind
    rw [if_neg (Nat.ne_of_gt h.pos)]
    dsimp only
    rw [hfind, hsome]
    rfl

/-! ## The primitives -/

theorem split (h : Shape s L) (ha : s.node a = some e) {others : List Nat}
    (hperm : (order s.total_size L).Perm (a :: others)) :
    a ∉ others ∧ ∃ r₁ r₂, s.ref = r₁ ++ (c.cls e.1, e) :: r₂ ∧
      (∀ x ∈ r₁ ++ r₂, x.1 ≠ c.cls e.1) ∧
      (others.map (entryOf c s.node)).Perm ((r₁ ++ r₂).map some) := by
  have hnodup := hperm.nodup_iff.mp h.nodup
  obtain ⟨r₁, r₂, hr⟩ := append_of_mem (mem_of_find (h.find_node ha))
  have hkeys := h.keys
  rw [hr, Table.keys, map_append, map_cons] at hkeys
  obtain ⟨hnot, -⟩ := nodup_cons.mp (nodup_middle.mp hkeys)
  refine ⟨(nodup_cons.mp hnodup).1, r₁, r₂, hr, fun x hx he => ?_, ?_⟩
  · refine hnot ?_
    rw [← map_append]
    exact mem_map.mpr ⟨x, hx, he⟩
  · have hall := (hperm.map (entryOf c s.node)).symm.trans h.perm
    rw [hr, map_append, map_cons, map_cons] at hall
    have hmid := hall.trans perm_middle
    have hentry : entryOf c s.node a = some (c.cls e.1, e) := by
      rw [entryOf, ha, map_some]
    rw [hentry, ← map_append] at hmid
    exact hmid.cons_inv

theorem map_entryOf_update {others : List Nat} (ha : a ∉ others) (x : Option (K × V)) :
    others.map (entryOf c (update s.node a x)) = others.map (entryOf c s.node) := by
  refine map_congr_left fun b hb => ?_
  have hba : b ≠ a := fun he => ha (he ▸ hb)
  rw [entryOf, update_of_ne hba, entryOf]

/-- A bucket's pointers are not another's. -/
theorem apart (h : Shape s L) {j : Nat} (hij : j ≠ i) :
    ∀ z : Ptr, z = .bucket j ∨ z ∈ (L j).map Ptr.entry →
      z ≠ .bucket i ∧ z ∉ (L i).map Ptr.entry := by
  rintro z (rfl | hz)
  · refine ⟨fun he => hij (Ptr.bucket.inj he), fun hm => ?_⟩
    obtain ⟨b, -, hb⟩ := mem_map.mp hm
    cases hb
  · obtain ⟨b, hb, rfl⟩ := mem_map.mp hz
    refine ⟨nofun, fun hm => ?_⟩
    obtain ⟨b', hb', he⟩ := mem_map.mp hm
    cases he
    exact hij (h.disjoint hb hb')

/-- A new entry is put first in its bucket. -/
theorem link (h : Shape s L) (hnew : s.ref.find (c.cls k) = none) (ha : s.node a = none) (v : V) :
    Shape { s.link (c.hash k % s.total_size) a k v with
        ref := s.ref ++ [(c.cls k, k, v)] }
      (update L (c.hash k % s.total_size) (a :: L (c.hash k % s.total_size))) := by
  generalize hloc : c.hash k % s.total_size = loc
  have hlt : loc < s.total_size := hloc ▸ mod_lt _ h.pos
  have hfresh : ∀ i, a ∉ L i := by
    intro i hi
    obtain ⟨-, e, he, -⟩ := h.home i a hi
    rw [ha] at he
    cases he
  have hnot : a ∉ order s.total_size L := by
    intro hmem
    obtain ⟨e, he⟩ := h.mem_order.mp hmem
    rw [ha] at he
    cases he
  obtain ⟨rest, hrest⟩ := order_update L hlt
  have hold : (order s.total_size L).Perm (L loc ++ rest) := by
    have := hrest (L loc)
    rwa [update_eq_self] at this
  have horder : (order s.total_size (update L loc (a :: L loc))).Perm
      (a :: order s.total_size L) := (hrest _).trans (hold.symm.cons a)
  have hfreshEntry : Ptr.entry a ∉ (L loc).map Ptr.entry := by
    intro hm
    obtain ⟨b, hb, he⟩ := mem_map.mp hm
    cases he
    exact hfresh loc hb
  refine ⟨h.pos, ?_, ?_, ?_, ?_, ?_, ?_⟩
  · intro i hi
    by_cases hil : i = loc
    · subst hil
      rw [update_self]
      exact (h.ring i hlt).push nofun hfreshEntry
    · rw [update_of_ne hil]
      refine (h.ring loc hlt).push_frame (h.ring i hi) fun z hz => ?_
      obtain ⟨h1, h2⟩ := h.apart hil z hz
      refine ⟨h1, ?_, h2⟩
      rintro rfl
      rcases hz with hz | hz
      · cases hz
      · obtain ⟨b, hb, he⟩ := mem_map.mp hz
        cases he
        exact hfresh i hb
  · intro i b hb
    dsimp only [HashMap.link]
    by_cases hba : b = a
    · subst hba
      have hil : i = loc := by
        by_contra hil
        rw [update_of_ne hil] at hb
        exact hfresh i hb
      rw [update_self, hil]
      exact ⟨hlt, _, rfl, hloc⟩
    · rw [update_of_ne hba]
      refine h.home i b ?_
      by_cases hil : i = loc
      · subst hil
        rw [update_self] at hb
        exact (mem_cons.mp hb).resolve_left hba
      · rwa [update_of_ne hil] at hb
  · intro b e he
    dsimp only [HashMap.link] at he ⊢
    by_cases hba : b = a
    · subst hba
      rw [update_self] at he
      cases he
      rw [hloc, update_self]
      exact mem_cons_self
    · rw [update_of_ne hba] at he
      have hb := h.covers b e he
      by_cases hil : c.hash e.1 % s.total_size = loc
      · rw [hil] at hb ⊢
        rw [update_self]
        exact mem_cons_of_mem a hb
      · rwa [update_of_ne hil]
  · dsimp only [HashMap.link]
    rw [horder.length_eq, length_cons, h.count]
  · dsimp only [HashMap.link]
    refine (horder.map _).trans ?_
    rw [map_cons, map_entryOf_update hnot, map_append]
    have hentry : entryOf c (update s.node a (some (k, v))) a =
        some (c.cls k, k, v) := by
      rw [entryOf, update_self, map_some]
    rw [hentry]
    exact ((h.perm.cons _).trans (perm_append_singleton _ _).symm)
  · exact nodup_append_singleton h.keys hnew

theorem write (h : Shape s L) (ha : s.node a = some e) (hk : c.cls e.1 = c.cls k) (v : V) :
    Shape { s with
      node := update s.node a (some (k, v))
      ref := s.ref.set (c.cls k) (k, v) } L := by
  have hmem := h.mem_order.mpr ⟨e, ha⟩
  have horder := perm_cons_erase hmem
  obtain ⟨hnot, r₁, r₂, hr, hne, hperm⟩ := h.split ha horder
  have hhash : c.hash e.1 = c.hash k := c.respects _ _ (Keys.cls_eq.mp hk)
  have hsame : ∀ r : List (c.Class × K × V), (∀ x ∈ r, x.1 ≠ c.cls e.1) →
      r.map (fun x => if x.1 = c.cls k then (x.1, k, v) else x) = r := by
    intro r hr
    refine (map_congr_left fun x hx => ?_).trans (map_id r)
    rw [if_neg (hk ▸ hr x hx)]
    rfl
  have hset : s.ref.set (c.cls k) (k, v) = r₁ ++ (c.cls k, k, v) :: r₂ := by
    rw [hr, Table.set, map_append, map_cons, hsame r₁ fun x hx => hne x (mem_append_left r₂ hx),
      hsame r₂ fun x hx => hne x (mem_append_right r₁ hx), if_pos hk, hk]
  refine ⟨h.pos, h.ring, ?_, ?_, h.count, ?_, ?_⟩
  · intro i b hb
    obtain ⟨hi, e', he', hhash'⟩ := h.home i b hb
    refine ⟨hi, ?_⟩
    by_cases hba : b = a
    · subst hba
      cases ha.symm.trans he'
      exact ⟨_, update_self .., hhash ▸ hhash'⟩
    · exact ⟨e', (update_of_ne hba ..).trans he', hhash'⟩
  · intro b e' he'
    dsimp only at he' ⊢
    by_cases hba : b = a
    · subst hba
      rw [update_self] at he'
      cases he'
      exact hhash ▸ h.covers b e ha
    · rw [update_of_ne hba] at he'
      exact h.covers b e' he'
  · dsimp only
    rw [hset]
    refine (horder.map _).trans ?_
    rw [map_cons, map_entryOf_update hnot, entryOf, update_self, map_some, map_append, map_cons]
    refine (hperm.cons _).trans ?_
    rw [map_append]
    exact perm_middle.symm
  · have hkeys : Table.keys (s.ref.set (c.cls k) (k, v)) = s.ref.keys := by
      rw [hset, hr, Table.keys, Table.keys, map_append, map_append, map_cons, map_cons, hk]
    rw [hkeys]
    exact h.keys

/-- An entry is taken out of its bucket. -/
theorem unlink (h : Shape s L) (ha : s.node a = some e) : ∃ L', Shape { s with
      links := s.links.unlink (.entry a)
      node := update s.node a none
      cur_size := s.cur_size - 1
      ref := s.ref.unbind (c.cls e.1) } L' := by
  have hin := h.covers a e ha
  generalize hloc : c.hash e.1 % s.total_size = loc at hin
  have hlt : loc < s.total_size := hloc ▸ mod_lt _ h.pos
  obtain ⟨l₁, l₂, hl⟩ := append_of_mem hin
  obtain ⟨rest, hrest⟩ := order_update L hlt
  have hold : (order s.total_size L).Perm (a :: ((l₁ ++ l₂) ++ rest)) := by
    have := hrest (L loc)
    rw [update_eq_self, hl] at this
    exact this.trans (perm_middle.append_right rest)
  obtain ⟨hnot, r₁, r₂, hr, hne, hperm⟩ := h.split ha hold
  have hring := h.ring loc hlt
  rw [hl, map_append, map_cons] at hring
  have hsub : ∀ b, b ∈ l₁ ++ l₂ → b ∈ L loc ∧ b ≠ a := by
    intro b hb
    refine ⟨?_, fun he => hnot (mem_append_left rest (he ▸ hb))⟩
    rw [hl]
    rcases mem_append.mp hb with hb | hb
    · exact mem_append_left _ hb
    · exact mem_append_right _ (mem_cons_of_mem a hb)
  refine ⟨update L loc (l₁ ++ l₂), h.pos, ?_, ?_, ?_, ?_, ?_, ?_⟩
  · intro i hi
    by_cases hil : i = loc
    · subst hil
      rw [update_self, map_append]
      exact hring.unlink
    · rw [update_of_ne hil]
      refine hring.unlink_frame (h.ring i hi) fun z hz => ?_
      have hap := h.apart hil z hz
      rwa [hl, map_append, map_cons] at hap
  · intro i b hb
    dsimp only
    by_cases hil : i = loc
    · subst hil
      rw [update_self] at hb
      obtain ⟨hb, hba⟩ := hsub b hb
      rw [update_of_ne hba]
      exact h.home i b hb
    · rw [update_of_ne hil] at hb
      have hba : b ≠ a := by
        rintro rfl
        exact hil (h.disjoint hb hin)
      rw [update_of_ne hba]
      exact h.home i b hb
  · intro b e' he'
    dsimp only at he' ⊢
    have hba : b ≠ a := by
      rintro rfl
      rw [update_self] at he'
      cases he'
    rw [update_of_ne hba] at he'
    have hb := h.covers b e' he'
    by_cases hil : c.hash e'.1 % s.total_size = loc
    · rw [hil, hl] at hb
      rw [hil, update_self]
      rcases mem_append.mp hb with hb | hb
      · exact mem_append_left _ hb
      · exact mem_append_right _ ((mem_cons.mp hb).resolve_left hba)
    · rwa [update_of_ne hil]
  · dsimp only
    rw [h.count, hold.length_eq, (hrest _).length_eq, length_cons, Nat.add_sub_cancel]
  · dsimp only
    have hunbind : s.ref.unbind (c.cls e.1) = r₁ ++ r₂ := by
      have hsame : ∀ r : List (c.Class × K × V), (∀ x ∈ r, x.1 ≠ c.cls e.1) →
          r.filter (fun x => x.1 ≠ c.cls e.1) = r :=
        fun r hr => filter_eq_self.mpr fun x hx => decide_eq_true (hr x hx)
      rw [hr, unbind, filter_append, filter_cons,
        hsame r₁ fun x hx => hne x (mem_append_left r₂ hx),
        hsame r₂ fun x hx => hne x (mem_append_right r₁ hx)]
      simp
    rw [hunbind]
    refine ((hrest _).map _).trans ?_
    rw [map_entryOf_update hnot]
    exact hperm
  · exact nodup_unbind h.keys

/-! ## `unbind_all` -/

theorem freeFrom {links : Links Ptr} {l : List Nat} {p : Ptr} {fuel : Nat}
    {node : Nat → Option (K × V)} (hpath : links.Path (p :: l.map .entry ++ [.bucket i]))
    (hnode : ∀ a ∈ l, ∃ e, node a = some e) (hnodup : l.Nodup) (hfuel : l.length < fuel) :
    HashMap.freeFrom links i fuel (links.next p) node =
      some (fun a => if a ∈ l then none else node a) := by
  induction l generalizing p fuel node with
  | nil =>
    obtain ⟨fuel, rfl⟩ := exists_eq_succ_of_ne_zero (Nat.ne_of_gt hfuel)
    have hnext : links.next p = .bucket i := (isChain_cons_cons.mp hpath).1.1
    rw [hnext]
    simp [HashMap.freeFrom]
  | cons a l ih =>
    obtain ⟨fuel, rfl⟩ := exists_eq_succ_of_ne_zero (Nat.ne_of_gt (Nat.lt_of_le_of_lt
      (zero_le _) hfuel))
    obtain ⟨hpa, hrest⟩ := isChain_cons_cons.mp hpath
    obtain ⟨e, he⟩ := hnode a mem_cons_self
    obtain ⟨hnot, hl⟩ := nodup_cons.mp hnodup
    have hnext : links.next p = .entry a := hpa.1
    rw [hnext, HashMap.freeFrom, if_neg nofun, he, bind_some,
      ih hrest (fun b hb => ?_) hl (lt_of_succ_lt_succ hfuel)]
    · refine congrArg some (funext fun b => ?_)
      by_cases hba : b = a
      · subst hba
        simp [hnot]
      · simp [hba]
    · have hba : b ≠ a := by
        rintro rfl
        exact hnot hb
      rw [update_of_ne hba]
      exact hnode b (mem_cons_of_mem a hb)

theorem clearBuckets (h : Shape s L) {t : HashMap c V} {is : List Nat} (his : is.Nodup)
    (hlt : ∀ i ∈ is, i < s.total_size) (htotal : t.total_size = s.total_size)
    (hcur : t.cur_size = s.cur_size)
    (hring : ∀ i ∈ is, t.links.Ring (.bucket i) ((L i).map .entry))
    (hnode : ∀ i ∈ is, ∀ a ∈ L i, t.node a = s.node a) :
    ∃ t', t.clearBuckets is = some t' ∧ t'.total_size = s.total_size ∧
      (∀ i ∈ is, t'.links.Ring (.bucket i) []) ∧
      (∀ i, i ∉ is → t'.links.next (.bucket i) = t.links.next (.bucket i) ∧
        t'.links.prev (.bucket i) = t.links.prev (.bucket i)) ∧
      ∀ a, t'.node a = if ∃ i ∈ is, a ∈ L i then none else t.node a := by
  induction is generalizing t with
  | nil => exact ⟨t, rfl, htotal, nofun, fun _ _ => ⟨rfl, rfl⟩, fun a => by simp⟩
  | cons i is ih =>
    obtain ⟨hnot, his'⟩ := nodup_cons.mp his
    have hi := mem_cons_self (a := i) (l := is)
    have hri := hring i hi
    have hnodup : (L i).Nodup := (nodup_cons.mp hri.nodup).2.of_map _
    have hfree := freeFrom hri.path (fun a ha => by
      obtain ⟨-, e, he, -⟩ := h.home i a ha
      exact ⟨e, (hnode i hi a ha).trans he⟩) hnodup
      (lt_add_one_of_le (hcur ▸ h.length_le (hlt i hi)))
    have hother : ∀ j ∈ is, j ≠ i := fun j hj he => hnot (he ▸ hj)
    obtain ⟨t', heq, htotal', hring', hkeep', hnode'⟩ := ih (t := { t with
      links := ⟨update t.links.next (.bucket i) (.bucket i),
        update t.links.prev (.bucket i) (.bucket i)⟩
      node := fun a => if a ∈ L i then none else t.node a }) his'
      (fun j hj => hlt j (mem_cons_of_mem i hj)) htotal hcur (by
        intro j hj
        refine (hring j (mem_cons_of_mem i hj)).frame (fun z hz => ?_) fun z hz => ?_
        · exact update_of_ne (h.apart (hother j hj) z hz).1 ..
        · exact update_of_ne (h.apart (hother j hj) z hz).1 ..) (by
        intro j hj a ha
        dsimp only
        rw [if_neg fun hai => hother j hj (h.disjoint ha hai)]
        exact hnode j (mem_cons_of_mem i hj) a ha)
    refine ⟨t', ?_, htotal', ?_, ?_, ?_⟩
    · rw [HashMap.clearBuckets, hfree, bind_some]
      exact heq
    · intro j hj
      rcases mem_cons.mp hj with rfl | hj
      · obtain ⟨hn, hp⟩ := hkeep' j hnot
        refine .empty ⟨hn.trans (update_self ..), hp.trans (update_self ..)⟩
      · exact hring' j hj
    · intro j hj
      obtain ⟨hji, hjs⟩ := not_or.mp (mem_cons.not.mp hj)
      obtain ⟨hn, hp⟩ := hkeep' j hjs
      have hne : Ptr.bucket j ≠ .bucket i := fun he => hji (Ptr.bucket.inj he)
      exact ⟨hn.trans (update_of_ne hne ..), hp.trans (update_of_ne hne ..)⟩
    · intro a
      rw [hnode' a]
      by_cases h1 : a ∈ L i
      · simp [h1]
      · simp [h1]

theorem unbindAll (h : Shape s L) :
    ∃ t, s.unbindAllI = some t ∧ Shape ({ t with ref := [] } : HashMap c V) fun _ => [] := by
  obtain ⟨t, heq, htotal, hring, -, hnode⟩ := h.clearBuckets nodup_range
    (fun i hi => mem_range.mp hi) rfl rfl (fun i hi => h.ring i (mem_range.mp hi))
    fun _ _ _ _ => rfl
  have hnone : ∀ a, t.node a = none := by
    intro a
    rw [hnode a]
    split
    · rfl
    · next hno =>
      by_contra hne
      obtain ⟨e, he⟩ := ne_none_iff_exists'.mp hne
      exact hno ⟨_, mem_range.mpr (mod_lt _ h.pos), h.covers a e he⟩
  have horder : order t.total_size (fun _ => []) = [] := by simp [order]
  refine ⟨{ t with cur_size := 0 }, ?_, htotal ▸ h.pos, ?_, nofun, ?_, ?_, ?_, nodup_nil⟩
  · rw [unbindAllI, heq, map_some]
  · exact fun i hi => hring i (mem_range.mpr (htotal ▸ hi))
  · intro a e he
    exact absurd ((hnone a).symm.trans he) nofun
  · exact (congrArg length horder).symm
  · dsimp only
    rw [horder]
    exact Perm.nil

/-! ## The operations -/

/-- **`bind_i`** and `trybind_i`. -/
theorem bindI (h : Shape s L) (k : K) (v : V) (entry : Nat) (alloc : Option Nat) :
    (s.ref.find (c.cls k) = none ∧ alloc = none ∧ s.bindI k v entry alloc = some (s, -1, entry)) ∨
    (∃ a, s.ref.find (c.cls k) = none ∧ alloc = some a ∧
      s.bindI k v entry alloc = some (s.link (c.hash k % s.total_size) a k v, 0, a)) ∨
    ∃ a e, s.ref.find (c.cls k) = some e ∧ s.node a = some e ∧
      s.bindI k v entry alloc = some (s, 1, a) := by
  obtain ⟨loc, rfl, hnone, hsome⟩ := h.sharedFind k entry
  unfold HashMap.bindI
  cases hfound : s.ref.find (c.cls k) with
  | none =>
    rw [hnone hfound]
    cases alloc with
    | none => exact .inl ⟨rfl, rfl, rfl⟩
    | some a => exact .inr (.inl ⟨a, rfl, rfl, rfl⟩)
  | some e =>
    obtain ⟨a, ha, heq⟩ := hsome e hfound
    rw [heq]
    exact .inr (.inr ⟨a, e, rfl, ha, rfl⟩)

/-- **`rebind_i`.** -/
theorem rebindI (h : Shape s L) (k : K) (v : V) (entry : Nat) (alloc : Option Nat) :
    (s.ref.find (c.cls k) = none ∧ alloc = none ∧
      s.rebindI k v entry alloc = some (s, -1, entry, none)) ∨
    (∃ a, s.ref.find (c.cls k) = none ∧ alloc = some a ∧ s.rebindI k v entry alloc =
        some (s.link (c.hash k % s.total_size) a k v, 0, entry, none)) ∨
    ∃ a e, s.ref.find (c.cls k) = some e ∧ s.node a = some e ∧ s.rebindI k v entry alloc =
      some ({ s with node := update s.node a (some (k, v)) }, 1, a, some e) := by
  obtain ⟨loc, rfl, hnone, hsome⟩ := h.sharedFind k entry
  unfold HashMap.rebindI
  rcases h.bindI k v 0 alloc with ⟨hf, rfl, hb⟩ | ⟨a, hf, rfl, hb⟩ | ⟨a, e, hf, -, -⟩
  · rw [hnone hf, bind_some]
    dsimp only
    rw [if_pos rfl, hb]
    exact .inl ⟨hf, rfl, rfl⟩
  · rw [hnone hf, bind_some]
    dsimp only
    rw [if_pos rfl, hb]
    exact .inr (.inl ⟨a, hf, rfl, rfl⟩)
  · obtain ⟨b, hb, heq⟩ := hsome e hf
    rw [heq, bind_some]
    dsimp only
    rw [if_neg (by decide), hb]
    exact .inr (.inr ⟨b, e, hf, hb, rfl⟩)

/-- **`unbind_i`.** -/
theorem unbindI (h : Shape s L) (k : K) :
    (s.ref.find (c.cls k) = none ∧ s.unbindI k = some (s, -1, none)) ∨
    ∃ a e t, s.ref.find (c.cls k) = some e ∧ s.node a = some e ∧ s.unbindEntryI a = some t ∧
      s.unbindI k = some (t, 0, some e.2) := by
  obtain ⟨loc, rfl, hnone, hsome⟩ := h.sharedFind k 0
  unfold HashMap.unbindI
  cases hfound : s.ref.find (c.cls k) with
  | none =>
    rw [hnone hfound]
    exact .inl ⟨rfl, rfl⟩
  | some e =>
    obtain ⟨a, ha, heq⟩ := hsome e hfound
    rw [heq, bind_some]
    dsimp only
    rw [if_neg (by decide), ha, bind_some]
    have hunbind : s.unbindEntryI a = some _ := congrArg (Option.map _) ha
    rw [hunbind]
    exact .inr ⟨a, e, _, rfl, ha, hunbind, rfl⟩

theorem cls_of_find (h : Shape s L) (hf : s.ref.find (c.cls k) = some e) : c.cls e.1 = c.cls k :=
  let ⟨_, _, hcls⟩ := h.find_iff.mp hf
  hcls

/-- A new entry, with the map that has it. -/
theorem after_link (h : Shape s L) (hf : s.ref.find (c.cls k) = none) (ha : s.node a = none)
    (v : V) {ref : Table c.Class (K × V)} (href : ref = s.ref ++ [(c.cls k, k, v)]) :
    ∃ L', Shape { s.link (c.hash k % s.total_size) a k v with ref := ref } L' ∧
      (s.link (c.hash k % s.total_size) a k v).node a = some (k, v) ∧
      ref.find (c.cls k) = some (k, v) := by
  subst href
  have hl := h.link hf ha v
  have hnode : (s.link (c.hash k % s.total_size) a k v).node a = some (k, v) := update_self ..
  exact ⟨_, hl, hnode, hl.find_node hnode⟩

theorem after_unbind (h : Shape s L) (ha : s.node a = some e) :
    ∃ t L', s.unbindEntryI a = some t ∧
      Shape { t with ref := s.ref.unbind (c.cls e.1) } L' := by
  obtain ⟨L', hL'⟩ := h.unlink ha
  exact ⟨_, L', congrArg (Option.map _) ha, hL'⟩

/-! ## The finite map by what is found -/

theorem ref_bind_none (hf : s.ref.find (c.cls k) = none) (x : K × V) :
    s.ref.bind (c.cls k) x = s.ref ++ [(c.cls k, x)] := by
  rw [Table.bind, hf, isSome_none, if_neg Bool.false_ne_true]

theorem ref_bind_some (hf : s.ref.find (c.cls k) = some e) (x : K × V) :
    s.ref.bind (c.cls k) x = s.ref := by
  rw [Table.bind, hf, isSome_some, if_pos rfl]

theorem ref_rebind_none (hf : s.ref.find (c.cls k) = none) (x : K × V) :
    s.ref.rebind (c.cls k) x = s.ref ++ [(c.cls k, x)] := by
  rw [rebind, hf, isSome_none, if_neg Bool.false_ne_true]

theorem ref_rebind_some (hf : s.ref.find (c.cls k) = some e) (x : K × V) :
    s.ref.rebind (c.cls k) x = s.ref.set (c.cls k) x := by
  rw [rebind, hf, isSome_some, if_pos rfl]

theorem ref_set_none (hf : s.ref.find (c.cls k) = none) (x : K × V) :
    s.ref.set (c.cls k) x = s.ref := set_of_not_mem (find_eq_none.mp hf) x

theorem ref_unbind_none (hf : s.ref.find (c.cls k) = none) : s.ref.unbind (c.cls k) = s.ref := by
  refine filter_eq_self.mpr fun x hx => decide_eq_true fun he => ?_
  exact find_eq_none.mp hf (mem_map.mpr ⟨x, hx, he⟩)

/-! ## The families of overloads -/

theorem bound_fail : HashMap.bound (none : Option (K × V)) none = -1 := rfl

theorem bind_call (h : Shape s L) (k : K) (v : V) (entry : Nat) {alloc : Option Nat}
    (hfresh : ∀ a ∈ alloc, s.node a = none) : ∃ t x L', s.bindI k v entry alloc =
        some (t, HashMap.bound (s.ref.find (c.cls k)) alloc, x) ∧
      Shape { t with ref := if alloc.isSome then s.ref.bind (c.cls k) (k, v) else s.ref } L' ∧
      (∀ e, s.ref.find (c.cls k) = some e → t.node x = some e) ∧
      (0 ≤ HashMap.bound (s.ref.find (c.cls k)) alloc → ∃ e, t.node x = some e ∧
        Table.find (if alloc.isSome then s.ref.bind (c.cls k) (k, v) else s.ref) (c.cls k) =
          some e) := by
  rcases h.bindI k v entry alloc with ⟨hf, rfl, hb⟩ | ⟨a, hf, rfl, hb⟩ | ⟨a, e, hf, ha, hb⟩
  · refine ⟨s, entry, L, ?_, h, fun e he => ?_, fun hle => ?_⟩
    · rw [hb, hf]
      rfl
    · rw [hf] at he
      cases he
    · rw [hf, bound_fail] at hle
      exact absurd hle (by decide)
  · have href : (if (some a).isSome then s.ref.bind (c.cls k) (k, v) else s.ref) =
        s.ref ++ [(c.cls k, k, v)] := (if_pos rfl).trans (ref_bind_none hf _)
    obtain ⟨L', hL', hnode, hfind⟩ := h.after_link hf (hfresh a rfl) v href
    refine ⟨_, a, L', ?_, hL', fun e he => ?_, fun _ => ⟨_, hnode, hfind⟩⟩
    · rw [hb, hf]
      rfl
    · rw [hf] at he
      cases he
  · have href : (if alloc.isSome then s.ref.bind (c.cls k) (k, v) else s.ref) = s.ref := by
      rw [ref_bind_some hf, ite_self]
    rw [href]
    refine ⟨s, a, L, ?_, h, fun e' he' => ?_, fun _ => ⟨e, ha, hf⟩⟩
    · rw [hb, hf]
      rfl
    · cases hf.symm.trans he'
      exact ha

/-- **The calls of `rebind_i`.** The entry is the one for the key if that was bound, or by
chance. -/
theorem rebind_call (h : Shape s L) (k : K) (v : V) (entry : Nat) {alloc : Option Nat}
    (hfresh : ∀ a ∈ alloc, s.node a = none) {ref : Table c.Class (K × V)}
    (href : ref = if alloc.isSome then s.ref.rebind (c.cls k) (k, v)
      else s.ref.set (c.cls k) (k, v)) :
    ∃ t x L', s.rebindI k v entry alloc = some (t, HashMap.bound (s.ref.find (c.cls k)) alloc, x,
        s.ref.find (c.cls k)) ∧ Shape { t with ref := ref } L' ∧
      ((0 ≤ HashMap.bound (s.ref.find (c.cls k)) alloc →
          ∃ e, t.node x = some e ∧ ref.find (c.cls k) = some e) ↔
        (s.ref.find (c.cls k) = none → ∀ a ∈ alloc, entry = a)) := by
  rcases h.rebindI k v entry alloc with ⟨hf, rfl, hb⟩ | ⟨a, hf, rfl, hb⟩ | ⟨a, e, hf, ha, hb⟩
  · have href' : ref = s.ref := href.trans (ref_set_none hf _)
    subst href'
    refine ⟨s, entry, L, ?_, h, iff_of_true (fun hle => ?_) nofun⟩
    · rw [hb, hf]
      rfl
    · rw [hf, bound_fail] at hle
      exact absurd hle (by decide)
  · have href' := href.trans ((if_pos rfl).trans (ref_rebind_none hf _))
    obtain ⟨L', hL', hnode, hfind⟩ := h.after_link hf (hfresh a rfl) v href'
    refine ⟨_, entry, L', ?_, hL', ?_, ?_⟩
    · rw [hb, hf]
      rfl
    · intro hentry _ b hb
      cases hb
      obtain ⟨e, he, hfe⟩ := hentry (by simp [hf, HashMap.bound])
      exact hL'.unique he hnode (hL'.cls_of_find hfe)
    · intro hentry _
      cases hentry hf a rfl
      exact ⟨_, hnode, hfind⟩
  · have hset : ref = s.ref.set (c.cls k) (k, v) := by
      rw [href, ref_rebind_some hf, ite_self]
    subst hset
    have hw := h.write ha (h.cls_of_find hf) v
    have hnode : update s.node a (some (k, v)) a = some (k, v) := update_self ..
    refine ⟨{ s with node := update s.node a (some (k, v)) }, a, L, ?_, hw,
      iff_of_true (fun _ => ⟨_, hnode, hw.find_node hnode⟩) fun hno => ?_⟩
    · rw [hb, hf]
      rfl
    · rw [hf] at hno
      cases hno

theorem trybind_call (h : Shape s L) (k : K) (v : V) {alloc : Option Nat}
    (hfresh : ∀ a ∈ alloc, s.node a = none) :
    ∃ t L', s.trybindI k v alloc = some (t, HashMap.bound (s.ref.find (c.cls k)) alloc,
        ((s.ref.find (c.cls k)).map Prod.snd).getD v) ∧
      Shape { t with ref := if alloc.isSome then s.ref.bind (c.cls k) (k, v) else s.ref } L' := by
  obtain ⟨t, x, L', hb, hL', hx, -⟩ := h.bind_call k v 0 hfresh
  refine ⟨t, L', ?_, hL'⟩
  rw [trybindI, hb, bind_some]
  dsimp only
  cases hf : s.ref.find (c.cls k) with
  | some e =>
    rw [HashMap.bound, isSome_some, if_pos rfl, if_pos rfl, hx e hf]
    rfl
  | none => cases alloc <;> rfl

theorem unbind_call (h : Shape s L) (k : K) :
    ∃ t L', s.unbindI k = some (t, if (s.ref.find (c.cls k)).isSome then 0 else -1,
        (s.ref.find (c.cls k)).map Prod.snd) ∧
      Shape { t with ref := s.ref.unbind (c.cls k) } L' := by
  rcases h.unbindI k with ⟨hf, hu⟩ | ⟨a, e, t, hf, ha, hat, hu⟩
  · rw [ref_unbind_none hf]
    refine ⟨s, L, ?_, h⟩
    rw [hu, hf]
    rfl
  · obtain ⟨t', L', hat', hL'⟩ := h.after_unbind ha
    cases hat.symm.trans hat'
    rw [h.cls_of_find hf] at hL'
    refine ⟨t, L', ?_, hL'⟩
    rw [hu, hf]
    rfl

theorem find_call (h : Shape s L) (k : K) (entry : Nat) :
    ∃ x, s.sharedFind k entry = some (if (s.ref.find (c.cls k)).isSome then 0 else -1, x,
        c.hash k % s.total_size) ∧ ∀ e, s.ref.find (c.cls k) = some e → s.node x = some e := by
  obtain ⟨loc, rfl, hnone, hsome⟩ := h.sharedFind k entry
  cases hf : s.ref.find (c.cls k) with
  | none => exact ⟨entry, hnone hf, nofun⟩
  | some e =>
    obtain ⟨a, ha, heq⟩ := hsome e hf
    refine ⟨a, heq, fun e' he' => ?_⟩
    cases he'
    exact ha

/-! ## Every call -/

/-- A call without an entry and a position. -/
theorem agrees_data {call : Call K V} {t : HashMap c V} {out : Out K V}
    (hdata : out = HashMap.refOut ((HashMap.keyOf call).bind fun k => s.ref.find (c.cls k)) call)
    (hentry : out.entry = none) (hpos : out.pos = none) : s.Agrees call t out := by
  refine ⟨?_, fun _ a ha => ?_, fun p hp => ?_⟩
  · rw [← hdata]
    cases out
    simp_all
  · rw [hentry] at ha
    cases ha
  · rw [hpos] at hp
    cases hp

theorem agrees_entry {call : Call K V} {t : HashMap c V} {out : Out K V} {x : Nat}
    (hk : HashMap.keyOf call = some k) (hentry : out.entry = some x) (hpos : out.pos = none)
    (hdata : { out with entry := none } = HashMap.refOut (s.ref.find (c.cls k)) call) :
    s.Agrees call t out ↔
      (0 ≤ out.result → ∃ e, t.node x = some e ∧ t.ref.find (c.cls k) = some e) := by
  constructor
  · intro hagrees hle
    obtain ⟨k', hk', he⟩ := hagrees.entry hle x hentry
    cases hk.symm.trans hk'
    exact he
  · intro hx
    refine ⟨?_, fun hle a ha => ?_, fun p hp => ?_⟩
    · rw [hk, bind_some, ← hdata, hpos]
    · cases hentry.symm.trans ha
      exact ⟨k, hk, hx hle⟩
    · rw [hpos] at hp
      cases hp

theorem legal_pos {pos : Iter} (hlegal : s.Legal (.unbindPos pos)) :
    ∃ a, s.deref pos = some (.entry a) ∧ ∃ e, s.node a = some e := by
  dsimp only [HashMap.Legal] at hlegal
  split at hlegal
  · next a hpos => exact ⟨a, hpos, isSome_iff_exists.mp hlegal⟩
  · exact hlegal.elim

/-- **Every call** keeps the shape, and it returns what a finite map does exactly if it is
sound. -/
theorem exec (h : Shape s L) {call : Call K V} (hlegal : s.Legal call) :
    ∃ t out L', s.exec call = some (t, out) ∧ Shape { t with ref := s.refNext call } L' ∧
      (s.Agrees call { t with ref := s.refNext call } out ↔ s.Sound call) := by
  cases call with
  | bind k v alloc =>
    obtain ⟨t, x, L', hb, hL', -, -⟩ := h.bind_call k v 0 hlegal
    refine ⟨t, _, L', congrArg (Option.map _) hb, hL', iff_of_true ?_ trivial⟩
    exact agrees_data rfl rfl rfl
  | bindEntry k v entry alloc =>
    obtain ⟨t, x, L', hb, hL', -, hx⟩ := h.bind_call k v entry hlegal
    refine ⟨t, _, L', congrArg (Option.map _) hb, hL', iff_of_true ?_ trivial⟩
    exact (agrees_entry rfl rfl rfl rfl).mpr hx
  | trybind k v alloc =>
    obtain ⟨t, L', hb, hL'⟩ := h.trybind_call k v hlegal
    refine ⟨t, _, L', congrArg (Option.map _) hb, hL', iff_of_true ?_ trivial⟩
    exact agrees_data rfl rfl rfl
  | trybindEntry k v entry alloc =>
    obtain ⟨t, x, L', hb, hL', -, hx⟩ := h.bind_call k v entry hlegal
    refine ⟨t, _, L', congrArg (Option.map _) hb, hL', fun hagrees e he => ?_, fun hsound => ?_⟩
    · have hdata := congrArg Out.int_id hagrees.data
      have hfind : (keyOf (Call.trybindEntry k v entry alloc)).bind
          (fun k => s.ref.find (c.cls k)) = some e := he
      rw [hfind] at hdata
      exact (some.inj hdata).symm
    · refine (agrees_entry rfl rfl rfl ?_).mpr hx
      have hv : ((s.ref.find (c.cls k)).map Prod.snd).getD v = v := by
        cases hf : s.ref.find (c.cls k) with
        | none => rfl
        | some e => exact hsound e hf
      rw [refOut, hv]
  | rebind k v alloc =>
    obtain ⟨t, x, L', hb, hL', -⟩ := h.rebind_call k v 0 hlegal rfl
    refine ⟨t, _, L', congrArg (Option.map _) hb, hL', iff_of_true ?_ trivial⟩
    exact agrees_data rfl rfl rfl
  | rebindEntry k v entry alloc =>
    obtain ⟨t, x, L', hb, hL', hx⟩ := h.rebind_call k v entry hlegal rfl
    refine ⟨t, _, L', congrArg (Option.map _) hb, hL', ?_⟩
    exact (agrees_entry rfl rfl rfl rfl).trans hx
  | rebindInt k v old alloc =>
    obtain ⟨t, x, L', hb, hL', -⟩ := h.rebind_call k v 0 hlegal rfl
    refine ⟨t, _, L', congrArg (Option.map _) hb, hL', iff_of_true ?_ trivial⟩
    exact agrees_data rfl rfl rfl
  | rebindIntEntry k v old entry alloc =>
    obtain ⟨t, x, L', hb, hL', hx⟩ := h.rebind_call k v entry hlegal rfl
    refine ⟨t, _, L', congrArg (Option.map _) hb, hL', ?_⟩
    exact (agrees_entry rfl rfl rfl rfl).trans hx
  | rebindExt k v old_k old alloc =>
    obtain ⟨t, x, L', hb, hL', -⟩ := h.rebind_call k v 0 hlegal rfl
    refine ⟨t, _, L', congrArg (Option.map _) hb, hL', iff_of_true ?_ trivial⟩
    exact agrees_data rfl rfl rfl
  | rebindExtEntry k v old_k old entry alloc =>
    obtain ⟨t, x, L', hb, hL', hx⟩ := h.rebind_call k v entry hlegal rfl
    refine ⟨t, _, L', congrArg (Option.map _) hb, hL', ?_⟩
    exact (agrees_entry rfl rfl rfl rfl).trans hx
  | find k =>
    obtain ⟨x, hx, -⟩ := h.find_call k 0
    refine ⟨s, _, L, congrArg (Option.map _) hx, h, iff_of_true ?_ trivial⟩
    exact agrees_data rfl rfl rfl
  | findInt k v =>
    obtain ⟨x, hx, hnode⟩ := h.find_call k 0
    cases hf : s.ref.find (c.cls k) with
    | none =>
      rw [hf] at hx
      refine ⟨s, _, L, congrArg (Option.bind · _) hx, h, iff_of_true ?_ trivial⟩
      refine agrees_data ?_ rfl rfl
      exact congrArg (fun found => refOut found (.findInt k v)) hf.symm
    | some e =>
      rw [hf] at hx
      refine ⟨s, _, L, (congrArg (Option.bind · _) hx).trans (congrArg (Option.map _) (hnode e hf)),
        h, iff_of_true ?_ trivial⟩
      refine agrees_data ?_ rfl rfl
      exact congrArg (fun found => refOut found (.findInt k v)) hf.symm
  | findEntry k entry =>
    obtain ⟨x, hx, hnode⟩ := h.find_call k entry
    refine ⟨s, _, L, congrArg (Option.map _) hx, h, iff_of_true ?_ trivial⟩
    refine (agrees_entry rfl rfl rfl rfl).mpr fun hle => ?_
    cases hf : s.ref.find (c.cls k) with
    | none =>
      rw [hf] at hle
      simp at hle
    | some e => exact ⟨e, hnode e hf, hf⟩
  | findPos k =>
    obtain ⟨x, hx, hnode⟩ := h.find_call k 0
    refine ⟨s, _, L, congrArg (Option.map _) hx, h,
      iff_of_true ⟨rfl, nofun, fun p hp => ⟨k, rfl, ?_⟩⟩ trivial⟩
    cases hp
    cases hf : s.ref.find (c.cls k) with
    | none => exact .inl ⟨rfl, rfl⟩
    | some e =>
      refine .inr ⟨x, e, if_pos ⟨?_, ?_, nofun⟩, hnode e hf, rfl⟩
      · exact Int.ofNat_lt.mpr (mod_lt _ h.pos)
      · exact Int.natCast_nonneg _
  | unbind k =>
    obtain ⟨t, L', hu, hL'⟩ := h.unbind_call k
    refine ⟨t, _, L', congrArg (Option.map _) hu, hL', iff_of_true ?_ trivial⟩
    refine agrees_data ?_ rfl rfl
    show _ = refOut (s.ref.find (c.cls k)) _
    cases s.ref.find (c.cls k) <;> rfl
  | unbindInt k v =>
    obtain ⟨t, L', hu, hL'⟩ := h.unbind_call k
    refine ⟨t, _, L', congrArg (Option.map _) hu, hL', iff_of_true ?_ trivial⟩
    exact agrees_data rfl rfl rfl
  | unbindEntry a =>
    obtain ⟨e, ha⟩ := isSome_iff_exists.mp hlegal
    obtain ⟨t, L', hu, hL'⟩ := h.after_unbind ha
    have href : s.refNext (Call.unbindEntry a) = s.ref.unbind (c.cls e.1) := by
      rw [refNext, ha]
    rw [href]
    refine ⟨t, _, L', congrArg (Option.map _) hu, hL', iff_of_true ?_ trivial⟩
    exact agrees_data rfl rfl rfl
  | unbindPos pos =>
    obtain ⟨a, hpos, e, ha⟩ := legal_pos hlegal
    obtain ⟨t, L', hu, hL'⟩ := h.after_unbind ha
    have hnext : pos.next = .entry a := by
      unfold deref at hpos
      split at hpos
      · exact some.inj hpos
      · cases hpos
    have href : s.refNext (Call.unbindPos pos) = s.ref.unbind (c.cls e.1) := by
      rw [refNext, hnext]
      dsimp only
      rw [ha]
    rw [href]
    refine ⟨t, _, L', (congrArg (Option.bind · _) hpos).trans (congrArg (Option.map _) hu), hL',
      iff_of_true ?_ trivial⟩
    exact agrees_data rfl rfl rfl
  | unbindAll =>
    obtain ⟨t, hu, hL'⟩ := h.unbindAll
    refine ⟨t, _, _, congrArg (Option.map _) hu, hL', iff_of_true ?_ trivial⟩
    exact agrees_data rfl rfl rfl

end Shape

end Atcd.Maps
