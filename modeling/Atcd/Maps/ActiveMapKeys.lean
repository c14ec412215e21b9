import Atcd.Maps.ActiveMapRuns
/-!
# Wild keys of an active map

A key can come from a request, so that its index and generation are any numbers. `find` compares
the index with the size of the array before it looks at the slot, but it lets the size itself
pass. The slots that each lookup reads are listed here, for every map that a run has led to,
however often its slots were used and however large its array is.

Results:
* `lookups_safe_iff`: `find`, `rebind` and `unbind` read slots of the array only, and fail for
  keys that were never issued, exactly if the index of the key is not the size of the array.
* `step_keyed`: what a slot holds as its key was issued, after any step.
-/
namespace Atcd.Maps

open Atcd.Core List Option

variable {V : Type*}

namespace MapManager

/-! ## Reads -/

/-- The slots that `find` reads.
mirrors ACE/ace/Active_Map_Manager_T.inl:56-81 -/
def findReads (m : MapManager V) (key : Key) : List Nat :=
  if key.slotIndex > m.totalSize then [] else [key.slotIndex]

/-- The slot behind the link of an entry, unless it is the list's head. -/
def behind (w : Which) (p : Nat) : List Nat := if p = w.id then [] else [p]

/-- The slots that `shared_move` reads or writes.
mirrors ACE/ace/Map_Manager.cpp:181-224 -/
def sharedMoveReads (m : MapManager V) (slot : Nat) (current new : Which) : List Nat :=
  let m' := m.setNext current (m.searchStructure slot).prev (m.searchStructure slot).next
  slot :: (behind current (m.searchStructure slot).prev ++
    behind current (m'.searchStructure slot).next ++
    behind new ((m.removeFromCurrent slot current).list new).next)

/-- mirrors Active_Map_Manager_T.inl:105-118 -/
def rebindReads (lazyMap : Bool) (m : MapManager V) (key : Key) : List Nat :=
  m.findReads key ++
    match m.find lazyMap key with
    | some (some _) => [key.slotIndex]
    | _ => []

/-- mirrors Active_Map_Manager_T.inl:167-202 -/
def unbindReads (lazyMap : Bool) (m : MapManager V) (key : Key) : List Nat :=
  m.findReads key ++
    match m.find lazyMap key with
    | some (some _) =>
      if lazyMap then [key.slotIndex] else m.sharedMoveReads key.slotIndex .occupied .free
    | _ => []

end MapManager

open MapManager

/-- A lookup reads slots of the array only, and fails for a key that was never issued. -/
structure Safe (s : Sys V) (key : Key) (reads : List Nat) (fails : Prop) : Prop where
  inside : ∀ i ∈ reads, i < s.map.totalSize
  unknown : key ∉ s.issued.keys → fails

def FindSafe (lazyMap : Bool) (s : Sys V) (key : Key) : Prop :=
  Safe s key (s.map.findReads key) (s.map.find lazyMap key = some none)

def RebindSafe (lazyMap : Bool) (s : Sys V) (key : Key) : Prop :=
  Safe s key (s.map.rebindReads lazyMap key)
    (∀ value, s.map.rebind lazyMap key value = some (s.map, false))

def UnbindSafe (lazyMap : Bool) (s : Sys V) (key : Key) : Prop :=
  Safe s key (s.map.unbindReads lazyMap key) (s.map.unbind lazyMap key = some (s.map, none))

/-- What the constructor leaves: an open map, or a closed one if there was no memory. -/
def Opened [Inhabited V] (m : MapManager V) : Prop :=
  m = closed ∨ ∃ size temp, openMap size temp = some m

/-! ## The invariant -/

/-- The key in a slot is one that was issued for it. -/
def Keyed (m : MapManager V) (keys : List Key) : Prop :=
  ∀ i < m.totalSize, (m.searchStructure i).extId.slotIndex ≠ freeListId →
    (m.searchStructure i).extId.slotIndex = i ∧ (m.searchStructure i).extId ∈ keys

/-- The lists of an array that has no slot with the id of a list. -/
def Linked (lazyMap : Bool) (m : MapManager V) : Prop :=
  m.totalSize ≤ 2 ^ 32 - 2 → ∃ free occupied, Laid lazyMap m free occupied

/-- What every run keeps, however often a slot is used. -/
structure Sys.Wild (lazyMap : Bool) (s : Sys V) : Prop where
  keyed : Keyed s.map s.issued.keys
  linked : Linked lazyMap s.map

variable {m m' : MapManager V} {lazyMap : Bool} {keys : List Key} {i : Nat}

theorem Keyed.of_sameKeys (h : Keyed m keys) (hsame : m.SameKeys m') : Keyed m' keys := by
  intro i hi hne
  rw [(hsame.2.2 i).1] at hne ⊢
  exact h i (hsame.1 ▸ hi) hne

theorem find_some (h : Keyed m keys) {key : Key} {v : V}
    (hfind : m.find lazyMap key = some (some v)) :
    key.slotIndex < m.totalSize ∧ (m.searchStructure key.slotIndex).extId = key ∧ key ∈ keys := by
  unfold find at hfind
  split at hfind
  · cases hfind
  split at hfind
  · cases hfind
  dsimp only at hfind
  split at hfind
  · cases hfind
  · rename_i hgt heq hlook
    have hlt : key.slotIndex < m.totalSize := by omega
    obtain ⟨-, hlook⟩ := not_or.mp hlook
    obtain ⟨hgen, hfree⟩ := not_or.mp hlook
    obtain ⟨hslot, hmem⟩ := h _ hlt hfree
    have hext : (m.searchStructure key.slotIndex).extId = key := by
      cases hk : (m.searchStructure _).extId
      simp_all
    exact ⟨hlt, hext, hext ▸ hmem⟩

theorem find_isSome (lazyMap : Bool) (m : MapManager V) {key : Key}
    (h : key.slotIndex ≠ m.totalSize) : ∃ found, m.find lazyMap key = some found := by
  unfold find
  split
  · exact ⟨_, rfl⟩
  dsimp only
  split
  · exact ⟨_, rfl⟩
  · exact ⟨_, rfl⟩

theorem find_unknown (h : Keyed m keys) {key : Key} (hkey : key.slotIndex ≠ m.totalSize)
    (hnew : key ∉ keys) : m.find lazyMap key = some none := by
  obtain ⟨found, hfind⟩ := find_isSome lazyMap m hkey
  cases found with
  | none => exact hfind
  | some v => exact absurd (find_some h hfind).2.2 hnew

/-! ## `bind` -/

theorem keyed_occupy (h : Keyed m keys) (i : Nat) (v : V) :
    Keyed (m.occupy i v) (keys ++ [((m.occupy i v).searchStructure i).extId]) := by
  obtain ⟨htotal, -, hself, hother⟩ := occupy_data m i v
  obtain ⟨-, -, hdata⟩ := sameData_sharedMove m i .free .occupied
  intro j hj hne
  by_cases hji : j = i
  · subst hji
    refine ⟨?_, mem_append_right _ (mem_singleton.mpr rfl)⟩
    rw [hself]
  · rw [hother j hji, (hdata j).1] at hne ⊢
    obtain ⟨hslot, hmem⟩ := h j (htotal ▸ hj) hne
    exact ⟨hslot, mem_append_left _ hmem⟩

theorem Linked.first (h : Linked lazyMap m) (hne : m.freeList.next ≠ freeListId)
    (hsize : m.totalSize ≤ 2 ^ 32 - 2) :
    ∃ free occupied, Laid lazyMap m (m.freeList.next :: free) occupied := by
  obtain ⟨free, occupied, hlaid⟩ := h hsize
  rcases hlaid.lists.free_cases with ⟨-, hhead⟩ | ⟨hnil, -⟩
  · obtain ⟨rest, rfl⟩ := head?_eq_some_iff.mp hhead
    exact ⟨rest, occupied, hlaid⟩
  · exact absurd hnil hne

theorem moved_wild (hkeyed : Keyed m keys) (hlinked : Linked lazyMap m)
    (h : (if lazyMap then m.moveAllFreeSlots else some m) = some m') :
    Keyed m' keys ∧ Linked lazyMap m' := by
  cases lazyMap with
  | false =>
    cases h
    exact ⟨hkeyed, hlinked⟩
  | true =>
    have hmove : m.moveAllFreeSlots = some m' := h
    have hsame := sameKeys_moveAllFrom hmove
    refine ⟨hkeyed.of_sameKeys hsame, fun hsize => ?_⟩
    obtain ⟨free, occupied, hlaid⟩ := hlinked (hsame.1 ▸ hsize)
    obtain ⟨m'', free', occupied', hmove', hlaid', -⟩ := hlaid.moveAllFreeSlots
    rw [hmove] at hmove'
    cases hmove'
    exact ⟨free', occupied', hlaid'⟩

section

variable [Inhabited V]

/-- A resize makes the array longer, and its new slots hold no key. -/
theorem resize_wild {n : Nat} {memory : Option (Nat → Entry V)} {r : Bool} (hkeyed : Keyed m keys)
    (hlinked : Linked lazyMap m) (hnil : m.freeList.next = freeListId) (hmax : n ≤ 2 ^ 32 - 1)
    (h : m.resizeI n memory = some (m', r)) :
    Keyed m' keys ∧ Linked lazyMap m' ∧ (r = true → m'.totalSize ≤ 2 ^ 32 - 2 →
      ∃ free occupied, Laid lazyMap m' (m'.freeList.next :: free) occupied) := by
  cases memory with
  | none =>
    cases h
    exact ⟨hkeyed, hlinked, fun e => nomatch e⟩
  | some temp =>
    have hn : m.totalSize < n := by
      obtain ⟨occupied, -, h⟩ := bind_eq_some_iff.mp h
      obtain ⟨free, -, h⟩ := bind_eq_some_iff.mp h
      split at h
      · rename_i hgrow
        exact hgrow.1
      · cases h
    obtain ⟨free, occupied, hlaid⟩ := hlinked (by omega)
    have hfree : free = [] := by
      rcases hlaid.lists.free_cases with ⟨hne, -⟩ | ⟨-, hfree⟩
      · exact absurd hnil hne
      · exact hfree
    subst hfree
    rw [resizeI_eq temp hlaid.lists hn] at h
    cases h
    refine ⟨fun i hi hne => ?_, fun hsize => ?_, fun _ hsize => ?_⟩
    · rcases Nat.lt_or_ge i m.totalSize with hlt | hge
      · rw [hlaid.lists.grown_old temp hn hlt] at hne ⊢
        exact hkeyed i hlt hne
      · have hlt : i < n := hi
        have hnew := grown_new m (occupied ++ []) temp hge hlt
        rw [hnew.1] at hne
        exact absurd rfl hne
    · exact ⟨_, _, hlaid.grown temp hn hsize⟩
    · have hgrown := hlaid.grown temp hn hsize
      exact ⟨_, _, hgrown⟩

omit [Inhabited V] in
theorem newSize_le (m : MapManager V) : m.newSize ≤ 2 ^ 32 - 1 := by
  unfold newSize
  split <;> omega

theorem nextFree_wild {memory : Option (Nat → Entry V)} {r : Option Nat} (hkeyed : Keyed m keys)
    (hlinked : Linked lazyMap m) (h : m.nextFree lazyMap memory = some (m', r)) :
    Keyed m' keys ∧ Linked lazyMap m' ∧ ∀ i, r = some i → m'.totalSize ≤ 2 ^ 32 - 2 →
      ∃ free occupied, Laid lazyMap m' (i :: free) occupied := by
  unfold nextFree at h
  split at h
  · rename_i hne
    cases h
    refine ⟨hkeyed, hlinked, fun i hi => ?_⟩
    cases hi
    exact hlinked.first hne
  · obtain ⟨m₁, hmove, h⟩ := bind_eq_some_iff.mp h
    obtain ⟨hkeyed₁, hlinked₁⟩ := moved_wild hkeyed hlinked hmove
    split at h
    · rename_i hne
      cases h
      refine ⟨hkeyed₁, hlinked₁, fun i hi => ?_⟩
      cases hi
      exact hlinked₁.first hne
    · rename_i hnil
      obtain ⟨⟨m₂, ok⟩, hresize, h⟩ := map_eq_some_iff.mp h
      obtain ⟨hkeyed₂, hlinked₂, hfirst⟩ :=
        resize_wild hkeyed₁ hlinked₁ (not_not.mp hnil) (newSize_le m₁) hresize
      cases h
      refine ⟨hkeyed₂, hlinked₂, fun i hi => ?_⟩
      cases ok with
      | false => cases hi
      | true =>
        cases hi
        exact hfirst rfl

/-! ## Steps -/

theorem bind_wild {s t : Sys V} {value : V} {memory : Option (Nat → Entry V)}
    (h : s.Wild lazyMap) (ht : step lazyMap s (.bind value memory) = some t) : t.Wild lazyMap := by
  obtain ⟨⟨m', r⟩, hbind, rfl⟩ := map_eq_some_iff.mp ht
  obtain ⟨⟨m₁, slot⟩, hnext, hbind⟩ := map_eq_some_iff.mp hbind
  obtain ⟨hkeyed, hlinked, hfirst⟩ := nextFree_wild h.keyed h.linked hnext
  cases slot with
  | none =>
    cases hbind
    exact ⟨hkeyed, hlinked⟩
  | some i =>
    cases hbind
    refine ⟨?_, fun hsize => ?_⟩
    · have hoccupy := keyed_occupy hkeyed i value
      rw [Table.keys] at hoccupy ⊢
      rw [map_append]
      exact hoccupy
    · have htotal := (occupy_data m₁ i value).1
      obtain ⟨free, occupied, hlaid⟩ := hfirst i rfl (htotal ▸ hsize)
      exact ⟨_, _, hlaid.occupy value⟩

omit [Inhabited V] in
theorem keys_store (issued : Table Key (Option V)) (key : Key) (value : V) :
    (store issued key value).keys = issued.keys := by
  unfold store
  split
  · exact Table.keys_set issued key _
  · rfl

theorem rebind_wild {s t : Sys V} {key : Key} {value : V} (h : s.Wild lazyMap)
    (ht : step lazyMap s (.rebind key value) = some t) : t.Wild lazyMap := by
  obtain ⟨⟨m', ok⟩, hrebind, rfl⟩ := map_eq_some_iff.mp ht
  obtain ⟨found, hfind, hrebind⟩ := map_eq_some_iff.mp hrebind
  cases found with
  | none =>
    cases hrebind
    refine ⟨?_, h.linked⟩
    rw [keys_store]
    exact h.keyed
  | some v =>
    cases hrebind
    refine ⟨?_, fun hsize => ?_⟩
    · rw [keys_store]
      intro i hi hne
      rw [(setValue_data s.map key.slotIndex value i).1] at hne ⊢
      exact h.keyed i hi hne
    · obtain ⟨free, occupied, hlaid⟩ := h.linked hsize
      exact ⟨_, _, hlaid.setValue key.slotIndex value⟩

omit [Inhabited V] in
theorem keyed_vacate (h : Keyed m keys) (lazyMap : Bool) (i : Nat) :
    Keyed (m.vacate lazyMap i) keys := by
  obtain ⟨htotal, -, -, hself, hother⟩ := vacate_data lazyMap m i
  intro j hj hne
  by_cases hji : j = i
  · subst hji
    rw [hself] at hne
    exact absurd rfl hne
  · rw [hother j hji] at hne ⊢
    exact h j (htotal ▸ hj) hne

theorem unbind_wild {s t : Sys V} {key : Key} (h : s.Wild lazyMap)
    (ht : step lazyMap s (.unbind key) = some t) : t.Wild lazyMap := by
  obtain ⟨⟨m', found⟩, hunbind, rfl⟩ := map_eq_some_iff.mp ht
  obtain ⟨found, hfind, hunbind⟩ := map_eq_some_iff.mp hunbind
  cases found with
  | none =>
    cases hunbind
    refine ⟨?_, h.linked⟩
    rw [Table.keys_set]
    exact h.keyed
  | some v =>
    obtain ⟨hlt, hext, -⟩ := find_some h.keyed hfind
    cases hunbind
    refine ⟨?_, fun hsize => ?_⟩
    · rw [Table.keys_set]
      exact keyed_vacate h.keyed lazyMap key.slotIndex
    · have htotal := (vacate_data lazyMap s.map key.slotIndex).1
      obtain ⟨free, occupied, hlaid⟩ := h.linked (htotal ▸ hsize)
      exact hlaid.vacate hlt (by rw [hext])

/-- **One step** from any such state. -/
theorem step_keyed (s : Sys V) (op : Op V) (t : Sys V) (h : s.Wild lazyMap)
    (ht : step lazyMap s op = some t) : t.Wild lazyMap := by
  cases op with
  | bind value memory => exact bind_wild h ht
  | find key =>
    obtain ⟨_, -, rfl⟩ := map_eq_some_iff.mp ht
    exact h
  | rebind key value => exact rebind_wild h ht
  | unbind key => exact unbind_wild h ht

theorem opened_wild (lazyMap : Bool) (h : Opened m) : Sys.Wild lazyMap (⟨m, []⟩ : Sys V) := by
  have hinv := inv_closed (V := V) lazyMap
  have hclosed : Keyed (closed : MapManager V) [] := fun i hi => absurd hi (Nat.not_lt_zero i)
  rcases h with rfl | ⟨size, temp, hopen⟩
  · exact ⟨hclosed, fun _ => ⟨[], [], hinv.laid⟩⟩
  · unfold openMap at hopen
    split at hopen
    · rename_i hsize
      obtain ⟨⟨m', r⟩, hresize, rfl⟩ := map_eq_some_iff.mp hopen
      obtain ⟨hkeyed, hlinked, -⟩ :=
        resize_wild hclosed (fun _ => ⟨[], [], hinv.laid⟩) rfl hsize.2 hresize
      exact ⟨hkeyed, hlinked⟩
    · cases hopen

end

/-! ## Reads of an unbind -/

theorem behind_lt {w : Which} {p n : Nat} (h : p = w.id ∨ p < n) : ∀ j ∈ behind w p, j < n := by
  intro j hj
  unfold behind at hj
  split at hj
  · exact absurd hj not_mem_nil
  · rename_i hne
    rw [mem_singleton.mp hj]
    exact h.resolve_left hne

theorem sharedMoveReads_lt {free l₁ l₂ : List Nat} (h : m.Lists free (l₁ ++ i :: l₂)) :
    ∀ j ∈ m.sharedMoveReads i .occupied .free, j < m.totalSize := by
  have hmem : i ∈ l₁ ++ i :: l₂ := mem_append_right _ mem_cons_self
  have hlt := fun z (hz : z ∈ free ∨ z ∈ l₁ ++ i :: l₂) => h.lt_of_mem hz
  have hslots := fun z (hz : z ∈ free ∨ z ∈ l₁ ++ i :: l₂) => slot_of_lt h.size (hlt z hz)
  have hslot : Slot i := hslots i (.inr hmem)
  obtain ⟨hp, hq⟩ := h.occupiedRing.at
  obtain ⟨hout, hnodup⟩ := nodup_cons.mp h.occupiedRing.nodup
  have hcut : i ∉ l₁ ++ l₂ := (nodup_cons.mp (perm_middle.nodup_iff.mp hnodup)).1
  have hprev : m.links.prev i = occupiedListId ∨ m.links.prev i ∈ l₁ := Links.getLast?_mem_or hp
  have hnext : m.links.next i = occupiedListId ∨ m.links.next i ∈ l₂ := Links.head?_mem_or hq
  have hprev' : m.links.prev i ≠ freeListId ∧ m.links.prev i ≠ i := by
    rcases hprev with e | hm
    · rw [e]
      exact ⟨by decide, fun e => hout (e ▸ hmem)⟩
    · exact ⟨(hslots _ (.inr (mem_append_left _ hm))).1,
        fun e => hcut (mem_append_left _ (e ▸ hm))⟩
  have hnext' : m.links.next i ≠ freeListId := by
    rcases hnext with e | hm
    · rw [e]
      decide
    · exact (hslots _ (.inr (mem_append_right _ (mem_cons_of_mem i hm)))).1
  obtain ⟨hentryNext, hentryPrev⟩ := m.links_slot hslot
  have hafter : ((m.setNext .occupied (m.links.prev i) (m.links.next i)).searchStructure i).next =
      m.links.next i := by
    rw [← (links_slot _ hslot).1, m.links_setNext (w := .occupied) _ hprev'.1]
    exact Function.update_of_ne hprev'.2.symm _ _
  have hunlinked : (m.links.unlink i).Ring freeListId free :=
    h.occupiedRing.unlink_frame h.freeRing fun z hz => by
      rcases hz with rfl | hz
      · exact ⟨by decide, fun hm => (hslots _ (.inr hm)).1 rfl⟩
      · exact ⟨(hslots z (.inl hz)).2, fun hm => (nodup_append.mp h.nodup).2.2 z hz z hm rfl⟩
  have hfirst : ((m.removeFromCurrent i .occupied).list .free).next = freeListId ∨
      ((m.removeFromCurrent i .occupied).list .free).next ∈ free := by
    rw [← (links_id _ .free).1, m.links_removeFromCurrent .occupied hslot hprev' hnext']
    exact Links.head?_mem_or hunlinked.head?
  unfold sharedMoveReads
  rw [← hentryNext, ← hentryPrev]
  dsimp only
  rw [hafter]
  intro j hj
  rcases mem_cons.mp hj with rfl | hj
  · exact hlt _ (.inr hmem)
  rcases mem_append.mp hj with hj | hj
  rcases mem_append.mp hj with hj | hj
  · exact behind_lt (hprev.imp_right fun hm => hlt _ (.inr (mem_append_left _ hm))) j hj
  · refine behind_lt (hnext.imp_right fun hm => hlt _ (.inr ?_)) j hj
    exact mem_append_right _ (mem_cons_of_mem i hm)
  · exact behind_lt (hfirst.imp_right fun hm => hlt _ (.inl hm)) j hj

/-! ## Wild keys -/

theorem findReads_inside (m : MapManager V) (key : Key) :
    (∀ i ∈ m.findReads key, i < m.totalSize) ↔ key.slotIndex ≠ m.totalSize := by
  unfold findReads
  split
  · exact iff_of_true (fun i hi => absurd hi not_mem_nil) (by omega)
  · rw [forall_mem_singleton]
    omega

theorem findSafe_iff {s : Sys V} (h : s.Wild lazyMap) (key : Key) :
    FindSafe lazyMap s key ↔ key.slotIndex ≠ s.map.totalSize := by
  rw [← findReads_inside]
  constructor
  · exact fun hsafe => hsafe.inside
  · intro hinside
    exact ⟨hinside, find_unknown h.keyed ((findReads_inside s.map key).mp hinside)⟩

theorem rebindSafe_iff {s : Sys V} (h : s.Wild lazyMap) (key : Key) :
    RebindSafe lazyMap s key ↔ key.slotIndex ≠ s.map.totalSize := by
  rw [← findReads_inside]
  constructor
  · exact fun hsafe i hi => hsafe.inside i (mem_append_left _ hi)
  · intro hinside
    refine ⟨fun i hi => ?_, fun hnew value => ?_⟩
    · rcases mem_append.mp hi with hi | hi
      · exact hinside i hi
      · split at hi
        · rename_i v hfind
          rw [mem_singleton.mp hi]
          exact (find_some h.keyed hfind).1
        · exact absurd hi not_mem_nil
    · have hfind : s.map.find lazyMap key = some none :=
        find_unknown h.keyed ((findReads_inside s.map key).mp hinside) hnew
      unfold rebind
      rw [hfind]
      rfl

theorem unbindSafe_iff {s : Sys V} (h : s.Wild lazyMap)
    (hsize : lazyMap = true ∨ s.map.totalSize ≤ 2 ^ 32 - 2) (key : Key) :
    UnbindSafe lazyMap s key ↔ key.slotIndex ≠ s.map.totalSize := by
  rw [← findReads_inside]
  constructor
  · exact fun hsafe i hi => hsafe.inside i (mem_append_left _ hi)
  · intro hinside
    refine ⟨fun i hi => ?_, fun hnew => ?_⟩
    · rcases mem_append.mp hi with hi | hi
      · exact hinside i hi
      · split at hi
        · rename_i v hfind
          obtain ⟨hlt, hext, -⟩ := find_some h.keyed hfind
          split at hi
          · rw [mem_singleton.mp hi]
            exact hlt
          · rename_i hlazy
            obtain ⟨free, occupied, hlaid⟩ := h.linked (hsize.resolve_left hlazy)
            obtain ⟨-, hocc⟩ := hlaid.mem_occupied hlt (by rw [hext])
            obtain ⟨l₁, l₂, rfl⟩ := append_of_mem hocc
            exact sharedMoveReads_lt hlaid.lists i hi
        · exact absurd hi not_mem_nil
    · have hfind : s.map.find lazyMap key = some none :=
        find_unknown h.keyed ((findReads_inside s.map key).mp hinside) hnew
      unfold unbind
      rw [hfind]
      rfl

/-- **Looking up any key** is safe in every state that a run leads to, exactly if the index of the
key is not the size of the array. -/
theorem lookups_safe_iff [Inhabited V] (lazyMap : Bool) {m : MapManager V} (hopen : Opened m)
    {ops : List (Op V)} {s : Sys V} (hrun : run (step lazyMap) ⟨m, []⟩ ops = some s) (key : Key) :
    (FindSafe lazyMap s key ↔ key.slotIndex ≠ s.map.totalSize) ∧
      (RebindSafe lazyMap s key ↔ key.slotIndex ≠ s.map.totalSize) ∧
      (lazyMap = true ∨ s.map.totalSize ≤ 2 ^ 32 - 2 →
        (UnbindSafe lazyMap s key ↔ key.slotIndex ≠ s.map.totalSize)) := by
  have hwild : s.Wild lazyMap := run_inv step_keyed (opened_wild lazyMap hopen) hrun
  refine ⟨findSafe_iff hwild key, rebindSafe_iff hwild key, fun hsize => ?_⟩
  exact unbindSafe_iff hwild hsize key

/-- In a map of one slot that has been used twice, the key of index 1 is not safe, and the key
that was given up is. -/
theorem lookups_safe_iff_reused : ∃ m : MapManager Nat, openMap 1 .fresh = some m ∧
    ∃ s, run (step true) ⟨m, []⟩ [.bind 5 none, .unbind ⟨0, 1⟩, .bind 6 none] = some s ∧
      ¬FindSafe true s ⟨1, 1⟩ ∧ UnbindSafe true s ⟨0, 1⟩ := by
  obtain ⟨m, hopen⟩ : ∃ m, openMap 1 (.fresh : Nat → Entry Nat) = some m := ⟨_, rfl⟩
  have hrun : ((run (step true) ⟨m, []⟩ [.bind 5 none, .unbind ⟨0, 1⟩, .bind 6 none]).map
      fun s => s.map.totalSize) = some 1 := by
    cases hopen
    decide_cbv
  obtain ⟨s, hrun, hsize⟩ := map_eq_some_iff.mp hrun
  have hsafe := fun key => lookups_safe_iff true (.inr ⟨1, .fresh, hopen⟩) hrun key
  refine ⟨m, hopen, s, hrun, ?_, ?_⟩
  · rw [(hsafe ⟨1, 1⟩).1, hsize]
    decide
  · rw [(hsafe ⟨0, 1⟩).2.2 (.inl rfl), hsize]
    decide

/-- With one slot that is bound, the key of index 1 reads the entry behind the array. -/
theorem find_reads_behind : ¬∀ (lazyMap : Bool) (m : MapManager Nat), Opened m →
    ∀ ops s, run (step lazyMap) ⟨m, []⟩ ops = some s → ∀ key, FindSafe lazyMap s key := by
  intro h
  obtain ⟨m, hopen⟩ : ∃ m, openMap 1 (.fresh : Nat → Entry Nat) = some m := ⟨_, rfl⟩
  have hsafe := h false m (.inr ⟨1, .fresh, hopen⟩) [] ⟨m, []⟩ rfl ⟨1, 0⟩
  have hsize : m.totalSize = 1 := by
    cases hopen
    rfl
  have hreads : m.findReads ⟨1, 0⟩ = [1] := by
    unfold findReads
    rw [if_neg (by rw [hsize]; decide)]
  have hlt := hsafe.inside 1 (by rw [hreads]; exact mem_singleton.mpr rfl)
  rw [hsize] at hlt
  exact absurd hlt (by decide)

end Atcd.Maps
