import Atcd.Maps.ActiveMap
/-!
# Keys of an active map over its runs

The state carries, beside the map, a table of the keys that `bind` has returned, each with the
value stored under it, or `none` once it has been unbound. `Good` compares the map with it.

Results:
* `keys_identify`: as long as no call names a slot just behind the array and no resize makes the
  size wrap, a run of an opened map has a result and ends in a good state.
* `nextFree_spec`, `occupy_spec`, `vacate_spec`: what each operation does to the invariant.
* `forged_key_read`: a key with the index just behind the array is read there.
-/
namespace Atcd.Maps

open Atcd.Core List Function Option Table Nat

variable {V : Type*}

/-- The map, and every key returned by `bind` with its value, or `none` after an unbind. -/
structure Sys (V : Type*) where
  map : MapManager V
  issued : Table Key (Option V)

inductive Op (V : Type*)
  | bind (value : V) (memory : Option (Nat → Entry V))
  | find (key : Key)
  | rebind (key : Key) (value : V)
  | unbind (key : Key)

/-- A value is stored under a key that is bound. -/
def store (issued : Table Key (Option V)) (key : Key) (value : V) : Table Key (Option V) :=
  match issued.find key with
  | some (some _) => issued.set key (some value)
  | _ => issued

def step [Inhabited V] (lazyMap : Bool) (s : Sys V) : Op V → Option (Sys V)
  | .bind value memory => (s.map.bind lazyMap value memory).map fun r =>
    { map := r.1
      issued := match r.2 with
        | none => s.issued
        | some key => s.issued ++ [(key, some value)] }
  | .find key => (s.map.find lazyMap key).map fun _ => s
  | .rebind key value => (s.map.rebind lazyMap key value).map fun r =>
    { map := r.1
      issued := store s.issued key value }
  | .unbind key => (s.map.unbind lazyMap key).map fun r =>
    { map := r.1
      issued := s.issued.set key none }

def bound (issued : Table Key (Option V)) : Table Key (Option V) :=
  issued.filter fun e => e.2.isSome

/-- How often a slot has been used. -/
def uses (issued : Table Key (Option V)) (i : Nat) : Nat :=
  issued.keys.countP fun k => k.slotIndex = i

/-- What the map promises. -/
structure Good (lazyMap : Bool) (s : Sys V) : Prop where
  lists : ∃ free occupied, s.map.links.Ring freeListId free ∧
    s.map.links.Ring occupiedListId occupied ∧
    (free ++ occupied).Perm (List.range s.map.totalSize)
  current : s.map.curSize = (bound s.issued).length
  unique : s.issued.keys.Nodup
  found : ∀ key status, s.issued.find key = some status → s.map.find lazyMap key = some status

def MapManager.CanGrow (m : MapManager V) : Prop :=
  m.totalSize < 64 * 1024 ∨ m.totalSize + 32 * 1024 ≤ 2 ^ 32 - 2

/-- The slot of no key is just behind the array, and an array without an unbound slot can
grow. -/
def Sound (s : Sys V) : Op V → Prop
  | .bind _ memory => memory.isSome → s.map.curSize = s.map.totalSize → s.map.CanGrow
  | .find key => key.slotIndex ≠ s.map.totalSize
  | .rebind key _ => key.slotIndex ≠ s.map.totalSize
  | .unbind key => key.slotIndex ≠ s.map.totalSize

/-- No slot is used again `2 ^ 32` times or more. -/
def FewReuses [Inhabited V] (lazyMap : Bool) (s : Sys V) (op : Op V) : Prop :=
  ∀ t, step lazyMap s op = some t → ∀ i, uses t.issued i ≤ 2 ^ 32

/-! ## The invariant -/

namespace MapManager

structure Lists (m : MapManager V) (free occupied : List Nat) : Prop where
  freeRing : m.links.Ring freeListId free
  occupiedRing : m.links.Ring occupiedListId occupied
  perm : (free ++ occupied).Perm (List.range m.totalSize)
  size : m.totalSize ≤ 2 ^ 32 - 2

/-- What the slots hold, by the keys issued. -/
structure Holds (m : MapManager V) (issued : Table Key (Option V)) : Prop where
  slot : ∀ i < m.totalSize, (m.searchStructure i).extId.slotIndex = i ∨
    (m.searchStructure i).extId.slotIndex = freeListId
  generation : ∀ i < m.totalSize,
    (m.searchStructure i).extId.slotGeneration = uses issued i % 2 ^ 32
  unique : issued.keys.Nodup
  key : ∀ k ∈ issued.keys, k.slotIndex < m.totalSize ∧
    ∃ u, 1 ≤ u ∧ u ≤ uses issued k.slotIndex ∧ k.slotGeneration = u % 2 ^ 32
  live : ∀ k v, issued.find k = some (some v) ↔ k.slotIndex < m.totalSize ∧
    (m.searchStructure k.slotIndex).extId = k ∧ (m.searchStructure k.slotIndex).intId = v
  few : ∀ i, uses issued i ≤ 2 ^ 32
  current : m.curSize = (bound issued).length

/-- Slots on the free list are not bound; slots on the occupied list are, or marked. -/
structure Marks (lazyMap : Bool) (m : MapManager V) (free occupied : List Nat) : Prop where
  unused : ∀ i ∈ free, (m.searchStructure i).extId.slotIndex = freeListId ∧
    (m.searchStructure i).free = false
  used : ∀ i ∈ occupied,
    (m.searchStructure i).extId.slotIndex = i ∧ (m.searchStructure i).free = false ∨
    (lazyMap = true ∧ (m.searchStructure i).extId.slotIndex = freeListId ∧
      (m.searchStructure i).free = true)

/-- What does not depend on the keys issued. -/
structure Laid (lazyMap : Bool) (m : MapManager V) (free occupied : List Nat) : Prop where
  lists : m.Lists free occupied
  marks : m.Marks lazyMap free occupied

structure Inv (lazyMap : Bool) (m : MapManager V) (issued : Table Key (Option V))
    (free occupied : List Nat) : Prop where
  lists : m.Lists free occupied
  holds : m.Holds issued
  marks : m.Marks lazyMap free occupied

theorem Inv.laid {lazyMap : Bool} {m : MapManager V} {issued : Table Key (Option V)}
    {free occupied : List Nat} (h : Inv lazyMap m issued free occupied) :
    Laid lazyMap m free occupied := ⟨h.lists, h.marks⟩

variable {m m' : MapManager V} {lazyMap : Bool} {issued : Table Key (Option V)}
  {free occupied l l' l₁ l₂ : List Nat} {i : Nat}

/-! ### Lists -/

theorem slot_of_lt (h : m.totalSize ≤ 2 ^ 32 - 2) (hi : i < m.totalSize) : Slot i := by
  unfold Slot freeListId occupiedListId
  omega

theorem Lists.lt_of_mem (h : m.Lists free occupied) (hi : i ∈ free ∨ i ∈ occupied) :
    i < m.totalSize := mem_range.mp (h.perm.mem_iff.mp (mem_append.mpr hi))

theorem Lists.nodup (h : m.Lists free occupied) : (free ++ occupied).Nodup :=
  h.perm.nodup_iff.mpr nodup_range

theorem Lists.free_next (h : m.Lists free occupied) :
    m.freeList.next = (free ++ [freeListId]).head (by simp) := by
  have hhead := h.freeRing.head?
  rw [head?_eq_some_head (by simp)] at hhead
  exact (some.inj hhead).symm

/-- A slot moves from list `w` to the front of the other one. -/
theorem rings_sharedMove (m : MapManager V) (w : Which)
    (h : m.links.Ring w.id (l₁ ++ i :: l₂)) (h' : m.links.Ring w.other.id l')
    (hslots : ∀ z ∈ l₁ ++ i :: l₂, Slot z) (hslots' : ∀ z ∈ l', Slot z)
    (hdisj : ∀ z ∈ l', z ∉ l₁ ++ i :: l₂) :
    (m.sharedMove i w w.other).links.Ring w.id (l₁ ++ l₂) ∧
      (m.sharedMove i w w.other).links.Ring w.other.id (i :: l') := by
  have hmem : i ∈ l₁ ++ i :: l₂ := mem_append_right _ mem_cons_self
  have hb : w.id ∉ l' := fun hm => (hslots' _ hm).ne_id w rfl
  have hb' : w.other.id ∉ l₁ ++ i :: l₂ := fun hm => (hslots _ hm).ne_id w.other rfl
  have hrings := h.move h' w.id_ne_other hb hb' hdisj
  obtain ⟨hp, hq⟩ := h.at
  obtain ⟨hwl, hl⟩ := nodup_cons.mp h.nodup
  have hi : i ∉ l₁ ++ l₂ := (nodup_cons.mp (perm_middle.nodup_iff.mp hl)).1
  have hprev : m.links.prev i ≠ w.other.id ∧ m.links.prev i ≠ i := by
    rcases Links.getLast?_mem_or hp with e | hm
    · rw [e]
      exact ⟨w.id_ne_other, fun e => hwl (e ▸ hmem)⟩
    · refine ⟨(hslots _ (mem_append_left _ hm)).ne_id w.other, fun e => ?_⟩
      exact hi (mem_append_left _ (e ▸ hm))
  have hnext : m.links.next i ≠ w.other.id := by
    rcases Links.head?_mem_or hq with e | hm
    · rw [e]
      exact w.id_ne_other
    · exact (hslots _ (mem_append_right _ (mem_cons_of_mem i hm))).ne_id w.other
  have hfirst : (m.links.unlink i).next w.other.id ≠ w.id := by
    have hother : (m.links.unlink i).Ring w.other.id l' := h.unlink_frame h' fun z hz => by
      rcases hz with rfl | hz
      · exact ⟨w.id_ne_other.symm, hb'⟩
      · exact ⟨(hslots' z hz).ne_id w, hdisj z hz⟩
    rcases Links.head?_mem_or hother.head? with e | hm
    · rw [e]
      exact w.id_ne_other.symm
    · exact (hslots' _ hm).ne_id w
  rw [links_sharedMove m w (hslots i hmem) hprev hnext hfirst]
  exact hrings

theorem Lists.bind_move (h : m.Lists (i :: free) occupied) :
    (m.sharedMove i .free .occupied).Lists free (i :: occupied) := by
  have hlt := fun z (hz : z ∈ i :: free ∨ z ∈ occupied) => slot_of_lt h.size (h.lt_of_mem hz)
  have hdisj := (nodup_append.mp h.nodup).2.2
  have hfree : m.links.Ring Which.free.id ([] ++ i :: free) := h.freeRing
  have hmove := rings_sharedMove m .free hfree h.occupiedRing
    (fun z hz => hlt z (.inl hz)) (fun z hz => hlt z (.inr hz))
    (fun z hz hz' => hdisj z hz' z hz rfl)
  have hsize := (sameData_sharedMove m i .free .occupied).1
  refine ⟨hmove.1, hmove.2, ?_, ?_⟩
  · rw [hsize]
    exact perm_middle.trans h.perm
  · rw [hsize]
    exact h.size

theorem Lists.unbind_move (h : m.Lists free (l₁ ++ i :: l₂)) :
    (m.sharedMove i .occupied .free).Lists (i :: free) (l₁ ++ l₂) := by
  have hlt := fun z (hz : z ∈ free ∨ z ∈ l₁ ++ i :: l₂) => slot_of_lt h.size (h.lt_of_mem hz)
  have hdisj := (nodup_append.mp h.nodup).2.2
  have hmove := rings_sharedMove m .occupied h.occupiedRing h.freeRing
    (fun z hz => hlt z (.inr hz)) (fun z hz => hlt z (.inl hz))
    (fun z hz hz' => hdisj z hz z hz' rfl)
  have hsize := (sameData_sharedMove m i .occupied .free).1
  refine ⟨hmove.2, hmove.1, ?_, ?_⟩
  · rw [hsize]
    refine Perm.trans ?_ h.perm
    have hmid : (free ++ (l₁ ++ i :: l₂)).Perm (i :: (free ++ (l₁ ++ l₂))) := by
      rw [← append_assoc, ← append_assoc]
      exact perm_middle
    exact hmid.symm
  · rw [hsize]
    exact h.size

theorem Lists.of_links (h : m.Lists free occupied) (hlinks : m'.links = m.links)
    (hsize : m'.totalSize = m.totalSize) : m'.Lists free occupied := by
  refine ⟨?_, ?_, ?_, ?_⟩
  · rw [hlinks]
    exact h.freeRing
  · rw [hlinks]
    exact h.occupiedRing
  · rw [hsize]
    exact h.perm
  · rw [hsize]
    exact h.size

/-! ### Keys -/

def SameKeys (m m' : MapManager V) : Prop :=
  m'.totalSize = m.totalSize ∧ m'.curSize = m.curSize ∧
    ∀ i, (m'.searchStructure i).extId = (m.searchStructure i).extId ∧
      (m'.searchStructure i).intId = (m.searchStructure i).intId

theorem SameKeys.refl (m : MapManager V) : m.SameKeys m := ⟨rfl, rfl, fun _ => ⟨rfl, rfl⟩⟩

theorem SameKeys.trans {m'' : MapManager V} (h : m.SameKeys m') (h' : m'.SameKeys m'') :
    m.SameKeys m'' := by
  refine ⟨h'.1.trans h.1, h'.2.1.trans h.2.1, fun i => ?_⟩
  exact ⟨(h'.2.2 i).1.trans (h.2.2 i).1, (h'.2.2 i).2.trans (h.2.2 i).2⟩

theorem SameData.sameKeys (h : m.SameData m') : m.SameKeys m' :=
  ⟨h.1, h.2.1, fun i => ⟨(h.2.2 i).1, (h.2.2 i).2.1⟩⟩

theorem Holds.of_sameKeys (h : m.Holds issued) (hsame : m.SameKeys m') : m'.Holds issued := by
  obtain ⟨hsize, hcur, hdata⟩ := hsame
  refine ⟨fun i hi => ?_, fun i hi => ?_, h.unique, fun k hk => ?_, fun k v => ?_, h.few, ?_⟩
  · rw [(hdata i).1]
    exact h.slot i (hsize ▸ hi)
  · rw [(hdata i).1]
    exact h.generation i (hsize ▸ hi)
  · rw [hsize]
    exact h.key k hk
  · rw [hsize, (hdata k.slotIndex).1, (hdata k.slotIndex).2]
    exact h.live k v
  · rw [hcur]
    exact h.current

theorem uses_append (t : Table Key (Option V)) (k : Key) (x : Option V) (i : Nat) :
    uses (t ++ [(k, x)]) i = uses t i + if k.slotIndex = i then 1 else 0 := by
  unfold uses Table.keys
  simp

theorem uses_set (t : Table Key (Option V)) (k : Key) (x : Option V) (i : Nat) :
    uses (t.set k x) i = uses t i := by
  unfold uses
  rw [keys_set]

theorem bound_append (t : Table Key (Option V)) (k : Key) (v : V) :
    (bound (t ++ [(k, some v)])).length = (bound t).length + 1 := by
  unfold bound
  rw [filter_append, length_append]
  rfl

theorem bound_cons (e : Key × Option V) (t : Table Key (Option V)) :
    (bound (e :: t)).length = (bound t).length + e.2.isSome.toNat := by
  unfold bound
  rw [filter_cons]
  cases h : e.2.isSome <;> simp

theorem bound_set {t : Table Key (Option V)} (ht : t.keys.Nodup) {k : Key} {old : Option V}
    (h : t.find k = some old) (new : Option V) :
    (bound (t.set k new)).length + old.isSome.toNat = (bound t).length + new.isSome.toNat := by
  induction t with
  | nil => cases h
  | cons e t ih =>
    obtain ⟨hmem, hrest⟩ := nodup_cons.mp ht
    rw [Table.set, map_cons, ← Table.set, bound_cons, bound_cons]
    rw [find_cons] at h
    by_cases hk : e.1 = k
    · rw [if_pos hk] at h
      cases h
      rw [if_pos hk, set_of_not_mem (hk ▸ hmem)]
      exact Nat.add_right_comm _ _ _
    · rw [if_neg hk] at h
      rw [if_neg hk]
      have hih := ih hrest h
      omega

def boundSlots (m : MapManager V) : List Nat :=
  (List.range m.totalSize).filter fun i => (m.searchStructure i).extId.slotIndex = i

/-- **One key for each slot** that is bound. -/
theorem Holds.bound_perm (h : m.Holds issued) :
    ((bound issued).map fun e => e.1.slotIndex).Perm m.boundSlots := by
  have hlive : ∀ e ∈ bound issued, e.1.slotIndex < m.totalSize ∧
      (m.searchStructure e.1.slotIndex).extId = e.1 := by
    intro e he
    obtain ⟨hmem, hsome⟩ := List.mem_filter.mp he
    obtain ⟨v, hv⟩ := Option.isSome_iff_exists.mp hsome
    have hfind : issued.find e.1 = some (some v) := by
      rw [← hv]
      exact find_of_mem h.unique hmem
    obtain ⟨hlt, hext, -⟩ := (h.live e.1 v).mp hfind
    exact ⟨hlt, hext⟩
  have hkeys : ((bound issued).map Prod.fst).Nodup :=
    (List.filter_sublist.map Prod.fst).nodup h.unique
  have hnodup : ((bound issued).map fun e => e.1.slotIndex).Nodup := by
    refine List.Nodup.map_on (fun e he d hd hed => ?_) (List.Nodup.of_map Prod.fst hkeys)
    have hkey : e.1 = d.1 := by rw [← (hlive e he).2, ← (hlive d hd).2, hed]
    exact List.inj_on_of_nodup_map hkeys he hd hkey
  refine (List.perm_ext_iff_of_nodup hnodup (List.nodup_range.filter _)).mpr fun i => ?_
  rw [List.mem_map, List.mem_filter, List.mem_range, decide_eq_true_iff]
  constructor
  · rintro ⟨e, he, rfl⟩
    obtain ⟨hlt, hext⟩ := hlive e he
    exact ⟨hlt, by rw [hext]⟩
  · rintro ⟨hlt, hslot⟩
    generalize hk : (m.searchStructure i).extId = k at hslot
    have hfind : issued.find k = some (some (m.searchStructure i).intId) := by
      refine (h.live k _).mpr ?_
      rw [hslot]
      exact ⟨hlt, hk, rfl⟩
    exact ⟨(k, _), List.mem_filter.mpr ⟨mem_of_find hfind, rfl⟩, hslot⟩

theorem Holds.current_le (h : m.Holds issued) : m.curSize ≤ m.totalSize := by
  have hlen := h.bound_perm.length_eq
  rw [length_map, ← h.current] at hlen
  rw [hlen]
  exact (length_filter_le _ _).trans (length_range).le

/-- All slots are bound: the array is full. -/
theorem Holds.current_eq (h : m.Holds issued)
    (hall : ∀ i < m.totalSize, (m.searchStructure i).extId.slotIndex = i) :
    m.curSize = m.totalSize := by
  have hlen := h.bound_perm.length_eq
  rw [length_map, ← h.current] at hlen
  have hself : m.boundSlots = range m.totalSize :=
    filter_eq_self.mpr fun i hi => decide_eq_true (hall i (mem_range.mp hi))
  rw [hlen, hself, length_range]

/-! ### `find` -/

theorem Laid.marks_live (h : Laid lazyMap m free occupied) (hi : i < m.totalSize)
    (hslot : (m.searchStructure i).extId.slotIndex = i) : (m.searchStructure i).free = false := by
  have hne : i ≠ freeListId := (slot_of_lt h.lists.size hi).1
  have hmem := h.lists.perm.mem_iff.mpr (mem_range.mpr hi)
  rcases mem_append.mp hmem with hfree | hocc
  · exact (h.marks.unused i hfree).2
  · rcases h.marks.used i hocc with ⟨-, hflag⟩ | ⟨-, hslot', -⟩
    · exact hflag
    · exact absurd (hslot.symm.trans hslot') hne

/-- **`find` succeeds** for the keys that are bound, with the value stored last. -/
theorem find_spec (h : Inv lazyMap m issued free occupied) (key : Key)
    (hkey : key.slotIndex ≠ m.totalSize) :
    m.find lazyMap key = some (issued.find key).join := by
  unfold find
  by_cases hgt : key.slotIndex > m.totalSize
  · have hnone : issued.find key = none := by
      refine find_eq_none.mpr fun hmem => ?_
      have hlt := (h.holds.key key hmem).1
      omega
    rw [if_pos hgt, hnone]
    rfl
  · have hlt : key.slotIndex < m.totalSize := by omega
    rw [if_neg hgt, if_neg hkey]
    generalize hv : (issued.find key).join = status
    have hlive := h.holds.live key
    dsimp only
    split
    · rename_i hdead
      cases status with
      | none => rfl
      | some v =>
        obtain ⟨-, hext, -⟩ := (hlive v).mp (join_eq_some_iff.mp hv)
        have hslot : (m.searchStructure key.slotIndex).extId.slotIndex = key.slotIndex := by
          rw [hext]
        rcases hdead with ⟨-, hflag⟩ | hgen | hfree
        · rw [h.laid.marks_live hlt hslot] at hflag
          cases hflag
        · exact absurd (by rw [hext]) hgen
        · exact absurd (hslot.symm.trans hfree) (slot_of_lt h.lists.size hlt).1
    · rename_i hlook
      obtain ⟨-, hlook⟩ := not_or.mp hlook
      obtain ⟨hgen, hfree⟩ := not_or.mp hlook
      have hslot := (h.holds.slot _ hlt).resolve_right hfree
      have hext : (m.searchStructure key.slotIndex).extId = key := by
        cases hk : (m.searchStructure _).extId
        simp_all
      have hfind := (hlive (m.searchStructure key.slotIndex).intId).mpr ⟨hlt, hext, rfl⟩
      rw [hfind] at hv
      cases hv
      rfl

/-! ### `bind` -/

theorem occupy_data (m : MapManager V) (i : Nat) (v : V) :
    (m.occupy i v).totalSize = m.totalSize ∧ (m.occupy i v).curSize = (m.curSize + 1) % 2 ^ 32 ∧
      (m.occupy i v).searchStructure i = { (m.sharedMove i .free .occupied).searchStructure i with
        extId := ⟨i, ((m.searchStructure i).extId.slotGeneration + 1) % 2 ^ 32⟩
        intId := v } ∧ ∀ j ≠ i, (m.occupy i v).searchStructure j =
        (m.sharedMove i .free .occupied).searchStructure j := by
  obtain ⟨hsize, hcur, hdata⟩ := sameData_sharedMove m i .free .occupied
  refine ⟨hsize, ?_, ?_, fun j hj => ?_⟩
  · show ((m.sharedMove i .free .occupied).curSize + 1) % 2 ^ 32 = _
    rw [hcur]
  · rw [← (hdata i).1]
    exact update_self _ _ _
  · exact update_of_ne hj _ _

theorem Holds.occupy (h : m.Holds issued) (hsize : m.totalSize ≤ 2 ^ 32 - 2)
    (hi : i < m.totalSize) (hfree : (m.searchStructure i).extId.slotIndex = freeListId)
    (huses : uses issued i < 2 ^ 32) (v : V) :
    (m.occupy i v).Holds (issued ++ [(⟨i, (uses issued i + 1) % 2 ^ 32⟩, some v)]) := by
  obtain ⟨htotal, hcur, hself, hother⟩ := occupy_data m i v
  obtain ⟨-, -, hdata⟩ := sameData_sharedMove m i .free .occupied
  have hgen := h.generation i hi
  have hi' : i ≠ freeListId := (slot_of_lt hsize hi).1
  generalize hk : (⟨i, (uses issued i + 1) % 2 ^ 32⟩ : Key) = k
  have hkslot : k.slotIndex = i := by rw [← hk]
  have hext : ((m.occupy i v).searchStructure i).extId = k := by
    rw [hself, ← hk, hgen, mod_add_mod]
  have hval : ((m.occupy i v).searchStructure i).intId = v := by rw [hself]
  have hold : ∀ j ≠ i, ((m.occupy i v).searchStructure j).extId = (m.searchStructure j).extId ∧
      ((m.occupy i v).searchStructure j).intId = (m.searchStructure j).intId := by
    intro j hj
    rw [hother j hj]
    exact ⟨(hdata j).1, (hdata j).2.1⟩
  -- a generation comes back after `2 ^ 32` uses only
  have hfresh : issued.find k = none := by
    refine find_eq_none.mpr fun hmem => ?_
    obtain ⟨-, u, hu, hle, hmod⟩ := h.key k hmem
    rw [hkslot] at hle
    have hkgen : k.slotGeneration = (uses issued i + 1) % 2 ^ 32 := by rw [← hk]
    omega
  refine ⟨fun j hj => ?_, fun j hj => ?_, nodup_append_singleton h.unique hfresh,
    fun k' hk' => ?_, fun k' w => ?_, fun j => ?_, ?_⟩
  · by_cases hji : j = i
    · subst hji
      rw [hext]
      exact .inl hkslot
    · rw [(hold j hji).1]
      exact h.slot j (htotal ▸ hj)
  · rw [uses_append]
    by_cases hji : j = i
    · subst hji
      rw [hext, if_pos hkslot, ← hk]
    · rw [(hold j hji).1, if_neg fun e => hji (e.symm.trans hkslot)]
      exact h.generation j (htotal ▸ hj)
  · rw [htotal, uses_append]
    rw [Table.keys, map_append, mem_append] at hk'
    rcases hk' with hk' | hk'
    · obtain ⟨hlt, u, hu, hle, hmod⟩ := h.key k' hk'
      exact ⟨hlt, u, hu, hle.trans (le_add_right _ _), hmod⟩
    · obtain rfl : k' = k := mem_singleton.mp hk'
      rw [hkslot, if_pos rfl]
      exact ⟨hi, uses issued i + 1, by omega, Nat.le_refl _, by rw [← hk]⟩
  · rw [htotal, find_append, find_cons, find_nil]
    by_cases hkk : k = k'
    · subst hkk
      rw [hfresh, if_pos rfl, hkslot, hext, hval]
      simp [hi]
    · rw [if_neg hkk, or_none, h.live]
      by_cases hslot : k'.slotIndex = i
      · rw [hslot, hext]
        constructor
        · rintro ⟨-, hk', -⟩
          have hbad : k'.slotIndex = freeListId := by rw [← hk', hfree]
          exact absurd (hslot.symm.trans hbad) hi'
        · rintro ⟨-, hk', -⟩
          exact absurd hk' hkk
      · rw [(hold _ hslot).1, (hold _ hslot).2]
  · rw [uses_append]
    have hle := h.few j
    split
    · rename_i hj
      rw [← hj, hkslot]
      omega
    · omega
  · have hle := h.current_le
    rw [hcur, bound_append, ← h.current]
    omega

theorem Laid.occupy (h : Laid lazyMap m (i :: free) occupied) (v : V) :
    Laid lazyMap (m.occupy i v) free (i :: occupied) := by
  obtain ⟨-, hflag⟩ := h.marks.unused i mem_cons_self
  obtain ⟨htotal, -, hself, hother⟩ := occupy_data m i v
  obtain ⟨-, -, hdata⟩ := sameData_sharedMove m i .free .occupied
  have hnodup := h.lists.nodup
  rw [cons_append, nodup_cons, mem_append, not_or] at hnodup
  refine ⟨?_, fun j hj => ?_, fun j hj => ?_⟩
  · exact h.lists.bind_move.of_links (links_setEntry_same _ i rfl rfl) rfl
  · rw [hother j fun e => hnodup.1.1 (e ▸ hj), (hdata j).1, (hdata j).2.2]
    exact h.marks.unused j (mem_cons_of_mem i hj)
  · rcases mem_cons.mp hj with rfl | hj
    · rw [hself]
      exact .inl ⟨rfl, (hdata j).2.2.trans hflag⟩
    · rw [hother j fun e => hnodup.1.2 (e ▸ hj), (hdata j).1, (hdata j).2.2]
      exact h.marks.used j hj

theorem occupy_spec (h : Inv lazyMap m issued (i :: free) occupied) (huses : uses issued i < 2 ^ 32)
    (v : V) :
    Inv lazyMap (m.occupy i v) (issued ++ [(⟨i, (uses issued i + 1) % 2 ^ 32⟩, some v)])
        free (i :: occupied) ∧
      ((m.occupy i v).searchStructure i).extId = ⟨i, (uses issued i + 1) % 2 ^ 32⟩ := by
  have hi := h.lists.lt_of_mem (.inl mem_cons_self)
  have hslot := (h.marks.unused i mem_cons_self).1
  obtain ⟨hlists, hmarks⟩ := h.laid.occupy v
  refine ⟨⟨hlists, h.holds.occupy h.lists.size hi hslot huses v, hmarks⟩, ?_⟩
  rw [(occupy_data m i v).2.2.1, h.holds.generation i hi, mod_add_mod]

/-! ### `rebind` and `unbind` -/

/-- The key in a slot is the only one that is bound there. -/
theorem Holds.key_of_slot (h : m.Holds issued) {k k' : Key} {v w : V}
    (hk : issued.find k = some (some v)) (hk' : issued.find k' = some (some w))
    (hslot : k.slotIndex = k'.slotIndex) : k = k' := by
  obtain ⟨-, hext, -⟩ := (h.live k v).mp hk
  obtain ⟨-, hext', -⟩ := (h.live k' w).mp hk'
  rw [← hext, ← hext', hslot]

theorem store_eq {k : Key} {v : V} (hk : issued.find k = some (some v)) (w : V) :
    store issued k w = issued.set k (some w) := by
  unfold store
  rw [hk]

theorem Holds.rebind (h : m.Holds issued) {k : Key} {v : V} (hk : issued.find k = some (some v))
    (w : V) : (m.setEntry k.slotIndex { m.searchStructure k.slotIndex with intId := w }).Holds
      (issued.set k (some w)) := by
  obtain ⟨hlt, hext, -⟩ := (h.live k v).mp hk
  generalize hm : m.setEntry k.slotIndex { m.searchStructure k.slotIndex with intId := w } = m'
  have hself : m'.searchStructure k.slotIndex =
      { m.searchStructure k.slotIndex with intId := w } := by
    rw [← hm]
    exact update_self _ _ _
  have hother : ∀ j ≠ k.slotIndex, m'.searchStructure j = m.searchStructure j := by
    intro j hj
    rw [← hm]
    exact update_of_ne hj _ _
  have htotal : m'.totalSize = m.totalSize := by rw [← hm]; rfl
  have hcur : m'.curSize = m.curSize := by rw [← hm]; rfl
  have hsame : ∀ j, (m'.searchStructure j).extId = (m.searchStructure j).extId := by
    intro j
    by_cases hj : j = k.slotIndex
    · subst hj
      rw [hself]
    · rw [hother j hj]
  refine ⟨fun j hj => ?_, fun j hj => ?_, ?_, fun k' hk' => ?_, fun k' x => ?_, fun j => ?_, ?_⟩
  · rw [hsame]
    exact h.slot j (htotal ▸ hj)
  · rw [hsame, uses_set]
    exact h.generation j (htotal ▸ hj)
  · rw [keys_set]
    exact h.unique
  · rw [keys_set] at hk'
    rw [uses_set, htotal]
    exact h.key k' hk'
  · rw [find_set, hk, htotal, hsame]
    by_cases hkk : k = k'
    · subst hkk
      rw [if_pos ⟨rfl, rfl⟩, hself, hext]
      simp [hlt]
    · rw [if_neg fun e => hkk e.1, h.live]
      by_cases hslot : k'.slotIndex = k.slotIndex
      · rw [hslot, hext]
        simp [hkk]
      · rw [hother _ hslot]
  · rw [uses_set]
    exact h.few j
  · have hbound := bound_set h.unique hk (some w)
    simp only [isSome_some, Bool.toNat_true] at hbound
    rw [hcur, h.current]
    omega

/-- A value that is stored again changes neither keys nor lists. -/
theorem setValue_data (m : MapManager V) (i : Nat) (w : V) (j : Nat) :
    ((m.setEntry i { m.searchStructure i with intId := w }).searchStructure j).extId =
        (m.searchStructure j).extId ∧
      ((m.setEntry i { m.searchStructure i with intId := w }).searchStructure j).free =
        (m.searchStructure j).free := by
  by_cases hj : j = i
  · subst hj
    simp [setEntry]
  · simp [setEntry, hj]

theorem Laid.setValue (h : Laid lazyMap m free occupied) (i : Nat) (w : V) :
    Laid lazyMap (m.setEntry i { m.searchStructure i with intId := w }) free occupied := by
  refine ⟨h.lists.of_links (links_setEntry_same m _ rfl rfl) rfl, fun j hj => ?_, fun j hj => ?_⟩
  · rw [(setValue_data m i w j).1, (setValue_data m i w j).2]
    exact h.marks.unused j hj
  · rw [(setValue_data m i w j).1, (setValue_data m i w j).2]
    exact h.marks.used j hj

theorem rebind_spec (h : Inv lazyMap m issued free occupied) {k : Key} {v : V}
    (hk : issued.find k = some (some v)) (w : V) :
    Inv lazyMap (m.setEntry k.slotIndex { m.searchStructure k.slotIndex with intId := w })
      (issued.set k (some w)) free occupied := by
  obtain ⟨hlists, hmarks⟩ := h.laid.setValue k.slotIndex w
  exact ⟨hlists, h.holds.rebind hk w, hmarks⟩

/-- What `vacate` does before it clears the key. -/
def release (lazyMap : Bool) (m : MapManager V) (i : Nat) : MapManager V :=
  if lazyMap then m.setEntry i { m.searchStructure i with free := true }
  else m.sharedMove i .occupied .free

theorem sameKeys_release (lazyMap : Bool) (m : MapManager V) (i : Nat) :
    m.SameKeys (m.release lazyMap i) := by
  unfold release
  split
  · refine ⟨rfl, rfl, fun j => ?_⟩
    by_cases hj : j = i
    · subst hj
      simp [setEntry]
    · simp [setEntry, hj]
  · exact (sameData_sharedMove m i .occupied .free).sameKeys

theorem release_free (lazyMap : Bool) (m : MapManager V) (i j : Nat) :
    ((m.release lazyMap i).searchStructure j).free =
      if lazyMap = true ∧ j = i then true else (m.searchStructure j).free := by
  unfold release
  split
  · rename_i hlazy
    by_cases hj : j = i
    · subst hj
      simp [setEntry, hlazy]
    · simp [setEntry, hj]
  · rename_i hlazy
    rw [if_neg fun e => hlazy e.1]
    exact ((sameData_sharedMove m i .occupied .free).2.2 j).2.2

theorem vacate_eq (lazyMap : Bool) (m : MapManager V) (i : Nat) :
    m.vacate lazyMap i = { (m.release lazyMap i).setEntry i
      { (m.release lazyMap i).searchStructure i with
        extId := { ((m.release lazyMap i).searchStructure i).extId with
          slotIndex := freeListId } } with
      curSize := ((m.release lazyMap i).curSize + (2 ^ 32 - 1)) % 2 ^ 32 } := rfl

theorem links_curSize (m : MapManager V) (n : Nat) : { m with curSize := n }.links = m.links := rfl

theorem links_vacate (lazyMap : Bool) (m : MapManager V) (i : Nat) :
    (m.vacate lazyMap i).links = (m.release lazyMap i).links := by
  rw [vacate_eq, links_curSize]
  exact links_setEntry_same _ i (by rfl) (by rfl)

theorem vacate_data (lazyMap : Bool) (m : MapManager V) (i : Nat) :
    (m.vacate lazyMap i).totalSize = m.totalSize ∧
      (m.vacate lazyMap i).curSize = (m.curSize + (2 ^ 32 - 1)) % 2 ^ 32 ∧
      (∀ j, ((m.vacate lazyMap i).searchStructure j).intId = (m.searchStructure j).intId ∧
        ((m.vacate lazyMap i).searchStructure j).free =
          if lazyMap = true ∧ j = i then true else (m.searchStructure j).free) ∧
      ((m.vacate lazyMap i).searchStructure i).extId =
        { (m.searchStructure i).extId with slotIndex := freeListId } ∧
      ∀ j ≠ i, ((m.vacate lazyMap i).searchStructure j).extId = (m.searchStructure j).extId := by
  obtain ⟨hsize, hcur, hdata⟩ := sameKeys_release lazyMap m i
  have hflag := release_free lazyMap m i
  rw [vacate_eq]
  refine ⟨hsize, ?_, fun j => ?_, ?_, fun j hj => ?_⟩
  · show ((m.release lazyMap i).curSize + (2 ^ 32 - 1)) % 2 ^ 32 = _
    rw [hcur]
  · by_cases hj : j = i
    · subst hj
      simp [setEntry, hdata, hflag]
    · simp [setEntry, hj, hdata, hflag]
  · simp [setEntry, hdata]
  · simp [setEntry, hj, hdata]

theorem Holds.vacate (h : m.Holds issued) (hsize : m.totalSize ≤ 2 ^ 32 - 2) {k : Key} {v : V}
    (hk : issued.find k = some (some v)) :
    (m.vacate lazyMap k.slotIndex).Holds (issued.set k none) := by
  obtain ⟨hlt, hext, -⟩ := (h.live k v).mp hk
  have hne : k.slotIndex ≠ freeListId := (slot_of_lt hsize hlt).1
  obtain ⟨htotal, hcur, hdata, hself, hother⟩ := vacate_data lazyMap m k.slotIndex
  refine ⟨fun j hj => ?_, fun j hj => ?_, ?_, fun k' hk' => ?_, fun k' x => ?_, fun j => ?_, ?_⟩
  · by_cases hji : j = k.slotIndex
    · subst hji
      rw [hself]
      exact .inr rfl
    · rw [hother j hji]
      exact h.slot j (htotal ▸ hj)
  · rw [uses_set]
    by_cases hji : j = k.slotIndex
    · subst hji
      rw [hself]
      exact h.generation _ hlt
    · rw [hother j hji]
      exact h.generation j (htotal ▸ hj)
  · rw [keys_set]
    exact h.unique
  · rw [keys_set] at hk'
    rw [uses_set, htotal]
    exact h.key k' hk'
  · rw [find_set, hk, htotal, (hdata k'.slotIndex).1]
    by_cases hkk : k = k'
    · subst hkk
      rw [if_pos ⟨rfl, rfl⟩, hself]
      constructor
      · intro e
        cases e
      · rintro ⟨-, e, -⟩
        exact absurd (congrArg Key.slotIndex e).symm hne
    · rw [if_neg fun e => hkk e.1]
      by_cases hslot : k'.slotIndex = k.slotIndex
      · rw [hslot, hself]
        constructor
        · intro hk'
          exact absurd (h.key_of_slot hk hk' hslot.symm) hkk
        · rintro ⟨-, e, -⟩
          have hbad : freeListId = k'.slotIndex := congrArg Key.slotIndex e
          exact absurd (hbad.trans hslot).symm hne
      · rw [hother _ hslot, h.live]
  · rw [uses_set]
    exact h.few j
  · have hbound := bound_set h.unique hk none
    simp only [isSome_some, isSome_none, Bool.toNat_true, Bool.toNat_false] at hbound
    have hle := h.current_le
    rw [hcur, h.current] at *
    omega

theorem Laid.mem_occupied (h : Laid lazyMap m free occupied) (hlt : i < m.totalSize)
    (hslot : (m.searchStructure i).extId.slotIndex = i) : i ∉ free ∧ i ∈ occupied := by
  have hne : i ≠ freeListId := (slot_of_lt h.lists.size hlt).1
  have hnotfree : i ∉ free := fun hmem => hne (hslot.symm.trans (h.marks.unused _ hmem).1)
  have hmem := h.lists.perm.mem_iff.mpr (mem_range.mpr hlt)
  exact ⟨hnotfree, (mem_append.mp hmem).resolve_left hnotfree⟩

theorem Laid.vacate (h : Laid lazyMap m free occupied) (hlt : i < m.totalSize)
    (hslot : (m.searchStructure i).extId.slotIndex = i) :
    ∃ free' occupied', Laid lazyMap (m.vacate lazyMap i) free' occupied' := by
  have hflag := h.marks_live hlt hslot
  obtain ⟨hsize, -, hdata, hself, hother⟩ := vacate_data lazyMap m i
  have hlinks := links_vacate lazyMap m i
  obtain ⟨hnotfree, hocc⟩ := h.mem_occupied hlt hslot
  have hkeep : ∀ j ≠ i, ((m.vacate lazyMap i).searchStructure j).extId =
      (m.searchStructure j).extId ∧
      ((m.vacate lazyMap i).searchStructure j).free = (m.searchStructure j).free := by
    intro j hj
    exact ⟨hother j hj, (hdata j).2.trans (if_neg fun e => hj e.2)⟩
  cases lazyMap with
  | true =>
    refine ⟨free, occupied, ⟨?_, fun j hj => ?_, fun j hj => ?_⟩⟩
    · refine h.lists.of_links (hlinks.trans ?_) hsize
      exact links_setEntry_same m _ rfl rfl
    · obtain ⟨hj₁, hj₂⟩ := hkeep j fun e => hnotfree (e ▸ hj)
      rw [hj₁, hj₂]
      exact h.marks.unused j hj
    · by_cases hji : j = i
      · subst hji
        rw [hself, (hdata _).2]
        exact .inr ⟨rfl, rfl, if_pos ⟨rfl, rfl⟩⟩
      · rw [(hkeep j hji).1, (hkeep j hji).2]
        exact h.marks.used j hj
  | false =>
    obtain ⟨l₁, l₂, rfl⟩ := append_of_mem hocc
    have hnodup := (nodup_append.mp h.lists.nodup).2.1
    have hcut := (nodup_cons.mp (perm_middle.nodup_iff.mp hnodup)).1
    refine ⟨i :: free, l₁ ++ l₂, ⟨?_, fun j hj => ?_, fun j hj => ?_⟩⟩
    · have hmove := (sameData_sharedMove m i .occupied .free).1
      exact h.lists.unbind_move.of_links hlinks (hsize.trans hmove.symm)
    · rcases mem_cons.mp hj with rfl | hj
      · rw [hself, (hdata _).2]
        exact ⟨rfl, hflag⟩
      · obtain ⟨hj₁, hj₂⟩ := hkeep j fun e => hnotfree (e ▸ hj)
        rw [hj₁, hj₂]
        exact h.marks.unused j hj
    · obtain ⟨hj₁, hj₂⟩ := hkeep j fun e => hcut (e ▸ hj)
      rw [hj₁, hj₂]
      refine h.marks.used j ?_
      exact (mem_append.mp hj).elim (mem_append_left _)
        fun hj => mem_append_right _ (mem_cons_of_mem _ hj)

theorem vacate_spec (h : Inv lazyMap m issued free occupied) {k : Key} {v : V}
    (hk : issued.find k = some (some v)) : ∃ free' occupied',
      Inv lazyMap (m.vacate lazyMap k.slotIndex) (issued.set k none) free' occupied' := by
  obtain ⟨hlt, hext, -⟩ := (h.holds.live k v).mp hk
  obtain ⟨free', occupied', hlists, hmarks⟩ := h.laid.vacate hlt (by rw [hext])
  exact ⟨free', occupied', hlists, h.holds.vacate h.lists.size hk, hmarks⟩

/-! ### `next_free` -/

/-- Nothing is left to be moved: every slot of the occupied list is bound. -/
def Settled (m : MapManager V) (occupied : List Nat) : Prop :=
  ∀ i ∈ occupied, (m.searchStructure i).free = false

theorem sameKeys_clearFlag (m : MapManager V) (i : Nat) :
    m.SameKeys (m.setEntry i { m.searchStructure i with free := false }) := by
  refine ⟨rfl, rfl, fun j => ?_⟩
  by_cases hj : j = i
  · subst hj
    simp [setEntry]
  · simp [setEntry, hj]

theorem sameKeys_moveIfFree (m : MapManager V) (i : Nat) : m.SameKeys (m.moveIfFree i) := by
  unfold moveIfFree
  split
  · have hclear := sameKeys_clearFlag m i
    exact hclear.trans (sameData_sharedMove _ i .occupied .free).sameKeys
  · exact SameKeys.refl m

variable {kept rest : List Nat}

theorem Laid.moveIfFree (h : Laid lazyMap m free (kept ++ i :: rest)) (hkept : m.Settled kept) :
    ∃ free' kept', Laid lazyMap (m.moveIfFree i) free' (kept' ++ rest) ∧
      (m.moveIfFree i).Settled kept' := by
  unfold MapManager.moveIfFree
  split
  · rename_i hflag
    generalize hm : m.setEntry i { m.searchStructure i with free := false } = m₁
    have hlinks : m₁.links = m.links := by
      rw [← hm]
      exact links_setEntry_same m i rfl rfl
    have hsize : m₁.totalSize = m.totalSize := by rw [← hm]; rfl
    have hkeys : m.SameKeys m₁ := by
      rw [← hm]
      exact sameKeys_clearFlag m i
    have hself : (m₁.searchStructure i).free = false := by
      rw [← hm]
      simp [setEntry]
    have hother : ∀ j ≠ i, (m₁.searchStructure j).free = (m.searchStructure j).free := by
      intro j hj
      rw [← hm]
      simp [setEntry, hj]
    have hmove := sameData_sharedMove m₁ i .occupied .free
    have hnodup := h.lists.nodup
    obtain ⟨-, hocc, hdisj⟩ := nodup_append.mp hnodup
    have hcut := (nodup_cons.mp (perm_middle.nodup_iff.mp hocc)).1
    have hext : ∀ j, ((m₁.sharedMove i .occupied .free).searchStructure j).extId =
        (m.searchStructure j).extId := fun j => (hmove.2.2 j).1.trans (hkeys.2.2 j).1
    have hfree : ∀ j ≠ i, ((m₁.sharedMove i .occupied .free).searchStructure j).free =
        (m.searchStructure j).free := fun j hj => (hmove.2.2 j).2.2.trans (hother j hj)
    have hmem : i ∈ kept ++ i :: rest := mem_append_right _ mem_cons_self
    refine ⟨i :: free, kept, ⟨?_, fun j hj => ?_, fun j hj => ?_⟩, fun j hj => ?_⟩
    · exact (h.lists.of_links hlinks hsize).unbind_move
    · rcases mem_cons.mp hj with rfl | hj
      · rw [hext, (hmove.2.2 j).2.2]
        refine ⟨?_, hself⟩
        rcases h.marks.used j hmem with ⟨-, hno⟩ | ⟨-, hslot, -⟩
        · rw [hno] at hflag
          cases hflag
        · exact hslot
      · have hji : j ≠ i := hdisj j hj i hmem
        rw [hext, hfree j hji]
        exact h.marks.unused j hj
    · have hji : j ≠ i := fun e => hcut (e ▸ hj)
      rw [hext, hfree j hji]
      refine h.marks.used j ?_
      exact (mem_append.mp hj).elim (mem_append_left _)
        fun hj => mem_append_right _ (mem_cons_of_mem _ hj)
    · rw [hfree j fun e => hcut (e ▸ mem_append_left _ hj)]
      exact hkept j hj
  · rename_i hflag
    refine ⟨free, kept ++ [i], ?_, fun j hj => ?_⟩
    · rw [append_assoc]
      exact h
    · rcases mem_append.mp hj with hj | hj
      · exact hkept j hj
      · rw [mem_singleton.mp hj]
        exact Bool.eq_false_iff.mpr hflag

/-- The slot after the first of `rest`, or the list's id. -/
theorem Lists.occupied_next (h : m.Lists free (kept ++ i :: rest)) :
    (rest ++ [occupiedListId]).head? = some (m.searchStructure i).next := by
  have hi := h.lt_of_mem (.inr (mem_append_right kept mem_cons_self))
  rw [← (m.links_slot (slot_of_lt h.size hi)).1]
  exact h.occupiedRing.at.2

/-- **The loop** over the occupied list, from the slots in `rest` on. -/
theorem Laid.moveAllFrom {fuel : Nat} (hfuel : rest.length ≤ fuel)
    (hi : (rest ++ [occupiedListId]).head? = some i)
    (h : Laid lazyMap m free (kept ++ rest)) (hkept : m.Settled kept) :
    ∃ m' free' occupied', m.moveAllFrom fuel i = some m' ∧
      Laid lazyMap m' free' occupied' ∧ m'.Settled occupied' := by
  induction rest generalizing m free kept fuel i with
  | nil =>
    cases hi
    rw [append_nil] at h
    refine ⟨m, free, kept, ?_, h, hkept⟩
    unfold MapManager.moveAllFrom
    exact if_pos rfl
  | cons j rest ih =>
    cases hi
    have hlt := h.lists.lt_of_mem (.inr (mem_append_right kept mem_cons_self))
    have hslot := slot_of_lt h.lists.size hlt
    cases fuel with
    | zero => cases hfuel
    | succ fuel =>
      obtain ⟨free', kept', hinv, hkept'⟩ := h.moveIfFree hkept
      have hnext := h.lists.occupied_next
      unfold MapManager.moveAllFrom
      rw [if_neg hslot.2]
      exact ih (by simpa using hfuel) hnext hinv hkept'

theorem sameKeys_moveAllFrom {fuel : Nat} (h : m.moveAllFrom fuel i = some m') :
    m.SameKeys m' := by
  induction fuel generalizing m i with
  | zero =>
    unfold moveAllFrom at h
    split at h <;> cases h
    exact .refl _
  | succ fuel ih =>
    unfold moveAllFrom at h
    split at h
    · cases h
      exact .refl _
    · exact (sameKeys_moveIfFree m i).trans (ih h)

theorem Lists.occupied_head (h : m.Lists free occupied) :
    (occupied ++ [occupiedListId]).head? = some m.occupiedList.next := by
  rw [h.occupiedRing.head?]
  exact congrArg some (m.links_id .occupied).1

theorem Lists.length_le (h : m.Lists free occupied) :
    free.length + occupied.length = m.totalSize := by
  have hlen := h.perm.length_eq
  rwa [length_append, length_range] at hlen

theorem Laid.moveAllFreeSlots (h : Laid lazyMap m free occupied) :
    ∃ m' free' occupied', m.moveAllFreeSlots = some m' ∧ Laid lazyMap m' free' occupied' ∧
      m'.Settled occupied' := by
  have hlen := h.lists.length_le
  have hkept : m.Settled [] := fun j hj => absurd hj not_mem_nil
  have hlaid : Laid lazyMap m free ([] ++ occupied) := h
  exact hlaid.moveAllFrom (by omega) h.lists.occupied_head hkept

theorem moveAllFreeSlots_spec (h : Inv lazyMap m issued free occupied) :
    ∃ m' free' occupied', m.moveAllFreeSlots = some m' ∧
      Inv lazyMap m' issued free' occupied' ∧ m'.Settled occupied' := by
  obtain ⟨m', free', occupied', hmove, hlaid, hsettled⟩ := h.laid.moveAllFreeSlots
  have hholds := h.holds.of_sameKeys (sameKeys_moveAllFrom hmove)
  exact ⟨m', free', occupied', hmove, ⟨hlaid.lists, hholds, hlaid.marks⟩, hsettled⟩

section Resize

variable [Inhabited V] {n : Nat}

theorem resized_old (old : List Nat) (temp : Nat → Entry V) (hn : m.totalSize < n)
    (hi : i < m.totalSize) (hold : i ∈ old) : m.resized n old temp i = m.searchStructure i := by
  unfold resized
  rw [update_of_ne (by omega), update_of_ne (by omega), if_neg (by omega), if_pos hold]

/-- The new slots are linked in their order. -/
theorem resized_new (old : List Nat) (temp : Nat → Entry V) (hmax : n ≤ 2 ^ 32 - 2) (hi : m.totalSize ≤ i)
    (hi' : i < n) : m.resized n old temp i = { (Entry.fresh i : Entry V) with
      next := if i = n - 1 then freeListId else i + 1
      prev := if i = m.totalSize then freeListId else i - 1 } := by
  have hfresh : ∀ j, m.totalSize ≤ j → j < n →
      (if m.totalSize ≤ j ∧ j < n then Entry.fresh j else if j ∈ old then m.searchStructure j
        else temp j : Entry V) = .fresh j := fun j h₁ h₂ => if_pos ⟨h₁, h₂⟩
  have hnext : (i + 1) % 2 ^ 32 = i + 1 := mod_eq_of_lt (by omega)
  have hprev : i ≠ m.totalSize → (i + (2 ^ 32 - 1)) % 2 ^ 32 = i - 1 := by omega
  unfold resized
  by_cases hlo : i = m.totalSize
  · subst hlo
    rw [update_self, if_pos rfl]
    by_cases hhi : m.totalSize = n - 1
    · rw [if_pos hhi, ← hhi, update_self]
      dsimp only
      rw [hfresh _ hi hi']
    · rw [if_neg hhi, update_of_ne hhi, hfresh _ hi hi', ← hnext]
      rfl
  · rw [update_of_ne hlo, if_neg hlo, ← hprev hlo]
    by_cases hhi : i = n - 1
    · rw [if_pos hhi, ← hhi, update_self]
      dsimp only
      rw [hfresh _ hi hi']
      rfl
    · rw [if_neg hhi, update_of_ne hhi, hfresh _ hi hi', ← hnext]
      rfl

/-- The map after a resize. -/
def grown (m : MapManager V) (n : Nat) (old : List Nat) (temp : Nat → Entry V) : MapManager V :=
  { m with
    searchStructure := m.resized n old temp
    totalSize := n
    freeList := ⟨m.totalSize, n - 1⟩ }

omit [Inhabited V] in
theorem Lists.slots (h : m.Lists free occupied) :
    m.slots .occupied = some occupied ∧ m.slots .free = some free := by
  have hlen := h.length_le
  constructor
  · have hwalk : Walks (fun i => Links.stop occupiedListId (m.searchStructure i).next)
        (Links.stop occupiedListId m.occupiedList.next) occupied :=
      h.occupiedRing.walks.congr fun i hi => by
        rw [(m.links_slot (slot_of_lt h.size (h.lt_of_mem (.inr hi)))).1]
    exact hwalk.walk (by omega)
  · have hwalk : Walks (fun i => Links.stop freeListId (m.searchStructure i).next)
        (Links.stop freeListId m.freeList.next) free := h.freeRing.walks.congr fun i hi => by
        rw [(m.links_slot (slot_of_lt h.size (h.lt_of_mem (.inl hi)))).1]
    exact hwalk.walk (by omega)

theorem resizeI_eq (temp : Nat → Entry V) (h : m.Lists free occupied) (hn : m.totalSize < n) :
    m.resizeI n (some temp) = some (m.grown n (occupied ++ free) temp, true) := by
  obtain ⟨hocc, hfree⟩ := h.slots
  have hlt : ∀ i ∈ occupied ++ free, i < n := fun i hi =>
    (h.lt_of_mem (mem_append.mp hi).symm).trans hn
  unfold resizeI
  rw [hocc, hfree]
  exact if_pos ⟨hn, hlt⟩

theorem Lists.grown (temp : Nat → Entry V) (h : m.Lists [] occupied) (hn : m.totalSize < n) (hmax : n ≤ 2 ^ 32 - 2) :
    (m.grown n (occupied ++ []) temp).Lists (range' m.totalSize (n - 1 - m.totalSize + 1))
      occupied := by
  generalize hm : m.grown n (occupied ++ []) temp = m'
  have hsize : m'.totalSize = n := by rw [← hm]; rfl
  have hnew : ∀ i, m.totalSize ≤ i → i < n →
      m'.links.next i = (if i = n - 1 then freeListId else i + 1) ∧
        m'.links.prev i = (if i = m.totalSize then freeListId else i - 1) := by
    intro i hi hi'
    have hentry := resized_new (occupied ++ []) temp hmax hi hi'
    have hslot : Slot i := slot_of_lt (m := m') (hsize ▸ hmax) (hsize ▸ hi')
    rw [(m'.links_slot hslot).1, (m'.links_slot hslot).2, ← hm]
    show (m.resized n (occupied ++ []) temp i).next = _ ∧ (m.resized n (occupied ++ []) temp i).prev = _
    rw [hentry]
    exact ⟨rfl, rfl⟩
  have hold : ∀ i ∈ occupied, m'.links.next i = m.links.next i ∧
      m'.links.prev i = m.links.prev i := by
    intro i hi
    have hlt := h.lt_of_mem (.inr hi)
    have hentry := resized_old (occupied ++ []) temp hn hlt (mem_append_left [] hi)
    have hslot : Slot i := slot_of_lt h.size hlt
    rw [(m'.links_slot hslot).1, (m'.links_slot hslot).2, (m.links_slot hslot).1,
      (m.links_slot hslot).2, ← hm]
    show (m.resized n (occupied ++ []) temp i).next = _ ∧ (m.resized n (occupied ++ []) temp i).prev = _
    rw [hentry]
    exact ⟨rfl, rfl⟩
  have hhead : m'.links.next freeListId = m.totalSize ∧ m'.links.prev freeListId = n - 1 := by
    rw [← hm]
    exact ⟨rfl, rfl⟩
  have hocc : m'.links.next occupiedListId = m.links.next occupiedListId ∧
      m'.links.prev occupiedListId = m.links.prev occupiedListId := by
    rw [← hm]
    exact ⟨rfl, rfl⟩
  refine ⟨Links.Ring.range' (fun i _ hi => ?_) ⟨hhead.1, ?_⟩ (fun i hi hi' => ⟨?_, ?_⟩) ⟨?_, ?_⟩,
    h.occupiedRing.frame (fun z hz => ?_) fun z hz => ?_, ?_, hsize ▸ hmax⟩
  · unfold freeListId
    omega
  · rw [(hnew _ (Nat.le_refl _) hn).2, if_pos rfl]
  · rw [(hnew i hi (by omega)).1, if_neg (by omega)]
  · rw [(hnew (i + 1) (by omega) (by omega)).2, if_neg (by omega), Nat.add_sub_cancel]
  · rw [(hnew _ (by omega) (by omega)).1, if_pos (by omega)]
  · rw [hhead.2]
    omega
  · rcases hz with rfl | hz
    · exact hocc.1
    · exact (hold z hz).1
  · rcases hz with rfl | hz
    · exact hocc.2
    · exact (hold z hz).2
  · have hcut : n - 1 - m.totalSize + 1 = n - m.totalSize := by omega
    have hrange : range n =
        range m.totalSize ++ range' m.totalSize (n - m.totalSize) := by
      have happend := range'_append_1 (s := 0) (m := m.totalSize) (n := n - m.totalSize)
      rw [Nat.zero_add, Nat.add_sub_cancel' hn.le] at happend
      rw [range_eq_range', range_eq_range', happend]
    rw [hsize, hcut, hrange]
    exact perm_append_comm.trans ((h.perm).append_right _)

omit [Inhabited V] in
theorem uses_eq_zero (h : m.Holds issued) (hi : m.totalSize ≤ i) : uses issued i = 0 := by
  refine countP_eq_zero.mpr fun k hk => ?_
  have hlt := (h.key k hk).1
  rw [decide_eq_true_iff]
  omega

theorem Lists.grown_old (temp : Nat → Entry V) (h : m.Lists [] occupied) (hn : m.totalSize < n)
    (hi : i < m.totalSize) :
    (m.grown n (occupied ++ []) temp).searchStructure i = m.searchStructure i := by
  have hmem := h.perm.mem_iff.mpr (mem_range.mpr hi)
  have hocc := (mem_append.mp hmem).resolve_left not_mem_nil
  exact resized_old _ temp hn hi (mem_append_left [] hocc)

theorem grown_new (m : MapManager V) (old : List Nat) (temp : Nat → Entry V)
    (hi : m.totalSize ≤ i) (hi' : i < n) :
    ((m.grown n old temp).searchStructure i).extId = ⟨freeListId, 0⟩ ∧
      ((m.grown n old temp).searchStructure i).free = false := by
  have hfresh : ∀ j, m.totalSize ≤ j → j < n →
      (if m.totalSize ≤ j ∧ j < n then Entry.fresh j else if j ∈ old then m.searchStructure j
        else temp j : Entry V) = .fresh j := fun j h₁ h₂ => if_pos ⟨h₁, h₂⟩
  show (m.resized n old temp i).extId = _ ∧ (m.resized n old temp i).free = _
  unfold resized
  by_cases hlo : i = m.totalSize
  · subst hlo
    rw [update_self]
    by_cases hhi : m.totalSize = n - 1
    · rw [← hhi, update_self]
      dsimp only
      rw [hfresh _ hi hi']
      exact ⟨rfl, rfl⟩
    · rw [update_of_ne hhi]
      rw [hfresh _ hi hi']
      exact ⟨rfl, rfl⟩
  · rw [update_of_ne hlo]
    by_cases hhi : i = n - 1
    · rw [← hhi, update_self]
      dsimp only
      rw [hfresh _ hi hi']
      exact ⟨rfl, rfl⟩
    · rw [update_of_ne hhi]
      rw [hfresh _ hi hi']
      exact ⟨rfl, rfl⟩

theorem Laid.grown (temp : Nat → Entry V) (h : Laid lazyMap m [] occupied) (hn : m.totalSize < n)
    (hmax : n ≤ 2 ^ 32 - 2) : Laid lazyMap (m.grown n (occupied ++ []) temp)
      (range' m.totalSize (n - 1 - m.totalSize + 1)) occupied := by
  refine ⟨h.lists.grown temp hn hmax, fun i hi => ?_, fun i hi => ?_⟩
  · obtain ⟨hlo, hhi⟩ := mem_range'_1.mp hi
    obtain ⟨hkey, hflag⟩ := grown_new (n := n) m (occupied ++ []) temp hlo (by omega)
    rw [hkey]
    exact ⟨rfl, hflag⟩
  · rw [h.lists.grown_old temp hn (h.lists.lt_of_mem (.inr hi))]
    exact h.marks.used i hi

theorem Inv.grown (temp : Nat → Entry V) (h : Inv lazyMap m issued [] occupied) (hn : m.totalSize < n)
    (hmax : n ≤ 2 ^ 32 - 2) : Inv lazyMap (m.grown n (occupied ++ []) temp) issued
      (range' m.totalSize (n - 1 - m.totalSize + 1)) occupied := by
  obtain ⟨hlists, hmarks⟩ := h.laid.grown temp hn hmax
  have hold := fun i (hi : i < m.totalSize) => h.lists.grown_old temp hn hi
  have hnew := fun i (hi : m.totalSize ≤ i) (hi' : i < n) =>
    (grown_new m (occupied ++ []) temp hi hi').1
  have hcur : (m.grown n (occupied ++ []) temp).curSize = m.curSize := rfl
  have hsize : (m.grown n (occupied ++ []) temp).totalSize = n := rfl
  refine ⟨hlists, ⟨fun i hi => ?_, fun i hi => ?_, h.holds.unique, fun k hk => ?_, fun k v => ?_,
    h.holds.few, hcur.trans h.holds.current⟩, hmarks⟩
  · rcases Nat.lt_or_ge i m.totalSize with hlt | hge
    · rw [hold i hlt]
      exact h.holds.slot i hlt
    · rw [hnew i hge (hsize ▸ hi)]
      exact .inr rfl
  · rcases Nat.lt_or_ge i m.totalSize with hlt | hge
    · rw [hold i hlt]
      exact h.holds.generation i hlt
    · simp only [hnew i hge (hsize ▸ hi), uses_eq_zero h.holds hge, zero_mod]
  · obtain ⟨hlt, hkey⟩ := h.holds.key k hk
    exact ⟨hsize ▸ hlt.trans hn, hkey⟩
  · rw [h.holds.live]
    rcases Nat.lt_or_ge k.slotIndex m.totalSize with hlt | hge
    · rw [hold _ hlt, hsize]
      constructor
      · rintro ⟨-, hkey⟩
        exact ⟨hlt.trans hn, hkey⟩
      · rintro ⟨-, hkey⟩
        exact ⟨hlt, hkey⟩
    · constructor
      · rintro ⟨hlt, -⟩
        omega
      · rintro ⟨hlt, hkey, -⟩
        rw [hsize] at hlt
        rw [hnew _ hge hlt] at hkey
        have hbad : freeListId = k.slotIndex := congrArg Key.slotIndex hkey
        unfold freeListId at hbad
        omega

end Resize

/-- A list without slots and none that is only marked: every slot is bound. -/
theorem Inv.full (h : Inv lazyMap m issued [] occupied)
    (hsettled : lazyMap = true → m.Settled occupied) : m.curSize = m.totalSize := by
  refine h.holds.current_eq fun i hi => ?_
  have hmem := h.lists.perm.mem_iff.mpr (mem_range.mpr hi)
  have hocc := (mem_append.mp hmem).resolve_left not_mem_nil
  rcases h.marks.used i hocc with ⟨hslot, -⟩ | ⟨hlazy, -, hflag⟩
  · exact hslot
  · rw [hsettled hlazy i hocc] at hflag
    cases hflag

theorem Lists.first_free (h : m.Lists (i :: free) occupied) : m.freeList.next = i := h.free_next

theorem Lists.no_free (h : m.Lists [] occupied) : m.freeList.next = freeListId := h.free_next

theorem Lists.free_cases (h : m.Lists free occupied) :
    m.freeList.next ≠ freeListId ∧ free.head? = some m.freeList.next ∨
      m.freeList.next = freeListId ∧ free = [] := by
  cases free with
  | nil => exact .inr ⟨h.no_free, rfl⟩
  | cons i free =>
    have hlt := h.lt_of_mem (.inl mem_cons_self)
    rw [h.first_free]
    exact .inl ⟨(slot_of_lt h.size hlt).1, rfl⟩

theorem newSize_grows (hpos : 0 < m.totalSize) (h : m.CanGrow) :
    m.totalSize < m.newSize ∧ m.newSize ≤ 2 ^ 32 - 2 := by
  unfold newSize
  split
  · rw [mod_eq_of_lt (by omega)]
    omega
  · have hmax := h.resolve_left ‹_›
    omega

variable [Inhabited V]

theorem resize_spec (h : Inv lazyMap m issued [] occupied) (hpos : 0 < m.totalSize)
    (memory : Option (Nat → Entry V)) (hgrow : memory.isSome → m.CanGrow) :
    ∃ m' free' r, m.resizeI m.newSize memory = some (m', r) ∧ 0 < m'.totalSize ∧
      Inv lazyMap m' issued free' occupied ∧
      (r = true → free'.head? = some m'.freeList.next) := by
  cases memory with
  | none => exact ⟨m, [], false, rfl, hpos, h, fun e => nomatch e⟩
  | some temp =>
    obtain ⟨hlt, hmax⟩ := newSize_grows hpos (hgrow rfl)
    refine ⟨_, _, _, resizeI_eq temp h.lists hlt, hpos.trans hlt, h.grown temp hlt hmax, ?_⟩
    intro _
    rfl

/-- **`next_free`** has a result, and finds the first slot of the free list if it succeeds. -/
theorem nextFree_spec (h : Inv lazyMap m issued free occupied) (hpos : 0 < m.totalSize)
    (memory : Option (Nat → Entry V))
    (hgrow : memory.isSome → m.curSize = m.totalSize → m.CanGrow) :
    ∃ m' free' occupied' r, m.nextFree lazyMap memory = some (m', r) ∧ 0 < m'.totalSize ∧
      Inv lazyMap m' issued free' occupied' ∧ ∀ i, r = some i → free'.head? = some i := by
  unfold nextFree
  rcases h.lists.free_cases with ⟨hne, hhead⟩ | ⟨hnil, rfl⟩
  · rw [if_pos hne]
    refine ⟨m, free, occupied, _, rfl, hpos, h, fun i hi => ?_⟩
    rw [hhead]
    exact hi
  · rw [if_neg (not_not.mpr hnil)]
    have hmoved : ∃ m₁ free₁ occupied₁,
        (if lazyMap then m.moveAllFreeSlots else some m) = some m₁ ∧
          m₁.totalSize = m.totalSize ∧ Inv lazyMap m₁ issued free₁ occupied₁ ∧
          (lazyMap = true → m₁.Settled occupied₁) := by
      cases lazyMap with
      | true =>
        obtain ⟨m₁, free₁, occupied₁, hmove, hinv, hsettled⟩ := moveAllFreeSlots_spec h
        exact ⟨m₁, free₁, occupied₁, hmove, (sameKeys_moveAllFrom hmove).1, hinv, fun _ => hsettled⟩
      | false => exact ⟨m, [], occupied, rfl, rfl, h, fun e => nomatch e⟩
    obtain ⟨m₁, free₁, occupied₁, hmove, htotal, hinv, hsettled⟩ := hmoved
    rw [hmove, bind_some]
    rcases hinv.lists.free_cases with ⟨hne, hhead⟩ | ⟨hnil₁, rfl⟩
    · rw [if_pos hne]
      refine ⟨m₁, free₁, occupied₁, _, rfl, htotal ▸ hpos, hinv, fun i hi => ?_⟩
      rw [hhead]
      exact hi
    · rw [if_neg (not_not.mpr hnil₁)]
      have hcur : m₁.curSize = m.curSize := hinv.holds.current.trans h.holds.current.symm
      have hfull := hinv.full hsettled
      have hgrow₁ : memory.isSome → m₁.CanGrow := by
        intro hsome
        have hcan := hgrow hsome (by rw [← hcur, hfull, htotal])
        unfold CanGrow at hcan ⊢
        rwa [htotal]
      obtain ⟨m₂, free₂, r, hresize, hpos₂, hinv₂, hfirst⟩ :=
        resize_spec hinv (htotal ▸ hpos) memory hgrow₁
      rw [hresize]
      refine ⟨m₂, free₂, occupied₁, _, rfl, hpos₂, hinv₂, fun i hi => ?_⟩
      cases r with
      | true =>
        rw [hfirst rfl]
        exact hi
      | false => cases hi

/-! ### `open` -/

theorem inv_closed (lazyMap : Bool) : Inv lazyMap (closed : MapManager V) [] [] [] := by
  have hne : occupiedListId ≠ freeListId := by decide
  refine ⟨⟨.empty ⟨rfl, rfl⟩, .empty ⟨?_, ?_⟩, .refl _, zero_le _⟩,
    ⟨fun i hi => absurd hi (not_lt_zero i), fun i hi => absurd hi (not_lt_zero i),
      nodup_nil, fun k hk => absurd hk not_mem_nil, fun k v => ?_, fun i => zero_le _,
      rfl⟩, ⟨fun i hi => absurd hi not_mem_nil, fun i hi => absurd hi not_mem_nil⟩⟩
  · simp [links, closed, hne]
  · simp [links, closed, hne]
  · constructor
    · intro h
      cases h
    · rintro ⟨hlt, -⟩
      exact absurd hlt (not_lt_zero _)

theorem open_spec (lazyMap : Bool) {size : Nat} (hpos : 0 < size) (hmax : size ≤ 2 ^ 32 - 2)
    (temp : Nat → Entry V) :
    ∃ m free, openMap size temp = some m ∧ m.totalSize = size ∧ Inv lazyMap m [] free [] := by
  have hinv := inv_closed (V := V) lazyMap
  refine ⟨_, _, ?_, rfl, hinv.grown temp hpos hmax⟩
  unfold openMap
  rw [if_pos ⟨by omega, by omega⟩, resizeI_eq temp hinv.lists hpos]
  rfl

end MapManager

/-! ## Runs -/

open MapManager

/-- The state between two operations. -/
def Sys.Inv (lazyMap : Bool) (s : Sys V) : Prop :=
  0 < s.map.totalSize ∧ ∃ free occupied, MapManager.Inv lazyMap s.map s.issued free occupied

variable {lazyMap : Bool}

theorem Sys.Inv.good {s : Sys V} (h : s.Inv lazyMap) : Good lazyMap s := by
  obtain ⟨-, free, occupied, hinv⟩ := h
  refine ⟨⟨free, occupied, hinv.lists.freeRing, hinv.lists.occupiedRing, hinv.lists.perm⟩,
    hinv.holds.current, hinv.holds.unique, fun key status hfind => ?_⟩
  have hlt := (hinv.holds.key key (mem_keys_of_find hfind)).1
  rw [find_spec hinv key (by omega), hfind]
  rfl

variable [Inhabited V]

variable {memory : Option (Nat → Entry V)}

theorem bind_failed {m m' : MapManager V}
    (h : m.nextFree lazyMap memory = some (m', none)) (value : V) :
    m.bind lazyMap value memory = some (m', none) := by
  unfold MapManager.bind
  rw [h]
  rfl

theorem bind_occupied {m m' : MapManager V} {i : Nat}
    (h : m.nextFree lazyMap memory = some (m', some i)) (value : V) : m.bind lazyMap value memory =
      some (m'.occupy i value, some ((m'.occupy i value).searchStructure i).extId) := by
  unfold MapManager.bind
  rw [h]
  rfl

theorem step_bind {s : Sys V} {value : V} (h : s.Inv lazyMap)
    (hsound : Sound s (.bind value memory)) (hfew : FewReuses lazyMap s (.bind value memory)) :
    ∃ t, step lazyMap s (.bind value memory) = some t ∧ t.Inv lazyMap := by
  obtain ⟨hpos, free, occupied, hinv⟩ := h
  obtain ⟨m, free', occupied', r, hnext, hpos', hinv', hfirst⟩ :=
    nextFree_spec hinv hpos memory hsound
  cases r with
  | none =>
    refine ⟨⟨m, s.issued⟩, ?_, hpos', free', occupied', hinv'⟩
    simp only [step, bind_failed hnext value, map_some]
  | some i =>
    have hbind := bind_occupied hnext value
    cases free' with
    | nil => cases hfirst i rfl
    | cons j free' =>
      obtain rfl : j = i := some.inj (hfirst i rfl)
      generalize hk : ((m.occupy j value).searchStructure j).extId = k at hbind
      have hstep : step lazyMap s (.bind value memory) =
          some ⟨m.occupy j value, s.issued ++ [(k, some value)]⟩ := by
        simp only [step, hbind, map_some]
      have hslot : k.slotIndex = j := by rw [← hk, (occupy_data m j value).2.2.1]
      have huses : uses (s.issued ++ [(k, some value)]) j ≤ 2 ^ 32 := hfew _ hstep j
      rw [uses_append, if_pos hslot] at huses
      obtain ⟨hinv'', hext⟩ := occupy_spec hinv' (by omega) value
      rw [hk] at hext
      rw [← hext] at hinv''
      have hpos'' : 0 < (m.occupy j value).totalSize := (occupy_data m j value).1 ▸ hpos'
      exact ⟨_, hstep, hpos'', free', j :: occupied', hinv''⟩

omit [Inhabited V] in
theorem store_self {issued : Table Key (Option V)} {key : Key} (h : (issued.find key).join = none)
    (value : V) : store issued key value = issued := by
  unfold store
  split
  · rename_i hfind
    rw [hfind] at h
    cases h
  · rfl

omit [Inhabited V] in
theorem set_self {issued : Table Key (Option V)} {key : Key} (hunique : issued.keys.Nodup)
    (h : (issued.find key).join = none) : issued.set key none = issued := by
  cases hfind : issued.find key with
  | none => exact set_of_not_mem (find_eq_none.mp hfind) none
  | some status =>
    rw [hfind] at h
    obtain rfl : status = none := h
    exact set_of_find hunique hfind

theorem step_rebind {s : Sys V} {key : Key} (value : V) (h : s.Inv lazyMap)
    (hkey : key.slotIndex ≠ s.map.totalSize) :
    ∃ t, step lazyMap s (.rebind key value) = some t ∧ t.Inv lazyMap := by
  obtain ⟨hpos, free, occupied, hinv⟩ := h
  have hfind := find_spec hinv key hkey
  cases hv : (s.issued.find key).join with
  | none =>
    refine ⟨s, ?_, hpos, free, occupied, hinv⟩
    simp only [step, MapManager.rebind, hfind, hv, map_some, store_self hv]
  | some v =>
    have hlive := join_eq_some_iff.mp hv
    have hinv' := rebind_spec hinv hlive value
    refine ⟨⟨s.map.setEntry key.slotIndex _, s.issued.set key (some value)⟩, ?_, hpos, free,
      occupied, hinv'⟩
    simp only [step, MapManager.rebind, hfind, hv, map_some, store_eq hlive]

theorem step_unbind {s : Sys V} {key : Key} (h : s.Inv lazyMap)
    (hkey : key.slotIndex ≠ s.map.totalSize) :
    ∃ t, step lazyMap s (.unbind key) = some t ∧ t.Inv lazyMap := by
  obtain ⟨hpos, free, occupied, hinv⟩ := h
  have hfind := find_spec hinv key hkey
  cases hv : (s.issued.find key).join with
  | none =>
    refine ⟨s, ?_, hpos, free, occupied, hinv⟩
    simp only [step, MapManager.unbind, hfind, hv, map_some, set_self hinv.holds.unique hv]
  | some v =>
    obtain ⟨free', occupied', hinv'⟩ := vacate_spec hinv (join_eq_some_iff.mp hv)
    have hpos' : 0 < (s.map.vacate lazyMap key.slotIndex).totalSize :=
      (vacate_data lazyMap s.map key.slotIndex).1 ▸ hpos
    refine ⟨⟨s.map.vacate lazyMap key.slotIndex, s.issued.set key none⟩, ?_, hpos', free',
      occupied', hinv'⟩
    simp only [step, MapManager.unbind, hfind, hv, map_some]

theorem step_spec (s : Sys V) (op : Op V) (h : s.Inv lazyMap)
    (hop : Sound s op ∧ FewReuses lazyMap s op) :
    ∃ t, step lazyMap s op = some t ∧ t.Inv lazyMap := by
  obtain ⟨hsound, hfew⟩ := hop
  cases op with
  | bind value memory => exact step_bind h hsound hfew
  | find key =>
    obtain ⟨-, free, occupied, hinv⟩ := id h
    refine ⟨s, ?_, h⟩
    simp only [step, find_spec hinv key hsound, map_some]
  | rebind key value => exact step_rebind value h hsound
  | unbind key => exact step_unbind h hsound

/-- **Active map keys identify exactly one binding.** -/
theorem keys_identify (lazyMap : Bool) {size : Nat} (hsize : 0 < size ∧ size ≤ 2 ^ 32 - 2)
    (temp : Nat → Entry V) :
    ∃ m, openMap size temp = some m ∧ ∀ ops,
      AllSteps (step lazyMap) (fun s op => Sound s op ∧ FewReuses lazyMap s op) ⟨m, []⟩ ops →
      ∃ s, run (step lazyMap) ⟨m, []⟩ ops = some s ∧ Good lazyMap s := by
  obtain ⟨m, free, hopen, htotal, hinv⟩ := open_spec lazyMap hsize.1 hsize.2 temp
  refine ⟨m, hopen, fun ops hops => ?_⟩
  have hstart : Sys.Inv lazyMap ⟨m, []⟩ := ⟨htotal ▸ hsize.1, free, [], hinv⟩
  obtain ⟨s, hrun, hs⟩ := run_total_of step_spec hstart hops
  exact ⟨s, hrun, hs.good⟩

omit [Inhabited V] in
theorem uses_le (issued : Table Key (Option V)) (i : Nat) : uses issued i ≤ issued.length := by
  exact countP_le_length.trans (length_map _).le

/-- As long as fewer than `2 ^ 32` keys have been issued, no slot has been used more often. -/
theorem fewReuses_of_length (lazyMap : Bool) {s : Sys V} (op : Op V)
    (h : s.issued.length < 2 ^ 32) : FewReuses lazyMap s op := by
  intro t ht i
  refine (uses_le t.issued i).trans ?_
  cases op with
  | bind value memory =>
    obtain ⟨r, -, rfl⟩ := map_eq_some_iff.mp ht
    cases hr : r.2 with
    | none => exact h.le
    | some key =>
      simp only [length_append, length_singleton]
      omega
  | find key =>
    obtain ⟨r, -, rfl⟩ := map_eq_some_iff.mp ht
    exact h.le
  | rebind key value =>
    obtain ⟨r, -, rfl⟩ := map_eq_some_iff.mp ht
    have hlen : (store s.issued key value).length = s.issued.length := by
      unfold store
      split
      · exact length_map _
      · rfl
    exact hlen.le.trans h.le
  | unbind key =>
    obtain ⟨r, -, rfl⟩ := map_eq_some_iff.mp ht
    exact (length_map _).le.trans h.le

instance (m : MapManager V) : Decidable m.CanGrow := inferInstanceAs (Decidable (_ ∨ _))

instance (s : Sys V) : ∀ op, Decidable (Sound s op)
  | .bind _ memory =>
    inferInstanceAs (Decidable (memory.isSome → s.map.curSize = s.map.totalSize → s.map.CanGrow))
  | .find key => inferInstanceAs (Decidable (key.slotIndex ≠ s.map.totalSize))
  | .rebind key _ => inferInstanceAs (Decidable (key.slotIndex ≠ s.map.totalSize))
  | .unbind key => inferInstanceAs (Decidable (key.slotIndex ≠ s.map.totalSize))

/-- A slot is used twice, and a second slot is made by a resize. -/
theorem keys_identify_reused :
    ∃ m : MapManager Nat, openMap 1 .fresh = some m ∧ ∃ s, run (step true) ⟨m, []⟩
      [.bind 5 none, .unbind ⟨0, 1⟩, .bind 6 none, .bind 7 (some .fresh), .find ⟨0, 1⟩] = some s ∧
      Good true s := by
  obtain ⟨m, hopen, hruns⟩ :=
      keys_identify true (⟨by decide, by decide⟩ : 0 < 1 ∧ 1 ≤ 2 ^ 32 - 2) (.fresh : Nat → Entry Nat)
  refine ⟨m, hopen, hruns _ ?_⟩
  cases hopen
  refine AllSteps.mono (P := fun s op => Sound s op ∧ s.issued.length < 2 ^ 32) ?_
    fun s op h => ⟨h.1, fewReuses_of_length true op h.2⟩
  decide +kernel

/-- With one slot, the entry of index 1 is read behind the array, and by its content the slot is
moved to the free list. -/
theorem forged_key_read :
    ¬∀ (lazyMap : Bool) (size : Nat) (temp : Nat → Entry Nat) (m : MapManager Nat),
      openMap size temp = some m → ∀ ops, AllSteps (step lazyMap) (FewReuses lazyMap) ⟨m, []⟩ ops →
      ∃ s, run (step lazyMap) ⟨m, []⟩ ops = some s ∧ Good lazyMap s := by
  intro h
  obtain ⟨m, hopen⟩ : ∃ m, openMap 1 (.fresh : Nat → Entry Nat) = some m := ⟨_, rfl⟩
  have hnone : step false (⟨m, []⟩ : Sys Nat) (.unbind ⟨1, 0⟩) = none := by
    cases hopen
    rfl
  have hfew : AllSteps (step false) (FewReuses false) (⟨m, []⟩ : Sys Nat) [.unbind ⟨1, 0⟩] := by
    refine ⟨fun t ht => ?_, fun _ _ => trivial⟩
    rw [hnone] at ht
    cases ht
  obtain ⟨s, hrun, -⟩ := h false 1 .fresh m hopen _ hfew
  rw [run_cons, hnone] at hrun
  cases hrun

end Atcd.Maps
