import Atcd.Core.Run
import Atcd.Core.Table
/-!
# Transport cache (`Transport_Cache_Manager_T.cpp`)

The entries of one endpoint are told apart by an index. `bind_i` takes the first
index that is free, `find_i` starts at 0 and goes on until an index is missing.
An entry is reached by the pointer that its transport keeps, here by its key.

Results:
* `bindLoop_outcome`: a bind leaves the other entries alone and, if it makes an
  entry, makes it at an index below which all are taken.
* `findLoop_available`, `findLoop_sound`: the search ends with an available
  entry exactly when there is one in front of the first missing index.
* `findsAvailable_iff`: when `find_i` is complete, as a condition on the indices.
* `find_complete`: in every reached state that condition is exact, and it is met
  in every run in which an entry is purged only when it has the last index of
  its endpoint.
* `purge_hides_entry`: two entries, the first purged, the second not found.
-/
namespace Atcd.Orb.TransportCache

open List Option Atcd.Core.Table

/-- mirrors TAO/tao/Cache_Entries_T.h:33-52 -/
inductive EntriesState where
  | idleAndPurgable | purgableButNotIdle | busy | closed | connecting | unknown
  deriving DecidableEq, Repr

/-- `Cache_IntId_T`. The transport is never the null pointer: `bind_i` looks at it. -/
structure IntId (T : Type) where
  transport : T
  recycleState : EntriesState
  isConnected : Bool
  deriving DecidableEq, Repr

/-- A purging strategy: what it keeps, and the order that it gives to transports. -/
structure PurgingStrategy (T : Type) where
  State : Type
  updateItem : State → T → State
  purgingOrder : State → T → Nat
  /-- negative: no purging -/
  cacheMaximum : Int

/-- mirrors TAO/tao/LRU_Connection_Purging_Strategy.cpp:19-23: `order_`, and the
order that it has given to each transport -/
def lru {T : Type} [DecidableEq T] (cacheMaximum : Int) : PurgingStrategy T where
  State := Nat × (T → Nat)
  updateItem s t := (s.1 + 1, Function.update s.2 t (s.1 + 1))
  purgingOrder s := s.2
  cacheMaximum := cacheMaximum

/-- An endpoint and the index of an entry for it (`Cache_ExtId_T`). -/
abbrev ExtId (D : Type) := D × Nat

structure Cache (D : Type) {T : Type} (P : PurgingStrategy T) where
  cacheMap : Core.Table (ExtId D) (IntId T)
  cacheMaximum : Nat
  purging : P.State

inductive FindResult where
  | none | connecting | busy | available
  deriving DecidableEq, Repr

variable {D T : Type} [DecidableEq D] {P : PurgingStrategy T}

/-- mirrors TAO/tao/Transport_Cache_Manager_T.cpp:465-489 (`is_entry_available_i`) -/
def IntId.isAvailable (item : IntId T) : Bool :=
  item.recycleState = .idleAndPurgable && item.isConnected

/-- mirrors Transport_Cache_Manager_T.cpp:514-541 (`is_entry_connecting_i`) -/
def IntId.isConnecting (item : IntId T) : Bool :=
  item.recycleState = .connecting || !item.isConnected

namespace Cache

def setItem (c : Cache D P) (key : ExtId D) (item : IntId T) : Cache D P :=
  { c with cacheMap := c.cacheMap.set key item }

/-- The loop of `bind_i` from an index on. `allocates`: the map gets memory for
a new entry. -/
def bindLoop [DecidableEq T] (d : D) (intId : IntId T) (allocates : Bool) :
    Nat → Nat → Cache D P → Cache D P × Int
  | 0, _, c => (c, -1)
  | fuel + 1, index, c =>
    if c.cacheMaximum ≤ c.cacheMap.length then (c, -1)
    else
      match c.cacheMap.find (d, index) with
      | none =>
        if allocates then ({ c with cacheMap := c.cacheMap.bind (d, index) intId }, 0) else (c, -1)
      | some item =>
        if item.transport = intId.transport then
          (c.setItem (d, index) { item with
            recycleState := intId.recycleState, isConnected := intId.isConnected }, 0)
        else bindLoop d intId allocates fuel (index + 1) c

/-- mirrors Transport_Cache_Manager_T.cpp:108-223 (`bind_i`); the index of
an external id starts with 0. The loop runs past at most all entries. -/
def bindI [DecidableEq T] (c : Cache D P) (d : D) (intId : IntId T) (allocates : Bool) :
    Cache D P × Int :=
  bindLoop d intId allocates (c.cacheMap.length + 1) 0
    { c with purging := P.updateItem c.purging intId.transport }

/-- The variables of `find_i`. -/
structure Search (D : Type) {T : Type} (P : PurgingStrategy T) where
  cache : Cache D P
  found : FindResult
  foundEntry : Option (ExtId D)
  busyCount : Nat

def Search.start (c : Cache D P) : Search D P :=
  { cache := c, found := .none, foundEntry := none, busyCount := 0 }

/-- One turn of the loop of `find_i`, with the entry of the key. -/
def Search.turn (s : Search D P) (key : ExtId D) (item : IntId T) : Search D P :=
  if item.isAvailable then
    { s with found := .available, foundEntry := some key
             cache := s.cache.setItem key { item with recycleState := .busy } }
  else if item.isConnecting then
    if s.found ≠ .connecting then { s with found := .connecting, foundEntry := some key } else s
  else if s.found = .none ∧ s.busyCount = 0 then
    { s with found := .busy, foundEntry := some key, busyCount := s.busyCount + 1 }
  else { s with busyCount := s.busyCount + 1 }

/-- The loop of `find_i` from an index on. -/
def findLoop (d : D) : Nat → Nat → Search D P → Search D P
  | 0, _, s => s
  | fuel + 1, index, s =>
    if s.found = .available then s
    else
      match s.cache.cacheMap.find (d, index) with
      | none => s
      | some item => findLoop d fuel (index + 1) (s.turn (d, index) item)

/-- What `find_i` returns and leaves. -/
structure Found (D : Type) {T : Type} (P : PurgingStrategy T) where
  cache : Cache D P
  result : FindResult
  transport : Option T
  busyCount : Nat

/-- mirrors Transport_Cache_Manager_T.cpp:272-372 (`find_i`) -/
def findI (c : Cache D P) (d : D) : Found D P :=
  let s := findLoop d (c.cacheMap.length + 1) 0 (.start c)
  match s.foundEntry.bind s.cache.cacheMap.find with
  | none => { cache := s.cache, result := s.found, transport := none, busyCount := s.busyCount }
  | some item =>
    { cache := if s.found = .available then
          { s.cache with purging := P.updateItem s.cache.purging item.transport }
        else s.cache
      result := s.found, transport := some item.transport, busyCount := s.busyCount }

/-- mirrors Transport_Cache_Manager_T.cpp:92-106 (`set_entry_state`);
`isConnected` is what the transport answers -/
def setEntryState (c : Cache D P) (key : ExtId D) (item : IntId T) (state : EntriesState)
    (isConnected : Bool) : Cache D P :=
  c.setItem key { item with
    recycleState := state
    isConnected := if state ≠ .unknown ∧ state ≠ .connecting then isConnected
      else item.isConnected }

end Cache

/-- The calls, each made with the lock of the cache held. -/
inductive Op (D T : Type) where
  | bind (d : D) (intId : IntId T) (allocates : Bool)
  | purgeEntry (key : ExtId D)
  | makeIdle (key : ExtId D)
  | setEntryState (key : ExtId D) (state : EntriesState) (isConnected : Bool)
  | markConnected (key : ExtId D) (isConnected : Bool)
  | find (d : D)

/-- `none`: there is no such entry, so no transport has a pointer to it. -/
def step [DecidableEq T] (c : Cache D P) : Op D T → Option (Cache D P)
  | .bind d intId allocates => some (c.bindI d intId allocates).1
  | .purgeEntry key =>
    (c.cacheMap.find key).map fun _ => { c with cacheMap := c.cacheMap.unbind key }
  | .makeIdle key =>
    (c.cacheMap.find key).map fun item =>
      c.setItem key { item with recycleState := .idleAndPurgable }
  | .setEntryState key state isConnected =>
    (c.cacheMap.find key).map fun item => c.setEntryState key item state isConnected
  | .markConnected key isConnected =>
    (c.cacheMap.find key).map fun item => c.setItem key { item with isConnected := isConnected }
  | .find d => some (c.findI d).cache

def Cache.empty (cacheMaximum : Nat) (purging : P.State) : Cache D P :=
  { cacheMap := [], cacheMaximum := cacheMaximum, purging := purging }

/-! ## Indices -/

namespace Cache

variable {c c' : Cache D P} {d : D} {key : ExtId D}

def Cached (c : Cache D P) (key : ExtId D) : Prop := (c.cacheMap.find key).isSome

/-- An entry of the endpoint that `find_i` may return. -/
def Available (c : Cache D P) (key : ExtId D) : Prop :=
  ∃ item, c.cacheMap.find key = some item ∧ item.isAvailable

theorem Available.cached (h : c.Available key) : c.Cached key := by
  obtain ⟨item, hitem, -⟩ := h
  simp [Cached, hitem]

theorem cached_setItem (c : Cache D P) (key key' : ExtId D) (item : IntId T) :
    (c.setItem key item).Cached key' ↔ c.Cached key' := by
  simp only [Cached, setItem, find_set]
  split
  · next h => simpa [h.1] using h.2
  · exact Iff.rfl

def Dense (c : Cache D P) : Prop :=
  ∀ d index, c.Cached (d, index) → ∀ lower < index, c.Cached (d, lower)

theorem Dense.congr (h : c.Dense) (hsame : ∀ key, c'.Cached key ↔ c.Cached key) : c'.Dense := by
  intro d index hindex lower hlower
  rw [hsame] at hindex ⊢
  exact h d index hindex lower hlower

theorem taken_le_length {n : Nat} (h : ∀ index < n, c.Cached (d, index)) :
    n ≤ c.cacheMap.length := by
  have hnodup : ((range n).map fun index => (d, index)).Nodup :=
    nodup_range.map fun a b hab => congrArg Prod.snd hab
  have hsub : ((range n).map fun index => (d, index)) ⊆ c.cacheMap.keys := by
    intro key hkey
    obtain ⟨index, hindex, rfl⟩ := mem_map.mp hkey
    have := h index (mem_range.mp hindex)
    rw [mem_keys_iff]
    exact isSome_iff_ne_none.mp this
  have hle := (subperm_of_subset hnodup hsub).length_le
  simpa [Core.Table.keys] using hle

/-! ## Binding -/

/-- What a bind does to the set of keys: nothing, or one key more, at an index
below which all are taken. -/
theorem bindLoop_outcome [DecidableEq T] (intId : IntId T) (allocates : Bool) (fuel : Nat)
    {index : Nat} (hlower : ∀ i < index, c.Cached (d, i)) :
    (∀ key, (bindLoop d intId allocates fuel index c).1.Cached key ↔ c.Cached key) ∨
      ∃ free, (∀ i < free, c.Cached (d, i)) ∧
        ∀ key, (bindLoop d intId allocates fuel index c).1.Cached key ↔
          key = (d, free) ∨ c.Cached key := by
  induction fuel generalizing index with
  | zero => exact .inl fun _ => Iff.rfl
  | succ fuel ih =>
    rw [bindLoop]
    split
    · exact .inl fun _ => Iff.rfl
    cases hfind : c.cacheMap.find (d, index) with
    | none =>
      cases allocates with
      | false => exact .inl fun _ => Iff.rfl
      | true =>
        refine .inr ⟨index, hlower, fun key => ?_⟩
        simp only [if_true, Cached, find_bind, hfind, and_true]
        split
        · next h => simp [h]
        · next h => simp [Ne.symm h]
    | some item =>
      simp only
      split
      · exact .inl fun key => cached_setItem c _ key _
      · apply ih
        intro i hi
        rcases Nat.lt_succ_iff_lt_or_eq.mp hi with hi | rfl
        · exact hlower i hi
        · simp [Cached, hfind]

theorem bindI_dense [DecidableEq T] (h : c.Dense) (d : D) (intId : IntId T) (allocates : Bool) :
    (c.bindI d intId allocates).1.Dense := by
  have hstart : ∀ i < 0, ({ c with purging := P.updateItem c.purging intId.transport }
      : Cache D P).Cached (d, i) := by
    omega
  rcases bindLoop_outcome intId allocates (c.cacheMap.length + 1) hstart with hsame |
    ⟨free, hfree, hmore⟩
  · exact h.congr hsame
  · intro d' index hindex lower hlower
    unfold bindI at hindex ⊢
    rw [hmore] at hindex ⊢
    obtain heq | hindex := hindex
    · obtain ⟨rfl, rfl⟩ := Prod.mk.inj heq
      exact .inr (hfree lower hlower)
    · exact .inr (h d' index hindex lower hlower)

/-! ## The search -/

variable {s : Search D P} {item : IntId T}

theorem turn_of_available (h : item.isAvailable) (s : Search D P) (key : ExtId D) :
    s.turn key item =
      { s with found := .available, foundEntry := some key
               cache := s.cache.setItem key { item with recycleState := .busy } } := by
  rw [Search.turn, if_pos h]

theorem turn_of_not_available (key : ExtId D) (h : item.isAvailable = false)
    (hs : s.found ≠ .available) :
    (s.turn key item).found ≠ .available ∧ (s.turn key item).cache = s.cache := by
  rw [Search.turn, if_neg (by simp [h])]
  split
  · split
    · exact ⟨by simp, rfl⟩
    · exact ⟨hs, rfl⟩
  · split
    · exact ⟨by simp, rfl⟩
    · exact ⟨hs, rfl⟩

theorem findLoop_found (h : s.found = .available) (fuel index : Nat) :
    findLoop d fuel index s = s := by
  cases fuel with
  | zero => rfl
  | succ fuel => rw [findLoop, if_pos h]

/-- The search has ended with this entry, which it has marked. -/
def Search.EndsWith (s : Search D P) (c : Cache D P) (key : ExtId D) (item : IntId T) : Prop :=
  s.found = .available ∧ s.foundEntry = some key ∧
    s.cache = c.setItem key { item with recycleState := .busy }

/-- **Complete.** An available entry with no missing index in front of it ends
the search, or one before it does. -/
theorem findLoop_available {fuel index last : Nat} (hs : s.found ≠ .available)
    (hle : index ≤ last) (hfuel : last < index + fuel) (havailable : s.cache.Available (d, last))
    (htaken : ∀ i, index ≤ i → i < last → s.cache.Cached (d, i)) :
    ∃ i item, s.cache.cacheMap.find (d, i) = some item ∧ item.isAvailable ∧
      (findLoop d fuel index s).EndsWith s.cache (d, i) item := by
  induction fuel generalizing index s with
  | zero => omega
  | succ fuel ih =>
    have hcached : s.cache.Cached (d, index) := by
      rcases Nat.lt_or_eq_of_le hle with hlt | rfl
      · exact htaken index (Nat.le_refl index) hlt
      · exact havailable.cached
    obtain ⟨item, hitem⟩ := isSome_iff_exists.mp hcached
    rw [findLoop, if_neg hs, hitem]
    by_cases hav : item.isAvailable
    · refine ⟨index, item, hitem, hav, ?_⟩
      simp only [turn_of_available hav]
      rw [findLoop_found rfl]
      exact ⟨rfl, rfl, rfl⟩
    · obtain ⟨hnot, hcache⟩ := turn_of_not_available (d, index) (Bool.not_eq_true _ ▸ hav) hs
      have hne : index ≠ last := by
        rintro rfl
        obtain ⟨item', hitem', hav'⟩ := havailable
        rw [hitem] at hitem'
        cases hitem'
        exact hav hav'
      rw [← hcache] at havailable htaken ⊢
      exact ih hnot (by omega) (by omega) havailable fun i hi => htaken i (by omega)

/-- **Sound.** Behind a missing index nothing is found. -/
theorem findLoop_sound {fuel index : Nat} (hs : s.found ≠ .available)
    (h : (findLoop d fuel index s).found = .available) :
    ∃ last, index ≤ last ∧ s.cache.Available (d, last) ∧
      ∀ i, index ≤ i → i < last → s.cache.Cached (d, i) := by
  induction fuel generalizing index s with
  | zero => exact absurd h hs
  | succ fuel ih =>
    rw [findLoop, if_neg hs] at h
    cases hfind : s.cache.cacheMap.find (d, index) with
    | none =>
      rw [hfind] at h
      exact absurd h hs
    | some item =>
      simp only [hfind] at h
      by_cases hav : item.isAvailable
      · refine ⟨index, Nat.le_refl index, ⟨item, hfind, hav⟩, fun i hi hlt => ?_⟩
        omega
      · obtain ⟨hnot, hcache⟩ := turn_of_not_available (d, index) (Bool.not_eq_true _ ▸ hav)
          hs
        obtain ⟨last, hle, havailable, htaken⟩ := ih hnot h
        rw [hcache] at havailable htaken
        refine ⟨last, by omega, havailable, fun i hi hlt => ?_⟩
        rcases Nat.lt_or_eq_of_le hi with hi | rfl
        · exact htaken i hi hlt
        · simp [Cached, hfind]

/-! ## `find_i` -/

/-- If an entry of the endpoint is idle, purgable and connected, `find_i` returns
the transport of such an entry and marks it busy. -/
def FindsAvailable (c : Cache D P) (d : D) : Prop :=
  (∃ index, c.Available (d, index)) →
    (c.findI d).result = .available ∧
      ∃ index item, c.cacheMap.find (d, index) = some item ∧ item.isAvailable ∧
        (c.findI d).transport = some item.transport ∧
        (c.findI d).cache.cacheMap = c.cacheMap.set (d, index) { item with recycleState := .busy }

def Reachable (c : Cache D P) (d : D) : Prop :=
  ∃ index, c.Available (d, index) ∧ ∀ lower < index, c.Cached (d, lower)

theorem findI_result (c : Cache D P) (d : D) :
    (c.findI d).result = (findLoop d (c.cacheMap.length + 1) 0 (.start c)).found := by
  unfold findI
  dsimp only
  split <;> rfl

theorem findI_of_reachable (h : c.Reachable d) :
    (c.findI d).result = .available ∧
      ∃ index item, c.cacheMap.find (d, index) = some item ∧ item.isAvailable ∧
        (c.findI d).transport = some item.transport ∧
        (c.findI d).cache.cacheMap =
          c.cacheMap.set (d, index) { item with recycleState := .busy } := by
  obtain ⟨last, havailable, htaken⟩ := h
  have htakenUpTo : ∀ index < last + 1, c.Cached (d, index) := by
    intro index hindex
    rcases Nat.lt_succ_iff_lt_or_eq.mp hindex with hlt | rfl
    · exact htaken index hlt
    · exact havailable.cached
  have hlength : last + 1 ≤ c.cacheMap.length := taken_le_length htakenUpTo
  have hfuel : last < 0 + (c.cacheMap.length + 1) := by omega
  have hstart : (Search.start c).found ≠ .available := by simp [Search.start]
  obtain ⟨index, item, hitem, hav, hfound, hentry, hcache⟩ := findLoop_available hstart
    (Nat.zero_le last) hfuel havailable fun i _ hlt => htaken i hlt
  simp only [show (Search.start c).cache = c from rfl] at hitem hcache
  refine ⟨?_, index, item, hitem, hav, ?_, ?_⟩
  · rw [findI_result]
    exact hfound
  all_goals
    simp only [findI, hentry, hfound, hcache, setItem, bind_some, find_set,
      true_and, hitem, isSome_some, if_true]

/-- **When `find_i` is complete.** -/
theorem findsAvailable_iff (c : Cache D P) (d : D) :
    c.FindsAvailable d ↔ ((∃ index, c.Available (d, index)) → c.Reachable d) := by
  constructor
  · intro h havailable
    have hresult := (h havailable).1
    rw [findI_result] at hresult
    obtain ⟨last, -, hlast, htaken⟩ := findLoop_sound (by simp [Search.start]) hresult
    exact ⟨last, hlast, fun lower hlower => htaken lower (Nat.zero_le lower) hlower⟩
  · intro h havailable
    exact findI_of_reachable (h havailable)

theorem Dense.findsAvailable (h : c.Dense) (d : D) : c.FindsAvailable d := by
  rw [findsAvailable_iff]
  rintro ⟨index, havailable⟩
  exact ⟨index, havailable, h d index havailable.cached⟩

theorem findLoop_cached (fuel index : Nat) (s : Search D P) (key : ExtId D) :
    (findLoop d fuel index s).cache.Cached key ↔ s.cache.Cached key := by
  induction fuel generalizing index s with
  | zero => exact Iff.rfl
  | succ fuel ih =>
    rw [findLoop]
    split
    · exact Iff.rfl
    · next hs =>
      cases s.cache.cacheMap.find (d, index) with
      | none => exact Iff.rfl
      | some item =>
        rw [ih]
        by_cases hav : item.isAvailable
        · rw [turn_of_available hav]
          exact cached_setItem _ _ _ _
        · rw [(turn_of_not_available (d, index) (Bool.not_eq_true _ ▸ hav) hs).2]

theorem findI_cached (c : Cache D P) (d : D) (key : ExtId D) :
    (c.findI d).cache.Cached key ↔ c.Cached key := by
  unfold findI
  dsimp only
  split
  · exact findLoop_cached _ _ _ key
  · split
    · exact findLoop_cached _ _ _ key
    · exact findLoop_cached _ _ _ key

end Cache

/-! ## Runs -/

section Runs

variable [DecidableEq T]

/-- An entry is purged only when no entry of its endpoint has a higher index. -/
def PurgesLast (c : Cache D P) : Op D T → Prop
  | .purgeEntry key => ∀ index, key.2 < index → ¬c.Cached (key.1, index)
  | _ => True

theorem step_dense {c c' : Cache D P} {op : Op D T} (h : c.Dense) (hlast : PurgesLast c op)
    (hstep : step c op = some c') : c'.Dense := by
  cases op with
  | bind d intId allocates =>
    cases hstep
    exact c.bindI_dense h d intId allocates
  | find d =>
    cases hstep
    exact h.congr (c.findI_cached d)
  | purgeEntry key =>
    obtain ⟨item, hitem, rfl⟩ := map_eq_some_iff.mp hstep
    intro d index hindex lower hlower
    simp only [Cache.Cached, find_unbind] at hindex ⊢
    split at hindex
    · simp at hindex
    · have hkept := h d index hindex lower hlower
      split
      · next heq =>
        subst heq
        exact absurd hindex (hlast index hlower)
      · exact hkept
  | makeIdle key | setEntryState key state isConnected | markConnected key isConnected =>
    obtain ⟨item, hitem, rfl⟩ := map_eq_some_iff.mp hstep
    exact h.congr fun key' => c.cached_setItem key key' _

/-- **Complete lookups.** In every reached state `find_i` finds an available entry
of every endpoint exactly when some available one has no missing index in front
of it; no index is ever missing in runs that purge last entries only. -/
theorem find_complete (P : PurgingStrategy T) (cacheMaximum : Nat) (purging : P.State)
    (ops : List (Op D T)) (c : Cache D P)
    (hrun : Core.run step (Cache.empty cacheMaximum purging) ops = some c) :
    (∀ d, c.FindsAvailable d ↔ ((∃ index, c.Available (d, index)) → c.Reachable d)) ∧
      (Core.AllSteps step PurgesLast (Cache.empty cacheMaximum purging) ops →
        ∀ d, c.FindsAvailable d) := by
  refine ⟨c.findsAvailable_iff, fun hall d => ?_⟩
  have hempty : (Cache.empty cacheMaximum purging : Cache D P).Dense := by
    intro d index hindex
    simp [Cache.Cached, Cache.empty] at hindex
  have hstep : ∀ (c : Cache D P) (op : Op D T) (c' : Cache D P), c.Dense → PurgesLast c op →
      step c op = some c' → c'.Dense := fun _ _ _ => step_dense
  have hdense : c.Dense := Core.run_inv_of hstep hempty hall hrun
  exact hdense.findsAvailable d

end Runs

/-- Two idle transports of one endpoint, of which the first is purged. -/
def sampleOps : List (Op Nat Nat) :=
  [.bind 7 { transport := 1, recycleState := .idleAndPurgable, isConnected := true } true,
    .bind 7 { transport := 2, recycleState := .idleAndPurgable, isConnected := true } true,
    .purgeEntry (7, 0)]

def sampleStart : Cache Nat (lru (T := Nat) 4) := Cache.empty 4 (0, fun _ => 0)

theorem sampleOps_run : (Core.run step sampleStart sampleOps).map (·.cacheMap) =
    some [((7, 1), { transport := 2, recycleState := .idleAndPurgable, isConnected := true })] := by
  decide

/-- Three transports of the endpoint; after a `find_i` the one with the last index is purged. -/
def lastOps : List (Op Nat Nat) :=
  [.bind 7 { transport := 1, recycleState := .idleAndPurgable, isConnected := true } true,
    .bind 7 { transport := 2, recycleState := .idleAndPurgable, isConnected := true } true,
    .bind 7 { transport := 3, recycleState := .idleAndPurgable, isConnected := true } true,
    .find 7, .purgeEntry (7, 2)]

theorem find_complete_lastOps :
    ∃ c, Core.run step sampleStart lastOps = some c ∧ c.FindsAvailable 7 := by
  have hsome : (Core.run step sampleStart lastOps).isSome := by decide
  obtain ⟨c, hc⟩ := isSome_iff_exists.mp hsome
  have hlast : Core.AllSteps step PurgesLast sampleStart lastOps := by
    refine ⟨trivial, fun c₁ h₁ => ⟨trivial, fun c₂ h₂ => ⟨trivial, fun c₃ h₃ =>
      ⟨trivial, fun c₄ h₄ => ⟨fun index hindex hcached => ?_, fun _ _ => trivial⟩⟩⟩⟩⟩
    cases h₁
    cases h₂
    cases h₃
    cases h₄
    obtain ⟨item, hitem⟩ := isSome_iff_exists.mp hcached
    have hmem : (7, index) ∈ [(7, 0), (7, 1), (7, 2)] := Core.Table.mem_keys_of_find hitem
    simp only [mem_cons, Prod.mk.injEq, true_and, not_mem_nil, or_false] at hmem
    dsimp only at hindex
    omega
  exact ⟨c, hc, (find_complete (lru 4) 4 (0, fun _ => 0) lastOps c hc).2 hlast 7⟩

/-- **A purged entry hides those behind it.** -/
theorem purge_hides_entry :
    ∃ c, Core.run step sampleStart sampleOps = some c ∧ c.Available (7, 1) ∧
      ¬c.FindsAvailable 7 := by
  obtain ⟨c, hc, hmap⟩ := map_eq_some_iff.mp sampleOps_run
  have havailable : c.Available (7, 1) := by
    refine ⟨{ transport := 2, recycleState := .idleAndPurgable, isConnected := true }, ?_, rfl⟩
    rw [hmap]
    rfl
  have hzero : ¬c.Cached (7, 0) := by
    rw [Cache.Cached, hmap]
    decide
  refine ⟨c, hc, havailable, fun h => ?_⟩
  obtain ⟨index, hindex, hlower⟩ := (c.findsAvailable_iff 7).mp h ⟨1, havailable⟩
  rcases Nat.eq_zero_or_pos index with rfl | hpos
  · exact hzero hindex.cached
  · exact hzero (hlower 0 hpos)

end Atcd.Orb.TransportCache
