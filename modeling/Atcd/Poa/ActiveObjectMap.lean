import Atcd.Core.Bytes
import Atcd.Core.Run
import Atcd.Core.Table
/-!
# `TAO_Active_Object_Map` with unique ids

An entry holds a user id, a system id and a servant, or none yet. The user id map and, with
active hints, the map of system ids lead to the entries; the servant map leads back from a
servant to its entry. A bind that creates an entry writes the tables one after another and takes
back what it has written when one of them fails.

The user id map is a hash map (or a linear one), or an active map that makes the ids. An active
map finds its entries by the key in the first eight octets of an id. Which key it makes, and
whether there is memory, is an argument of the bind; a key that is bound is never made again.

`none` is undefined behaviour: an entry read after its deletion, or a key read behind the end of
an id.

Results:
* `bindUsingUserId_cases`, `bindUsingSystemId_cases`: a bind that creates an entry puts it into
  all its tables, or leaves all tables as they were.
-/
namespace Atcd.Poa

open Atcd.Core List Function Option

/-- `PortableServer::ObjectId`. -/
abbrev ObjectId := List UInt8

/-- `ACE_Active_Map_Manager_Key` as `encode` copies it. -/
structure ActiveKey where
  octets : ObjectId
  size : octets.length = 8

/-- `TAO_Active_Object_Map_Entry`. -/
structure Entry (S : Type*) where
  userId : ObjectId
  systemId : ObjectId
  servant : Option S
  deactivated : Bool
  priority : Int
deriving DecidableEq, Repr

inductive UserIdMap
  | hashed
  | active
deriving DecidableEq, Repr

/-- The strategies that the constructor chooses.
mirrors TAO/tao/PortableServer/Active_Object_Map.cpp:89-346 -/
structure Strategies where
  userIdMap : UserIdMap
  activeHint : Bool
  persistent : Bool
  userIds : Bool
  host : Endian
deriving DecidableEq, Repr

/-- Entries are pointers: `entries` is what they point to. -/
structure ActiveObjectMap (S : Type*) where
  entries : Nat → Option (Entry S)
  userIdMap : Table ObjectId Nat
  servantMap : Table S Nat
  systemIdMap : Table ObjectId Nat
  counter : Nat

/-- What a bind gets: the address of a new entry, a key or memory from the user id map, a key
from the map of system ids, memory from the servant map. -/
structure Supply where
  entry : Option Nat
  userId : Option ActiveKey
  systemId : Option ActiveKey
  servant : Bool

/-- The active key of an id.
mirrors TAO/tao/PortableServer/Key_Adapters.cpp:61-69, 111-119 -/
def decode (id : ObjectId) : Option ObjectId :=
  if id.length < 8 then none else some (id.take 8)

namespace Strategies

/-- What the user id map compares. -/
def userKey (p : Strategies) (id : ObjectId) : Option ObjectId :=
  match p.userIdMap with
  | .hashed => some id
  | .active => decode id

/-- `using_active_maps_`. -/
def usingActiveMaps (p : Strategies) : Bool := p.activeHint || p.userIdMap = .active

end Strategies

variable {S : Type*}

namespace ActiveObjectMap

def setEntry (m : ActiveObjectMap S) (a : Nat) (e : Entry S) : ActiveObjectMap S :=
  { m with entries := Function.update m.entries a (some e) }

/-- `delete entry`. -/
def delete (m : ActiveObjectMap S) (a : Nat) : ActiveObjectMap S :=
  { m with entries := Function.update m.entries a none }

/-! ## The tables -/

/-- `user_id_map_->bind (entry->user_id_, entry)`; an active map does not support it. -/
def bindUserId (p : Strategies) (m : ActiveObjectMap S) (a : Nat) (memory : Bool) :
    Option (ActiveObjectMap S × Int) :=
  (m.entries a).map fun e =>
    match p.userIdMap with
    | .active => (m, -1)
    | .hashed =>
      if (m.userIdMap.find e.userId).isSome then (m, 1)
      else if memory then ({ m with userIdMap := m.userIdMap ++ [(e.userId, a)] }, 0)
      else (m, -1)

/-- `user_id_map_->unbind (id)`. -/
def unbindUserId (p : Strategies) (m : ActiveObjectMap S) (id : ObjectId) :
    Option (ActiveObjectMap S) :=
  (p.userKey id).map fun key => { m with userIdMap := m.userIdMap.unbind key }

/-- `user_id_map_->bind_create_key (entry, entry->user_id_)`.
mirrors ACE/ace/Map_T.cpp:468-498, 887-902 and
Key_Adapters.cpp:16-30 -/
def bindCreateKey (p : Strategies) (m : ActiveObjectMap S) (a : Nat) (key : Option ActiveKey) :
    Option (ActiveObjectMap S × Int) :=
  (m.entries a).bind fun e =>
    match p.userIdMap with
    | .hashed =>
      let counter := (m.counter + 1) % 2 ^ 32
      let m := { m.setEntry a { e with userId := store p.host 4 counter } with counter := counter }
      m.bindUserId p a key.isSome
    | .active =>
      match key with
      | none => some (m, -1)
      | some k =>
        if (m.userIdMap.find k.octets).isSome then none
        else some ({ m.setEntry a { e with userId := k.octets } with
          userIdMap := m.userIdMap ++ [(k.octets, a)] }, 0)

/-- `servant_map_->bind`. -/
def bindServant [DecidableEq S] (m : ActiveObjectMap S) (servant : S) (a : Nat) (memory : Bool) :
    ActiveObjectMap S × Int :=
  if (m.servantMap.find servant).isSome then (m, 1)
  else if memory then ({ m with servantMap := m.servantMap ++ [(servant, a)] }, 0)
  else (m, -1)

/-- `id_hint_strategy_->bind`.
mirrors Active_Object_Map.cpp:1105-1112, 1163-1167 -/
def bindHint (p : Strategies) (m : ActiveObjectMap S) (a : Nat) (key : Option ActiveKey) :
    Option (ActiveObjectMap S × Int) :=
  if p.activeHint then
    (m.entries a).bind fun e =>
      match key with
      | none => some (m.setEntry a { e with systemId := e.userId }, -1)
      | some k =>
        if (m.systemIdMap.find k.octets).isSome then none
        else some ({ m.setEntry a { e with systemId := k.octets ++ e.userId } with
          systemIdMap := m.systemIdMap ++ [(k.octets, a)] }, 0)
  else some (m, 0)

/-- `id_hint_strategy_->unbind`.
mirrors Active_Object_Map.cpp:1114-1118, 1169-1173 -/
def unbindHint (p : Strategies) (m : ActiveObjectMap S) (a : Nat) :
    Option (ActiveObjectMap S × Int) :=
  if p.activeHint then
    (m.entries a).bind fun e =>
      (decode e.systemId).map fun k =>
        match m.systemIdMap.find k with
        | none => (m, -1)
        | some _ => ({ m with systemIdMap := m.systemIdMap.unbind k }, 0)
  else some (m, 0)

/-! ## Binding -/

/-- Without a servant there is nothing to bind. -/
def bindAnyServant [DecidableEq S] (m : ActiveObjectMap S) (servant : Option S) (a : Nat)
    (memory : Bool) : ActiveObjectMap S × Int :=
  match servant with
  | none => (m, 0)
  | some s => m.bindServant s a memory

/-- The servant map is written last. When that fails, the new entry is taken out of the others.
mirrors Active_Object_Map.cpp:467-491, 970-988 -/
def bindLast [DecidableEq S] (p : Strategies) (m : ActiveObjectMap S) (a : Nat) (servant : Option S)
    (memory : Bool) : Option (ActiveObjectMap S × Int) :=
  let r := m.bindAnyServant servant a memory
  if r.2 = 0 then some r
  else
    (r.1.entries a).bind fun e =>
    (r.1.unbindUserId p e.userId).bind fun m =>
    (m.unbindHint p a).map fun h => (h.1.delete a, r.2)

/-- mirrors Active_Object_Map.cpp:448-503 -/
def bindNewEntry [DecidableEq S] (p : Strategies) (m : ActiveObjectMap S) (a : Nat)
    (servant : Option S) (userId : ObjectId) (priority : Int) (supply : Supply) :
    Option (ActiveObjectMap S × Int) :=
  let m := m.setEntry a ⟨userId, [], servant, false, priority⟩
  (m.bindHint p a supply.systemId).bind fun r =>
    if r.2 = 0 then
      (r.1.bindUserId p a supply.userId.isSome).bind fun u =>
        if u.2 = 0 then u.1.bindLast p a servant supply.servant
        else (u.1.unbindHint p a).map fun h => (h.1.delete a, u.2)
    else some (r.1.delete a, r.2)

/-- The entry is there already, perhaps without a servant.
mirrors Active_Object_Map.cpp:433-446 -/
def bindExisting [DecidableEq S] (m : ActiveObjectMap S) (a : Nat) (servant : Option S)
    (memory : Bool) : Option (ActiveObjectMap S × Int) :=
  match servant with
  | none => some (m, 0)
  | some s => (m.entries a).map fun e =>
    (m.setEntry a { e with servant := some s }).bindServant s a memory

/-- `TAO_Unique_Id_Strategy::bind_using_user_id`.
mirrors Active_Object_Map.cpp:422-524 -/
def bindUsingUserId [DecidableEq S] (p : Strategies) (m : ActiveObjectMap S) (servant : Option S)
    (userId : ObjectId) (priority : Int) (supply : Supply) :
    Option (ActiveObjectMap S × Int) :=
  (p.userKey userId).bind fun key =>
    match m.userIdMap.find key with
    | some a => m.bindExisting a servant supply.servant
    | none =>
      match supply.entry with
      | none => some (m, -1)
      | some a =>
        if (m.entries a).isSome then none
        else m.bindNewEntry p a servant userId priority supply

/-- mirrors Active_Object_Map.cpp:957-1000 -/
def bindCreated [DecidableEq S] (p : Strategies) (m : ActiveObjectMap S) (a : Nat)
    (servant : Option S) (priority : Int) (supply : Supply) : Option (ActiveObjectMap S × Int) :=
  let m := m.setEntry a ⟨[], [], none, false, -1⟩
  (m.bindCreateKey p a supply.userId).bind fun u =>
    if u.2 = 0 then
      (u.1.entries a).bind fun e =>
      ((u.1.setEntry a { e with
        servant := servant
        priority := priority }).bindHint p a supply.systemId).bind fun r =>
        if r.2 = 0 then r.1.bindLast p a servant supply.servant
        else (r.1.unbindUserId p e.userId).map fun m => (m.delete a, r.2)
    else some (u.1.delete a, u.2)

/-- `bind_using_system_id` of `TAO_User_Id_Strategy` and of
`TAO_System_Id_With_Unique_Id_Strategy`.
mirrors Active_Object_Map.cpp:938-1022 -/
def bindUsingSystemId [DecidableEq S] (p : Strategies) (m : ActiveObjectMap S) (servant : Option S)
    (priority : Int) (supply : Supply) : Option (ActiveObjectMap S × Int) :=
  if p.userIds then some (m, -1)
  else match supply.entry with
    | none => some (m, -1)
    | some a =>
      if (m.entries a).isSome then none
      else m.bindCreated p a servant priority supply

/-- `TAO_Unique_Id_Strategy::unbind_using_user_id`.
mirrors Active_Object_Map.cpp:526-574 -/
def unbindUsingUserId [DecidableEq S] (p : Strategies) (m : ActiveObjectMap S) (userId : ObjectId) :
    Option (ActiveObjectMap S × Int) :=
  (p.userKey userId).bind fun key =>
    match m.userIdMap.find key with
    | none => some (m, -1)
    | some a =>
      let m := { m with userIdMap := m.userIdMap.unbind key }
      (m.entries a).bind fun e =>
        let r : ActiveObjectMap S × Int := match e.servant with
          | none => (m, 0)
          | some s =>
            if (m.servantMap.find s).isSome then
              ({ m with servantMap := m.servantMap.unbind s }, 0)
            else (m, -1)
        if r.2 = 0 then
          (r.1.unbindHint p a).map fun h => if h.2 = 0 then (h.1.delete a, 0) else h
        else some r

/-! ## Looking up -/

def servantOf (e : Entry S) : Option S := if e.deactivated then none else e.servant

/-- `id_hint_strategy_->system_id`.
mirrors Active_Object_Map.cpp:1133-1141, 1188-1196 -/
def systemIdOf (p : Strategies) (e : Entry S) : ObjectId :=
  if p.activeHint then e.systemId else e.userId

/-- The entry with this user id, if there is one. -/
def findUserId (p : Strategies) (m : ActiveObjectMap S) (userId : ObjectId) :
    Option (Option (Entry S)) :=
  (p.userKey userId).bind fun key =>
    match m.userIdMap.find key with
    | none => some none
    | some a => (m.entries a).map some

/-- The entry of this servant, if there is one. -/
def findServant [DecidableEq S] (m : ActiveObjectMap S) (servant : S) : Option (Option (Entry S)) :=
  match m.servantMap.find servant with
  | none => some none
  | some a => (m.entries a).map some

/-- `id_hint_strategy_->find`.
mirrors Active_Object_Map.cpp:1120-1126, 1175-1180 -/
def findHint (p : Strategies) (m : ActiveObjectMap S) (systemId : ObjectId) :
    Option (Option (Entry S)) :=
  if p.activeHint then
    (decode systemId).bind fun k =>
      match m.systemIdMap.find k with
      | none => some none
      | some a => (m.entries a).map some
  else some none

/-- Whether the servant is in the map, and whether its entry is deactivated.
mirrors Active_Object_Map.cpp:399-420 -/
def isServantInMap [DecidableEq S] (m : ActiveObjectMap S) (servant : S) : Option (Bool × Bool) :=
  (m.findServant servant).map fun found =>
    match found with
    | none => (false, false)
    | some e => (true, e.deactivated)

/-- Whether the id is active, whether the priorities match, and whether the entry is deactivated.
mirrors Active_Object_Map.cpp:348-383 -/
def isUserIdInMap (p : Strategies) (m : ActiveObjectMap S) (userId : ObjectId) (priority : Int) :
    Option (Bool × Bool × Bool) :=
  (m.findUserId p userId).map fun found =>
    match found with
    | none => (false, true, false)
    | some e =>
      if e.servant.isSome then (true, true, e.deactivated)
      else (false, e.priority = priority, false)

/-- mirrors Active_Object_Map.cpp:576-600 -/
def findUserIdUsingServant [DecidableEq S] (m : ActiveObjectMap S) (servant : S) :
    Option (Option ObjectId) :=
  (m.findServant servant).map fun found =>
    found.bind fun e => if e.deactivated then none else some e.userId

/-- mirrors Active_Object_Map.cpp:602-631 -/
def findSystemIdUsingServant [DecidableEq S] (p : Strategies) (m : ActiveObjectMap S)
    (servant : S) : Option (Option (ObjectId × Int)) :=
  (m.findServant servant).map fun found =>
    found.bind fun e => if e.deactivated then none else some (systemIdOf p e, e.priority)

/-- mirrors TAO/tao/PortableServer/Active_Object_Map.inl:154-180 -/
def findServantUsingUserId (p : Strategies) (m : ActiveObjectMap S) (userId : ObjectId) :
    Option (Option S) :=
  (m.findUserId p userId).map fun found => found.bind servantOf

/-- mirrors Active_Object_Map.inl:197-213 -/
def findEntryUsingUserId (p : Strategies) (m : ActiveObjectMap S) (userId : ObjectId) :
    Option (Option (Entry S)) :=
  (m.findUserId p userId).map fun found =>
    found.bind fun e => if e.deactivated then none else some e

/-- mirrors Active_Object_Map.inl:215-244 -/
def findServantAndSystemIdUsingUserId (p : Strategies) (m : ActiveObjectMap S)
    (userId : ObjectId) : Option (Option (S × ObjectId × Int)) :=
  (m.findEntryUsingUserId p userId).map fun found =>
    found.bind fun e => e.servant.map fun s => (s, systemIdOf p e, e.priority)

/-- The hint is tried first; with persistent ids it has to lead to the user id asked for.
mirrors Active_Object_Map.cpp:814-924 -/
def findServantUsingSystemIdAndUserId (p : Strategies) (m : ActiveObjectMap S)
    (systemId userId : ObjectId) : Option (Option S) :=
  (m.findHint p systemId).bind fun hint =>
    match hint with
    | some e =>
      if p.persistent ∧ userId ≠ e.userId then m.findServantUsingUserId p userId
      else some (servantOf e)
    | none => m.findServantUsingUserId p userId

/-- Without active maps the system id is the user id. Otherwise the entry is made, if it is not
there yet.
mirrors Active_Object_Map.inl:86-118 -/
def findSystemIdUsingUserId [DecidableEq S] (p : Strategies) (m : ActiveObjectMap S)
    (userId : ObjectId) (priority : Int) (supply : Supply) : Option (ActiveObjectMap S × Int) :=
  if p.usingActiveMaps then m.bindUsingUserId p none userId priority supply else some (m, 0)

/-- The POA marks an entry with outstanding requests.
mirrors TAO/tao/PortableServer/ServantRetentionStrategyRetain.cpp:108-123 -/
def deactivate (p : Strategies) (m : ActiveObjectMap S) (userId : ObjectId) :
    Option (ActiveObjectMap S × Int) :=
  (p.userKey userId).bind fun key =>
    match m.userIdMap.find key with
    | none => some (m, -1)
    | some a => (m.entries a).map fun e => (m.setEntry a { e with deactivated := true }, 0)

/-! ## What a failed bind leaves -/

/-- All tables and entries are the same. -/
structure SameTables (m m' : ActiveObjectMap S) : Prop where
  entries : m'.entries = m.entries
  userIdMap : m'.userIdMap = m.userIdMap
  servantMap : m'.servantMap = m.servantMap
  systemIdMap : m'.systemIdMap = m.systemIdMap

theorem SameTables.refl (m : ActiveObjectMap S) : SameTables m m := ⟨rfl, rfl, rfl, rfl⟩

/-- A key has been bound, or the table is the same. -/
def Extended (t t' : Table ObjectId Nat) (key : Option ObjectId) (a : Nat) (done : Bool) : Prop :=
  if done then ∃ k, key = some k ∧ t.find k = none ∧ t' = t ++ [(k, a)] else t' = t

/-- The state in the middle of a bind: the new entry `a` is in some of the tables. -/
structure Stage (p : Strategies) (m m' : ActiveObjectMap S) (a : Nat) (e : Entry S)
    (user hint : Bool) : Prop where
  entries : m'.entries = Function.update m.entries a (some e)
  servantMap : m'.servantMap = m.servantMap
  user : Extended m.userIdMap m'.userIdMap (p.userKey e.userId) a user
  hint : Extended m.systemIdMap m'.systemIdMap (decode e.systemId) a hint

/-- The new entry is in all tables it belongs to. -/
structure Added [DecidableEq S] (p : Strategies) (m m' : ActiveObjectMap S) (a : Nat)
    (e : Entry S) : Prop where
  fresh : m.entries a = none
  entries : m'.entries = Function.update m.entries a (some e)
  user : Extended m.userIdMap m'.userIdMap (p.userKey e.userId) a true
  hint : Extended m.systemIdMap m'.systemIdMap (decode e.systemId) a p.activeHint
  servant : match e.servant with
    | none => m'.servantMap = m.servantMap
    | some s => m.servantMap.find s = none ∧ m'.servantMap = m.servantMap ++ [(s, a)]

section Stages

variable {p : Strategies} {m m₁ m₂ : ActiveObjectMap S} {a : Nat} {e : Entry S} {u h : Bool}
  {r : Int}

theorem unbind_append {K V : Type*} [DecidableEq K] {t : Table K V} {k : K} (ht : t.find k = none)
    (v : V) : Table.unbind (t ++ [(k, v)]) k = t := by
  have hself : t.filter (fun e => e.1 ≠ k) = t := by
    refine filter_eq_self.mpr fun e he => decide_eq_true fun hk => ?_
    exact Table.find_eq_none.mp ht (mem_map.mpr ⟨e, he, hk⟩)
  unfold Table.unbind
  rw [filter_append, hself]
  simp

theorem Extended.unbind {t t' : Table ObjectId Nat} {key : Option ObjectId} {k : ObjectId}
    (hext : Extended t t' key a true) (hk : key = some k) : t'.unbind k = t := by
  obtain ⟨k', hk', hnone, rfl⟩ := hext
  obtain rfl : k' = k := some.inj (hk'.symm.trans hk)
  exact unbind_append hnone a

theorem Extended.find {t t' : Table ObjectId Nat} {key : Option ObjectId} {k : ObjectId}
    (hext : Extended t t' key a true) (hk : key = some k) : t'.find k = some a := by
  obtain ⟨k', hk', hnone, rfl⟩ := hext
  obtain rfl : k' = k := some.inj (hk'.symm.trans hk)
  rw [Table.find_append, hnone, Table.find_cons, if_pos rfl]
  rfl

theorem Stage.entry (hst : Stage p m m₁ a e u h) : m₁.entries a = some e := by
  rw [hst.entries]
  exact update_self _ _ _

theorem Stage.start (p : Strategies) (m : ActiveObjectMap S) (a : Nat) (e : Entry S) :
    Stage p m (m.setEntry a e) a e false false := ⟨rfl, rfl, rfl, rfl⟩

/-- The entry is written again, its ids kept where they are in a table. -/
theorem Stage.setEntry (hst : Stage p m m₁ a e u h) {d : Entry S}
    (huser : u = true → d.userId = e.userId) (hhint : h = true → d.systemId = e.systemId) :
    Stage p m (m₁.setEntry a d) a d u h := by
  refine ⟨?_, hst.servantMap, ?_, ?_⟩
  · show update m₁.entries a (some d) = _
    rw [hst.entries, update_idem]
  · cases u with
    | true =>
      rw [huser rfl]
      exact hst.user
    | false => exact hst.user
  · cases h with
    | true =>
      rw [hhint rfl]
      exact hst.hint
    | false => exact hst.hint

theorem Stage.delete (hst : Stage p m m₁ a e false false) (hfresh : m.entries a = none) :
    SameTables m (m₁.delete a) := by
  refine ⟨?_, hst.user, hst.servantMap, hst.hint⟩
  show update m₁.entries a none = m.entries
  rw [hst.entries, update_idem, ← hfresh, update_eq_self]

theorem decode_append (k : ActiveKey) (id : ObjectId) :
    decode (k.octets ++ id) = some k.octets := by
  unfold decode
  have hlen := k.size
  rw [if_neg (by simp [hlen]), take_left' hlen]

theorem bindHint_stage (hst : Stage p m m₁ a e u false) {key : Option ActiveKey}
    (hcall : m₁.bindHint p a key = some (m₂, r)) :
    ∃ d, d.userId = e.userId ∧ d.servant = e.servant ∧
      (r = 0 ∧ Stage p m m₂ a d u p.activeHint ∨ r ≠ 0 ∧ Stage p m m₂ a d u false) := by
  unfold bindHint at hcall
  cases hp : p.activeHint with
  | false =>
    rw [hp, if_neg Bool.false_ne_true] at hcall
    cases hcall
    exact ⟨e, rfl, rfl, .inl ⟨rfl, hst⟩⟩
  | true =>
    rw [hp, if_pos rfl, hst.entry, bind_some] at hcall
    cases key with
    | none =>
      cases hcall
      refine ⟨{ e with systemId := e.userId }, rfl, rfl, .inr ⟨by decide, ?_⟩⟩
      exact hst.setEntry (fun _ => rfl) fun hfalse => nomatch hfalse
    | some k =>
      dsimp only at hcall
      split at hcall
      · cases hcall
      · rename_i hbound
        cases hcall
        have hset : Stage p m (m₁.setEntry a { e with systemId := k.octets ++ e.userId }) a
            { e with systemId := k.octets ++ e.userId } u false :=
          hst.setEntry (fun _ => rfl) fun hfalse => nomatch hfalse
        have hsame : m₁.systemIdMap = m.systemIdMap := hst.hint
        have hnone : m.systemIdMap.find k.octets = none := by
          rw [← hsame]
          simpa using hbound
        refine ⟨{ e with systemId := k.octets ++ e.userId }, rfl, rfl,
          .inl ⟨rfl, hset.entries, hset.servantMap, hset.user, ?_⟩⟩
        refine ⟨k.octets, decode_append k e.userId, hnone, ?_⟩
        rw [← hsame]

theorem bindUserId_stage (hst : Stage p m m₁ a e false h) {memory : Bool}
    (hcall : m₁.bindUserId p a memory = some (m₂, r)) :
    r = 0 ∧ Stage p m m₂ a e true h ∨ r ≠ 0 ∧ m₂ = m₁ := by
  unfold bindUserId at hcall
  rw [hst.entry, map_some, some.injEq] at hcall
  cases hp : p.userIdMap with
  | active =>
    rw [hp] at hcall
    cases hcall
    exact .inr ⟨by decide, rfl⟩
  | hashed =>
    rw [hp] at hcall
    dsimp only at hcall
    split at hcall
    · cases hcall
      exact .inr ⟨by decide, rfl⟩
    · rename_i hbound
      split at hcall
      · cases hcall
        have hsame : m₁.userIdMap = m.userIdMap := hst.user
        have hkey : p.userKey e.userId = some e.userId := by
          unfold Strategies.userKey
          rw [hp]
        refine .inl ⟨rfl, hst.entries, hst.servantMap, ⟨e.userId, hkey, ?_, ?_⟩, hst.hint⟩
        · rw [← hsame]
          simpa using hbound
        · rw [← hsame]
      · cases hcall
        exact .inr ⟨by decide, rfl⟩

theorem unbindUserId_stage (hst : Stage p m m₁ a e true h)
    (hcall : m₁.unbindUserId p e.userId = some m₂) : Stage p m m₂ a e false h := by
  obtain ⟨key, hkey, rfl⟩ := map_eq_some_iff.mp hcall
  exact ⟨hst.entries, hst.servantMap, hst.user.unbind hkey, hst.hint⟩

theorem unbindHint_stage (hst : Stage p m m₁ a e u p.activeHint)
    (hcall : m₁.unbindHint p a = some (m₂, r)) : Stage p m m₂ a e u false := by
  unfold unbindHint at hcall
  cases hp : p.activeHint with
  | false =>
    rw [hp, if_neg Bool.false_ne_true] at hcall
    cases hcall
    rwa [hp] at hst
  | true =>
    rw [hp, if_pos rfl, hst.entry, bind_some] at hcall
    obtain ⟨k, hk, hfound⟩ := map_eq_some_iff.mp hcall
    have hext : Extended m.systemIdMap m₁.systemIdMap (decode e.systemId) a true := hp ▸ hst.hint
    rw [hext.find hk] at hfound
    cases hfound
    exact ⟨hst.entries, hst.servantMap, hst.user, hext.unbind hk⟩

variable [DecidableEq S]

theorem bindServant_cases {s : S} {memory : Bool} (hcall : m.bindServant s a memory = (m₂, r)) :
    r = 0 ∧ m.servantMap.find s = none ∧
      m₂ = { m with servantMap := m.servantMap ++ [(s, a)] } ∨ r ≠ 0 ∧ m₂ = m := by
  unfold bindServant at hcall
  split at hcall
  · cases hcall
    exact .inr ⟨by decide, rfl⟩
  · rename_i hbound
    split at hcall
    · cases hcall
      exact .inl ⟨rfl, by simpa using hbound, rfl⟩
    · cases hcall
      exact .inr ⟨by decide, rfl⟩

theorem bindAnyServant_cases (hfresh : m.entries a = none)
    (hst : Stage p m m₁ a e true p.activeHint) {memory : Bool}
    (hcall : m₁.bindAnyServant e.servant a memory = (m₂, r)) :
    r = 0 ∧ Added p m m₂ a e ∨ r ≠ 0 ∧ m₂ = m₁ := by
  cases hs : e.servant with
  | none =>
    rw [hs] at hcall
    cases hcall
    refine .inl ⟨rfl, hfresh, hst.entries, hst.user, hst.hint, ?_⟩
    rw [hs]
    exact hst.servantMap
  | some s =>
    rw [hs] at hcall
    rcases bindServant_cases hcall with ⟨hr, hnone, rfl⟩ | hfailed
    · refine .inl ⟨hr, hfresh, hst.entries, hst.user, hst.hint, ?_⟩
      rw [hs]
      rw [← hst.servantMap]
      exact ⟨hnone, rfl⟩
    · exact .inr hfailed

theorem bindLast_cases (hfresh : m.entries a = none)
    (hst : Stage p m m₁ a e true p.activeHint) {memory : Bool}
    (hcall : m₁.bindLast p a e.servant memory = some (m₂, r)) :
    r = 0 ∧ Added p m m₂ a e ∨ r ≠ 0 ∧ SameTables m m₂ := by
  unfold bindLast at hcall
  generalize hbind : m₁.bindAnyServant e.servant a memory = bound at hcall
  obtain ⟨m₃, r₃⟩ := bound
  rcases bindAnyServant_cases hfresh hst hbind with ⟨rfl, hadded⟩ | ⟨hr, rfl⟩
  · rw [if_pos rfl] at hcall
    cases hcall
    exact .inl ⟨rfl, hadded⟩
  · rw [if_neg hr, hst.entry, bind_some] at hcall
    obtain ⟨m₄, huser, hcall⟩ := bind_eq_some_iff.mp hcall
    obtain ⟨⟨m₅, r₅⟩, hhint, hcall⟩ := map_eq_some_iff.mp hcall
    cases hcall
    have hst' := unbindHint_stage (unbindUserId_stage hst huser) hhint
    exact .inr ⟨hr, hst'.delete hfresh⟩

/-- What a bind that creates an entry does: all of it, or nothing. -/
def AllOrNothing (p : Strategies) (m m' : ActiveObjectMap S) (servant : Option S) (r : Int) :
    Prop :=
  (r = 0 ∧ ∃ a e, Added p m m' a e ∧ e.servant = servant) ∨ (r ≠ 0 ∧ SameTables m m')

theorem bindNewEntry_cases (hfresh : m.entries a = none) {servant : Option S} {userId : ObjectId}
    {priority : Int} {supply : Supply}
    (hcall : m.bindNewEntry p a servant userId priority supply = some (m₂, r)) :
    AllOrNothing p m m₂ servant r := by
  obtain ⟨⟨m₁, r₁⟩, hhint, hrest⟩ := bind_eq_some_iff.mp hcall
  obtain ⟨d, -, hservant, hst⟩ := bindHint_stage (Stage.start p m a _) hhint
  dsimp only at hservant hrest
  rcases hst with ⟨rfl, hst⟩ | ⟨hr, hst⟩
  · rw [if_pos rfl] at hrest
    obtain ⟨⟨m₃, r₃⟩, huser, hlast⟩ := bind_eq_some_iff.mp hrest
    rcases bindUserId_stage hst huser with ⟨rfl, hst'⟩ | ⟨hr, rfl⟩
    · rw [if_pos rfl, ← hservant] at hlast
      rcases bindLast_cases hfresh hst' hlast with ⟨hr, hadded⟩ | hfailed
      · exact .inl ⟨hr, a, d, hadded, hservant⟩
      · exact .inr hfailed
    · rw [if_neg hr] at hlast
      obtain ⟨⟨m₄, r₄⟩, hunbind, hdone⟩ := map_eq_some_iff.mp hlast
      cases hdone
      exact .inr ⟨hr, (unbindHint_stage hst hunbind).delete hfresh⟩
  · rw [if_neg hr] at hrest
    cases hrest
    exact .inr ⟨hr, hst.delete hfresh⟩

omit [DecidableEq S] in
theorem bindCreateKey_stage (hst : Stage p m m₁ a e false false) {key : Option ActiveKey}
    (hcall : m₁.bindCreateKey p a key = some (m₂, r)) : ∃ d, d.servant = e.servant ∧
      (r = 0 ∧ Stage p m m₂ a d true false ∨ r ≠ 0 ∧ Stage p m m₂ a d false false) := by
  unfold bindCreateKey at hcall
  rw [hst.entry, bind_some] at hcall
  cases hp : p.userIdMap with
  | hashed =>
    rw [hp] at hcall
    dsimp only at hcall
    generalize hid : store p.host 4 ((m₁.counter + 1) % 2 ^ 32) = id at hcall
    have hset : Stage p m (m₁.setEntry a { e with userId := id }) a { e with userId := id }
        false false := hst.setEntry (fun hfalse => nomatch hfalse) fun hfalse => nomatch hfalse
    have hset' : Stage p m { m₁.setEntry a { e with userId := id } with
        counter := (m₁.counter + 1) % 2 ^ 32 } a { e with userId := id } false false :=
      ⟨hset.entries, hset.servantMap, hset.user, hset.hint⟩
    refine ⟨{ e with userId := id }, rfl, ?_⟩
    rcases bindUserId_stage hset' hcall with hok | ⟨hr, rfl⟩
    · exact .inl hok
    · exact .inr ⟨hr, hset'⟩
  | active =>
    rw [hp] at hcall
    cases key with
    | none =>
      cases hcall
      exact ⟨e, rfl, .inr ⟨by decide, hst⟩⟩
    | some k =>
      dsimp only at hcall
      split at hcall
      · cases hcall
      · rename_i hbound
        cases hcall
        have hset : Stage p m (m₁.setEntry a { e with userId := k.octets }) a
            { e with userId := k.octets } false false :=
          hst.setEntry (fun hfalse => nomatch hfalse) fun hfalse => nomatch hfalse
        have hsame : m₁.userIdMap = m.userIdMap := hst.user
        have hkey : p.userKey k.octets = some k.octets := by
          have hdecode := decode_append k []
          rw [append_nil] at hdecode
          unfold Strategies.userKey
          rw [hp]
          exact hdecode
        have hnone : m.userIdMap.find k.octets = none := by
          rw [← hsame]
          simpa using hbound
        refine ⟨{ e with userId := k.octets }, rfl,
          .inl ⟨rfl, hset.entries, hset.servantMap, ⟨k.octets, hkey, hnone, ?_⟩, hset.hint⟩⟩
        rw [← hsame]

theorem bindCreated_cases (hfresh : m.entries a = none) {servant : Option S} {priority : Int}
    {supply : Supply} (hcall : m.bindCreated p a servant priority supply = some (m₂, r)) :
    AllOrNothing p m m₂ servant r := by
  obtain ⟨⟨m₁, r₁⟩, hkey, hcall⟩ := bind_eq_some_iff.mp hcall
  obtain ⟨d, -, hst⟩ := bindCreateKey_stage (Stage.start p m a _) hkey
  rcases hst with ⟨rfl, hst⟩ | ⟨hr, hst⟩
  · rw [if_pos rfl, hst.entry, bind_some] at hcall
    obtain ⟨⟨m₃, r₃⟩, hhint, hcall⟩ := bind_eq_some_iff.mp hcall
    have hset : Stage p m (m₁.setEntry a { d with
        servant := servant
        priority := priority }) a { d with
        servant := servant
        priority := priority } true false :=
      hst.setEntry (fun _ => rfl) fun hfalse => nomatch hfalse
    obtain ⟨c, hid, hservant, hst'⟩ := bindHint_stage hset hhint
    dsimp only at hid hservant hcall
    rcases hst' with ⟨rfl, hst'⟩ | ⟨hr, hst'⟩
    · rw [if_pos rfl, ← hservant] at hcall
      rcases bindLast_cases hfresh hst' hcall with ⟨hr, hadded⟩ | hfailed
      · exact .inl ⟨hr, a, c, hadded, hservant⟩
      · exact .inr hfailed
    · rw [if_neg hr, ← hid] at hcall
      obtain ⟨m₄, hunbind, hcall⟩ := map_eq_some_iff.mp hcall
      cases hcall
      exact .inr ⟨hr, (unbindUserId_stage hst' hunbind).delete hfresh⟩
  · rw [if_neg hr] at hcall
    cases hcall
    exact .inr ⟨hr, hst.delete hfresh⟩

theorem bindUsingUserId_cases {servant : Option S} {userId : ObjectId} {priority : Int}
    {supply : Supply}
    (hcall : m.bindUsingUserId p servant userId priority supply = some (m₂, r)) :
    ∃ key, p.userKey userId = some key ∧ ((∃ a, m.userIdMap.find key = some a ∧
        m.bindExisting a servant supply.servant = some (m₂, r)) ∨
      (m.userIdMap.find key = none ∧ AllOrNothing p m m₂ servant r)) := by
  obtain ⟨key, hkey, hcall⟩ := bind_eq_some_iff.mp hcall
  refine ⟨key, hkey, ?_⟩
  cases hfind : m.userIdMap.find key with
  | some a =>
    rw [hfind] at hcall
    exact .inl ⟨a, rfl, hcall⟩
  | none =>
    rw [hfind] at hcall
    refine .inr ⟨rfl, ?_⟩
    cases hentry : supply.entry with
    | none =>
      rw [hentry] at hcall
      cases hcall
      exact .inr ⟨by decide, .refl m⟩
    | some a =>
      rw [hentry] at hcall
      dsimp only at hcall
      split at hcall
      · cases hcall
      · rename_i hused
        exact bindNewEntry_cases (by simpa using hused) hcall

/-- **All or nothing.** -/
theorem bindUsingSystemId_cases {servant : Option S} {priority : Int} {supply : Supply}
    (hcall : m.bindUsingSystemId p servant priority supply = some (m₂, r)) :
    AllOrNothing p m m₂ servant r := by
  unfold bindUsingSystemId at hcall
  split at hcall
  · cases hcall
    exact .inr ⟨by decide, .refl m⟩
  · cases hentry : supply.entry with
    | none =>
      rw [hentry] at hcall
      cases hcall
      exact .inr ⟨by decide, .refl m⟩
    | some a =>
      rw [hentry] at hcall
      dsimp only at hcall
      split at hcall
      · cases hcall
      · rename_i hused
        exact bindCreated_cases (by simpa using hused) hcall

end Stages

end ActiveObjectMap

end Atcd.Poa
