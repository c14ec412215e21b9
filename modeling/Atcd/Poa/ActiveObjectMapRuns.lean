import Atcd.Core.Index
import Atcd.Poa.ActiveObjectMap
/-!
# The tables of an active object map over its runs

Each table indexes the entries: the user id map by the user id, the servant map by the servant,
the map of system ids by the active key in the system id.

Results:
* `tables_consistent`: as long as an entry that exists gets its servant into the servant map, the
  tables agree in every state a run reaches, and a bind that fails to create an entry leaves them
  as they were.
* `lookups_agree`: nor do the find operations read a deleted entry, and the ids of a servant lead
  to it.
* `servant_not_in_map`: when the servant map has no memory for the servant of an entry that exists,
  the entry keeps the servant.
-/
namespace Atcd.Poa

open Atcd.Core Function Option

variable {S : Type*} [DecidableEq S]

/-- The operations that only look up. -/
inductive Query (S : Type*)
  | isServantInMap (servant : S)
  | isUserIdInMap (userId : ObjectId) (priority : Int)
  | findUserIdUsingServant (servant : S)
  | findSystemIdUsingServant (servant : S)
  | findServantUsingUserId (userId : ObjectId)
  | findEntryUsingUserId (userId : ObjectId)
  | findServantAndSystemIdUsingUserId (userId : ObjectId)
  | findServantUsingSystemIdAndUserId (systemId userId : ObjectId)

inductive Op (S : Type*)
  | bindUsingUserId (servant : Option S) (userId : ObjectId) (priority : Int) (supply : Supply)
  | bindUsingSystemId (servant : Option S) (priority : Int) (supply : Supply)
  | unbindUsingUserId (userId : ObjectId)
  | findSystemIdUsingUserId (userId : ObjectId) (priority : Int) (supply : Supply)
  | deactivate (userId : ObjectId)
  | ask (query : Query S)

namespace ActiveObjectMap

def empty : ActiveObjectMap S := ⟨fun _ => none, [], [], [], 0⟩

/-- Whether the answer is defined. -/
def ask (p : Strategies) (m : ActiveObjectMap S) : Query S → Option Unit
  | .isServantInMap s => (m.isServantInMap s).map fun _ => ()
  | .isUserIdInMap id priority => (m.isUserIdInMap p id priority).map fun _ => ()
  | .findUserIdUsingServant s => (m.findUserIdUsingServant s).map fun _ => ()
  | .findSystemIdUsingServant s => (m.findSystemIdUsingServant p s).map fun _ => ()
  | .findServantUsingUserId id => (m.findServantUsingUserId p id).map fun _ => ()
  | .findEntryUsingUserId id => (m.findEntryUsingUserId p id).map fun _ => ()
  | .findServantAndSystemIdUsingUserId id =>
    (m.findServantAndSystemIdUsingUserId p id).map fun _ => ()
  | .findServantUsingSystemIdAndUserId systemId id =>
    (m.findServantUsingSystemIdAndUserId p systemId id).map fun _ => ()

/-- The state after an operation, and what it returns. -/
def call (p : Strategies) (m : ActiveObjectMap S) : Op S → Option (ActiveObjectMap S × Int)
  | .bindUsingUserId servant id priority supply => m.bindUsingUserId p servant id priority supply
  | .bindUsingSystemId servant priority supply => m.bindUsingSystemId p servant priority supply
  | .unbindUsingUserId id => m.unbindUsingUserId p id
  | .findSystemIdUsingUserId id priority supply => m.findSystemIdUsingUserId p id priority supply
  | .deactivate id => m.deactivate p id
  | .ask query => (m.ask p query).map fun _ => (m, 0)

def step (p : Strategies) (m : ActiveObjectMap S) (op : Op S) : Option (ActiveObjectMap S) :=
  (m.call p op).map Prod.fst

/-- What the POA has checked: the servant is not in the map and the id is not active. -/
def Checked (p : Strategies) (m : ActiveObjectMap S) : Op S → Prop
  | .bindUsingUserId (some s) id priority _ => (m.isServantInMap s).map Prod.fst = some false ∧
    (m.isUserIdInMap p id priority).map Prod.fst = some false
  | .bindUsingSystemId (some s) _ _ => (m.isServantInMap s).map Prod.fst = some false
  | _ => True

/-- An entry that exists gets its servant into the servant map. -/
def Sound (p : Strategies) (m : ActiveObjectMap S) : Op S → Prop
  | .bindUsingUserId (some _) id _ supply =>
    supply.servant = false → ((p.userKey id).bind m.userIdMap.find) = none
  | _ => True

/-- The operation creates an entry, if it succeeds. -/
def Creates (p : Strategies) (m : ActiveObjectMap S) : Op S → Prop
  | .bindUsingUserId _ id _ _ => ((p.userKey id).bind m.userIdMap.find) = none
  | .bindUsingSystemId _ _ _ => True
  | .findSystemIdUsingUserId id _ _ => ((p.userKey id).bind m.userIdMap.find) = none
  | _ => False

/-- What the map promises. -/
structure Good (p : Strategies) (m : ActiveObjectMap S) : Prop where
  entry : ∀ key a, m.userIdMap.find key = some a →
    ∃ e, m.entries a = some e ∧ p.userKey e.userId = some key
  servant : ∀ s a, m.servantMap.find s = some a ↔ ∃ key e, m.userIdMap.find key = some a ∧
    m.entries a = some e ∧ e.servant = some s
  hint : p.activeHint → ∀ k a, m.systemIdMap.find k = some a ↔ ∃ key e,
    m.userIdMap.find key = some a ∧ m.entries a = some e ∧ decode e.systemId = some k
  hinted : p.activeHint → ∀ key a e, m.userIdMap.find key = some a → m.entries a = some e →
    (decode e.systemId).isSome
  undone : ∀ op m' r, m.call p op = some (m', r) → m.Creates p op → r ≠ 0 → SameTables m m'

/-! ## The invariant -/

def userIndex (p : Strategies) (e : Entry S) : Option ObjectId := p.userKey e.userId

def hintIndex (e : Entry S) : Option ObjectId := decode e.systemId

structure Inv (p : Strategies) (m : ActiveObjectMap S) : Prop where
  user : Indexes m.userIdMap m.entries (userIndex p)
  servant : Indexes m.servantMap m.entries Entry.servant
  hint : p.activeHint → Indexes m.systemIdMap m.entries hintIndex
  keyed : ∀ a e, m.entries a = some e → (userIndex p e).isSome
  hinted : p.activeHint → ∀ a e, m.entries a = some e → (hintIndex e).isSome

variable {p : Strategies} {m m' : ActiveObjectMap S} {a : Nat} {e : Entry S} {r : Int}

theorem inv_empty (p : Strategies) : Inv p (empty : ActiveObjectMap S) :=
  ⟨.empty _, .empty _, fun _ => .empty _, fun _ _ h => (nomatch h), fun _ _ _ h => (nomatch h)⟩

theorem Inv.congr (h : Inv p m) (hsame : SameTables m m') : Inv p m' := by
  obtain ⟨hentries, huser, hservant, hhint⟩ := hsame
  refine ⟨?_, ?_, fun hp => ?_, ?_, fun hp => ?_⟩
  · rw [huser, hentries]
    exact h.user
  · rw [hservant, hentries]
    exact h.servant
  · rw [hhint, hentries]
    exact h.hint hp
  · rw [hentries]
    exact h.keyed
  · rw [hentries]
    exact h.hinted hp

omit [DecidableEq S] in
theorem written {records : Nat → Option (Entry S)} {P : Entry S → Prop}
    (h : ∀ b d, records b = some d → P d) (he : P e) :
    ∀ b d, update records a (some e) b = some d → P d := by
  intro b d hd
  by_cases hb : b = a
  · subst hb
    rw [update_self] at hd
    cases hd
    exact he
  · rw [update_of_ne hb] at hd
    exact h b d hd

omit [DecidableEq S] in
theorem deleted {records : Nat → Option (Entry S)} {P : Entry S → Prop}
    (h : ∀ b d, records b = some d → P d) : ∀ b d, update records a none b = some d → P d := by
  intro b d hd
  by_cases hb : b = a
  · subst hb
    rw [update_self] at hd
    cases hd
  · rw [update_of_ne hb] at hd
    exact h b d hd

theorem Inv.added (h : Inv p m) (hadd : Added p m m' a e) : Inv p m' := by
  obtain ⟨hfresh, hentries, ⟨key, hkey, hnone, huser⟩, hhint, hservant⟩ := hadd
  have hnew : ∀ {K : Type} (f : Entry S → Option K) d, m.entries a = some d → f d = none := by
    intro K f d hd
    rw [hfresh] at hd
    cases hd
  refine ⟨?_, ?_, fun hp => ?_, ?_, fun hp => ?_⟩
  · rw [huser, hentries]
    exact h.user.bind (hnew _) hkey hnone
  · rw [hentries]
    cases hs : e.servant with
    | none =>
      rw [hs] at hservant
      rw [hservant]
      refine h.servant.keep ?_
      rw [hfresh, hs]
      rfl
    | some s =>
      rw [hs] at hservant
      rw [hservant.2]
      refine h.servant.bind (fun d hd => ?_) hs hservant.1
      rw [hfresh] at hd
      cases hd
  · rw [hp] at hhint
    obtain ⟨k, hk, hnone', hhint⟩ := hhint
    rw [hhint, hentries]
    exact (h.hint hp).bind (hnew _) hk hnone'
  · rw [hentries]
    exact written h.keyed (isSome_iff_exists.mpr ⟨key, hkey⟩)
  · rw [hp] at hhint
    obtain ⟨k, hk, -⟩ := hhint
    rw [hentries]
    exact written (h.hinted hp) (isSome_iff_exists.mpr ⟨k, hk⟩)

theorem Inv.allOrNothing (h : Inv p m) {servant : Option S}
    (hcall : AllOrNothing p m m' servant r) : Inv p m' := by
  rcases hcall with ⟨-, a, e, hadd, -⟩ | ⟨-, hsame⟩
  · exact h.added hadd
  · exact h.congr hsame

theorem Inv.write (h : Inv p m) {d : Entry S} (ha : m.entries a = some d)
    (huser : e.userId = d.userId) (hsystem : e.systemId = d.systemId)
    (hservant : Indexes m'.servantMap (update m.entries a (some e)) Entry.servant)
    (hentries : m'.entries = update m.entries a (some e))
    (huserMap : m'.userIdMap = m.userIdMap) (hhintMap : m'.systemIdMap = m.systemIdMap) :
    Inv p m' := by
  have hkey : userIndex p e = userIndex p d := by
    unfold userIndex
    rw [huser]
  have hhint : hintIndex e = hintIndex d := by
    unfold hintIndex
    rw [hsystem]
  refine ⟨?_, ?_, fun hp => ?_, ?_, fun hp => ?_⟩
  · rw [huserMap, hentries]
    refine h.user.keep ?_
    rw [ha, bind_some, hkey]
  · rw [hentries]
    exact hservant
  · rw [hhintMap, hentries]
    refine (h.hint hp).keep ?_
    rw [ha, bind_some, hhint]
  · rw [hentries]
    exact written h.keyed (hkey ▸ h.keyed a d ha)
  · rw [hentries]
    exact written (h.hinted hp) (hhint ▸ h.hinted hp a d ha)

/-- The servant map does not know the servant. -/
theorem not_in_map {s : S} (h : (m.isServantInMap s).map Prod.fst = some false) :
    m.servantMap.find s = none := by
  unfold isServantInMap findServant at h
  cases hfind : m.servantMap.find s with
  | none => rfl
  | some a =>
    rw [hfind] at h
    dsimp only at h
    cases he : m.entries a with
    | none =>
      rw [he] at h
      cases h
    | some e =>
      rw [he] at h
      cases h

omit [DecidableEq S] in
theorem not_active {id key : ObjectId} {priority : Int} (hkey : p.userKey id = some key)
    (ha : m.userIdMap.find key = some a) (he : m.entries a = some e)
    (h : (m.isUserIdInMap p id priority).map Prod.fst = some false) : e.servant = none := by
  unfold isUserIdInMap findUserId at h
  rw [hkey, bind_some, ha] at h
  dsimp only at h
  rw [he] at h
  cases hs : e.servant with
  | none => rfl
  | some s =>
    rw [map_some, map_some, map_some] at h
    dsimp only at h
    rw [hs] at h
    cases h

theorem Inv.bindExisting (h : Inv p m) {servant : Option S} {memory : Bool}
    (hfree : ∀ s, servant = some s → m.servantMap.find s = none ∧ memory = true ∧
      ∀ e, m.entries a = some e → e.servant = none)
    (hcall : m.bindExisting a servant memory = some (m', r)) : Inv p m' := by
  cases servant with
  | none =>
    cases hcall
    exact h
  | some s =>
    obtain ⟨hnone, rfl, hservant⟩ := hfree s rfl
    obtain ⟨e, he, hbind⟩ := map_eq_some_iff.mp hcall
    have hnone' : (m.setEntry a { e with servant := some s }).servantMap.find s = none := hnone
    unfold bindServant at hbind
    rw [hnone', if_neg (by simp), if_pos rfl] at hbind
    cases hbind
    refine h.write (e := { e with servant := some s }) he rfl rfl ?_ rfl rfl rfl
    refine h.servant.bind (fun d hd => ?_) rfl hnone
    exact hservant d hd

theorem Inv.bindUsingUserId (h : Inv p m) {servant : Option S} {id : ObjectId} {priority : Int}
    {supply : Supply} (hchecked : Checked p m (.bindUsingUserId servant id priority supply))
    (hsound : Sound p m (.bindUsingUserId servant id priority supply))
    (hcall : m.bindUsingUserId p servant id priority supply = some (m', r)) : Inv p m' := by
  obtain ⟨key, hkey, ⟨a, ha, hexisting⟩ | ⟨-, hnew⟩⟩ := bindUsingUserId_cases hcall
  · refine h.bindExisting (fun s hs => ?_) hexisting
    subst hs
    refine ⟨not_in_map hchecked.1, ?_, fun e he => not_active hkey ha he hchecked.2⟩
    by_contra hmemory
    have hnone := hsound (Bool.eq_false_iff.mpr hmemory)
    rw [hkey, bind_some, ha] at hnone
    cases hnone
  · exact h.allOrNothing hnew

theorem Inv.findSystemId (h : Inv p m) {id : ObjectId} {priority : Int} {supply : Supply}
    (hcall : m.findSystemIdUsingUserId p id priority supply = some (m', r)) : Inv p m' := by
  unfold findSystemIdUsingUserId at hcall
  split at hcall
  · have hchecked : Checked p m (.bindUsingUserId none id priority supply) := trivial
    have hsound : Sound p m (.bindUsingUserId none id priority supply) := trivial
    exact h.bindUsingUserId hchecked hsound hcall
  · cases hcall
    exact h

theorem Inv.deactivate (h : Inv p m) {id : ObjectId} (hcall : m.deactivate p id = some (m', r)) :
    Inv p m' := by
  obtain ⟨key, -, hcall⟩ := bind_eq_some_iff.mp hcall
  cases ha : m.userIdMap.find key with
  | none =>
    rw [ha] at hcall
    cases hcall
    exact h
  | some a =>
    rw [ha] at hcall
    obtain ⟨e, he, hset⟩ := map_eq_some_iff.mp hcall
    cases hset
    refine h.write (e := { e with deactivated := true }) he rfl rfl ?_ rfl rfl rfl
    refine h.servant.keep ?_
    rw [he]
    rfl

theorem Inv.unbindHint (h : Inv p m) (he : m.entries a = some e) {t : Table ObjectId Nat}
    {u : Table S Nat} : ∃ v, unbindHint p { m with
        userIdMap := t
        servantMap := u } a = some ({ m with
        userIdMap := t
        servantMap := u
        systemIdMap := v }, 0) ∧
      (p.activeHint → Indexes v (update m.entries a none) hintIndex) := by
  cases hp : p.activeHint with
  | false =>
    refine ⟨m.systemIdMap, ?_, fun hfalse => nomatch hfalse⟩
    unfold ActiveObjectMap.unbindHint
    rw [hp, if_neg Bool.false_ne_true]
  | true =>
    obtain ⟨k, hk⟩ := isSome_iff_exists.mp (h.hinted hp a e he)
    have hindex := h.hint hp
    have hfind : m.systemIdMap.find k = some a := (hindex k a).mpr ⟨e, he, hk⟩
    have hdecode : decode e.systemId = some k := hk
    refine ⟨m.systemIdMap.unbind k, ?_, fun _ => hindex.unbind he hk⟩
    unfold ActiveObjectMap.unbindHint
    rw [hp, if_pos rfl]
    rw [he, bind_some, hdecode, map_some, hfind]

theorem Inv.unbind (h : Inv p m) {id : ObjectId}
    (hcall : m.unbindUsingUserId p id = some (m', r)) : Inv p m' := by
  obtain ⟨key, -, hcall⟩ := bind_eq_some_iff.mp hcall
  cases ha : m.userIdMap.find key with
  | none =>
    rw [ha] at hcall
    cases hcall
    exact h
  | some a =>
    rw [ha] at hcall
    obtain ⟨e, he, hcall⟩ := bind_eq_some_iff.mp hcall
    have huser := h.user.unbind he (h.user.key_of_find ha he)
    have hdone : ∀ u v, Indexes u (update m.entries a none) Entry.servant →
        (p.activeHint → Indexes v (update m.entries a none) hintIndex) →
        Inv p (delete { m with
          userIdMap := m.userIdMap.unbind key
          servantMap := u
          systemIdMap := v } a) := fun u v hu hv =>
      ⟨huser, hu, hv, deleted h.keyed, fun hp => deleted (h.hinted hp)⟩
    cases hs : e.servant with
    | none =>
      obtain ⟨v, hhint, hv⟩ := h.unbindHint he (t := m.userIdMap.unbind key) (u := m.servantMap)
      rw [hs] at hcall
      rw [if_pos rfl, hhint] at hcall
      cases hcall
      refine hdone _ _ (h.servant.drop ?_) hv
      rw [he]
      exact hs
    | some s =>
      have hfind : m.servantMap.find s = some a := (h.servant s a).mpr ⟨e, he, hs⟩
      obtain ⟨v, hhint, hv⟩ := h.unbindHint he (t := m.userIdMap.unbind key)
        (u := m.servantMap.unbind s)
      rw [hs] at hcall
      dsimp only at hcall
      rw [hfind, isSome_some, if_pos rfl] at hcall
      rw [if_pos rfl, hhint] at hcall
      cases hcall
      exact hdone _ _ (h.servant.unbind he hs) hv

theorem call_inv (h : Inv p m) {op : Op S} (hchecked : Checked p m op) (hsound : Sound p m op)
    (hcall : m.call p op = some (m', r)) : Inv p m' := by
  cases op with
  | bindUsingUserId servant id priority supply => exact h.bindUsingUserId hchecked hsound hcall
  | bindUsingSystemId servant priority supply =>
    exact h.allOrNothing (bindUsingSystemId_cases hcall)
  | unbindUsingUserId id => exact h.unbind hcall
  | findSystemIdUsingUserId id priority supply => exact h.findSystemId hcall
  | deactivate id => exact h.deactivate hcall
  | ask query =>
    obtain ⟨-, -, hsame⟩ := map_eq_some_iff.mp hcall
    cases hsame
    exact h

/-- A bind that creates an entry and fails leaves all tables as they were. -/
theorem call_undone {op : Op S} (hcall : m.call p op = some (m', r)) (hcreates : m.Creates p op)
    (hr : r ≠ 0) : SameTables m m' := by
  have hbind : ∀ {servant id priority supply},
      m.bindUsingUserId p servant id priority supply = some (m', r) →
      ((p.userKey id).bind m.userIdMap.find) = none → SameTables m m' := by
    intro servant id priority supply hcall hnone
    obtain ⟨key, hkey, ⟨a, ha, -⟩ | ⟨-, hnew⟩⟩ := bindUsingUserId_cases hcall
    · rw [hkey, bind_some, ha] at hnone
      cases hnone
    · exact (hnew.resolve_left fun h => hr h.1).2
  cases op with
  | bindUsingUserId servant id priority supply => exact hbind hcall hcreates
  | bindUsingSystemId servant priority supply =>
    exact ((bindUsingSystemId_cases hcall).resolve_left fun h => hr h.1).2
  | findSystemIdUsingUserId id priority supply =>
    have hfind : m.findSystemIdUsingUserId p id priority supply = some (m', r) := hcall
    unfold findSystemIdUsingUserId at hfind
    split at hfind
    · exact hbind hfind hcreates
    · cases hfind
      exact .refl m
  | unbindUsingUserId id => exact hcreates.elim
  | deactivate id => exact hcreates.elim
  | ask query => exact hcreates.elim

theorem Inv.mapped (h : Inv p m) (he : m.entries a = some e) :
    ∃ key, m.userIdMap.find key = some a := by
  obtain ⟨key, hkey⟩ := isSome_iff_exists.mp (h.keyed a e he)
  exact ⟨key, (h.user key a).mpr ⟨e, he, hkey⟩⟩

theorem Inv.good (h : Inv p m) : Good p m := by
  refine ⟨fun key a => (h.user key a).mp, fun s a => ?_, fun hp k a => ?_,
    fun hp key a e _ he => h.hinted hp a e he, fun op m' r => call_undone⟩
  · rw [h.servant]
    constructor
    · rintro ⟨e, he, hs⟩
      obtain ⟨key, hkey⟩ := h.mapped he
      exact ⟨key, e, hkey, he, hs⟩
    · rintro ⟨-, e, -, he, hs⟩
      exact ⟨e, he, hs⟩
  · rw [h.hint hp]
    constructor
    · rintro ⟨e, he, hk⟩
      obtain ⟨key, hkey⟩ := h.mapped he
      exact ⟨key, e, hkey, he, hk⟩
    · rintro ⟨-, e, -, he, hk⟩
      exact ⟨e, he, hk⟩

/-! ## Looking up -/

/-- The active keys of the ids asked for can be read. -/
def Readable (p : Strategies) : Query S → Prop
  | .isUserIdInMap id _ | .findServantUsingUserId id | .findEntryUsingUserId id
  | .findServantAndSystemIdUsingUserId id => (p.userKey id).isSome
  | .findServantUsingSystemIdAndUserId systemId id =>
    (p.userKey id).isSome ∧ (p.activeHint → (decode systemId).isSome)
  | _ => True

theorem Inv.findServant (h : Inv p m) (s : S) : (m.findServant s).isSome := by
  unfold ActiveObjectMap.findServant
  cases hfind : m.servantMap.find s with
  | none => rfl
  | some a =>
    obtain ⟨e, he, -⟩ := (h.servant s a).mp hfind
    dsimp only
    rw [he]
    rfl

theorem Inv.findUserId (h : Inv p m) {id : ObjectId} (hid : (p.userKey id).isSome) :
    (m.findUserId p id).isSome := by
  obtain ⟨key, hkey⟩ := isSome_iff_exists.mp hid
  unfold ActiveObjectMap.findUserId
  rw [hkey, bind_some]
  cases hfind : m.userIdMap.find key with
  | none => rfl
  | some a =>
    obtain ⟨e, he, -⟩ := (h.user key a).mp hfind
    dsimp only
    rw [he]
    rfl

theorem Inv.findHint (h : Inv p m) {id : ObjectId} (hid : p.activeHint → (decode id).isSome) :
    (m.findHint p id).isSome := by
  unfold ActiveObjectMap.findHint
  split
  · rename_i hp
    obtain ⟨k, hk⟩ := isSome_iff_exists.mp (hid hp)
    rw [hk, bind_some]
    cases hfind : m.systemIdMap.find k with
    | none => rfl
    | some a =>
      obtain ⟨e, he, -⟩ := (h.hint hp k a).mp hfind
      dsimp only
      rw [he]
      rfl
  · rfl

/-- **No deleted entry is read** by the find operations. -/
theorem ask_defined (h : Inv p m) {query : Query S} (hread : Readable p query) :
    (m.ask p query).isSome := by
  cases query with
  | isServantInMap s =>
    simp only [ask, isServantInMap, isSome_map]
    exact h.findServant s
  | isUserIdInMap id priority =>
    simp only [ask, isUserIdInMap, isSome_map]
    exact h.findUserId hread
  | findUserIdUsingServant s =>
    simp only [ask, findUserIdUsingServant, isSome_map]
    exact h.findServant s
  | findSystemIdUsingServant s =>
    simp only [ask, findSystemIdUsingServant, isSome_map]
    exact h.findServant s
  | findServantUsingUserId id =>
    simp only [ask, findServantUsingUserId, isSome_map]
    exact h.findUserId hread
  | findEntryUsingUserId id =>
    simp only [ask, findEntryUsingUserId, isSome_map]
    exact h.findUserId hread
  | findServantAndSystemIdUsingUserId id =>
    simp only [ask, findServantAndSystemIdUsingUserId, findEntryUsingUserId, isSome_map]
    exact h.findUserId hread
  | findServantUsingSystemIdAndUserId systemId id =>
    obtain ⟨hint, hhint⟩ := isSome_iff_exists.mp (h.findHint hread.2)
    have huser : (m.findServantUsingUserId p id).isSome := by
      unfold findServantUsingUserId
      rw [isSome_map]
      exact h.findUserId hread.1
    simp only [ask, findServantUsingSystemIdAndUserId, hhint, bind_some, isSome_map]
    cases hint with
    | none => exact huser
    | some e =>
      dsimp only
      split
      · exact huser
      · rfl

/-! ## References -/

theorem Inv.findUserId_entry (h : Inv p m) (he : m.entries a = some e) :
    m.findUserId p e.userId = some (some e) := by
  obtain ⟨key, hkey⟩ := isSome_iff_exists.mp (h.keyed a e he)
  have hfind := (h.user key a).mpr ⟨e, he, hkey⟩
  change p.userKey e.userId = some key at hkey
  unfold ActiveObjectMap.findUserId
  rw [hkey, bind_some, hfind]
  dsimp only
  rw [he, map_some]

theorem Inv.findHint_entry (h : Inv p m) (he : m.entries a = some e) :
    m.findHint p (systemIdOf p e) = some (if p.activeHint then some e else none) := by
  unfold ActiveObjectMap.findHint systemIdOf
  split
  · rename_i hp
    obtain ⟨k, hk⟩ := isSome_iff_exists.mp (h.hinted hp a e he)
    have hfind := (h.hint hp k a).mpr ⟨e, he, hk⟩
    change decode e.systemId = some k at hk
    rw [hk, bind_some, hfind]
    dsimp only
    rw [he, map_some]
  · rfl

omit [DecidableEq S] in
theorem findHint_found {systemId : ObjectId} (hf : m.findHint p systemId = some (some e)) :
    ∃ a, m.entries a = some e := by
  unfold ActiveObjectMap.findHint at hf
  split at hf
  · obtain ⟨k, -, hk⟩ := bind_eq_some_iff.mp hf
    split at hk
    · cases hk
    · rename_i b _
      exact ⟨b, by simpa using hk⟩
  · cases hf

/-- What the look-ups promise each other. -/
structure Lookups (p : Strategies) (m : ActiveObjectMap S) : Prop where
  defined : ∀ query, Readable p query → (m.ask p query).isSome
  /-- With persistent ids a hint, whatever it says, does not change the answer. -/
  hinted : p.persistent → ∀ systemId userId, (p.activeHint → (decode systemId).isSome) →
    m.findServantUsingSystemIdAndUserId p systemId userId = m.findServantUsingUserId p userId
  /-- The ids that a servant has lead to the servant. -/
  reached : ∀ s systemId userId priority,
    m.findSystemIdUsingServant p s = some (some (systemId, priority)) →
    m.findUserIdUsingServant s = some (some userId) →
    m.findServantUsingSystemIdAndUserId p systemId userId = some (some s)

theorem Inv.lookups (h : Inv p m) : Lookups p m where
  defined _ := ask_defined h
  hinted hp systemId userId hid := by
    obtain ⟨hint, hhint⟩ := isSome_iff_exists.mp (h.findHint hid)
    unfold findServantUsingSystemIdAndUserId
    rw [hhint, bind_some]
    cases hint with
    | none => rfl
    | some e =>
      dsimp only
      split
      · rfl
      · next hsame =>
        obtain rfl : userId = e.userId := not_not.mp fun hne => hsame ⟨hp, hne⟩
        obtain ⟨a, he⟩ := findHint_found hhint
        unfold findServantUsingUserId
        rw [h.findUserId_entry he]
        rfl
  reached s systemId userId priority hsystem huser := by
    obtain ⟨_, hfound, hsystem⟩ := map_eq_some_iff.mp hsystem
    obtain ⟨e, rfl, hsystem⟩ := bind_eq_some_iff.mp hsystem
    obtain ⟨hd, hsystem⟩ := ite_none_left_eq_some.mp hsystem
    cases hsystem
    unfold findUserIdUsingServant at huser
    rw [hfound] at huser
    obtain rfl : e.userId = userId := by simpa [hd] using huser
    unfold ActiveObjectMap.findServant at hfound
    split at hfound
    · cases hfound
    · rename_i a hfind
      have he : m.entries a = some e := by simpa using hfound
      obtain ⟨e', he', hs⟩ := (h.servant s a).mp hfind
      cases he.symm.trans he'
      have hservant : servantOf e = some s := (if_neg hd).trans hs
      unfold findServantUsingSystemIdAndUserId findServantUsingUserId
      rw [h.findHint_entry he, h.findUserId_entry he, bind_some]
      by_cases hp : p.activeHint = true
      · simp [hp, hservant]
      · simp [hp, hservant]

end ActiveObjectMap

/-! ## Runs -/

open ActiveObjectMap

theorem run_inv (p : Strategies) {ops : List (Op S)} {m : ActiveObjectMap S}
    (hchecked : AllSteps (step p) (Checked p) empty ops)
    (hsound : AllSteps (step p) (Sound p) empty ops) (hrun : run (step p) empty ops = some m) :
    Inv p m := by
  refine run_inv_of (P := fun m op => Checked p m op ∧ Sound p m op) ?_ (inv_empty p)
    (hchecked.and hsound) hrun
  intro s op s' hinv hop hstep
  obtain ⟨⟨m', r⟩, hcall, rfl⟩ := map_eq_some_iff.mp hstep
  exact call_inv hinv hop.1 hop.2 hcall

/-- **The tables agree** in every state that a run reaches. -/
theorem tables_consistent (p : Strategies) {ops : List (Op S)} {m : ActiveObjectMap S}
    (hchecked : AllSteps (step p) (Checked p) empty ops)
    (hsound : AllSteps (step p) (Sound p) empty ops) (hrun : run (step p) empty ops = some m) :
    Good p m :=
  (run_inv p hchecked hsound hrun).good

instance (p : Strategies) (m : ActiveObjectMap S) : ∀ op, Decidable (Checked p m op)
  | .bindUsingUserId (some s) id priority _ =>
    inferInstanceAs (Decidable ((m.isServantInMap s).map Prod.fst = some false ∧
      (m.isUserIdInMap p id priority).map Prod.fst = some false))
  | .bindUsingSystemId (some s) _ _ =>
    inferInstanceAs (Decidable ((m.isServantInMap s).map Prod.fst = some false))
  | .bindUsingUserId none _ _ _ | .bindUsingSystemId none _ _ | .unbindUsingUserId _
  | .findSystemIdUsingUserId _ _ _ | .deactivate _ | .ask _ => .isTrue trivial

omit [DecidableEq S] in
instance (p : Strategies) (m : ActiveObjectMap S) : ∀ op, Decidable (Sound p m op)
  | .bindUsingUserId (some _) id _ supply =>
    inferInstanceAs (Decidable (supply.servant = false →
      ((p.userKey id).bind m.userIdMap.find) = none))
  | .bindUsingUserId none _ _ _ | .bindUsingSystemId _ _ _ | .unbindUsingUserId _
  | .findSystemIdUsingUserId _ _ _ | .deactivate _ | .ask _ => .isTrue trivial

/-- Hash maps with active hints. -/
def hinted : Strategies := ⟨.hashed, true, false, true, .little⟩

def keyOne : ActiveKey := ⟨[0, 0, 0, 0, 1, 0, 0, 0], rfl⟩

def keyTwo : ActiveKey := ⟨[1, 0, 0, 0, 1, 0, 0, 0], rfl⟩

/-- An entry gains a servant, a second one fails for want of memory, and both ids go. -/
theorem tables_consistent_gained :
    ∃ m, run (step hinted) (empty : ActiveObjectMap Nat)
      [.bindUsingUserId none [7] 0 ⟨some 100, some keyOne, some keyOne, true⟩,
       .bindUsingUserId (some 5) [7] 0 ⟨none, none, none, true⟩,
       .bindUsingUserId (some 6) [8] 0 ⟨some 200, some keyOne, none, true⟩,
       .ask (.findServantUsingUserId [7]), .unbindUsingUserId [7], .unbindUsingUserId [8]] = some m ∧
      Good hinted m := by
  obtain ⟨m, hrun⟩ := isSome_iff_exists.mp (show (run (step hinted)
      (empty : ActiveObjectMap Nat)
      [.bindUsingUserId none [7] 0 ⟨some 100, some keyOne, some keyOne, true⟩,
       .bindUsingUserId (some 5) [7] 0 ⟨none, none, none, true⟩,
       .bindUsingUserId (some 6) [8] 0 ⟨some 200, some keyOne, none, true⟩,
       .ask (.findServantUsingUserId [7]), .unbindUsingUserId [7],
       .unbindUsingUserId [8]]).isSome by decide)
  exact ⟨m, hrun, tables_consistent hinted (by decide) (by decide) hrun⟩

/-- **The look-ups agree** in every state that a run reaches. -/
theorem lookups_agree (p : Strategies) {ops : List (Op S)} {m : ActiveObjectMap S}
    (hchecked : AllSteps (step p) (Checked p) empty ops)
    (hsound : AllSteps (step p) (Sound p) empty ops) (hrun : run (step p) empty ops = some m) :
    Lookups p m :=
  (run_inv p hchecked hsound hrun).lookups

/-- An entry gains a servant, another one stays, and the first id goes. -/
theorem lookups_agree_gained :
    ∃ m, run (step hinted) (empty : ActiveObjectMap Nat)
      [.bindUsingUserId none [7] 0 ⟨some 100, some keyOne, some keyOne, true⟩,
       .bindUsingUserId (some 5) [7] 0 ⟨none, none, none, true⟩,
       .bindUsingUserId (some 6) [8] 0 ⟨some 200, some keyTwo, some keyTwo, true⟩,
       .unbindUsingUserId [7]] = some m ∧ Lookups hinted m := by
  obtain ⟨m, hrun⟩ := isSome_iff_exists.mp (show (run (step hinted) (empty : ActiveObjectMap Nat)
      [.bindUsingUserId none [7] 0 ⟨some 100, some keyOne, some keyOne, true⟩,
       .bindUsingUserId (some 5) [7] 0 ⟨none, none, none, true⟩,
       .bindUsingUserId (some 6) [8] 0 ⟨some 200, some keyTwo, some keyTwo, true⟩,
       .unbindUsingUserId [7]]).isSome by decide)
  exact ⟨m, hrun, lookups_agree hinted (by decide) (by decide) hrun⟩

/-- The servant map has no memory for the servant of an entry made without one: the entry keeps
the servant, the servant map does not lead to it. -/
theorem servant_not_in_map :
    ¬∀ (p : Strategies) (ops : List (Op Nat)) (m : ActiveObjectMap Nat),
      AllSteps (step p) (Checked p) empty ops → run (step p) empty ops = some m → Good p m := by
  intro h
  have hrun : ∃ m, run (step hinted) (empty : ActiveObjectMap Nat)
      [.bindUsingUserId none [7] 0 ⟨some 100, some keyOne, some keyOne, true⟩,
       .bindUsingUserId (some 5) [7] 0 ⟨none, none, none, false⟩] = some m := ⟨_, rfl⟩
  obtain ⟨m, hrun⟩ := hrun
  have hgood := h hinted _ m (by decide) hrun
  cases hrun
  have hfind := (hgood.servant 5 100).mpr ⟨[7], _, rfl, rfl, rfl⟩
  cases hfind

end Atcd.Poa
