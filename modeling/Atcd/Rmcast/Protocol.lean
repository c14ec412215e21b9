import Mathlib
/-!
# Profiles and messages of the reliable multicast

`ACE_RMCast::Message` is a hash map of profiles by their id. Its profiles are a list here,
in the order in which an iterator of the map finds them.
-/
namespace Atcd.Rmcast

/-- mirrors ACE/protocols/ace/RMCast/Protocol.h:34-35 -/
def maxServiceSize : Nat := 60

structure Address where
  ip : UInt32
  port : UInt16
  deriving DecidableEq, Repr

/-- `From`, `To`, `Data`, `SN`, `NAK`, `NRTM`, `NoData` and `Part`. The map of an `NRTM` is a
list, in the order of its iterator. -/
inductive Profile where
  | fromAddress (address : Address)
  | toAddress (address : Address)
  | data (buf : List UInt8)
  | sn (n : UInt64)
  | nak (address : Address) (sns : List UInt64)
  | nrtm (map : List (Address × UInt64))
  | noData
  | part (num of : UInt32) (totalSize : UInt64)
  deriving DecidableEq, Repr

namespace Profile

def fromId : UInt16 := 1
def toId : UInt16 := 2
def dataId : UInt16 := 3
def snId : UInt16 := 4
def nakId : UInt16 := 5
def nrtmId : UInt16 := 6
def noDataId : UInt16 := 7
def partId : UInt16 := 8

/-- mirrors ACE/protocols/ace/RMCast/Protocol.cpp:6-13 -/
def id : Profile → UInt16
  | fromAddress _ => fromId
  | toAddress _ => toId
  | data _ => dataId
  | sn _ => snId
  | nak _ _ => nakId
  | nrtm _ => nrtmId
  | noData => noDataId
  | part _ _ _ => partId

end Profile

/-- No two profiles have the same id. -/
structure Message where
  profiles : List Profile
  nodup : (profiles.map Profile.id).Nodup

namespace Message

def empty : Message := ⟨[], List.nodup_nil⟩

/-- mirrors Protocol.h:306-314 -/
def find (m : Message) (id : UInt16) : Option Profile := m.profiles.find? fun p => p.id = id

theorem find_eq_none {m : Message} {id : UInt16} : m.find id = none ↔ id ∉ m.profiles.map Profile.id := by
  unfold find
  rw [List.find?_eq_none, List.mem_map]
  constructor
  · rintro h ⟨p, hp, rfl⟩
    exact h p hp (decide_eq_true rfl)
  · intro h p hp hid
    exact h ⟨p, hp, of_decide_eq_true hid⟩

/-- A profile whose id is there already is left out.
mirrors Protocol.h:279-292 -/
def add (m : Message) (p : Profile) : Message :=
  if h : m.find p.id = none then
    ⟨m.profiles ++ [p], by
      rw [List.map_append, List.map_singleton, List.nodup_append]
      refine ⟨m.nodup, List.nodup_singleton _, ?_⟩
      rintro a ha b hb rfl
      rw [List.mem_singleton] at hb
      exact find_eq_none.mp h (hb ▸ ha)⟩
  else m

theorem add_profiles {m : Message} {p : Profile} (h : m.find p.id = none) :
    (m.add p).profiles = m.profiles ++ [p] := by
  rw [add, dif_pos h]

theorem find_add {m : Message} {p : Profile} (h : m.find p.id = none) (id : UInt16) :
    (m.add p).find id = if p.id = id then some p else m.find id := by
  have hprofiles := add_profiles h
  unfold find at h ⊢
  rw [hprofiles, List.find?_append, List.find?_singleton]
  by_cases hid : p.id = id
  · rw [← hid, h, if_pos rfl]
    simp
  · rw [if_neg hid]
    simp [hid]

@[simp] theorem find_empty (id : UInt16) : empty.find id = none := rfl

/-! ## The profiles by their types -/

/-- The address of the `From` profile. -/
def source (m : Message) : Option Address :=
  match m.find Profile.fromId with
  | some (.fromAddress a) => some a
  | _ => none

/-- The address of the `To` profile. -/
def destination (m : Message) : Option Address :=
  match m.find Profile.toId with
  | some (.toAddress a) => some a
  | _ => none

def data (m : Message) : Option (List UInt8) :=
  match m.find Profile.dataId with
  | some (.data buf) => some buf
  | _ => none

def sn (m : Message) : Option UInt64 :=
  match m.find Profile.snId with
  | some (.sn n) => some n
  | _ => none

def nrtm (m : Message) : Option (List (Address × UInt64)) :=
  match m.find Profile.nrtmId with
  | some (.nrtm map) => some map
  | _ => none

def hasNoData (m : Message) : Bool := (m.find Profile.noDataId).isSome

def part (m : Message) : Option (UInt32 × UInt32 × UInt64) :=
  match m.find Profile.partId with
  | some (.part num of totalSize) => some (num, of, totalSize)
  | _ => none

end Message

end Atcd.Rmcast
