import Atcd.Cdr.Types
/-!
# POA object keys (`Root_POA.cpp`)

A key is the prefix of four octets, one character each for root, id assignment
and lifespan, the creation time of a transient POA, the length of the name
(persistent with user ids only), the name (not for the root POA) and the object
id. `set_id` builds all but the id, `create_object_key` appends the id,
`parse_key` takes the key apart. No length of the id is stored: it is what is
left, and where ids have a fixed size it is the name that is what is left.

Results:
* `built_eq`: the octets of a key, when none of the 32-bit sums wraps.
* `nameSize_built`: in each of the four combinations of the policies the parser
  finds the name where the builder put it.
* `parse_built`: `parse_key` gives back flags, name and object id.
* `parsesSafely_iff`: `parse_key` stays inside the key, wraps no size and
  refuses short keys exactly for the keys that are not too short.
* `parse_behind_key`: a key of seven octets makes it compute an id of nearly
  2^32 octets.
-/
namespace Atcd.Poa.ObjectKey

open List

open Cdr (Arr)

/-! ## Format -/

/-- What is fixed for the process: whether keys hold a creation time
(`POA_NO_TIMESTAMP == 0`), `system_id_size_` and `transient_poa_name_size_`. -/
structure KeyFormat where
  timestamp : Bool
  systemIdSize : Nat
  transientPoaNameSize : Nat
  deriving DecidableEq, Repr

/-- mirrors TAO/tao/PortableServer/Root_POA.cpp:66-72 (`objectkey_prefix`) -/
def objectkeyPrefix : List UInt8 := [20, 1, 15, 0]

def rootKeyChar : UInt8 := 82

def nonRootKeyChar : UInt8 := 78

def systemIdKeyChar : UInt8 := 83

def userIdKeyChar : UInt8 := 85

def persistentKeyChar : UInt8 := 80

def transientKeyChar : UInt8 := 84

/-- mirrors TAO/tao/PortableServer/Creation_Time.inl:10-14 -/
def creationTimeLength : Nat := 8

/-- The octets that a POA with this lifespan spends on its creation time. -/
def KeyFormat.stampLength (F : KeyFormat) (isPersistent : Bool) : Nat :=
  if !isPersistent && F.timestamp then creationTimeLength else 0

/-! ## Builder -/

/-- What `set_id` reads of a POA. -/
structure RootPOA (F : KeyFormat) where
  isRoot : Bool
  isPersistent : Bool
  systemId : Bool
  systemName : Arr UInt8
  creationTime : List UInt8
  creationTime_length : creationTime.length = creationTimeLength
  transient_name : isRoot = false → isPersistent = false →
    systemName.val.length = F.transientPoaNameSize

/-- The value of a `CORBA::ULong`. -/
def ulong (n : Nat) : Nat := n % 2 ^ 32

variable {F : KeyFormat}

namespace RootPOA

/-- mirrors TAO/tao/PortableServer/LifespanStrategyTransient.cpp:61-77 and
LifespanStrategyPersistent.cpp:46-53 (`create_key`) -/
def lifespanKey (P : RootPOA F) : List UInt8 :=
  if P.isPersistent then [persistentKeyChar]
  else transientKeyChar :: if F.timestamp then P.creationTime else []

/-- mirrors LifespanStrategyTransient.cpp:46-58 and
LifespanStrategyPersistent.cpp:55-59 (`key_length`) -/
def lifespanKeyLength (P : RootPOA F) : Nat := 1 + F.stampLength P.isPersistent

def addPoaNameLength (P : RootPOA F) : Bool := P.isPersistent && !P.systemId

/-- The length of the name, in network order. -/
def nameLengthField (P : RootPOA F) : List UInt8 :=
  if P.addPoaNameLength then Core.store .big 4 P.systemName.val.length else []

def nameField (P : RootPOA F) : List UInt8 := if P.isRoot then [] else P.systemName.val

/-- The copies of `set_id`, one after the other. -/
def idOctets (P : RootPOA F) : List UInt8 :=
  objectkeyPrefix ++ [if P.isRoot then rootKeyChar else nonRootKeyChar] ++
    [if P.systemId then systemIdKeyChar else userIdKeyChar] ++ P.lifespanKey ++
    P.nameLengthField ++ P.nameField

def bufferSize (P : RootPOA F) : Nat :=
  let nameLength := P.systemName.val.length
  let poaName := ulong ((if P.isRoot then 0 else nameLength) + if P.addPoaNameLength then 4 else 0)
  ulong (4 + 1 + 1 + P.lifespanKeyLength + poaName)

/-- mirrors Root_POA.cpp:1736-1832 (`set_id`); `none` when
the copies do not fit into the buffer, whose size is a 32-bit sum -/
def setId (P : RootPOA F) : Option (Arr UInt8) :=
  if h : P.idOctets.length = P.bufferSize then
    some ⟨P.idOctets, h ▸ Nat.mod_lt _ (Nat.two_pow_pos 32)⟩
  else none

/-- mirrors Root_POA.cpp:1702-1733 (`create_object_key`);
`none` as for `setId` -/
def createObjectKey (P : RootPOA F) (id : Arr UInt8) : Option (Arr UInt8) :=
  match P.setId with
  | none => none
  | some own =>
    if h : own.val.length + id.val.length = ulong (own.val.length + id.val.length) then
      some ⟨own.val ++ id.val, by
        rw [List.length_append, h]
        exact Nat.mod_lt _ (Nat.two_pow_pos 32)⟩
    else none

end RootPOA

/-! ## Parser -/

/-- The memory from the key's buffer on: the key, and what stands behind it. -/
def memory (key : List UInt8) (beyond : Nat → UInt8) (n : Nat) : UInt8 := key.getD n (beyond n)

def octets (data : Nat → UInt8) (start size : Nat) : List UInt8 :=
  (List.range size).map fun i => data (start + i)

/-- What `parse_key` does with the key: octets that it reads, and differences
that it computes in an unsigned type. -/
inductive Access where
  | read (start size : Nat)
  | subtract (a b : Nat)
  deriving DecidableEq, Repr

/-- What `parse_key` leaves in its parameters. Creation time and name stay in
the key's buffer. -/
structure Parsed where
  isRoot : Bool
  isSystemId : Bool
  isPersistent : Bool
  poaCreationTime : Option Nat
  poaSystemName : Option (Nat × Nat)
  systemId : List UInt8
  deriving DecidableEq, Repr

/-- Everything that a call did; no `Parsed` is the result -1. -/
structure Outcome where
  accesses : List Access
  parsed : Option Parsed
  deriving DecidableEq, Repr

def indicator (yes no c : UInt8) : Option Bool :=
  if c = yes then some true else if c = no then some false else none

def rootIndicator : UInt8 → Option Bool := indicator rootKeyChar nonRootKeyChar

def systemIdIndicator : UInt8 → Option Bool := indicator systemIdKeyChar userIdKeyChar

def persistentIndicator : UInt8 → Option Bool := indicator persistentKeyChar transientKeyChar

/-- `a - b` in `CORBA::ULong`. -/
def ulongSub (a b : Nat) : Nat := ulong (a + 2 ^ 32 - ulong b)

/-- The size of the POA name, where the parser goes on, and what it did for it. -/
structure NameSize where
  size : Nat
  startingAt : Nat
  accesses : List Access

/-- mirrors Root_POA.cpp:1654-1677 -/
def nameSize (F : KeyFormat) (data : Nat → UInt8) (length : Nat) (isSystemId isPersistent : Bool)
    (startingAt : Nat) : NameSize :=
  if !isPersistent then
    { size := F.transientPoaNameSize, startingAt := startingAt, accesses := [] }
  else if isSystemId then
    { size := ulongSub length (startingAt + F.systemIdSize), startingAt := startingAt,
      accesses := [.subtract length (startingAt + F.systemIdSize)] }
  else
    { size := Core.load .big (octets data startingAt 4), startingAt := startingAt + 4,
      accesses := [.read startingAt 4] }

/-- mirrors Root_POA.cpp:1640-1699: what follows the indicators -/
def parseFields (F : KeyFormat) (data : Nat → UInt8) (length : Nat)
    (isRoot isSystemId isPersistent : Bool) : Outcome :=
  let startingAt := 7 + F.stampLength isPersistent
  let name := nameSize F data length isSystemId isPersistent startingAt
  let behindName := if isRoot then name.startingAt else ulong (name.startingAt + name.size)
  let systemIdSize := ulongSub length behindName
  { accesses := name.accesses ++ [.subtract length behindName, .read behindName systemIdSize]
    parsed := some
      { isRoot := isRoot, isSystemId := isSystemId, isPersistent := isPersistent
        poaCreationTime := if !isPersistent && F.timestamp then some 7 else none
        poaSystemName := if isRoot then none else some (name.startingAt, name.size)
        systemId := octets data behindName systemIdSize } }

def Outcome.after (before : List Access) (o : Outcome) : Outcome :=
  { o with accesses := before ++ o.accesses }

/-- mirrors Root_POA.cpp:1567-1700 (`parse_key`) -/
def parseKey (F : KeyFormat) (data : Nat → UInt8) (length : Nat) : Outcome :=
  match rootIndicator (data 4) with
  | none => { accesses := [.read 4 1], parsed := none }
  | some isRoot =>
    match systemIdIndicator (data 5) with
    | none => { accesses := [.read 4 1, .read 5 1], parsed := none }
    | some isSystemId =>
      match persistentIndicator (data 6) with
      | none => { accesses := [.read 4 1, .read 5 1, .read 6 1], parsed := none }
      | some isPersistent =>
        (parseFields F data length isRoot isSystemId isPersistent).after
          [.read 4 1, .read 5 1, .read 6 1]

/-! ## Words and memory -/

theorem ulong_of_lt {n : Nat} (h : n < 2 ^ 32) : ulong n = n := Nat.mod_eq_of_lt h

theorem ulongSub_of_le {a b : Nat} (ha : a < 2 ^ 32) (h : b ≤ a) : ulongSub a b = a - b := by
  rw [ulongSub, ulong_of_lt (by omega : b < 2 ^ 32), ulong]
  omega

theorem memory_append (before after : List UInt8) (beyond : Nat → UInt8) (i : Nat) :
    memory (before ++ after) beyond (before.length + i) =
      memory after (fun n => beyond (before.length + n)) i := by
  simp [memory, getD_eq_getElem?_getD, getElem?_append_right]

theorem octets_prefix (field after : List UInt8) (beyond : Nat → UInt8) :
    (range field.length).map (memory (field ++ after) beyond) = field := by
  apply ext_getElem
  · simp
  · intro i hi hf
    simp [memory, getD_eq_getElem?_getD, getElem?_append_left hf, getElem?_eq_getElem hf]

/-- The octets of a field that lies in the key. -/
theorem octets_field (before field after : List UInt8) (beyond : Nat → UInt8) :
    octets (memory (before ++ field ++ after) beyond) before.length field.length = field := by
  rw [octets, append_assoc]
  simp only [memory_append]
  exact octets_prefix field after _

/-! ## Keys that were built -/

theorem indicator_of {yes no : UInt8} (h : no ≠ yes) (b : Bool) :
    indicator yes no (if b then yes else no) = some b := by
  cases b <;> simp [indicator, h]

namespace RootPOA

variable {P : RootPOA F} {id key : Arr UInt8}

def stampField (P : RootPOA F) : List UInt8 :=
  if !P.isPersistent && F.timestamp then P.creationTime else []

theorem length_stampField (P : RootPOA F) : P.stampField.length = F.stampLength P.isPersistent := by
  rw [stampField, KeyFormat.stampLength]
  split
  · exact P.creationTime_length
  · rfl

/-- The seven octets in front of the fields. -/
def head (P : RootPOA F) : List UInt8 :=
  [20, 1, 15, 0, if P.isRoot then rootKeyChar else nonRootKeyChar,
    if P.systemId then systemIdKeyChar else userIdKeyChar,
    if P.isPersistent then persistentKeyChar else transientKeyChar]

theorem idOctets_eq (P : RootPOA F) :
    P.idOctets = P.head ++ P.stampField ++ P.nameLengthField ++ P.nameField := by
  unfold idOctets head lifespanKey stampField objectkeyPrefix
  cases P.isPersistent <;> cases F.timestamp <;> simp

/-- **The octets of a built key.** -/
theorem built_eq (h : P.createObjectKey id = some key) :
    key.val = P.head ++ P.stampField ++ P.nameLengthField ++ P.nameField ++ id.val := by
  unfold createObjectKey setId at h
  by_cases hown : P.idOctets.length = P.bufferSize
  · simp only [dif_pos hown] at h
    split at h
    · rw [← Option.some.inj h, ← idOctets_eq]
    · simp at h
  · simp [dif_neg hown] at h

theorem length_nameLengthField (P : RootPOA F) :
    P.nameLengthField.length = if P.isPersistent && !P.systemId then 4 else 0 := by
  unfold nameLengthField addPoaNameLength
  split <;> simp

/-- **The name is found where it was put**, in each combination of the policies. -/
theorem nameSize_built (h : P.createObjectKey id = some key)
    (hid : P.systemId = true → id.val.length = F.systemIdSize) (beyond : Nat → UInt8) :
    let name := nameSize F (memory key.val beyond) key.val.length P.systemId P.isPersistent
      (7 + F.stampLength P.isPersistent)
    name.startingAt = 7 + P.stampField.length + P.nameLengthField.length ∧
      (P.isRoot = false → name.size = P.systemName.val.length) := by
  have hkey := built_eq h
  have hlen : key.val.length =
      7 + P.stampField.length + P.nameLengthField.length + P.nameField.length + id.val.length := by
    simp only [hkey, length_append, head, length_cons, length_nil]
  have hfield := P.length_nameLengthField
  have hlt := key.length_lt
  rw [P.length_stampField] at hlen ⊢
  cases hp : P.isPersistent with
  | false =>
    simp only [nameSize, hp, hfield, Bool.false_and, Bool.not_false, if_true]
    exact ⟨rfl, fun hroot => (P.transient_name hroot hp).symm⟩
  | true =>
    cases hs : P.systemId with
    | true =>
      simp only [hp, hs, Bool.not_true, Bool.and_false, Bool.false_eq_true, if_false] at hfield
      simp only [nameSize, hfield, Bool.not_true, if_true, Bool.false_eq_true, if_false]
      refine ⟨rfl, fun hroot => ?_⟩
      have hname : P.nameField = P.systemName.val := by simp [nameField, hroot]
      have hidLength := hid hs
      rw [hname, hp] at hlen
      rw [ulongSub_of_le hlt (by omega)]
      omega
    | false =>
      simp only [nameSize, hp, hs, hfield, Bool.not_true, Bool.not_false, Bool.and_true, if_true,
        Bool.false_eq_true, if_false]
      refine ⟨trivial, fun _ => ?_⟩
      have hstore : P.nameLengthField = Core.store .big 4 P.systemName.val.length := by
        simp [nameLengthField, addPoaNameLength, hp, hs]
      have hoctets := octets_field (P.head ++ P.stampField) P.nameLengthField
        (P.nameField ++ id.val) beyond
      have hbefore : (P.head ++ P.stampField).length = 7 + F.stampLength true := by
        rw [length_append, P.length_stampField, hp]
        rfl
      rw [← append_assoc, ← hkey, hbefore, hfield] at hoctets
      simp only [hp, hs, Bool.not_false, Bool.and_true, if_true] at hoctets
      rw [hoctets, hstore]
      exact Core.load_store .big (lt_of_lt_of_le P.systemName.length_lt (by norm_num))

end RootPOA

/-- The octets that `poa_system_name` refers to. -/
def Parsed.nameOctets (p : Parsed) (data : Nat → UInt8) : Option (List UInt8) :=
  p.poaSystemName.map fun name => octets data name.1 name.2

/-- **Round trip.** A key that was built gives flags, name and object id back. -/
theorem parse_built (P : RootPOA F) (id key : Arr UInt8) (beyond : Nat → UInt8)
    (h : P.createObjectKey id = some key)
    (hid : P.systemId = true → id.val.length = F.systemIdSize) :
    ∃ p, (parseKey F (memory key.val beyond) key.val.length).parsed = some p ∧
      p.isRoot = P.isRoot ∧ p.isPersistent = P.isPersistent ∧ p.isSystemId = P.systemId ∧
      (P.isRoot = false → p.nameOctets (memory key.val beyond) = some P.systemName.val) ∧
      p.systemId = id.val := by
  have hkey := RootPOA.built_eq h
  have hlt := key.length_lt
  obtain ⟨hat, hsize⟩ := RootPOA.nameSize_built h hid beyond
  have hlen : key.val.length = 7 + P.stampField.length + P.nameLengthField.length +
      P.nameField.length + id.val.length := by
    simp only [hkey, length_append, RootPOA.head, length_cons, length_nil]
  have hroot : rootIndicator (memory key.val beyond 4) = some P.isRoot := by
    rw [hkey]
    exact indicator_of (by decide) _
  have hsystem : systemIdIndicator (memory key.val beyond 5) = some P.systemId := by
    rw [hkey]
    exact indicator_of (by decide) _
  have hpersistent : persistentIndicator (memory key.val beyond 6) = some P.isPersistent := by
    rw [hkey]
    exact indicator_of (by decide) _
  simp only [parseKey, hroot, hsystem, hpersistent, Outcome.after, parseFields]
  refine ⟨_, rfl, rfl, rfl, rfl, fun hr => ?_, ?_⟩
  · have hname := octets_field (P.head ++ P.stampField ++ P.nameLengthField) P.nameField id.val
      beyond
    rw [← hkey] at hname
    simp only [length_append, RootPOA.head, length_cons, length_nil] at hname
    have hfield : P.nameField = P.systemName.val := by simp [RootPOA.nameField, hr]
    rw [hfield] at hname
    simp only [Parsed.nameOctets, hr, Bool.false_eq_true, if_false, Option.map_some, hat, hsize hr]
    rw [hname]
  · have hbehind : (if P.isRoot = true then (nameSize F (memory key.val beyond) key.val.length
          P.systemId P.isPersistent (7 + F.stampLength P.isPersistent)).startingAt
        else ulong ((nameSize F (memory key.val beyond) key.val.length
          P.systemId P.isPersistent (7 + F.stampLength P.isPersistent)).startingAt +
            (nameSize F (memory key.val beyond) key.val.length
          P.systemId P.isPersistent (7 + F.stampLength P.isPersistent)).size)) =
        key.val.length - id.val.length := by
      cases hr : P.isRoot with
      | true =>
        have : P.nameField.length = 0 := by simp [RootPOA.nameField, hr]
        simp only [if_true]
        omega
      | false =>
        have : P.nameField.length = P.systemName.val.length := by simp [RootPOA.nameField, hr]
        simp only [Bool.false_eq_true, if_false, hsize hr]
        rw [ulong_of_lt (by omega)]
        omega
    have hids := octets_field (P.head ++ P.stampField ++ P.nameLengthField ++ P.nameField) id.val []
      beyond
    rw [append_nil, ← hkey] at hids
    simp only [length_append, RootPOA.head, length_cons, length_nil] at hids
    rw [ulongSub_of_le hlt (by omega)]
    convert hids using 2 <;> omega

/-- A persistent POA with user ids: name and id both of any length. -/
def sampleFormat : KeyFormat := { timestamp := true, systemIdSize := 8, transientPoaNameSize := 8 }

def samplePOA : RootPOA sampleFormat where
  isRoot := false
  isPersistent := true
  systemId := false
  systemName := ⟨[97, 98, 99], by simp⟩
  creationTime := List.replicate 8 0
  creationTime_length := rfl
  transient_name := by simp

def sampleId : Arr UInt8 := ⟨[1, 2], by simp⟩

theorem parse_built_samplePOA :
    ∃ key : Arr UInt8, samplePOA.createObjectKey sampleId = some key ∧
      ∃ p, (parseKey sampleFormat (memory key.val fun _ => 0) key.val.length).parsed = some p ∧
        p.nameOctets (memory key.val fun _ => 0) = some [97, 98, 99] ∧ p.systemId = [1, 2] := by
  have hsome : (samplePOA.createObjectKey sampleId).isSome := by decide
  obtain ⟨key, hkey⟩ := Option.isSome_iff_exists.mp hsome
  obtain ⟨p, hp, -, -, -, hname, hid⟩ := parse_built samplePOA sampleId key (fun _ => 0) hkey
    (by simp [samplePOA])
  exact ⟨key, hkey, p, hp, hname rfl, hid⟩

/-! ## Keys from a request -/

/-- The length that the key's indicators announce: the indicators, the creation
time, the length of the name, the name and a system id of fixed size. `none`
when the key has an invalid indicator, which is then the last octet needed. -/
def needed (F : KeyFormat) (key : List UInt8) : Option Nat :=
  if key.length < 5 then some 7
  else
    match rootIndicator (key.getD 4 0) with
    | none => none
    | some isRoot =>
      if key.length < 6 then some 7
      else
        match systemIdIndicator (key.getD 5 0) with
        | none => none
        | some isSystemId =>
          if key.length < 7 then some 7
          else
            match persistentIndicator (key.getD 6 0) with
            | none => none
            | some isPersistent =>
              let lengthField := if isPersistent && !isSystemId then 4 else 0
              let name :=
                if isRoot then 0
                else if !isPersistent then F.transientPoaNameSize
                else if isSystemId then 0
                else Core.load .big ((key.drop 7).take 4)
              some (7 + F.stampLength isPersistent + lengthField + name +
                if isSystemId then F.systemIdSize else 0)

def TooShort (F : KeyFormat) (key : List UInt8) : Prop :=
  ∃ n, needed F key = some n ∧ key.length < n

/-- A read of octets of the key, and a difference that does not wrap. -/
def Access.Within (length : Nat) : Access → Prop
  | .read start size => start + size ≤ length
  | .subtract a b => b ≤ a

/-- `parse_key` reads inside the key, computes no wrapped size and refuses a key
that is too short. -/
def ParsesSafely (F : KeyFormat) (key : Arr UInt8) (beyond : Nat → UInt8) : Prop :=
  let o := parseKey F (memory key.val beyond) key.val.length
  (∀ a ∈ o.accesses, a.Within key.val.length) ∧ (TooShort F key.val → o.parsed = none)

theorem memory_of_lt {key : List UInt8} {n : Nat} (beyond : Nat → UInt8) (h : n < key.length) :
    memory key beyond n = key.getD n 0 := by
  simp [memory, getD_eq_getElem?_getD, getElem?_eq_getElem h]

/-- The length field of a key that has it, as the parser reads it. -/
theorem octets_seven {key : List UInt8} (beyond : Nat → UInt8) (h : 11 ≤ key.length) :
    octets (memory key beyond) 7 4 = (key.drop 7).take 4 := by
  have hsplit : key = key.take 7 ++ (key.drop 7).take 4 ++ (key.drop 7).drop 4 := by
    rw [append_assoc, take_append_drop, take_append_drop]
  have hfield := octets_field (key.take 7) ((key.drop 7).take 4) ((key.drop 7).drop 4) beyond
  rw [← hsplit] at hfield
  have hseven : (key.take 7).length = 7 := by simp; omega
  have hfour : ((key.drop 7).take 4).length = 4 := by simp; omega
  rwa [hseven, hfour] at hfield

theorem parseFields_within {key : Arr UInt8} {beyond : Nat → UInt8}
    {isRoot isSystemId isPersistent : Bool}
    (h : 7 + F.stampLength isPersistent + (if isPersistent && !isSystemId then 4 else 0) +
      (if isRoot then 0 else if !isPersistent then F.transientPoaNameSize
        else if isSystemId then 0 else Core.load .big ((key.val.drop 7).take 4)) +
      (if isSystemId then F.systemIdSize else 0) ≤ key.val.length) :
    ∀ a ∈ (parseFields F (memory key.val beyond) key.val.length isRoot isSystemId
      isPersistent).accesses, a.Within key.val.length := by
  have hlt := key.length_lt
  -- where the object id starts, and that it is in the key
  have hlast : ∀ n, n ≤ key.val.length → ∀ a ∈ [Access.subtract key.val.length n,
      .read n (ulongSub key.val.length n)], a.Within key.val.length := by
    intro n hn a ha
    rw [ulongSub_of_le hlt hn] at ha
    simp only [mem_cons, not_mem_nil, or_false] at ha
    obtain rfl | rfl := ha
    · exact hn
    · simp only [Access.Within]
      omega
  intro a ha
  simp only [parseFields, mem_append] at ha
  cases isPersistent with
  | false =>
    simp only [nameSize, Bool.not_false, Bool.false_and, Bool.false_eq_true, if_true, if_false,
      not_mem_nil, false_or] at ha h
    apply hlast _ _ a ha
    cases isRoot
    · simp only [Bool.false_eq_true, if_false] at h ⊢
      rw [ulong_of_lt (by omega)]
      omega
    · simp only [if_true] at h ⊢
      omega
  | true =>
    cases isSystemId with
    | true =>
      simp only [nameSize, Bool.not_true, Bool.and_false, Bool.false_eq_true, if_true, if_false,
        mem_singleton, ite_self] at ha h
      obtain rfl | ha := ha
      · simp only [Access.Within]
        omega
      apply hlast _ _ a ha
      rw [ulongSub_of_le hlt (by omega)]
      cases isRoot
      · simp only [Bool.false_eq_true, if_false]
        rw [ulong_of_lt (by omega)]
        omega
      · simp only [if_true]
        omega
    | false =>
      simp only [nameSize, Bool.not_true, Bool.not_false, Bool.and_true, Bool.false_eq_true,
        if_true, if_false, mem_singleton] at ha h
      have hstamp : F.stampLength true = 0 := rfl
      rw [hstamp] at h ha
      rw [octets_seven beyond (by omega)] at ha
      obtain rfl | ha := ha
      · simp only [Access.Within]
        omega
      apply hlast _ _ a ha
      cases isRoot
      · simp only [Bool.false_eq_true, if_false] at h ⊢
        rw [ulong_of_lt (by omega)]
        omega
      · simp only [if_true]
        omega

theorem not_within_of_read {length n : Nat} {accesses : List Access} (hn : length < n + 1)
    (hmem : Access.read n 1 ∈ accesses) : ¬∀ a ∈ accesses, a.Within length := by
  intro hall
  have := hall _ hmem
  simp only [Access.Within] at this
  omega

theorem tooShort_of_needed {key : List UInt8} {n : Nat} (h : needed F key = some n) :
    TooShort F key ↔ key.length < n := by
  simp [TooShort, h]

theorem not_tooShort_of_needed {key : List UInt8} (h : needed F key = none) : ¬TooShort F key := by
  simp [TooShort, h]

/-- **Exactly the keys that are not too short are parsed safely.** -/
theorem parsesSafely_iff (F : KeyFormat) (key : Arr UInt8) (beyond : Nat → UInt8) :
    ParsesSafely F key beyond ↔ ¬TooShort F key.val := by
  unfold ParsesSafely
  by_cases h4 : key.val.length < 5
  · have hneeded : needed F key.val = some 7 := by simp only [needed, if_pos h4]
    have hread :
        Access.read 4 1 ∈ (parseKey F (memory key.val beyond) key.val.length).accesses := by
      unfold parseKey
      split
      · simp
      · split
        · simp
        · split <;> simp [Outcome.after]
    refine iff_of_false (fun ⟨hall, _⟩ => not_within_of_read h4 hread hall) (not_not.mpr ?_)
    rw [tooShort_of_needed hneeded]
    omega
  rw [parseKey, memory_of_lt beyond (by omega : 4 < key.val.length)]
  cases hroot : rootIndicator (key.val.getD 4 0) with
  | none =>
    refine iff_of_true ⟨?_, fun _ => rfl⟩
      (not_tooShort_of_needed (by simp only [needed, if_neg h4, hroot]))
    simp only [mem_singleton, forall_eq, Access.Within]
    omega
  | some isRoot =>
  by_cases h5 : key.val.length < 6
  · have hneeded : needed F key.val = some 7 := by
      simp only [needed, if_neg h4, hroot, if_pos h5]
    refine iff_of_false (fun ⟨hall, _⟩ => not_within_of_read h5 ?_ hall) (not_not.mpr ?_)
    · simp only
      split
      · simp
      · split <;> simp [Outcome.after]
    · rw [tooShort_of_needed hneeded]
      omega
  simp only [memory_of_lt beyond (by omega : 5 < key.val.length)]
  cases hsystem : systemIdIndicator (key.val.getD 5 0) with
  | none =>
    refine iff_of_true ⟨?_, fun _ => rfl⟩
      (not_tooShort_of_needed (by simp only [needed, if_neg h4, hroot, if_neg h5, hsystem]))
    simp only [mem_cons, not_mem_nil, or_false, forall_eq_or_imp, forall_eq,
      Access.Within]
    omega
  | some isSystemId =>
  by_cases h6 : key.val.length < 7
  · have hneeded : needed F key.val = some 7 := by
      simp only [needed, if_neg h4, hroot, if_neg h5, hsystem, if_pos h6]
    refine iff_of_false (fun ⟨hall, _⟩ => not_within_of_read h6 ?_ hall) (not_not.mpr ?_)
    · simp only
      split <;> simp [Outcome.after]
    · rw [tooShort_of_needed hneeded]
      omega
  simp only [memory_of_lt beyond (by omega : 6 < key.val.length)]
  cases hpersistent : persistentIndicator (key.val.getD 6 0) with
  | none =>
    refine iff_of_true ⟨?_, fun _ => rfl⟩ (not_tooShort_of_needed (by
      simp only [needed, if_neg h4, hroot, if_neg h5, hsystem, if_neg h6, hpersistent]))
    simp only [mem_cons, not_mem_nil, or_false, forall_eq_or_imp, forall_eq,
      Access.Within]
    omega
  | some isPersistent =>
  -- the indicators are there: the call succeeds, so the key must not be too short
  constructor
  · intro ⟨_, hnone⟩ htoo
    have := hnone htoo
    simp [Outcome.after, parseFields] at this
  · intro hnot
    refine ⟨fun a ha => ?_, fun htoo => absurd htoo hnot⟩
    simp only [Outcome.after, cons_append, nil_append, mem_cons] at ha
    obtain rfl | rfl | rfl | ha := ha
    · simp only [Access.Within]
      omega
    · simp only [Access.Within]
      omega
    · simp only [Access.Within]
      omega
    · refine parseFields_within ?_ a ha
      rw [tooShort_of_needed (by
        simp only [needed, if_neg h4, hroot, if_neg h5, hsystem, if_neg h6, hpersistent]
        rfl)] at hnot
      exact Nat.le_of_not_lt hnot

/-- The prefix and the indicators of a transient POA with system ids, and
nothing else. -/
def shortKey : Arr UInt8 :=
  ⟨objectkeyPrefix ++ [nonRootKeyChar, systemIdKeyChar, transientKeyChar], by
    simp [objectkeyPrefix]⟩

/-- **A short key.** Creation time and name are taken from behind the key, and the
size of the id is 7 - 23 as an unsigned number. -/
theorem parse_behind_key :
    ¬ParsesSafely sampleFormat shortKey (fun _ => 0) ∧
      Access.read 23 (2 ^ 32 - 16) ∈
        (parseKey sampleFormat (memory shortKey.val fun _ => 0) shortKey.val.length).accesses ∧
      (parseKey sampleFormat (memory shortKey.val fun _ => 0) shortKey.val.length).parsed ≠
        none := by
  have hread : Access.read 23 (2 ^ 32 - 16) ∈
      (parseKey sampleFormat (memory shortKey.val fun _ => 0) shortKey.val.length).accesses := by
    decide
  refine ⟨fun ⟨hall, _⟩ => ?_, hread, by decide⟩
  have hwithin := hall _ hread
  have hlength : shortKey.val.length = 7 := rfl
  simp only [Access.Within] at hwithin
  omega

end Atcd.Poa.ObjectKey
