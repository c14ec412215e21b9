import Atcd.Giop.QueuedData
/-!
# Messages in a byte stream

The parts of `TAO_GIOP_Message_Base` and `TAO_GIOP_Message_State` that cut a stream of bytes
into messages. A message block is the list of its bytes between `rd_ptr` and `wr_ptr`; it is
made, or grown, large enough wherever bytes are copied to it, and memory can be allocated.

Results:
* `extractNextMessage_spec`, `consolidateNode_spec`: on the bytes of well-formed messages
  these take the first message, or as much of it as is there.
-/
namespace Atcd.Giop.Framing

open Atcd.Core List Option UInt32 Nat

def messageFlagsOffset : Nat := 6
def messageTypeOffset : Nat := 7
def messageSizeOffset : Nat := 8

/-- A message, whole or in part: `missingData` is `none` for `TAO_MISSING_DATA_UNDEFINED`.
mirrors TAO/tao/Queued_Data.h:149-170 -/
structure QueuedData where
  msgBlock : List UInt8
  missingData : Option Nat
  state : MessageState
  deriving DecidableEq, Repr

/-! ## The header -/

/-- `static_cast <GIOP::MsgType>` -/
def msgTypeOf (octet : UInt8) : MsgType :=
  if octet = 0 then .request
  else if octet = 1 then .reply
  else if octet = 2 then .cancelRequest
  else if octet = 3 then .locateRequest
  else if octet = 4 then .locateReply
  else if octet = 5 then .closeConnection
  else if octet = 6 then .messageError
  else if octet = 7 then .fragment
  else .other octet

/-- mirrors TAO/tao/GIOP_Message_State.inl:5-15 -/
def freshState : MessageState := ⟨⟨1, 2⟩, 0, .request, 0, false⟩

/-- mirrors TAO/tao/GIOP_Message_State.cpp:81-103 -/
def parseMagicBytes (buf : List UInt8) : Bool :=
  (buf.getD 0 0 = 0x5A || buf.getD 0 0 = 0x47) && buf.getD 1 0 = 0x49 && buf.getD 2 0 = 0x4f && buf.getD 3 0 = 0x50

/-- mirrors TAO/tao/GIOP_Message_Generator_Parser_Impl.inl:6-31 -/
def checkRevision (major minor : UInt8) : Bool :=
  major = 1 && (minor = 0 || minor = 1 || minor = 2)

/-- mirrors GIOP_Message_State.cpp:105-138 -/
def getVersionInfo (state : MessageState) (buf : List UInt8) : Option MessageState :=
  if checkRevision (buf.getD 4 0) (buf.getD 5 0) then some { state with giopVersion := ⟨buf.getD 4 0, buf.getD 5 0⟩ }
  else none

/-- mirrors GIOP_Message_State.cpp:140-181 -/
def getByteOrderInfo (state : MessageState) (buf : List UInt8) : Option MessageState :=
  let flags := buf.getD messageFlagsOffset 0
  if state.giopVersion.minor = 0 ∧ state.giopVersion.major = 1 then
    if flags ≠ 0 ∧ flags ≠ 1 then none else some { state with byteOrder := flags }
  else
    some { state with
      byteOrder := flags &&& 1
      moreFragments := (flags &&& 2) = 2 }

/-- On a host with this byte order.
mirrors GIOP_Message_State.cpp:192-224 -/
def readUlong (host : Endian) (byteOrder : UInt8) (buf : List UInt8) : UInt32 :=
  let hostOrder : UInt8 := match host with
    | .little => 1
    | .big => 0
  if byteOrder = hostOrder then .ofNat (load host buf) else .ofNat (load host buf.reverse)

/-- mirrors GIOP_Message_State.cpp:27-79 -/
def parseMessageHeaderI (host : Endian) (state : MessageState) (incoming : List UInt8) : Option MessageState :=
  if parseMagicBytes incoming then
    (getVersionInfo state incoming).bind fun state =>
      (getByteOrderInfo state incoming).bind fun state =>
        let messageType := msgTypeOf (incoming.getD messageTypeOffset 0)
        let payloadSize := readUlong host state.byteOrder ((incoming.drop messageSizeOffset).take 4)
        let state := { state with
          messageType
          payloadSize }
        if payloadSize = 0 ∧ messageType ≠ .messageError ∧ messageType ≠ .closeConnection then none else some state
  else none

/-- `none` for -1.
mirrors GIOP_Message_State.cpp:13-25 -/
def parseMessageHeader (host : Endian) (state : MessageState) (incoming : List UInt8) : Option MessageState :=
  if messageHeaderLen ≤ incoming.length then parseMessageHeaderI host state incoming else some state

/-- mirrors GIOP_Message_State.inl:17-21 -/
def messageSize (state : MessageState) : Nat := (state.payloadSize + 12).toNat

/-! ## Cutting the stream -/

/-- `none` for -1; also `mesg_length`, which stays 0 without a whole header.
mirrors TAO/tao/GIOP_Message_Base.cpp:337-373 -/
def parseNextMessage (host : Endian) (qd : QueuedData) : Option (QueuedData × Nat) :=
  if qd.msgBlock.length < messageHeaderLen then some ({ qd with missingData := none }, 0)
  else
    (parseMessageHeader host freshState qd.msgBlock).map fun state =>
      let size := messageSize state
      let missing := if qd.msgBlock.length < size then size - qd.msgBlock.length else 0
      ({ qd with
        missingData := some missing
        state }, size)

/-- `none` for -1; the message, if there are bytes, and what is left of them.
mirrors GIOP_Message_Base.cpp:375-461 -/
def extractNextMessage (host : Endian) (incoming : List UInt8) : Option (Option QueuedData × List UInt8) :=
  if incoming.length < messageHeaderLen then
    if 0 < incoming.length then some (some ⟨incoming, none, freshState⟩, []) else some (none, incoming)
  else
    (parseMessageHeader host freshState incoming).map fun state =>
      let copyingLen := messageSize state
      if incoming.length < copyingLen then (some ⟨incoming, some (copyingLen - incoming.length), state⟩, [])
      else (some ⟨incoming.take copyingLen, some 0, state⟩, incoming.drop copyingLen)

/-- `none` for -1.
mirrors GIOP_Message_Base.cpp:463-596 -/
def consolidateNode (host : Endian) (qd : QueuedData) (incoming : List UInt8) : Option (QueuedData × List UInt8) :=
  match qd.missingData with
  | none =>
    let len := qd.msgBlock.length
    if messageHeaderLen ≤ len then none
    else
      let nCopy := min incoming.length (messageHeaderLen - len)
      if nCopy = 0 then none
      else
        let qd := { qd with msgBlock := qd.msgBlock ++ incoming.take nCopy }
        let incoming := incoming.drop nCopy
        if qd.msgBlock.length < messageHeaderLen then some (qd, incoming)
        else
          (parseMessageHeader host freshState qd.msgBlock).map fun state =>
            let copyLen := state.payloadSize.toNat
            let missing := if incoming.length < copyLen then copyLen - incoming.length else 0
            let copyLen := min copyLen incoming.length
            (⟨qd.msgBlock ++ incoming.take copyLen, some missing, state⟩, incoming.drop copyLen)
  | some missing =>
    let copyLen := min missing incoming.length
    let missing := if incoming.length < missing then missing - incoming.length else missing
    if copyLen = 0 then none
    -- the read pointer that moves is the one of the node
    else some ({ qd with
      msgBlock := (qd.msgBlock ++ incoming.take copyLen).drop copyLen
      missingData := some missing }, incoming)

/-! ## Well-formed messages -/

/-- A whole, unfragmented Request or Reply. -/
structure GiopMessage where
  minor : UInt8
  flags : UInt8
  reply : Bool
  payload : List UInt8
  minor_le : minor ≤ 2
  flags_eq : if minor = 0 then flags ≤ 1 else flags &&& 2 = 0
  payload_pos : 0 < payload.length
  payload_le : payload.length ≤ 2 ^ 32 - 13

namespace GiopMessage

variable (m : GiopMessage)

def endian : Endian := if m.flags &&& 1 = 1 then .little else .big

def octets : List UInt8 := [0x47, 0x49, 0x4f, 0x50, 1, m.minor, m.flags, if m.reply then 1 else 0]

def header : List UInt8 := m.octets ++ store m.endian 4 m.payload.length

def bytes : List UInt8 := m.header ++ m.payload

def state : MessageState where
  giopVersion := ⟨1, m.minor⟩
  byteOrder := m.flags &&& 1
  messageType := if m.reply then .reply else .request
  payloadSize := .ofNat m.payload.length
  moreFragments := false

/-- The message as `process_parsed_messages` gets it. -/
def queued : QueuedData := ⟨m.bytes, some 0, m.state⟩

end GiopMessage

namespace GiopMessage

variable {m : GiopMessage} {host : Endian} {incoming : List UInt8}

@[simp] theorem length_octets : m.octets.length = 8 := rfl

@[simp] theorem length_header : m.header.length = messageHeaderLen := by
  simp [header, messageHeaderLen]

@[simp] theorem length_bytes : m.bytes.length = messageHeaderLen + m.payload.length := by
  simp [bytes]

theorem header_lt : messageHeaderLen < m.bytes.length := by
  rw [length_bytes]
  have hpos := m.payload_pos
  omega

theorem and_one (flags : UInt8) : flags &&& 1 = 0 ∨ flags &&& 1 = 1 := by
  have hmod : (flags &&& 1).toNat = flags.toNat % 2 := by
    exact and_one_is_mod _
  rcases mod_two_eq_zero_or_one flags.toNat with h | h
  · exact .inl (UInt8.toNat_inj.mp (hmod.trans h))
  · exact .inr (UInt8.toNat_inj.mp (hmod.trans h))

/-- The size is read back, whatever the byte orders are. -/
theorem readUlong_store (host : Endian) :
    readUlong host (m.flags &&& 1) (store m.endian 4 m.payload.length) = .ofNat m.payload.length := by
  have hlt : m.payload.length < 256 ^ 4 := by
    have hle := m.payload_le
    omega
  have hload := load_store m.endian hlt
  unfold readUlong
  rcases and_one m.flags with h | h <;> cases host <;> simp only [endian, h] at hload ⊢
  · have hrev : load .little (store .big 4 m.payload.length).reverse = m.payload.length := by
      simpa [load] using hload
    simpa using congrArg ofNat hrev
  · simpa using congrArg ofNat hload
  · simpa using congrArg ofNat hload
  · have hrev : load .big (store .little 4 m.payload.length).reverse = m.payload.length := by
      simpa [load] using hload
    simpa using congrArg ofNat hrev

theorem getD_header (h : incoming.take messageHeaderLen = m.header) {i : Nat} (hi : i < 8) :
    incoming.getD i 0 = m.octets.getD i 0 := by
  have htake : incoming.getD i 0 = (incoming.take messageHeaderLen).getD i 0 := by
    have hlt : i < messageHeaderLen := Nat.lt_trans hi (by decide)
    rw [getD_eq_getElem?_getD, getD_eq_getElem?_getD, getElem?_take, if_pos hlt]
  rw [htake, h, header, getD_append]
  exact hi

theorem take_size (h : incoming.take messageHeaderLen = m.header) :
    (incoming.drop messageSizeOffset).take 4 = store m.endian 4 m.payload.length := by
  have hdrop : (incoming.drop messageSizeOffset).take 4 = (incoming.take messageHeaderLen).drop messageSizeOffset := by
    rw [drop_take]
    rfl
  rw [hdrop, h, header]
  exact drop_left' rfl

/-- **The header.** Every field is that of the message. -/
theorem parseMessageHeader_eq (h : incoming.take messageHeaderLen = m.header) :
    parseMessageHeader host freshState incoming = some m.state := by
  have hlen : messageHeaderLen ≤ incoming.length := by
    have hl := congrArg length h
    rw [length_take, length_header] at hl
    omega
  have hget := fun {i} (hi : i < 8) => getD_header h hi
  have hmagic : parseMagicBytes incoming = true := by
    unfold parseMagicBytes
    rw [hget (by decide), hget (by decide), hget (by decide), hget (by decide)]
    rfl
  have hminor : m.minor = 0 ∨ m.minor = 1 ∨ m.minor = 2 := by
    have hle := UInt8.le_iff_toNat_le.mp m.minor_le
    have hcases : m.minor.toNat = 0 ∨ m.minor.toNat = 1 ∨ m.minor.toNat = 2 := by
      have h2 : (2 : UInt8).toNat = 2 := rfl
      omega
    rcases hcases with h0 | h1 | h2
    · exact .inl (UInt8.toNat_inj.mp h0)
    · exact .inr (.inl (UInt8.toNat_inj.mp h1))
    · exact .inr (.inr (UInt8.toNat_inj.mp h2))
  have hversion : getVersionInfo freshState incoming = some { freshState with giopVersion := ⟨1, m.minor⟩ } := by
    unfold getVersionInfo
    rw [hget (by decide), hget (by decide)]
    have hcheck : checkRevision (m.octets.getD 4 0) (m.octets.getD 5 0) = true := by
      rcases hminor with h0 | h0 | h0 <;> simp [octets, checkRevision, h0]
    rw [if_pos hcheck]
    rfl
  have horder : getByteOrderInfo { freshState with giopVersion := ⟨1, m.minor⟩ } incoming =
      some { freshState with
        giopVersion := ⟨1, m.minor⟩
        byteOrder := m.flags &&& 1 } := by
    have hflags : incoming.getD messageFlagsOffset 0 = m.flags := hget (by decide)
    have hm := m.flags_eq
    simp only [getByteOrderInfo, hflags]
    by_cases h0 : m.minor = 0
    · rw [if_pos h0] at hm
      have hle := UInt8.le_iff_toNat_le.mp hm
      have hcases : m.flags.toNat = 0 ∨ m.flags.toNat = 1 := by
        have h1 : (1 : UInt8).toNat = 1 := rfl
        omega
      rcases hcases with hf | hf
      · have hzero : m.flags = 0 := UInt8.toNat_inj.mp hf
        simp [h0, hzero]
      · have hone : m.flags = 1 := UInt8.toNat_inj.mp hf
        simp [h0, hone]
    · rw [if_neg h0] at hm
      simp [h0, hm, freshState]
  have htype : msgTypeOf (incoming.getD messageTypeOffset 0) = if m.reply then .reply else .request := by
    have hoctet : incoming.getD messageTypeOffset 0 = if m.reply then 1 else 0 := hget (by decide)
    rw [hoctet]
    cases m.reply <;> rfl
  have hsize :
      readUlong host (m.flags &&& 1) ((incoming.drop messageSizeOffset).take 4) = .ofNat m.payload.length := by
    rw [take_size h, readUlong_store]
  have hpositive : ofNat m.payload.length ≠ 0 := by
    intro h0
    have hnat := congrArg toNat h0
    rw [toNat_ofNat'] at hnat
    have hpos := m.payload_pos
    have hle := m.payload_le
    have hzero : (0 : UInt32).toNat = 0 := rfl
    omega
  rw [parseMessageHeader, if_pos hlen, parseMessageHeaderI, if_pos hmagic, hversion, bind_some, horder, bind_some]
  simp only [hsize, htype, if_neg (show ¬(ofNat m.payload.length = 0 ∧ _) from fun hc => hpositive hc.1)]
  rfl

theorem messageSize_state : messageSize m.state = m.bytes.length := by
  have hle := m.payload_le
  unfold messageSize
  rw [UInt32.toNat_add, length_bytes]
  have hn : (m.state.payloadSize).toNat = m.payload.length := by
    change (UInt32.ofNat m.payload.length).toNat = _
    rw [UInt32.toNat_ofNat']
    omega
  have h12 : (12 : UInt32).toNat = 12 := rfl
  rw [h12, messageHeaderLen]
  omega

theorem payloadSize_state : m.state.payloadSize.toNat = m.payload.length := by
  have hle := m.payload_le
  change (ofNat m.payload.length).toNat = _
  rw [toNat_ofNat']
  omega

/-! ## The first message -/

/-- The bytes go as the message does, as far as both go. -/
def Starts (m : GiopMessage) (block : List UInt8) : Prop := ∃ input tail, block ++ input = m.bytes ++ tail

variable {block : List UInt8}

theorem Starts.take_header (h : m.Starts block) (hlen : messageHeaderLen ≤ block.length) :
    block.take messageHeaderLen = m.header := by
  obtain ⟨input, tail, heq⟩ := h
  have htake := congrArg (take messageHeaderLen) heq
  rw [take_append_of_le_length hlen, bytes, append_assoc] at htake
  rw [htake]
  exact take_left' length_header

theorem Starts.take_bytes (h : m.Starts block) (hlen : m.bytes.length ≤ block.length) :
    block.take m.bytes.length = m.bytes := by
  obtain ⟨input, tail, heq⟩ := h
  have htake := congrArg (take m.bytes.length) heq
  rw [take_append_of_le_length hlen] at htake
  rw [htake]
  exact take_left' rfl

/-- The message, or as much of it as is in the bytes, and what is behind it. -/
def first (m : GiopMessage) (block : List UInt8) : QueuedData × List UInt8 :=
  if block.length < messageHeaderLen then (⟨block, none, freshState⟩, [])
  else if block.length < m.bytes.length then (⟨block, some (m.bytes.length - block.length), m.state⟩, [])
  else (m.queued, block.drop m.bytes.length)

theorem extractNextMessage_spec (h : m.Starts block) (hne : block ≠ []) :
    extractNextMessage host block = some (some (m.first block).1, (m.first block).2) := by
  unfold extractNextMessage first
  by_cases hshort : block.length < messageHeaderLen
  · rw [if_pos hshort, if_pos hshort, if_pos (length_pos_iff.mpr hne)]
  · rw [if_neg hshort, if_neg hshort, parseMessageHeader_eq (h.take_header (not_lt.mp hshort))]
    simp only [map_some, messageSize_state]
    by_cases hpart : block.length < m.bytes.length
    · rw [if_pos hpart, if_pos hpart]
    · rw [if_neg hpart, if_neg hpart, h.take_bytes (not_lt.mp hpart)]
      rfl

theorem parseNextMessage_spec (host : Endian) (h : m.Starts block) :
    (block.length < messageHeaderLen →
      parseNextMessage host ⟨block, some 0, freshState⟩ = some (⟨block, none, freshState⟩, 0)) ∧
    (messageHeaderLen ≤ block.length → parseNextMessage host ⟨block, some 0, freshState⟩ =
        some (⟨block, some (m.bytes.length - block.length), m.state⟩, m.bytes.length)) := by
  unfold parseNextMessage
  refine ⟨fun hshort => by rw [if_pos hshort], fun hlen => ?_⟩
  rw [if_neg (not_lt.mpr hlen), parseMessageHeader_eq (h.take_header hlen)]
  simp only [map_some, messageSize_state]
  split
  · rfl
  · next hle =>
    have hzero : m.bytes.length - block.length = 0 := by omega
    rw [hzero]

theorem first_header {left : List UInt8} (h : m.Starts (m.header ++ left)) :
    m.first (m.header ++ left) =
      (⟨m.header ++ left.take m.payload.length, some (m.payload.length - left.length), m.state⟩,
        left.drop m.payload.length) := by
  have hlen : (m.header ++ left).length = messageHeaderLen + left.length := by
    rw [length_append, length_header]
  unfold first
  rw [if_neg (by omega)]
  by_cases hpart : left.length < m.payload.length
  · rw [if_pos (by rw [length_bytes]; omega), take_of_length_le (Nat.le_of_lt hpart),
      drop_of_length_le (Nat.le_of_lt hpart), length_bytes, hlen, Nat.add_sub_add_left]
  · have hle : m.bytes.length ≤ (m.header ++ left).length := by
      rw [length_bytes]
      omega
    have htake := h.take_bytes hle
    rw [length_bytes, ← length_header (m := m), take_length_add_append] at htake
    have hzero : m.payload.length - left.length = 0 := by omega
    rw [if_neg (not_lt.mpr hle), htake, hzero, length_bytes, ← length_header (m := m), drop_length_add_append]
    rfl

/-- A message that was cut inside its header goes on as if it had not been. -/
theorem consolidateNode_spec {incoming : List UInt8} (h : m.Starts (block ++ incoming))
    (hlt : block.length < messageHeaderLen) (hne : incoming ≠ []) :
    consolidateNode host ⟨block, none, freshState⟩ incoming = some (m.first (block ++ incoming)) := by
  have hpos := length_pos_iff.mpr hne
  have hcopy : ¬ min incoming.length (messageHeaderLen - block.length) = 0 := by omega
  simp only [consolidateNode, if_neg (not_le.mpr hlt), if_neg hcopy]
  by_cases hshort : (block ++ incoming).length < messageHeaderLen
  · have hall : min incoming.length (messageHeaderLen - block.length) = incoming.length := by
      rw [length_append] at hshort
      omega
    rw [first, if_pos hshort, hall, take_length, drop_length, if_pos hshort]
  · have hlong := not_lt.mp hshort
    have hall : min incoming.length (messageHeaderLen - block.length) = messageHeaderLen - block.length := by
      rw [length_append] at hlong
      omega
    have hhead : block ++ incoming.take (messageHeaderLen - block.length) = m.header := by
      rw [← h.take_header hlong, take_append, take_of_length_le (Nat.le_of_lt hlt)]
    have hwhole : block ++ incoming = m.header ++ incoming.drop (messageHeaderLen - block.length) := by
      rw [← hhead, append_assoc, take_append_drop]
    have htake : m.header.take messageHeaderLen = m.header := take_of_length_le (Nat.le_of_eq length_header)
    have hheader : ¬ m.header.length < messageHeaderLen := by
      rw [length_header]
      exact Nat.lt_irrefl _
    rw [hwhole] at h ⊢
    rw [first_header h, hall, hhead, if_neg hheader, parseMessageHeader_eq htake]
    generalize incoming.drop (messageHeaderLen - block.length) = left
    simp only [map_some, payloadSize_state]
    by_cases hpart : left.length < m.payload.length
    · have hmin : min m.payload.length left.length = left.length := by omega
      rw [if_pos hpart, hmin, take_length, drop_length, take_of_length_le (Nat.le_of_lt hpart),
        drop_of_length_le (Nat.le_of_lt hpart)]
    · have hmin : min m.payload.length left.length = m.payload.length := by omega
      have hzero : m.payload.length - left.length = 0 := by omega
      rw [if_neg hpart, hmin, hzero]

end GiopMessage

end Atcd.Giop.Framing
