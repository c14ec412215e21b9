import Atcd.Rmcast.Protocol
/-!
# Fragmentation and reassembly

`Fragment::send` is cut where it gives up the lock: a call draws a number for each part, and
several calls may run at a time. `Reassemble::recv` keeps one unfinished message for each
source. The counter of the parts of a call has 32 bits, the one of the socket does not wrap.
-/
namespace Atcd.Rmcast

/-- The part of the parameters that fragmentation reads.
mirrors ACE/protocols/ace/RMCast/Parameters.h:13-56 -/
structure Parameters where
  maxPacketSize : UInt16
  service_lt : maxServiceSize < maxPacketSize.toNat

def Parameters.maxPayloadSize (params : Parameters) : Nat := params.maxPacketSize.toNat - maxServiceSize

/-- The bytes of a call of `send_`, whose number is a `size_t`.
mirrors ACE/protocols/ace/RMCast/Socket.cpp:146-156 -/
structure Payload where
  bytes : List UInt8
  lt : bytes.length < 2 ^ 64

/-! ## Sender -/

/-- A call of `send`: the loop variable, the number of parts, the size of the message and the
bytes from `p` on. -/
structure SendCall where
  fragmented : Bool
  i : UInt32
  packets : UInt32
  size : Nat
  p : List UInt8
  deriving DecidableEq, Repr

namespace SendCall

variable (params : Parameters)

/-- mirrors ACE/protocols/ace/RMCast/Fragment.cpp:20-49 -/
def start (data : List UInt8) : SendCall where
  fragmented := params.maxPayloadSize < data.length
  i := 1
  packets :=
    if params.maxPayloadSize < data.length then
      .ofNat (data.length / params.maxPayloadSize + if data.length % params.maxPayloadSize = 0 then 0 else 1)
    else 1
  size := data.length
  p := data

def done (c : SendCall) : Bool := !(c.i ≤ c.packets)

def partSize (c : SendCall) : Nat :=
  if c.fragmented then if c.i = c.packets then c.size % params.maxPayloadSize else params.maxPayloadSize else c.size

/-- The next part; `none` when it reads behind the buffer.
mirrors Fragment.cpp:26-38, 51-72 -/
def next (c : SendCall) (sn : Nat) : Option (Message × SendCall) :=
  let s := c.partSize params
  if c.p.length < s then none
  else
    let m :=
      if c.fragmented then
        ((Message.empty.add (.sn (.ofNat sn))).add (.part c.i c.packets (.ofNat c.size))).add (.data (c.p.take s))
      else (Message.empty.add (.data c.p)).add (.sn (.ofNat sn))
    some (m, { c with
      i := c.i + 1
      p := c.p.drop s })

/-- All parts, if the loop ends within these turns. -/
def run : Nat → SendCall → Nat → Option (List Message)
  | 0, c, _ => if c.done then some [] else none
  | turns + 1, c, sn =>
    if c.done then some []
    else (c.next params sn).bind fun (m, c) => (run turns c (sn + 1)).map (m :: ·)

end SendCall

/-- The messages of one sender, one after another; no loop that ends takes more turns than the
message has bytes. -/
def sendAll (params : Parameters) : Nat → List Payload → Option (List Message)
  | _, [] => some []
  | sn, data :: rest =>
    ((SendCall.start params data.bytes).run params (data.bytes.length + 1) sn).bind fun parts =>
      (sendAll params (sn + parts.length) rest).map (parts ++ ·)

/-- What the link adds. -/
def deliver (source destination : Address) (m : Message) : Message :=
  (m.add (.fromAddress source)).add (.toAddress destination)

/-! ## Receiver -/

/-- The unfinished message of each source, and the capacity of its buffer. -/
structure Reassemble where
  map : Address → Option (List UInt8 × Nat)

namespace Reassemble

def start : Reassemble := ⟨fun _ => none⟩

def bind (r : Reassemble) (source : Address) (buf : List UInt8) (capacity : Nat) : Reassemble :=
  ⟨Function.update r.map source (some (buf, capacity))⟩

def unbind (r : Reassemble) (source : Address) : Reassemble := ⟨Function.update r.map source none⟩

/-- `none` for `abort`, and where memory outside of the buffer is written or a profile is
missing; else the messages that are passed up.
mirrors ACE/protocols/ace/RMCast/Reassemble.cpp:19-124 -/
def recv (r : Reassemble) (m : Message) : Option (Reassemble × List Message) :=
  m.source.bind fun source =>
    match m.data with
    | some data =>
      match m.part with
      | some (num, of, totalSize) =>
        match r.map source with
        | none =>
          if num ≠ 1 then some (r, []) else some (r.bind source data (max data.length totalSize.toNat), [])
        | some (newData, capacity) =>
          if num = 1 then none
          else if capacity < newData.length + data.length then none
          else
            let newData := newData ++ data
            if num = of then
              if totalSize.toNat ≠ newData.length then none
              else
                m.destination.map fun destination =>
                  (r.unbind source,
                    [((Message.empty.add (.toAddress destination)).add (.fromAddress source)).add (.data newData)])
            else some (r.bind source newData capacity, [])
      | none => if r.map source = none then some (r, [m]) else none
    | none => if m.hasNoData then some (r.unbind source, [m]) else some (r, [])

/-- The messages of a run. -/
def recvAll : Reassemble → List Message → Option (Reassemble × List Message)
  | r, [] => some (r, [])
  | r, m :: rest => (r.recv m).bind fun (r, out) => (recvAll r rest).map fun (r, out') => (r, out ++ out')

end Reassemble

end Atcd.Rmcast
