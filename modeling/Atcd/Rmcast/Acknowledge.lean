import Atcd.Core.Table
import Atcd.Rmcast.Protocol
/-!
# Acknowledgement

`ACE_RMCast::Acknowledge` keeps, for each source, the number of the last message that it has
passed up, and a queue of later ones. An entry of the queue without a message stands for a
lost one. Sequence numbers are 64-bit numbers, and not 0: `--max_sn_` does not wrap.
-/
namespace Atcd.Rmcast

open Atcd.Core

/-- `++` of a 64-bit number. -/
def next64 (n : Nat) : Nat := (n + 1) % 2 ^ 64

/-- `--` of a 64-bit number. -/
def prev64 (n : Nat) : Nat := (n + (2 ^ 64 - 1)) % 2 ^ 64

/-- mirrors ACE/protocols/ace/RMCast/Acknowledge.h:52-118 -/
structure Descr where
  msg : Option Message
  nakCount : UInt64
  timer : UInt64

namespace Descr

/-- `Descr (timer)` -/
def placeholder (timer : UInt64) : Descr := ⟨none, 0, timer⟩

/-- The counters of an entry with a message are not read. -/
def ofMessage (m : Message) : Descr := ⟨some m, 0, 0⟩

def lost (d : Descr) : Bool := d.msg.isNone

end Descr

/-- mirrors Acknowledge.h:121-207 -/
structure AckQueue where
  entries : Table Nat Descr
  sn : Nat
  maxSn_ : Nat

namespace AckQueue

def ofNumber (sn : Nat) : AckQueue := ⟨[], sn, sn⟩

def find (q : AckQueue) (sn : Nat) : Option Descr := q.entries.find sn

def maxSn (q : AckQueue) : Nat := if q.entries = [] then q.sn else q.maxSn_

def bind (q : AckQueue) (sn : Nat) (d : Descr) : AckQueue :=
  { q with
    entries := q.entries.bind sn d
    maxSn_ := if q.find sn = none then max q.maxSn_ sn else q.maxSn_ }

def rebind (q : AckQueue) (sn : Nat) (d : Descr) : AckQueue :=
  { q with
    entries := q.entries.rebind sn d
    maxSn_ := if q.find sn = none then max q.maxSn_ sn else q.maxSn_ }

/-- The largest number from `sn ()` on that is bound and not above the given one, or the number
below `sn ()`. -/
def lower (entries : Table Nat Descr) (sn : Nat) : Nat → Nat
  | 0 => 0
  | n + 1 => if sn ≤ n + 1 ∧ entries.find (n + 1) = none then lower entries sn n else n + 1

def unbind (q : AckQueue) (sn : Nat) : AckQueue :=
  let entries := q.entries.unbind sn
  { q with
    entries
    maxSn_ := if (q.find sn).isSome ∧ sn = q.maxSn_ then lower entries q.sn (q.maxSn_ - 1) else q.maxSn_ }

end AckQueue

/-- The parameters: the second one is `NAK::max_count` of the payload size. -/
structure AckParameters where
  nakTimeout : UInt64
  maxElem : Nat

/-- `passed` are the messages that went up. -/
structure Acknowledge where
  hold : Table Address AckQueue
  passed : List Message

namespace Acknowledge

/-- `Data` or `NoData`: the messages that have a number. -/
def numbered (m : Message) : Bool := m.data.isSome || m.hasNoData

/-- The loop of `collapse`; the first argument bounds its turns.
mirrors ACE/protocols/ace/RMCast/Acknowledge.cpp:59-71 -/
def collapseFrom : Nat → AckQueue → Nat → AckQueue × List Message
  | 0, q, sn => ({ q with sn := prev64 sn }, [])
  | turns + 1, q, sn =>
    match (q.find sn).bind Descr.msg with
    | none => ({ q with sn := prev64 sn }, [])
    | some m =>
      let (q, ms) := collapseFrom turns (q.unbind sn) (next64 sn)
      (q, m :: ms)

/-- Every turn takes an entry out of the queue.
mirrors Acknowledge.cpp:49-72 -/
def collapse (q : AckQueue) : AckQueue × List Message := collapseFrom q.entries.length q (next64 q.sn)

/-! ## Losses -/

/-- One entry in the first loop of `track_queue`; true when a NAK asks for it.
mirrors Acknowledge.cpp:186-204 -/
def trackEntry (P : AckParameters) (d : Descr) : Descr × Bool :=
  if d.lost then
    if d.timer - 1 = 0 then
      ({ d with
        nakCount := d.nakCount + 1
        timer := (d.nakCount + 1 + 1) * P.nakTimeout }, true)
    else ({ d with timer := d.timer - 1 }, false)
  else (d, false)

def naks (P : AckParameters) (source : Address) (sns : List Nat) : List Profile :=
  (sns.toChunks P.maxElem).map fun sns => .nak source (sns.map UInt64.ofNat)

/-- mirrors Acknowledge.cpp:226-233 -/
def detectLosses (q : AckQueue) : AckQueue :=
  (List.range' (next64 q.sn) (q.maxSn - next64 q.sn)).foldl
    (fun q sn => if q.find sn = none then q.bind sn (.placeholder 1) else q) q

/-- `none` when the loop does not end, as no number fits into a `NAK`; else the queue and the
messages to send.
mirrors Acknowledge.cpp:163-234 -/
def trackQueue (P : AckParameters) (source : Address) (q : AckQueue) : Option (AckQueue × List Profile) :=
  if P.maxElem = 0 ∧ q.entries ≠ [] then none
  else
    let asked := (q.entries.filter fun e => (trackEntry P e.2).2).map Prod.fst
    let q := { q with entries := q.entries.map fun e => (e.1, (trackEntry P e.2).1) }
    some (detectLosses q, naks P source asked)

/-! ## Reception -/

/-- What a history tells about one source. -/
def recvHistory (map : Table Address UInt64) (source : Address) (q : AckQueue) : AckQueue :=
  match map.find source with
  | none => q
  | some sn => if sn ≠ 0 ∧ q.maxSn < sn.toNat then q.bind sn.toNat (.placeholder 1) else q

/-- mirrors Acknowledge.cpp:245-263 -/
def recvNrtm (hold : Table Address AckQueue) (m : Message) : Table Address AckQueue :=
  match m.nrtm with
  | none => hold
  | some map => hold.map fun (source, q) => (source, recvHistory map source q)

/-- A message with a number, from this source.
mirrors Acknowledge.cpp:272-307 -/
def recvNumbered (s : Acknowledge) (source : Address) (sn : Nat) (m : Message) : Acknowledge :=
  match s.hold.find source with
  | none =>
    { s with
      hold := s.hold.bind source (.ofNumber sn)
      passed := s.passed ++ [m] }
  | some q =>
    if sn ≤ q.sn then s
    else if sn = next64 q.sn then
      let (q, ms) := collapse (q.rebind sn (.ofMessage m))
      { s with
        hold := s.hold.set source q
        passed := s.passed ++ ms }
    else { s with hold := s.hold.set source (q.rebind sn (.ofMessage m)) }

/-- `none` when a profile is missing.
mirrors Acknowledge.cpp:236-317 -/
def recv (s : Acknowledge) (m : Message) : Option Acknowledge :=
  let s := { s with hold := recvNrtm s.hold m }
  if numbered m then
    m.source.bind fun source => m.sn.map fun sn => s.recvNumbered source sn.toNat m
  else some { s with passed := s.passed ++ [m] }

/-- A message arrives, or the tracker looks at the queue of a source. -/
inductive AckStep where
  | recv (m : Message)
  | track (source : Address)

def step (P : AckParameters) (s : Acknowledge) : AckStep → Option Acknowledge
  | .recv m => s.recv m
  | .track source =>
    (s.hold.find source).bind fun q =>
      (trackQueue P source q).map fun (q, _) => { s with hold := s.hold.set source q }

def start : Acknowledge := ⟨[], []⟩

end Acknowledge

end Atcd.Rmcast
