import Atcd.Timer.Node
import Atcd.Core.TailInsert
/-!
# The timing wheel

`ACE_Timer_Wheel_T`: an array of spokes, each a circular list with a dummy root
kept sorted by time. A timer goes to the spoke that its time hashes to. The
root of a spoke also holds the counter for timer ids.

A spoke is the list of nodes behind its root. A node is found by its place (the
spoke and the position in it), which stands for the pointer: two nodes are the
same when their places are. Timer ids are the bit patterns of a `long` of
`longBits` bits, so that -1 is the pattern of ones.
-/
namespace Atcd.Timer

open Atcd.Core Atcd.Time

variable {τ : Type}

structure Spoke (τ : Type) where
  timers : List (TimerNode τ)
  timerId : Nat     -- of the root: the id counter
  act : Nat         -- of the root: the next count that may be in use, 0 for none

/-- mirrors ACE/ace/Timer_Wheel_T.h:193-215 -/
structure TimerWheel (τ : Type) where
  longBits : Nat
  spokeBits : Nat
  resBits : Nat
  spokes : Nat → Spoke τ
  earliestSpoke : Nat
  timerCount : Nat

namespace TimerWheel

/-- The loop of `power2bits` counts the bits, 1 for zero; an `int` has no more than 32. -/
def countBits : Nat → Nat → Nat
  | 0, _ => 0
  | fuel + 1, tmp =>
    let tmp := tmp >>> 1
    if tmp ≠ 0 then countBits fuel tmp + 1 else 1

/-- mirrors ACE/ace/Timer_Wheel_T.cpp:94-125 -/
def power2bits (n minBits maxBits : Nat) : Nat :=
  let max := 1 <<< maxBits - 1
  if n > max then maxBits
  else
    let i := countBits 32 n
    if i ≤ minBits then minBits
    else
      let a : Int := (1 <<< i : Nat) - n
      let b : Int := (1 <<< (i - 1) : Nat) - n
      let b := if b < 0 then -b else b
      if b < a then i - 1 else i

/-- The counts are below 2^31, as an `int` has to hold them.
mirrors Timer_Wheel_T.cpp:131-163 -/
def openI (longBits spokes res : Nat) : TimerWheel τ where
  longBits := longBits
  spokeBits := power2bits spokes 3 12
  resBits := power2bits res 1 20
  spokes := fun _ => ⟨[], 0, 0⟩
  earliestSpoke := 0
  timerCount := 0

def spokeCount (w : TimerWheel τ) : Nat := 1 <<< w.spokeBits

def wheelTime (w : TimerWheel τ) : TimeValue := TimeValue.ofMsec (1 <<< w.resBits : Nat)

def setSpoke (w : TimerWheel τ) (spoke : Nat) (s : Spoke τ) : TimerWheel τ :=
  { w with spokes := Function.update w.spokes spoke s }

/-- The position of the first node with the id, and the node.
mirrors Timer_Wheel_T.cpp:206-220 -/
def findSpokeNode (w : TimerWheel τ) (spoke timerId : Nat) : Option (TimerNode τ × Nat) :=
  (w.spokes spoke).timers.zipIdx.find? (fun p => p.1.timerId = timerId)

def minusOne (w : TimerWheel τ) : Nat := 2 ^ w.longBits - 1

/-- mirrors Timer_Wheel_T.cpp:224-253 -/
def findNode (w : TimerWheel τ) (timerId : Nat) : Option (Nat × TimerNode τ × Nat) :=
  if timerId = w.minusOne then none
  else
    let spokeMask := w.spokeCount - 1
    let start := timerId &&& spokeMask
    match w.findSpokeNode start timerId with
    | some n => some (start, n)
    | none =>
      (List.range w.spokeCount).findSome? fun i =>
        if i ≠ start then (w.findSpokeNode i timerId).map fun n => (i, n) else none

/-- mirrors Timer_Wheel_T.cpp:260-265 -/
def isEmpty (w : TimerWheel τ) : Bool := decide (w.timerCount = 0)

/-- mirrors Timer_Wheel_T.cpp:788-796 -/
def getFirst (w : TimerWheel τ) : Option (TimerNode τ) := (w.spokes w.earliestSpoke).timers.head?

/-- mirrors Timer_Wheel_T.cpp:271-280 -/
def earliestTime (w : TimerWheel τ) : TimeValue :=
  match w.getFirst with
  | some n => n.timerValue
  | none => .zero

/-- mirrors Timer_Wheel_T.cpp:285-293 -/
def calculateSpoke (w : TimerWheel τ) (t : TimeValue) : Nat :=
  (t.msec w.longBits >>> w.resBits) &&& (w.spokeCount - 1)

def timerIdOf (w : TimerWheel τ) (cnt spoke : Nat) : Nat :=
  ((cnt <<< w.spokeBits) ||| spoke) % 2 ^ w.longBits

/-- The search of `generate_timer_id`: where it finds an unused id it goes on
to read through the null node of its search, and there is no result. -/
def searchTimerId (w : TimerWheel τ) (spoke : Nat) : Nat → Nat → Option Nat
  | 0, _ => some w.minusOne
  | n + 1, cnt =>
    match w.findSpokeNode spoke (w.timerIdOf cnt spoke) with
    | none => none
    | some _ => searchTimerId w spoke n (cnt + 1)

/-- mirrors Timer_Wheel_T.cpp:300-389 -/
def generateTimerId (w : TimerWheel τ) (spoke : Nat) : Option (Nat × TimerWheel τ) :=
  let cntBits := w.longBits - w.spokeBits
  let maxCnt := 1 <<< cntBits - 1
  let maxCnt := if spoke = w.spokeCount then maxCnt - 1 else maxCnt
  let root := w.spokes spoke
  let root := if root.timers.isEmpty = true then { root with act := 0 } else root
  let nextCnt := root.act
  let cnt := root.timerId
  if cnt ≥ maxCnt ∧ root.timers.isEmpty = true then
    some (spoke, w.setSpoke spoke { root with timerId := 1 })
  else if cnt ≥ maxCnt then
    (w.searchTimerId spoke (maxCnt - 1) 0).map fun id => (id, w.setSpoke spoke root)
  else if nextCnt = 0 ∨ cnt < nextCnt then
    some (w.timerIdOf cnt spoke, w.setSpoke spoke { root with timerId := cnt + 1 })
  else (w.searchTimerId spoke (maxCnt - 1 - cnt) cnt).map fun id => (id, w.setSpoke spoke root)

/-- The shared part of schedule and reschedule.
mirrors Timer_Wheel_T.cpp:448-484 -/
def scheduleNode (w : TimerWheel τ) (n : TimerNode τ) (spoke : Nat) (expire : TimeValue) :
    TimerWheel τ :=
  let w := if w.isEmpty = true ∨ expire.lt w.earliestTime = true then { w with earliestSpoke := spoke }
    else w
  let root := w.spokes spoke
  let w := { w with timerCount := w.timerCount + 1 }
  if root.timers.isEmpty = true then w.setSpoke spoke { root with timers := [n] }
  else w.setSpoke spoke { root with timers := tailInsert (fun p => p.timerValue.gt expire) n root.timers }

/-- The outer `none` is that of `generateTimerId`; the result is the id, or -1.
mirrors Timer_Wheel_T.cpp:404-430 -/
def scheduleI (w : TimerWheel τ) (type : τ) (act : Nat) (futureTime interval : TimeValue) :
    Option (Nat × TimerWheel τ) :=
  let spoke := w.calculateSpoke futureTime
  (w.generateTimerId spoke).map fun (id, w) =>
    if id ≠ w.minusOne then
      (id, w.scheduleNode ⟨type, act, futureTime, interval, id⟩ spoke futureTime)
    else (id, w)

/-- mirrors Timer_Wheel_T.cpp:438-445 -/
def reschedule (w : TimerWheel τ) (n : TimerNode τ) : TimerWheel τ :=
  let expire := n.timerValue
  let spoke := w.calculateSpoke expire
  w.scheduleNode n spoke expire

/-- mirrors Timer_Wheel_T.cpp:750-758 -/
def unlink (w : TimerWheel τ) (spoke k : Nat) : TimerWheel τ :=
  { w with timerCount := w.timerCount - 1 }.setSpoke spoke
    { w.spokes spoke with timers := (w.spokes spoke).timers.eraseIdx k }

/-- The loop of `recalc_earliest`: the spoke where it stops. -/
def recalcLoop (w : TimerWheel τ) (last : TimeValue) : Nat → Nat → TimeValue → Nat → Nat
  | 0, _, _, es => es
  | n + 1, spoke, et, es =>
    let next := if spoke + 1 ≥ w.spokeCount then 0 else spoke + 1
    match (w.spokes spoke).timers with
    | [] => recalcLoop w last n next et es
    | x :: _ =>
      let t := x.timerValue
      if t.lt (last.add w.wheelTime) = true then spoke
      else if et = .zero ∨ t.lt et = true then recalcLoop w last n next t spoke
      else recalcLoop w last n next et es

/-- mirrors Timer_Wheel_T.cpp:658-701 -/
def recalcEarliest (w : TimerWheel τ) (last : TimeValue) : TimerWheel τ :=
  if w.isEmpty = true then w
  else { w with earliestSpoke := w.recalcLoop last w.spokeCount w.earliestSpoke .zero 0 }

/-- mirrors Timer_Wheel_T.cpp:609-648 -/
def cancelId (w : TimerWheel τ) (timerId : Nat) : Option (TimerNode τ) × TimerWheel τ :=
  match w.findNode timerId with
  | some (spoke, n, k) =>
    let last := n.timerValue
    -- the node is the first one when it is at the front of the earliest spoke
    let recalc := spoke = w.earliestSpoke ∧ k = 0
    let w := w.unlink spoke k
    (some n, if recalc then w.recalcEarliest last else w)
  | none => (none, w)

/-- `none`: no first node in a wheel that is not empty.
mirrors Timer_Wheel_T.cpp:526-589 -/
def cancelType [DecidableEq τ] (w : TimerWheel τ) (type : τ) : Option (Nat × TimerWheel τ) :=
  if w.isEmpty = true then some (0, w)
  else
    w.getFirst.map fun first =>
      let last := first.timerValue
      let recalc := first.type = type
      let numCanceled := ((List.range w.spokeCount).map fun i =>
        ((w.spokes i).timers.filter (·.type = type)).length).sum
      let w := { w with
        spokes := fun i => { w.spokes i with timers := (w.spokes i).timers.filter (·.type ≠ type) },
        timerCount := w.timerCount - numCanceled }
      (numCanceled, if recalc then w.recalcEarliest last else w)

/-- mirrors Timer_Wheel_T.cpp:761-771 -/
def removeFirstExpired (w : TimerWheel τ) (now : TimeValue) : Option (TimerNode τ) × TimerWheel τ :=
  match w.getFirst with
  | some n =>
    if n.timerValue.le now = true then
      (some n, (w.unlink w.earliestSpoke 0).recalcEarliest n.timerValue)
    else (none, w)
  | none => (none, w)

/-- mirrors Timer_Wheel_T.cpp:743-747 -/
def removeFirst (w : TimerWheel τ) : Option (TimerNode τ) × TimerWheel τ :=
  w.removeFirstExpired TimeValue.maxTime

end TimerWheel

end Atcd.Timer
