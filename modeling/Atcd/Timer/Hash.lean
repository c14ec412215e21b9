import Atcd.Timer.Queue
/-!
# The hash timer queue

`ACE_Timer_Hash_T`: an array of buckets, each a timer queue of its own. A timer
goes to the bucket of the seconds of its time. The asynchronous completion token
of its node in the bucket is a `Hash_Token`, which holds the user's token, the
bucket and the id in the bucket; the address of the `Hash_Token` is the timer id.

Addresses are numbers. A token on the free list stays readable; a new one gets
the next address. The counter `size_` wraps when it is decremented at zero.
-/
namespace Atcd.Timer

open Atcd.Time

variable {B τ : Type}

/-- What the hash queue calls on a bucket. The id of `schedule` is never -1. -/
structure TimerBucket (B τ : Type) where
  isEmpty : B → Bool
  earliestTime : B → TimeValue
  getFirst : B → Option (TimerNode τ)
  schedule : B → τ → Nat → TimeValue → TimeValue → Nat × B
  cancel : B → Nat → Bool × B
  removeFirst : B → Option (TimerNode τ) × B
  items : B → List (TimerNode τ)     -- in the order of the bucket's iterator

/-- mirrors ACE/ace/Timer_Hash_T.cpp:18-52 -/
structure HashToken (τ : Type) where
  act : Nat
  pos : Nat
  origId : Nat
  type : τ

/-- mirrors ACE/ace/Timer_Hash_T.h:280-330 -/
structure TimerHash (B τ : Type) where
  tableSize : Nat
  table : Nat → B
  size : Nat
  earliestPosition : Nat
  tokens : Nat → HashToken τ
  freeTokens : List Nat
  nextToken : Nat

namespace TimerHash

variable (V : TimerBucket B τ)

/-- mirrors Timer_Hash_T.cpp:275-309 -/
def init (tableSize : Nat) (bucket : B) (garbage : HashToken τ) : TimerHash B τ where
  tableSize := tableSize
  table := fun _ => bucket
  size := 0
  earliestPosition := 0
  tokens := fun _ => garbage
  freeTokens := []
  nextToken := 0

/-- `--size_` on a `size_t`. -/
def decSize (n : Nat) : Nat := if n = 0 then 2 ^ 64 - 1 else n - 1

def setBucket (q : TimerHash B τ) (i : Nat) (b : B) : TimerHash B τ :=
  { q with table := Function.update q.table i b }

def setToken (q : TimerHash B τ) (h : Nat) (t : HashToken τ) : TimerHash B τ :=
  { q with tokens := Function.update q.tokens h t }

/-- The `remove` of the token list: a free token, or a new one.
mirrors ACE/ace/Free_List.cpp:73-93 -/
def takeToken (q : TimerHash B τ) : Nat × TimerHash B τ :=
  match q.freeTokens with
  | h :: rest => (h, { q with freeTokens := rest })
  | [] => (q.nextToken, { q with nextToken := q.nextToken + 1 })

/-- mirrors Free_List.cpp:54-71 -/
def addToken (q : TimerHash B τ) (h : Nat) : TimerHash B τ :=
  { q with freeTokens := h :: q.freeTokens }

def position (q : TimerHash B τ) (t : TimeValue) : Nat := TimeValue.uint64 t.sec % q.tableSize

/-- mirrors Timer_Hash_T.cpp:388-394 -/
def isEmpty (q : TimerHash B τ) : Bool := V.isEmpty (q.table q.earliestPosition)

/-- mirrors Timer_Hash_T.cpp:398-404 -/
def earliestTime (q : TimerHash B τ) : TimeValue := V.earliestTime (q.table q.earliestPosition)

/-- Schedule and reschedule put the timer of token `h` into bucket `pos`, and
update the earliest position. -/
def scheduleAt (q : TimerHash B τ) (h pos : Nat) (type : τ) (futureTime interval : TimeValue) :
    TimerHash B τ :=
  let (origId, b) := V.schedule (q.table pos) type h futureTime interval
  let q := (q.setBucket pos b).setToken h { q.tokens h with origId := origId }
  if V.isEmpty (q.table q.earliestPosition) = true ∨
      (V.earliestTime (q.table pos)).lt (V.earliestTime (q.table q.earliestPosition)) = true then
    { q with earliestPosition := pos }
  else q

/-- mirrors Timer_Hash_T.cpp:427-462 -/
def reschedule (q : TimerHash B τ) (expired : TimerNode τ) : TimerHash B τ :=
  let h := expired.act
  let pos := q.position expired.timerValue
  let q := q.setToken h { q.tokens h with pos := pos }
  q.scheduleAt V h pos expired.type expired.timerValue expired.interval

/-- The result is the timer id.
mirrors Timer_Hash_T.cpp:467-517 -/
def scheduleI (q : TimerHash B τ) (type : τ) (act : Nat) (futureTime interval : TimeValue) :
    Nat × TimerHash B τ :=
  let pos := q.position futureTime
  let (h, q) := q.takeToken
  let q := q.setToken h ⟨act, pos, 0, type⟩
  let q := q.scheduleAt V h pos type futureTime interval
  (h, { q with size := q.size + 1 })

def findNewEarliestLoop (q : TimerHash B τ) : Nat → Nat → Nat → Nat
  | 0, _, earliest => earliest
  | n + 1, i, earliest =>
    let e := V.earliestTime (q.table earliest)
    if V.isEmpty (q.table i) = false ∧
        (V.isEmpty (q.table earliest) = true ∨ e = .zero ∨
          (V.earliestTime (q.table i)).le e = true) then
      findNewEarliestLoop q n (i + 1) i
    else findNewEarliestLoop q n (i + 1) earliest

/-- mirrors Timer_Hash_T.cpp:728-738 -/
def findNewEarliest (q : TimerHash B τ) : TimerHash B τ :=
  { q with earliestPosition := q.findNewEarliestLoop V q.tableSize 0 q.earliestPosition }

/-- The timer id is `none` for -1. The outer `none` is an address that never was
a token.
mirrors Timer_Hash_T.cpp:559-624 -/
def cancelId (q : TimerHash B τ) (timerId : Option Nat) : Option (Bool × TimerHash B τ) :=
  match timerId with
  | none => some (false, q)
  | some h =>
    if h ≥ q.nextToken then none
    else
      let (result, b) := V.cancel (q.table (q.tokens h).pos) (q.tokens h).origId
      let q := q.setBucket (q.tokens h).pos b
      if result = true then
        let q := if (q.tokens h).pos = q.earliestPosition then q.findNewEarliest V else q
        let q := q.addToken h
        some (true, { q with size := decSize q.size })
      else some (false, q)

/-- The tokens that `cancel` by type stores in its array.
mirrors Timer_Hash_T.cpp:647-662 -/
def tokensOf [DecidableEq τ] (q : TimerHash B τ) (type : τ) : List Nat :=
  (List.range q.tableSize).flatMap fun i =>
    ((V.items (q.table i)).filter (·.type = type)).map (·.act)

/-- The second loop of `cancel` by type. `none`: the assertion that the bucket
had the timer.
mirrors Timer_Hash_T.cpp:667-681 -/
def cancelTokens (q : TimerHash B τ) : List Nat → Option (TimerHash B τ)
  | [] => some q
  | h :: hs =>
    let (result, b) := V.cancel (q.table (q.tokens h).pos) (q.tokens h).origId
    if result = true then
      let q := (q.setBucket (q.tokens h).pos b).addToken h
      cancelTokens { q with size := decSize q.size } hs
    else none

/-- `none`: more tokens than the array of `size_` holds, or `cancelTokens`.
mirrors Timer_Hash_T.cpp:629-705 -/
def cancelType [DecidableEq τ] (q : TimerHash B τ) (type : τ) : Option (Nat × TimerHash B τ) :=
  let timerIds := q.tokensOf V type
  if timerIds.length > q.size then none
  else (q.cancelTokens V timerIds).map fun q => (timerIds.length, q.findNewEarliest V)

/-- mirrors Timer_Hash_T.cpp:710-724 -/
def removeFirst (q : TimerHash B τ) : Option (TimerNode τ) × TimerHash B τ :=
  if q.isEmpty V = true then (none, q)
  else
    let (temp, b) := V.removeFirst (q.table q.earliestPosition)
    let q := (q.setBucket q.earliestPosition b).findNewEarliest V
    (temp, { q with size := decSize q.size })

/-- mirrors Timer_Hash_T.cpp:741-750 -/
def getFirst (q : TimerHash B τ) : Option (TimerNode τ) :=
  if q.isEmpty V = true then none else V.getFirst (q.table q.earliestPosition)

/-- mirrors Timer_Hash_T.cpp:753-761 -/
def freeNode (q : TimerHash B τ) (node : TimerNode τ) : TimerHash B τ := q.addToken node.act

/-- The virtual functions, as the base class calls them. -/
def vtable : TimerQueue (TimerHash B τ) τ where
  isEmpty := isEmpty V
  earliestTime := earliestTime V
  removeFirst := removeFirst V
  reschedule := reschedule V
  freeNode := freeNode

/-- mirrors Timer_Hash_T.cpp:763-779 -/
def dispatchInfoI (curTime : TimeValue) (q : TimerHash B τ) :
    Option (Option (Fired τ) × TimerHash B τ) :=
  ((vtable V).dispatchInfoI curTime q).map fun (info, q) =>
    (info.map fun f => { f with info := { f.info with act := (q.tokens f.info.act).act } }, q)

/-- The loop of `expire` over bucket `i`, for at most `fuel` timers. `none` is
the end of the fuel, the use of a null node or the assertion on the position.
mirrors Timer_Hash_T.cpp:803-858 -/
def expireBucket (curTime : TimeValue) (i : Nat) :
    Nat → TimerHash B τ → List (Fired τ) → Option (List (Fired τ) × TimerHash B τ)
  | 0, _, _ => none
  | fuel + 1, q, fired =>
    if V.isEmpty (q.table i) = false ∧ (V.earliestTime (q.table i)).le curTime = true then
      match V.removeFirst (q.table i) with
      | (none, _) => none
      | (some expired, b) =>
        let q := q.setBucket i b
        let h := expired.act
        if (q.tokens h).pos ≠ i then none
        else
          let info := { expired.getDispatchInfo with act := (q.tokens h).act }
          if expired.interval.gt .zero = true then
            let q := q.reschedule V (expired.recomputeNextAbsIntervalTime curTime)
            expireBucket curTime i fuel q (fired ++ [⟨expired, info⟩])
          else
            let q := q.freeNode expired
            expireBucket curTime i fuel { q with size := decSize q.size }
              (fired ++ [⟨expired, info⟩])
    else some (fired, q)

def expireLoop (curTime : TimeValue) (fuel : Nat) :
    List Nat → TimerHash B τ → List (Fired τ) → Option (List (Fired τ) × TimerHash B τ)
  | [], q, fired => some (fired, q)
  | i :: is, q, fired =>
    (expireBucket V curTime i fuel q fired).bind fun (fired, q) => expireLoop curTime fuel is q fired

/-- mirrors Timer_Hash_T.cpp:790-865 -/
def expire (curTime : TimeValue) (fuel : Nat) (q : TimerHash B τ) :
    Option (List (Fired τ) × TimerHash B τ) :=
  (expireLoop V curTime fuel (List.range q.tableSize) q []).map fun (fired, q) =>
    (fired, if fired.length > 0 then q.findNewEarliest V else q)

end TimerHash

end Atcd.Timer
