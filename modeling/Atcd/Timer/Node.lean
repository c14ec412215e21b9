import Atcd.Time.TimeValue
/-!
# Timer nodes

`ACE_Timer_Node_T`: what a timer queue stores for one timer. The links of the
node are those of the container that holds it, and are modelled there.
-/
namespace Atcd.Timer

open Atcd.Time

/-- mirrors ACE/ace/Timer_Queue_Iterator.h:36-122 -/
structure TimerNode (τ : Type) where
  type : τ                 -- the event handler
  act : Nat                -- the asynchronous completion token
  timerValue : TimeValue   -- when the timer expires
  interval : TimeValue     -- zero for a one-shot timer
  timerId : Nat
  deriving DecidableEq, Repr

def TimerNode.setTimerValue {τ : Type} (n : TimerNode τ) (v : TimeValue) : TimerNode τ :=
  { n with timerValue := v }

end Atcd.Timer
