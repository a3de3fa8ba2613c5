import LiveQuery.Poller

/-! A subscription on a clock of milliseconds. Its task sleeps between polls and waits
for its callback, so two of its polls never overlap; cancelling is noticed when the
task next looks. -/

namespace LiveQuery

/-- How a subscriber behaves at each call, counted from 0: how long it takes, and
whether it succeeds in the end. -/
structure Callback where
  duration : Nat → Nat
  succeeds : Nat → Bool

inductive Phase
  /-- Not run yet. -/
  | fresh
  | asleep (wake : Nat)
  /-- Waiting for a callback. -/
  | busy (wake : Nat) (accepted : Bool)
  | finished
deriving DecidableEq

inductive Event
  | called (time call : Nat) (accepted : Bool) (got : Delivery)
  /-- A call that took time has come back. -/
  | returned (time call : Nat)

structure Subscription where
  context : Context
  poller : Poller
  interval : Nat
  callback : Callback
  calls : Nat := 0
  cancelled : Bool := false
  phase : Phase := .fresh

namespace Subscription

def cancel (s : Subscription) : Subscription := { s with cancelled := true }

def isFinished (s : Subscription) : Bool := s.phase = .finished

/-- The end of a poll: sleep for an interval, or stop if cancelled. The clock has no
interval shorter than a millisecond. -/
def pause (now : Nat) (s : Subscription) : Subscription :=
  { s with phase := if s.cancelled then .finished else .asleep (now + max 1 s.interval) }

/-- Makes the pending deliveries in order. A call that takes time is waited for, and a
call that fails is the last. -/
def deliver (now : Nat) : List Delivery → Subscription → Subscription × List Event
  | [], s => (s.pause now, [])
  | d :: ds, s =>
    let accepted := s.callback.succeeds s.calls
    let duration := s.callback.duration s.calls
    let event := Event.called now s.calls accepted d
    let s := { s with calls := s.calls + 1 }
    if duration = 0 then
      let s := { s with poller := s.poller.settle accepted }
      if accepted then
        let (s, events) := s.deliver now ds
        (s, event :: events)
      else (s.pause now, [event])
    else ({ s with phase := .busy (now + duration) accepted }, [event])

def deliverPending (now : Nat) (s : Subscription) : Subscription × List Event :=
  s.deliver now s.poller.pending

/-- Runs the task from a wake-up to its next wait. -/
def wake (now : Nat) (s : Subscription) : Dialogue (Subscription × List Event) :=
  match s.phase with
  | .fresh => do
    let p ← s.poller.start s.context
    return { s with poller := p }.deliverPending now
  | .asleep _ =>
    if s.cancelled then return ({ s with phase := .finished }, [])
    else do
      let p ← s.poller.poll s.context
      return { s with poller := p }.deliverPending now
  | .busy _ accepted =>
    let (s', events) := { s with poller := s.poller.settle accepted }.deliverPending now
    return (s', .returned now (s.calls - 1) :: events)
  | .finished => return (s, [])

def isDue (now : Nat) (s : Subscription) : Bool :=
  match s.phase with
  | .fresh => true
  | .asleep w => w ≤ now
  | .busy w _ => w ≤ now
  | .finished => false

def wakeTime? (s : Subscription) : Option Nat :=
  match s.phase with
  | .asleep w => some w
  | .busy w _ => some w
  | _ => none

/-- An instant by which a cancelled task that has run has ended: its wake-up, and the
calls still pending after the one in flight. -/
def lastInstant (s : Subscription) : Nat :=
  match s.phase with
  | .asleep w => w
  | .busy w _ => w + ((List.range (s.poller.pending.length - 1)).map fun i =>
      s.callback.duration (s.calls + i)).foldr (· + ·) 0
  | _ => 0

end Subscription

end LiveQuery
