import LiveQuery.Proofs.Ends
import LiveQuery.Subscription
import Mathlib.Logic.Relation

/-! The course of a subscription's task. Time passes up to its next wake-up, it wakes when it is
due, and it is cancelled at any moment. Its polls are noted with what they have found and
what has happened in them, and so is where its cancellation falls. -/

namespace LiveQuery

namespace Callback

/-- How the deliveries of a poll go: each call begins when the one before it has come back,
and a call that fails is the last. -/
def events (b : Callback) (now call : Nat) : List Delivery → List Event
  | [] => []
  | d :: ds =>
    let back := now + b.duration call
    .called now call (b.succeeds call) d ::
      ((if b.duration call = 0 then [] else [.returned back call]) ++
        if b.succeeds call then b.events back (call + 1) ds else [])

/-- When the last of them has come back. -/
def finish (b : Callback) (now call : Nat) : List Delivery → Nat
  | [] => now
  | _ :: ds =>
    let back := now + b.duration call
    if b.succeeds call then b.finish back (call + 1) ds else back

theorem le_finish (b : Callback) (now call : Nat) (ds : List Delivery) :
    now ≤ b.finish now call ds := by
  induction ds generalizing now call with
  | nil => exact Nat.le_refl _
  | cons d ds ih =>
    simp only [finish]
    split
    · exact Nat.le_trans (Nat.le_add_right _ _) (ih _ _)
    · exact Nat.le_add_right _ _

end Callback

/-- A settled delivery is gone, and after a failure so are those that came after it. -/
theorem Poller.pending_settle (p : Poller) (accepted : Bool) :
    (p.settle accepted).pending = if accepted then p.pending.tail else [] := by
  cases p with
  | snapshot p =>
    cases hp : p.pending <;> cases accepted <;>
      simp [settle, pending, SnapshotPoller.settle, hp]
  | incremental p =>
    rcases hp : p.pending with _ | ⟨snapshot, _ | ⟨r, rows⟩⟩
    · cases accepted <;> simp [settle, pending, IncrementalPoller.settle, hp]
    · cases accepted <;> simp [settle, pending, IncrementalPoller.settle, hp]
    · cases accepted with
      | false => simp [settle, pending, IncrementalPoller.settle, hp]
      | true =>
        cases rows <;>
          simp [settle, pending, IncrementalPoller.settle, IncrementalPoller.receive, hp]

namespace Subscription

/-- What is still to happen in the poll under way. -/
def left (s : Subscription) : List Event :=
  match s.phase with
  | .busy w accepted => .returned w (s.calls - 1) ::
      if accepted then s.callback.events w s.calls s.poller.pending.tail else []
  | _ => []

/-- When the poll under way will be over. -/
def finish (now : Nat) (s : Subscription) : Nat :=
  match s.phase with
  | .busy w accepted => if accepted then s.callback.finish w s.calls s.poller.pending.tail else w
  | _ => now

variable {s s' : Subscription} {now : Nat} {ds : List Delivery} {events : List Event}

/-- Up to the next wait: the task has gone on with its calls as they should go, and waits for
one of them, or has made them all. -/
structure Delivered (s s' : Subscription) (now : Nat) (ds : List Delivery) (events : List Event) :
    Prop where
  interval : s'.interval = s.interval
  callback : s'.callback = s.callback
  cancelled : s'.cancelled = s.cancelled
  events : events ++ s'.left = s.callback.events now s.calls ds
  finish : s'.finish now = s.callback.finish now s.calls ds
  phase : (s'.phase = .finished ∧ s.cancelled = true) ∨
    (s'.phase = .asleep (now + max 1 s.interval) ∧ s.cancelled = false) ∨
    ∃ w accepted, s'.phase = .busy w accepted ∧ now < w

theorem left_of_idle (h : ∀ w accepted, s.phase ≠ .busy w accepted) : s.left = [] := by
  unfold left
  split
  · exact absurd ‹_› (h _ _)
  · rfl

theorem finish_of_idle (h : ∀ w accepted, s.phase ≠ .busy w accepted) (now : Nat) :
    s.finish now = now := by
  unfold finish
  split
  · exact absurd ‹_› (h _ _)
  · rfl

theorem delivered_pause (now : Nat) :
    Delivered s (s.pause now) now [] [] := by
  have hphase : ((s.pause now).phase = .finished ∧ s.cancelled = true) ∨
      ((s.pause now).phase = .asleep (now + max 1 s.interval) ∧ s.cancelled = false) := by
    cases hc : s.cancelled <;> simp [pause, hc]
  have hidle : ∀ w accepted, (s.pause now).phase ≠ .busy w accepted := by
    intro w accepted
    rcases hphase with ⟨h, -⟩ | ⟨h, -⟩ <;> simp [h]
  exact ⟨rfl, rfl, rfl, left_of_idle hidle, finish_of_idle hidle now, hphase.imp_right .inl⟩

theorem delivered (hp : s.poller.pending = ds) (h : s.deliver now ds = (s', events)) :
    Delivered s s' now ds events := by
  induction ds generalizing s events with
  | nil =>
    cases h
    exact delivered_pause now
  | cons d ds ih =>
    have hset (accepted : Bool) : (s.poller.settle accepted).pending = if accepted then ds else [] := by
      rw [Poller.pending_settle, hp, List.tail_cons]
    simp only [deliver] at h
    by_cases hd : s.callback.duration s.calls = 0
    · cases ha : s.callback.succeeds s.calls with
      | true =>
        simp only [hd, ha, if_true, Prod.mk.injEq] at h
        obtain ⟨rfl, rfl⟩ := h
        obtain ⟨interval, callback, cancelled, events, finish, phase⟩ := ih (hset true) rfl
        refine ⟨interval, callback, cancelled, ?_, ?_, phase⟩
        · simp [Callback.events, hd, ha, events]
        · simp [Callback.finish, hd, ha, finish]
      | false =>
        simp only [hd, ha, if_true, Bool.false_eq_true, if_false, Prod.mk.injEq] at h
        obtain ⟨rfl, rfl⟩ := h
        obtain ⟨interval, callback, cancelled, events, finish, phase⟩ := delivered_pause now
        refine ⟨interval, callback, cancelled, ?_, ?_, phase⟩
        · simpa [Callback.events, hd, ha] using events
        · simpa [Callback.finish, hd, ha] using finish
    · simp only [hd, if_false, Prod.mk.injEq] at h
      obtain ⟨rfl, rfl⟩ := h
      refine ⟨rfl, rfl, rfl, ?_, ?_, .inr (.inr ⟨_, _, rfl, by omega⟩)⟩
      · simp [left, hp, Callback.events, hd]
      · simp [finish, hp, Callback.finish]

/-- Whether a wake-up begins a poll. An incremental task has none at its start. -/
def begins (s : Subscription) : Bool :=
  match s.phase, s.poller with
  | .fresh, .snapshot _ => true
  | .asleep _, _ => !s.cancelled
  | _, _ => false

def isBusy (s : Subscription) : Bool :=
  match s.phase with
  | .busy _ _ => true
  | _ => false

def ask (s : Subscription) : Dialogue Poller :=
  match s.phase with
  | .fresh => s.poller.start s.context
  | _ => s.poller.poll s.context

/-- At its start, and when it begins a poll, a task asks and delivers what has been found. -/
theorem wake_of_begins (h : s.phase = .fresh ∨ s.begins = true) (now : Nat) :
    s.wake now = s.ask >>= fun p =>
      pure (({ s with poller := p } : Subscription).deliverPending now) := by
  obtain ⟨context, poller, interval, callback, calls, cancelled, phase⟩ := s
  cases phase with
  | fresh => rfl
  | asleep w =>
    have hc : cancelled = false := by simpa [begins] using h
    rw [hc]
    rfl
  | busy w accepted => simp [begins] at h
  | finished => simp [begins] at h

theorem wake_of_busy {w : Nat} {accepted : Bool} (h : s.phase = .busy w accepted) (now : Nat) :
    s.wake now = pure (
      let d := ({ s with poller := s.poller.settle accepted } : Subscription).deliverPending now
      (d.1, .returned now (s.calls - 1) :: d.2)) := by
  obtain ⟨context, poller, interval, callback, calls, cancelled, phase⟩ := s
  cases h
  rfl

theorem wake_of_incremental {p : IncrementalPoller} (h : s.phase = .fresh)
    (hpoller : s.poller = .incremental p) (hp : s.poller.pending = []) (now : Nat) :
    s.wake now = pure (s.pause now, []) := by
  obtain ⟨context, poller, interval, callback, calls, cancelled, phase⟩ := s
  cases h
  cases hpoller
  change (pure (Subscription.deliver now (Poller.pending _) _) : Dialogue _) = _
  rw [hp]
  rfl

theorem wake_of_cancelled {w : Nat} (h : s.phase = .asleep w) (hc : s.cancelled = true) (now : Nat) :
    s.wake now = pure ({ s with phase := .finished }, []) := by
  obtain ⟨context, poller, interval, callback, calls, cancelled, phase⟩ := s
  cases h
  cases hc
  rfl

end Subscription

/-- A poll and what it has led to so far. -/
structure Tick where
  start : Nat
  /-- The number of its first call. -/
  call : Nat
  found : List Delivery
  events : List Event := []
  finish : Option Nat := none

namespace Tick

def course (b : Callback) (t : Tick) : List Event := b.events t.start t.call t.found

def due (b : Callback) (t : Tick) : Nat := b.finish t.start t.call t.found

/-- The poll is over: all has happened as it should, and by then. -/
def Done (b : Callback) (t : Tick) : Prop := t.events = t.course b ∧ t.finish = some (t.due b)

def extend (now : Nat) (events : List Event) (s : Subscription) (t : Tick) : Tick :=
  { t with events := t.events ++ events, finish := if s.isBusy then none else some now }

end Tick

/-- Where a cancellation falls, with the number of polls begun by then. -/
inductive Fall
  | unstarted
  | sleeping (ticks : Nat)
  | ticking (ticks : Nat)
deriving DecidableEq

/-- A task and its past, the latest tick first. -/
structure Course where
  began : Nat
  now : Nat
  task : Subscription
  ticks : List Tick := []
  events : List Event := []
  cancelled : Option Fall := none
  ended : Option Nat := none

namespace Course

def fall (c : Course) : Option Fall :=
  match c.task.phase with
  | .fresh => some .unstarted
  | .asleep _ => some (.sleeping c.ticks.length)
  | .busy _ _ => some (.ticking c.ticks.length)
  | .finished => none

def cancel (c : Course) : Course :=
  { c with task := c.task.cancel, cancelled := c.cancelled.or c.fall }

/-- After a wake-up, in which a poll with these findings may have begun. -/
def woken (c : Course) (found : List Delivery) (task : Subscription) (events : List Event) : Course :=
  { c with
    task := task
    ticks :=
      if c.task.begins then
        Tick.extend c.now events task ⟨c.now, c.task.calls, found, [], none⟩ :: c.ticks
      else if c.task.isBusy then c.ticks.modifyHead (Tick.extend c.now events task)
      else c.ticks
    events := c.events ++ events
    ended := if task.isFinished then some c.now else none }

variable {σ : Type} (reply : (r : Request) → σ → r.Reply × σ)

/-- One thing that happens to a task. A task that has not run, runs before time passes, and
time does not pass a wake-up. The world may be any at each wake-up, and a poll may be
cancelled at the instant at which it begins. -/
inductive Step : Course → Course → Prop
  | pass {c : Course} (n : Nat) (ran : c.task.phase ≠ .fresh)
      (due : ∀ w ∈ c.task.wakeTime?, c.now + n ≤ w) : Step c { c with now := c.now + n }
  | cancel (c : Course) : Step c c.cancel
  | wake {c : Course} {task : Subscription} {events : List Event} {world world' : σ}
      (due : c.task.isDue c.now = true)
      (h : (c.task.wake c.now).run reply world = ((task, events), world')) :
      Step c (c.woken (c.task.ask.run reply world).1.pending task events)
  | interrupt {c : Course} {p : Poller} {task : Subscription} {events : List Event}
      {world world' : σ} (due : c.task.isDue c.now = true) (begins : c.task.begins = true)
      (h : c.task.ask.run reply world = (p, world'))
      (hd : ({ c.task.cancel with poller := p } : Subscription).deliverPending c.now = (task, events)) :
      Step c { c.woken p.pending task events with
        cancelled := c.cancelled.or (some (.ticking (c.ticks.length + 1))) }

def start (now : Nat) (s : Subscription) : Course := { began := now, now := now, task := s }

end Course

end LiveQuery
