import LiveQuery.Subscription

/-! Subscriptions side by side on one virtual clock. The clock stands still until it is
advanced, and then jumps from one wake-up to the next. -/

namespace LiveQuery

/-- A subscription under its name, with its handle held or dropped. A dropped handle
does not stop the task. -/
structure Task where
  name : String
  subscription : Subscription
  held : Bool := true

/-- Tasks in the order in which they began to wait, and what happened in the order it
did. -/
structure Timeline (σ : Type) where
  now : Nat := 0
  world : σ
  tasks : List Task := []
  events : List (String × Event) := []

inductive HandleError
  | unknown
  /-- A join of a task that is not cancelled, or that was joined before. -/
  | running
deriving DecidableEq

def HandleError.message : HandleError → String
  | unknown => "no such subscription"
  | running => "join of a running subscription"

namespace Timeline

variable {σ : Type} (reply : (r : Request) → σ → r.Reply × σ)

def begin (name : String) (s : Subscription) (t : Timeline σ) : Timeline σ :=
  { t with tasks := (t.tasks.map fun k => if k.name = name then { k with held := false } else k) ++
      [{ name := name, subscription := s }] }

def task? (name : String) (t : Timeline σ) : Option Subscription :=
  (t.tasks.find? fun k => k.held && k.name = name).map Task.subscription

def status (name : String) (t : Timeline σ) : Except HandleError Subscription :=
  match t.task? name with
  | some s => .ok s
  | none => .error .unknown

/-- Whether the name can be joined. A name stays known when its handle is gone. -/
def joinable (name : String) (t : Timeline σ) : Except HandleError Unit :=
  if (t.task? name).any Subscription.cancelled then .ok ()
  else if t.tasks.any (·.name = name) then .error .running
  else .error .unknown

def cancel (name : String) (t : Timeline σ) : Timeline σ :=
  { t with tasks := t.tasks.map fun k =>
      if k.held && k.name = name then { k with subscription := k.subscription.cancel } else k }

def drop (name : String) (t : Timeline σ) : Timeline σ :=
  { t with tasks := t.tasks.map fun k => if k.name = name then { k with held := false } else k }

/-- Runs tasks one after the other, each up to its next wait. -/
def wakeAll (now : Nat) : List Task → σ → List Task × List (String × Event) × σ
  | [], world => ([], [], world)
  | k :: ks, world =>
    let ((s, events), world) := (k.subscription.wake now).run reply world
    let (ks, later, world) := wakeAll now ks world
    ({ k with subscription := s } :: ks, events.map (k.name, ·) ++ later, world)

/-- Runs the tasks that are due. They begin their next wait after the others did. -/
def settle (t : Timeline σ) : Timeline σ :=
  let (due, others) := t.tasks.partition fun k => k.subscription.isDue t.now
  let (ran, events, world) := wakeAll reply t.now due t.world
  { t with tasks := others ++ ran, world := world, events := t.events ++ events }

/-- The earliest wake-up after `now` and up to `target`. -/
def nextInstant (now target : Nat) (tasks : List Task) : Option { n : Nat // now < n ∧ n ≤ target } :=
  tasks.foldl (fun best k =>
    match k.subscription.wakeTime? with
    | none => best
    | some w =>
      if h : now < w ∧ w ≤ target then
        match best with
        | some b => if w < b.1 then some ⟨w, h⟩ else some b
        | none => some ⟨w, h⟩
      else best) none

/-- Runs up to `target`, or to the first instant at which `stop` holds. -/
def runUntil (stop : List Task → Bool) (target now : Nat) (t : Timeline σ) : Timeline σ :=
  if stop t.tasks then { t with now := now }
  else
    match nextInstant now target t.tasks with
    | none => { t with now := max now target }
    | some n => runUntil stop target n.1 (settle reply { t with now := n.1 })
termination_by target - now
decreasing_by have := n.2; omega

/-- Lets the clock run for some milliseconds, after the tasks that have not run yet.
What falls on the last instant is left for the next time that the clock runs. -/
def advance : Nat → Timeline σ → Timeline σ
  | 0, t => t
  | ms + 1, t =>
    { runUntil reply (fun _ => false) (t.now + ms) t.now (settle reply t) with now := t.now + ms + 1 }

def hasEnded (name : String) (tasks : List Task) : Bool :=
  tasks.all fun k => !(k.held && k.name = name) || k.subscription.isFinished

/-- Lets the clock run until the named task, which is cancelled, has ended. -/
def awaitEnd (name : String) (t : Timeline σ) : Timeline σ :=
  if hasEnded name t.tasks then t
  else
    let t := settle reply t
    let target := ((t.task? name).map Subscription.lastInstant).getD t.now
    runUntil reply (hasEnded name) target t.now t

def join (name : String) (t : Timeline σ) : Timeline σ := (awaitEnd reply name t).drop name

def takeEvents (t : Timeline σ) : List (String × Event) × Timeline σ :=
  (t.events, { t with events := [] })

end Timeline

end LiveQuery
