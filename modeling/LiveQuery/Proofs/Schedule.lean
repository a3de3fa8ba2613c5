import LiveQuery.Proofs.Course

/-! When the task of a subscription does what: the instants at which its polls begin, how they
go, and when it ends. -/

namespace LiveQuery

namespace Subscription

/-- A snapshot subscription polls when its task starts, an incremental one an interval later. -/
def firstStart (s : Subscription) (began : Nat) : Nat :=
  match s.poller with
  | .snapshot _ => began
  | .incremental _ => began + s.interval

/-- When the next tick is to start. -/
def nextStart (s : Subscription) (began : Nat) : List Tick → Nat
  | [] => s.firstStart began
  | t :: _ => t.due s.callback + s.interval

end Subscription

namespace Course

/-- The end of the task is at `time`: then and not before. -/
def EndsAt (c : Course) (time : Nat) : Prop :=
  match c.ended with
  | none => c.now ≤ time
  | some e => e = time

/-- What a cancellation leads to. -/
def Heeds (s : Subscription) (c : Course) : Fall → Prop
  | .unstarted =>
    match s.poller with
    | .incremental _ => c.ticks = [] ∧ c.EndsAt c.began
    | .snapshot _ => (c.ticks = [] ∧ c.ended = none ∧ c.now = c.began) ∨
        ∃ t, c.ticks = [t] ∧ c.EndsAt (t.due s.callback)
  | .sleeping n => c.ticks.length = n ∧ c.EndsAt (s.nextStart c.began c.ticks)
  | .ticking n => c.ticks.length = n ∧ ∃ t ∈ c.ticks.head?, c.EndsAt (t.due s.callback)

/-- The task of the subscription `s` is on schedule. -/
structure OnSchedule (s : Subscription) (c : Course) : Prop where
  /-- Nothing is called outside of the ticks. -/
  events : c.events = c.ticks.reverse.flatMap Tick.events
  /-- A tick starts one interval after the end of the one before. -/
  starts : ∀ t earlier, t :: earlier <:+ c.ticks → t.start = s.nextStart c.began earlier
  /-- Before a tick starts, those before it are over. -/
  earlier : ∀ t ∈ c.ticks.tail, t.Done s.callback
  latest : ∀ t ∈ c.ticks.head?, t.Done s.callback ∨
    t.finish = none ∧ t.events <+: t.course s.callback ∧ c.now ≤ t.due s.callback ∧ c.ended = none
  /-- The next tick is not late. -/
  prompt : c.ended = none → (∀ t ∈ c.ticks.head?, t.Done s.callback) →
    c.now ≤ s.nextStart c.began c.ticks
  /-- Only a cancellation ends the task. -/
  goes_on : c.cancelled = none → c.ended = none
  heeds : ∀ f ∈ c.cancelled, c.Heeds s f

/-- Ticks that are over and spaced by the interval. -/
def Regular (s : Subscription) (began : Nat) : List Tick → Prop
  | [] => True
  | t :: earlier => t.Done s.callback ∧ t.start = s.nextStart began earlier ∧ Regular s began earlier

/-- A cancellation during the tick that comes after these. -/
def DuringTick (s : Subscription) (earlier : List Tick) (f : Fall) : Prop :=
  f = .ticking (earlier.length + 1) ∨ f = .unstarted ∧ earlier = [] ∧ ∃ p, s.poller = .snapshot p

def AtPhase (s : Subscription) (c : Course) : Phase → Prop
  | .fresh => c.task.poller = s.poller ∧ c.ticks = [] ∧ c.now = c.began ∧ c.ended = none ∧
      ∀ f ∈ c.cancelled, f = .unstarted
  | .asleep w => Regular s c.began c.ticks ∧ c.now ≤ w ∧ w = s.nextStart c.began c.ticks ∧
      c.ended = none ∧ ∀ f ∈ c.cancelled, f = .sleeping c.ticks.length
  | .busy w _ => ∃ t earlier, c.ticks = t :: earlier ∧ t.finish = none ∧
      t.events ++ c.task.left = t.course s.callback ∧ c.task.finish c.now = t.due s.callback ∧
      t.start = s.nextStart c.began earlier ∧ Regular s c.began earlier ∧ c.now ≤ w ∧
      c.ended = none ∧ ∀ f ∈ c.cancelled, DuringTick s earlier f
  | .finished => Regular s c.began c.ticks ∧ c.ended.isSome ∧
      ∃ f, c.cancelled = some f ∧ c.Heeds s f

/-- What a task is known to be at between two steps. -/
structure Standing (s : Subscription) (c : Course) : Prop where
  interval : c.task.interval = s.interval
  callback : c.task.callback = s.callback
  cancelled : c.task.cancelled = c.cancelled.isSome
  events : c.events = c.ticks.reverse.flatMap Tick.events
  phase : c.AtPhase s c.task.phase

variable {s u task : Subscription} {c c' : Course} {t : Tick} {earlier : List Tick}
  {events : List Event} {ds : List Delivery} {began now : Nat} {f : Option Fall}

theorem done_extend (hd : u.Delivered task now ds events) (callback : u.callback = s.callback)
    (hcourse : t.events ++ s.callback.events now u.calls ds = t.course s.callback)
    (hdue : s.callback.finish now u.calls ds = t.due s.callback)
    (hidle : ∀ w accepted, task.phase ≠ .busy w accepted) :
    (t.extend now events task).Done s.callback := by
  have hevents := hd.events
  have hfinish := hd.finish
  rw [Subscription.left_of_idle hidle, List.append_nil, callback] at hevents
  rw [Subscription.finish_of_idle hidle, callback, hdue] at hfinish
  have hbusy : task.isBusy = false := by
    unfold Subscription.isBusy
    split
    · exact absurd ‹_› (hidle _ _)
    · rfl
  constructor
  · simp only [Tick.extend, hevents]
    exact hcourse
  · simp only [Tick.extend, hbusy, Bool.false_eq_true, if_false]
    exact congrArg some hfinish

/-- The deliveries of a tick, up to the next wait. -/
theorem standing_deliver (hpos : 0 < s.interval) (interval : u.interval = s.interval)
    (callback : u.callback = s.callback) (cancelled : u.cancelled = f.isSome)
    (hcourse : t.events ++ s.callback.events now u.calls u.poller.pending = t.course s.callback)
    (hdue : s.callback.finish now u.calls u.poller.pending = t.due s.callback)
    (hstart : t.start = s.nextStart began earlier) (hearlier : Regular s began earlier)
    (hfall : ∀ x ∈ f, DuringTick s earlier x)
    (h : u.deliverPending now = (task, events)) :
    Standing s {
      began := began
      now := now
      task := task
      ticks := t.extend now events task :: earlier
      events := (t :: earlier).reverse.flatMap Tick.events ++ events
      cancelled := f
      ended := if task.isFinished then some now else none } := by
  have hd := Subscription.delivered rfl h
  refine ⟨hd.interval.trans interval, hd.callback.trans callback, hd.cancelled.trans cancelled, ?_, ?_⟩
  · simp [Tick.extend]
  have hnow (hidle : ∀ w accepted, task.phase ≠ .busy w accepted) : now = t.due s.callback := by
    have hfinish := hd.finish
    rwa [Subscription.finish_of_idle hidle, callback, hdue] at hfinish
  -- the tick is over and the task ends or sleeps, or a call is to be waited for
  rcases hd.phase with ⟨hphase, hc⟩ | ⟨hphase, hc⟩ | ⟨w, accepted, hphase, hw⟩
  · have hidle : ∀ w accepted, task.phase ≠ .busy w accepted := by simp [hphase]
    have hdone := done_extend hd callback hcourse hdue hidle
    obtain ⟨x, hx⟩ := Option.isSome_iff_exists.mp (cancelled.symm.trans hc)
    have hfinished : task.isFinished = true := by simp [Subscription.isFinished, hphase]
    have hends : ∀ {c : Course}, c.ended = some now → c.EndsAt (t.due s.callback) := by
      intro c hc
      rw [EndsAt, hc]
      exact hnow hidle
    rw [hphase]
    refine ⟨⟨hdone, hstart, hearlier⟩, by simp [hfinished], x, hx, ?_⟩
    rcases hfall x hx with rfl | ⟨rfl, rfl, p, hp⟩
    · exact ⟨rfl, _, rfl, hends (by simp [hfinished])⟩
    · rw [Heeds, hp]
      exact .inr ⟨_, rfl, hends (by simp [hfinished])⟩
  · have hidle : ∀ w accepted, task.phase ≠ .busy w accepted := by simp [hphase]
    have hdone := done_extend hd callback hcourse hdue hidle
    have hf : f = none := by simpa [hc] using cancelled
    rw [hphase]
    refine ⟨⟨hdone, hstart, hearlier⟩, Nat.le_add_right _ _, ?_, ?_, ?_⟩
    · have hdue' := hnow hidle
      change now + max 1 u.interval = t.due s.callback + s.interval
      omega
    · simp [Subscription.isFinished, hphase]
    · simp [hf]
  · rw [hphase]
    refine ⟨_, _, rfl, ?_, ?_, ?_, hstart, hearlier, Nat.le_of_lt hw, ?_, hfall⟩
    · simp [Tick.extend, Subscription.isBusy, hphase]
    · simp only [Tick.extend, List.append_assoc, hd.events, callback]
      exact hcourse
    · exact (hd.finish.trans (by rw [callback])).trans hdue
    · simp [Subscription.isFinished, hphase]

theorem Heeds.of_ended {f : Fall} (h : c.Heeds s f) (he : c.ended.isSome) (now : Nat) :
    Heeds s { c with now := now } f := by
  obtain ⟨e, he⟩ := Option.isSome_iff_exists.mp he
  have hends : ∀ time, c.EndsAt time → EndsAt { c with now := now } time := by
    intro time h
    simpa [EndsAt, he] using h
  cases f with
  | unstarted =>
    simp only [Heeds] at h ⊢
    split at h
    · exact ⟨h.1, hends _ h.2⟩
    · rcases h with ⟨-, hnone, -⟩ | ⟨t, ht, h⟩
      · simp [he] at hnone
      · exact .inr ⟨t, ht, hends _ h⟩
  | sleeping n => exact ⟨h.1, hends _ h.2⟩
  | ticking n =>
    obtain ⟨hn, t, ht, h⟩ := h
    exact ⟨hn, t, ht, hends _ h⟩

theorem Standing.pass (h : Standing s c) (n : Nat) (ran : c.task.phase ≠ .fresh)
    (due : ∀ w ∈ c.task.wakeTime?, c.now + n ≤ w) : Standing s { c with now := c.now + n } := by
  obtain ⟨interval, callback, cancelled, events, phase⟩ := h
  refine ⟨interval, callback, cancelled, events, ?_⟩
  change AtPhase s { c with now := c.now + n } c.task.phase
  cases hp : c.task.phase with
  | fresh => exact absurd hp ran
  | asleep w =>
    rw [hp] at phase
    obtain ⟨hticks, -, hw, hrest⟩ := phase
    exact ⟨hticks, due w (by simp [Subscription.wakeTime?, hp]), hw, hrest⟩
  | busy w accepted =>
    rw [hp] at phase
    obtain ⟨t, earlier, hticks, hopen, hevents, hfinish, hstart, hearlier, -, hrest⟩ := phase
    have hfinish' : c.task.finish (c.now + n) = c.task.finish c.now := by simp [Subscription.finish, hp]
    exact ⟨t, earlier, hticks, hopen, hevents, hfinish'.trans hfinish, hstart, hearlier,
      due w (by simp [Subscription.wakeTime?, hp]), hrest⟩
  | finished =>
    rw [hp] at phase
    obtain ⟨hticks, he, f, hf, h⟩ := phase
    exact ⟨hticks, he, f, hf, h.of_ended he _⟩

theorem forall_mem_or {P : Fall → Prop} {f g : Option Fall} (hf : ∀ x ∈ f, P x) (hg : ∀ x ∈ g, P x) :
    ∀ x ∈ f.or g, P x := by
  cases f with
  | none => simpa using hg
  | some x => simpa using hf

theorem Standing.cancel (h : Standing s c) : Standing s c.cancel := by
  obtain ⟨interval, callback, cancelled, events, phase⟩ := h
  have hflag (hfall : c.fall.isSome ∨ c.cancelled.isSome) :
      c.cancel.task.cancelled = c.cancel.cancelled.isSome := by
    simpa [Course.cancel, Subscription.cancel, or_comm] using hfall
  -- a fall that was noted before stays, and is one for this phase already
  have hfall {P : Fall → Prop} {x : Fall} (hc : ∀ y ∈ c.cancelled, P y) (hx : c.fall = some x)
      (hP : P x) : ∀ y ∈ c.cancel.cancelled, P y := by
    refine forall_mem_or hc ?_
    rw [hx]
    simpa using hP
  suffices hphase : (c.fall.isSome ∨ c.cancelled.isSome) ∧ AtPhase s c.cancel c.task.phase from
    ⟨interval, callback, hflag hphase.1, events, hphase.2⟩
  cases hp : c.task.phase with
  | fresh =>
    rw [hp] at phase
    obtain ⟨hpoller, hticks, hnow, hended, hf⟩ := phase
    have hx : c.fall = some .unstarted := by simp [fall, hp]
    exact ⟨.inl (by simp [hx]), hpoller, hticks, hnow, hended, hfall hf hx rfl⟩
  | asleep w =>
    rw [hp] at phase
    obtain ⟨hticks, hnow, hw, hended, hf⟩ := phase
    have hx : c.fall = some (.sleeping c.ticks.length) := by simp [fall, hp]
    exact ⟨.inl (by simp [hx]), hticks, hnow, hw, hended, hfall hf hx rfl⟩
  | busy w accepted =>
    rw [hp] at phase
    obtain ⟨t, earlier, hticks, hopen, hevents, hfinish, hstart, hearlier, hnow, hended, hf⟩ := phase
    have hx : c.fall = some (.ticking (earlier.length + 1)) := by simp [fall, hp, hticks]
    exact ⟨.inl (by simp [hx]), t, earlier, hticks, hopen, hevents, hfinish, hstart, hearlier, hnow,
      hended, hfall hf hx (.inl rfl)⟩
  | finished =>
    rw [hp] at phase
    obtain ⟨hticks, he, f, hf, h⟩ := phase
    exact ⟨.inr (by simp [hf]), hticks, he, f, by simp [Course.cancel, hf], h⟩

/-- A tick that begins is due at this instant. -/
theorem Standing.of_begins (h : Standing s c) (due : c.task.isDue c.now = true)
    (begins : c.task.begins = true) :
    c.now = s.nextStart c.began c.ticks ∧ Regular s c.began c.ticks ∧
      ∀ f ∈ c.cancelled, DuringTick s c.ticks f := by
  obtain ⟨interval, callback, cancelled, events, phase⟩ := h
  unfold Subscription.begins at begins
  split at begins
  · rename_i p hp hpoller
    rw [hp] at phase
    obtain ⟨hsame, hticks, hnow, -, hf⟩ := phase
    rw [hticks]
    refine ⟨?_, trivial, fun f hmem => .inr ⟨hf f hmem, rfl, p, hsame ▸ hpoller⟩⟩
    rw [Subscription.nextStart, Subscription.firstStart, ← hsame, hpoller]
    exact hnow
  · rename_i w hp
    rw [hp] at phase
    obtain ⟨hticks, hnow, hw, -, -⟩ := phase
    have hnone : c.cancelled = none := by
      rw [cancelled] at begins
      simpa using begins
    have hdue : w ≤ c.now := by simpa [Subscription.isDue, hp] using due
    exact ⟨(Nat.le_antisymm hnow hdue).trans hw, hticks, by simp [hnone]⟩
  · cases begins

/-- A tick that begins, up to the next wait. -/
theorem Standing.tick {p : Poller} (hpos : 0 < s.interval) (h : Standing s c)
    (due : c.task.isDue c.now = true) (begins : c.task.begins = true) (poller : u.poller = p)
    (interval : u.interval = c.task.interval) (callback : u.callback = c.task.callback)
    (calls : u.calls = c.task.calls) (cancelled : u.cancelled = f.isSome)
    (hfall : ∀ x ∈ f, DuringTick s c.ticks x) (hd : u.deliverPending c.now = (task, events)) :
    Standing s { c.woken p.pending task events with cancelled := f } := by
  obtain ⟨hnow, hticks, -⟩ := h.of_begins due begins
  have hstand := standing_deliver (s := s) (t := ⟨c.now, c.task.calls, p.pending, [], none⟩) hpos
    (interval.trans h.interval) (callback.trans h.callback) cancelled (by rw [calls, poller]; rfl)
    (by rw [calls, poller]; rfl) hnow hticks hfall hd
  have hevents : (Tick.mk c.now c.task.calls p.pending [] none :: c.ticks).reverse.flatMap Tick.events =
      c.events := by
    rw [h.events]
    simp
  rw [hevents] at hstand
  simpa [woken, begins] using hstand

theorem Standing.interrupt {p : Poller} (hpos : 0 < s.interval) (h : Standing s c)
    (due : c.task.isDue c.now = true) (begins : c.task.begins = true)
    (hd : ({ c.task.cancel with poller := p } : Subscription).deliverPending c.now = (task, events)) :
    Standing s { c.woken p.pending task events with
      cancelled := c.cancelled.or (some (.ticking (c.ticks.length + 1))) } := by
  obtain ⟨-, -, hfall⟩ := h.of_begins due begins
  refine h.tick (u := { c.task.cancel with poller := p }) hpos due begins rfl rfl rfl rfl ?_ ?_ hd
  · simp [Subscription.cancel]
  · exact forall_mem_or hfall (by simp [DuringTick])

/-- The first run of an incremental task is no tick. -/
theorem Standing.first {p : IncrementalPoller} (hpos : 0 < s.interval) (h : Standing s c)
    (hphase : c.task.phase = .fresh) (hpoller : c.task.poller = .incremental p) :
    Standing s { c with
      task := c.task.pause c.now
      ended := if (c.task.pause c.now).isFinished then some c.now else none } := by
  obtain ⟨interval, callback, cancelled, events, phase⟩ := h
  rw [hphase] at phase
  obtain ⟨hsame, hticks, hnow, -, hf⟩ := phase
  refine ⟨interval, callback, cancelled, events, ?_⟩
  have hfirst : s.nextStart c.began c.ticks = c.now + s.interval := by
    rw [hticks, Subscription.nextStart, Subscription.firstStart, ← hsame, hpoller, hnow]
  cases hc : c.task.cancelled with
  | true =>
    obtain ⟨x, hx⟩ := Option.isSome_iff_exists.mp (cancelled.symm.trans hc)
    obtain rfl := hf x hx
    have hpause : (c.task.pause c.now).phase = .finished := by simp [Subscription.pause, hc]
    have hended : (c.task.pause c.now).isFinished = true := by simp [Subscription.isFinished, hpause]
    rw [hpause]
    refine ⟨by simp [hticks, Regular], by simp [hended], _, hx, ?_⟩
    rw [Heeds, ← hsame, hpoller]
    refine ⟨hticks, ?_⟩
    simpa only [EndsAt, hended, if_true] using hnow
  | false =>
    have hnone : c.cancelled = none := by simpa [hc] using cancelled
    have hpause : (c.task.pause c.now).phase = .asleep (c.now + max 1 c.task.interval) := by
      simp [Subscription.pause, hc]
    rw [hpause]
    refine ⟨by simp [hticks, Regular], Nat.le_add_right _ _, ?_, ?_, by simp [hnone]⟩
    · rw [hfirst, interval]
      omega
    · simp [Subscription.isFinished, hpause]

/-- A cancelled task notices at the end of its sleep. -/
theorem Standing.stop {w : Nat} (h : Standing s c) (hphase : c.task.phase = .asleep w)
    (hcancelled : c.task.cancelled = true) (hdue : w ≤ c.now) :
    Standing s { c with task := { c.task with phase := .finished }, ended := some c.now } := by
  obtain ⟨interval, callback, cancelled, events, phase⟩ := h
  rw [hphase] at phase
  obtain ⟨hticks, hnow, hw, hended, hf⟩ := phase
  obtain ⟨x, hx⟩ := Option.isSome_iff_exists.mp (cancelled.symm.trans hcancelled)
  obtain rfl := hf x hx
  refine ⟨interval, callback, cancelled, events, hticks, rfl, _, hx, rfl, ?_⟩
  exact (Nat.le_antisymm hnow hdue).trans hw

/-- The call waited for comes back, and the deliveries after it are made. -/
theorem Standing.resume {w : Nat} {accepted : Bool} (hpos : 0 < s.interval) (h : Standing s c)
    (hphase : c.task.phase = .busy w accepted) (hdue : w ≤ c.now)
    (hd : ({ c.task with poller := c.task.poller.settle accepted } : Subscription).deliverPending c.now =
      (task, events)) (found : List Delivery) :
    Standing s (c.woken found task (.returned c.now (c.task.calls - 1) :: events)) := by
  obtain ⟨interval, callback, cancelled, hevents, phase⟩ := h
  rw [hphase] at phase
  obtain ⟨t, earlier, hticks, hopen, hcourse, hfinish, hstart, hearlier, hnow, hended, hf⟩ := phase
  obtain rfl : c.now = w := Nat.le_antisymm hnow hdue
  have hbegins : c.task.begins = false := by simp [Subscription.begins, hphase]
  have hbusy : c.task.isBusy = true := by simp [Subscription.isBusy, hphase]
  simp only [Subscription.left, Subscription.finish, hphase, callback] at hcourse hfinish
  have hpending : (c.task.poller.settle accepted).pending =
      if accepted then c.task.poller.pending.tail else [] := c.task.poller.pending_settle accepted
  have hstand := standing_deliver (s := s) (f := c.cancelled)
    (u := { c.task with poller := c.task.poller.settle accepted })
    (t := { t with events := t.events ++ [.returned c.now (c.task.calls - 1)] })
    hpos interval callback cancelled ?_ ?_ hstart hearlier hf hd
  · have hwoken : c.woken found task (.returned c.now (c.task.calls - 1) :: events) =
        { began := c.began
          now := c.now
          task := task
          ticks := Tick.extend c.now events task
            { t with events := t.events ++ [.returned c.now (c.task.calls - 1)] } :: earlier
          events := (Tick.mk t.start t.call t.found (t.events ++ [.returned c.now (c.task.calls - 1)])
            t.finish :: earlier).reverse.flatMap Tick.events ++ events
          cancelled := c.cancelled
          ended := if task.isFinished then some c.now else none } := by
      simp [woken, hbegins, hbusy, hticks, hevents, Tick.extend]
    rw [hwoken]
    exact hstand
  · change _ = t.course s.callback
    rw [← hcourse, hpending]
    cases accepted <;> simp [Callback.events]
  · change _ = t.due s.callback
    rw [← hfinish, hpending]
    cases accepted <;> simp [Callback.finish]

theorem Standing.wake {σ : Type} {reply : (r : Request) → σ → r.Reply × σ} {world world' : σ}
    (hpos : 0 < s.interval) (hidle : s.poller.pending = []) (h : Standing s c)
    (due : c.task.isDue c.now = true)
    (hw : (c.task.wake c.now).run reply world = ((task, events), world')) :
    Standing s (c.woken (c.task.ask.run reply world).1.pending task events) := by
  cases hb : c.task.begins with
  | true =>
    obtain ⟨-, -, hfall⟩ := h.of_begins due hb
    rw [Subscription.wake_of_begins (.inr hb)] at hw
    obtain ⟨p, v, hp, hd, -⟩ := Dialogue.ends_bind.mp (Dialogue.ends_run_iff.mpr hw)
    rw [Dialogue.ends_run_iff.mp hp]
    exact h.tick (u := { c.task with poller := p }) (f := c.cancelled) hpos due hb rfl rfl rfl rfl
      h.cancelled hfall hd
  | false =>
    cases hphase : c.task.phase with
    | fresh =>
      cases hpoller : c.task.poller with
      | snapshot p => simp [Subscription.begins, hphase, hpoller] at hb
      | incremental p =>
        have hpending : c.task.poller.pending = [] := by
          have hp := h.phase
          rw [hphase] at hp
          rw [hp.1, hidle]
        rw [Subscription.wake_of_incremental hphase hpoller hpending] at hw
        cases hw
        have hbusy : c.task.isBusy = false := by simp [Subscription.isBusy, hphase]
        simpa [woken, hb, hbusy] using h.first hpos hphase hpoller
    | asleep w =>
      have hc : c.task.cancelled = true := by simpa [Subscription.begins, hphase] using hb
      have hdue : w ≤ c.now := by simpa [Subscription.isDue, hphase] using due
      rw [Subscription.wake_of_cancelled hphase hc] at hw
      cases hw
      have hbusy : c.task.isBusy = false := by simp [Subscription.isBusy, hphase]
      simpa [woken, hb, hbusy, Subscription.isFinished] using h.stop hphase hc hdue
    | busy w accepted =>
      have hdue : w ≤ c.now := by simpa [Subscription.isDue, hphase] using due
      rw [Subscription.wake_of_busy hphase] at hw
      cases hw
      exact h.resume hpos hphase hdue rfl _
    | finished => simp [Subscription.isDue, hphase] at due

theorem Standing.step {σ : Type} {reply : (r : Request) → σ → r.Reply × σ} (hpos : 0 < s.interval)
    (hidle : s.poller.pending = []) (h : Standing s c) (hs : Step reply c c') : Standing s c' := by
  cases hs with
  | pass n ran due => exact h.pass n ran due
  | cancel => exact h.cancel
  | wake due hw => exact h.wake hpos hidle due hw
  | interrupt due begins _ hd => exact h.interrupt hpos due begins hd

theorem standing_of_run {σ : Type} {reply : (r : Request) → σ → r.Reply × σ} (hpos : 0 < s.interval)
    (hphase : s.phase = .fresh) (hcancelled : s.cancelled = false) (hidle : s.poller.pending = [])
    (h : Relation.ReflTransGen (Step reply) (start now s) c) : Standing s c := by
  induction h with
  | refl =>
    refine ⟨rfl, rfl, hcancelled, rfl, ?_⟩
    change AtPhase s (start now s) s.phase
    rw [hphase]
    exact ⟨rfl, rfl, rfl, rfl, by simp [start]⟩
  | tail _ hs ih => exact ih.step hpos hidle hs

theorem Regular.done {ticks : List Tick} (h : Regular s began ticks) :
    ∀ t ∈ ticks, t.Done s.callback := by
  induction ticks with
  | nil => simp
  | cons t earlier ih => exact List.forall_mem_cons.mpr ⟨h.1, ih h.2.2⟩

theorem Regular.starts {ticks : List Tick} (h : Regular s began ticks) :
    ∀ t earlier, t :: earlier <:+ ticks → t.start = s.nextStart began earlier := by
  induction ticks with
  | nil => simp
  | cons t' earlier' ih =>
    intro t earlier hsuffix
    rcases List.suffix_cons_iff.mp hsuffix with heq | hsuffix
    · cases heq
      exact h.2.1
    · exact ih h.2.2 t earlier hsuffix

theorem le_finish {w : Nat} {accepted : Bool} (h : u.phase = .busy w accepted) (now : Nat) :
    w ≤ u.finish now := by
  simp only [Subscription.finish, h]
  split
  · exact Callback.le_finish _ _ _ _
  · exact Nat.le_refl _

theorem Standing.onSchedule (h : Standing s c) : OnSchedule s c := by
  obtain ⟨-, -, -, hevents, phase⟩ := h
  cases hp : c.task.phase with
  | fresh =>
    rw [hp] at phase
    obtain ⟨-, hticks, hnow, hended, hf⟩ := phase
    refine ⟨hevents, by simp [hticks], by simp [hticks], by simp [hticks], fun _ _ => ?_,
      fun _ => hended, ?_⟩
    · rw [hticks, hnow]
      cases hpoller : s.poller <;> simp [Subscription.nextStart, Subscription.firstStart, hpoller]
    · intro f hmem
      obtain rfl := hf f hmem
      rw [Heeds]
      cases hpoller : s.poller with
      | snapshot p => exact .inl ⟨hticks, hended, hnow⟩
      | incremental p => exact ⟨hticks, by simp [EndsAt, hended, hnow]⟩
  | asleep w =>
    rw [hp] at phase
    obtain ⟨hticks, hnow, hw, hended, hf⟩ := phase
    refine ⟨hevents, hticks.starts, fun t ht => hticks.done t (List.mem_of_mem_tail ht),
      fun t ht => .inl (hticks.done t (List.mem_of_mem_head? ht)), fun _ _ => hw ▸ hnow,
      fun _ => hended, ?_⟩
    intro f hmem
    obtain rfl := hf f hmem
    exact ⟨rfl, by simpa [EndsAt, hended] using hw ▸ hnow⟩
  | busy w accepted =>
    rw [hp] at phase
    obtain ⟨t, earlier, hticks, hopen, hcourse, hfinish, hstart, hearlier, hnow, hended, hf⟩ := phase
    have hdue : c.now ≤ t.due s.callback := by
      have hle := le_finish hp c.now
      omega
    have hends : c.EndsAt (t.due s.callback) := by simpa [EndsAt, hended] using hdue
    refine ⟨hevents, ?_, ?_, ?_, ?_, fun _ => hended, ?_⟩
    · intro t' earlier' hsuffix
      rw [hticks] at hsuffix
      rcases List.suffix_cons_iff.mp hsuffix with heq | hsuffix
      · cases heq
        exact hstart
      · exact hearlier.starts t' earlier' hsuffix
    · rw [hticks]
      exact hearlier.done
    · rw [hticks]
      intro t' ht'
      obtain rfl : t = t' := by simpa using ht'
      exact .inr ⟨hopen, ⟨_, hcourse⟩, hdue, hended⟩
    · intro _ hdone
      have hclosed := (hdone t (by simp [hticks])).2
      simp [hopen] at hclosed
    · intro f hmem
      rcases hf f hmem with rfl | ⟨rfl, hnil, p, hpoller⟩
      · exact ⟨by simp [hticks], t, by simp [hticks], hends⟩
      · rw [Heeds, hpoller]
        exact .inr ⟨t, by rw [hticks, hnil], hends⟩
  | finished =>
    rw [hp] at phase
    obtain ⟨hticks, he, f, hf, h⟩ := phase
    refine ⟨hevents, hticks.starts, fun t ht => hticks.done t (List.mem_of_mem_tail ht),
      fun t ht => .inl (hticks.done t (List.mem_of_mem_head? ht)), ?_, ?_, ?_⟩
    · intro hnone
      simp [hnone] at he
    · simp [hf]
    · simpa [hf] using h

/-- Ticks of a subscription are on schedule, and so is its end. -/
theorem onSchedule_of_run {σ : Type} {reply : (r : Request) → σ → r.Reply × σ} (hpos : 0 < s.interval)
    (hphase : s.phase = .fresh) (hcancelled : s.cancelled = false) (hidle : s.poller.pending = [])
    (h : Relation.ReflTransGen (Step reply) (start now s) c) : OnSchedule s c :=
  (standing_of_run hpos hphase hcancelled hidle h).onSchedule

/-- Cancelled after 5 of the 20 milliseconds that a call takes, the task ends when the call
comes back. -/
theorem onSchedule_of_run_in_flight :
    let s : Subscription := {
      context := {}
      poller := .snapshot { query := { table := "t" }, needsBaseline := false }
      interval := 10
      callback := { duration := fun _ => 20, succeeds := fun _ => true } }
    let reply (r : Request) (world : Unit) : r.Reply × Unit :=
      (match r with
        | .revision => ""
        | .execute _ _ => .ok []
        | .related _ _ _ => .ok [], world)
    ∃ c, Relation.ReflTransGen (Step reply) (start 0 s) c ∧ c.cancelled = some (.ticking 1) ∧
      c.ended = some 20 ∧ OnSchedule s c := by
  intro s reply
  let called : List Event := [.called 0 0 true (.rows [])]
  let waiting : Subscription := { s with
    poller := .snapshot {
      query := { table := "t" }, needsBaseline := false, pending := some (⟨0, 0, ""⟩, []) }
    calls := 1
    phase := .busy 20 true }
  let c₁ : Course := {
    began := 0
    now := 0
    task := waiting
    ticks := [⟨0, 0, [.rows []], called, none⟩]
    events := called }
  have hwake : Step reply (start 0 s) c₁ := .wake rfl (show _ = (_, ()) from rfl)
  have hrun := (Relation.ReflTransGen.single hwake).tail (.pass 5 (by simp [c₁, waiting])
    (by simp [c₁, waiting, Subscription.wakeTime?]))
  have hrun := (hrun.tail (.cancel _)).tail (.pass 15
    (by simp [c₁, waiting, cancel, Subscription.cancel])
    (by simp [c₁, waiting, cancel, Subscription.cancel, Subscription.wakeTime?]))
  have hrun := hrun.tail (.wake rfl (show _ = (_, ()) from rfl))
  exact ⟨_, hrun, rfl, rfl, onSchedule_of_run (by decide) rfl rfl rfl hrun⟩

end Course

end LiveQuery
