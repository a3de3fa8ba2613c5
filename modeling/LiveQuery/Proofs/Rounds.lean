import LiveQuery.Proofs.SnapshotRun

/-! When a snapshot subscription calls back, told from its earlier polls alone: whether the
captures and the fetches succeeded, and which calls did. The subscriber is taken to know the
snapshot of the latest poll whose call succeeded or, with no delivery at the start, that of
the first capture. -/

namespace LiveQuery

variable {σ : Type} {reply : (r : Request) → σ → r.Reply × σ}

/-- Collaborators that keep a state and answer by a function. -/
def replies (reply : (r : Request) → σ → r.Reply × σ) : Answers σ := fun w r x v => reply r w = (x, v)

/-- The token and then the fingerprint's rows, as they are replied in the world `w`, make the
snapshot. -/
def Context.Captures (ctx : Context) (reply : (r : Request) → σ → r.Reply × σ) (q : Query) (w : σ)
    (snapshot : Snapshot) (v : σ) : Prop :=
  ∃ token u found, ctx.ReadsToken (replies reply) w token u ∧
    reply (.execute (q.fingerprint ctx.config.idColumn) true) u = (.ok found, v) ∧
    snapshot = .ofRows token found

theorem Context.run_capture_iff {ctx : Context} {q : Query} {snapshot : Snapshot} {w v : σ} :
    (ctx.capture q).run.run reply w = (.ok snapshot, v) ↔ ctx.Captures reply q w snapshot v :=
  Dialogue.ends_run_iff.symm.trans Context.ends_capture

theorem Query.run_fetchAll_iff {ctx : Context} {q : Query} {rows : List Row} {w v : σ} :
    (q.fetchAll ctx).run.run reply w = (.ok rows, v) ↔
      ∃ found u, reply (.execute q.select q.raw) w = (.ok found, u) ∧
        (q.loadRelated ctx found).run.run reply u = (.ok rows, v) := by
  rw [← Dialogue.ends_run_iff, Query.ends_fetchAll]
  simp only [Dialogue.ends_run_iff]

/-- A poll from outside: what its capture and then a fetch give, none if they fail, and the
calls it makes with their outcomes. -/
structure Round where
  snapshot : Option Snapshot
  rows : Option (List Row)
  calls : List (Bool × Delivery) := []

def Event.call? : Event → Option (Bool × Delivery)
  | called _ _ accepted got => some (accepted, got)
  | returned _ _ => none

namespace Round

def ofWorld (reply : (r : Request) → σ → r.Reply × σ) (ctx : Context) (q : Query) (world : σ) :
    Round :=
  let (captured, world) := (ctx.capture q).run.run reply world
  let (fetched, _) := (q.fetchAll ctx).run.run reply world
  { snapshot := captured.toOption, rows := fetched.toOption }

def got (r : Round) : List Delivery := r.calls.map Prod.snd

/-- What a round shows is what the collaborators reply to its poll in the world `w`: the rows are
selected and loaded after the capture. -/
structure Hears (reply : (r : Request) → σ → r.Reply × σ) (ctx : Context) (q : Query) (w : σ)
    (r : Round) : Prop where
  snapshot : ∀ s, r.snapshot = some s ↔ ∃ v, ctx.Captures reply q w s v
  rows : ∀ s v, ctx.Captures reply q w s v → ∀ rows, r.rows = some rows ↔
    ∃ found u t, reply (.execute q.select q.raw) v = (.ok found, u) ∧
      (q.loadRelated ctx found).run.run reply u = (.ok rows, t)

/-- A call has succeeded or, with no delivery at the start, this is the first capture. -/
def accepts (immediate : Bool) (past : List Round) (r : Round) : Bool :=
  r.calls.any Prod.fst || (!immediate && r.snapshot.isSome && past.all (·.snapshot.isNone))

/-- The latest round that accepts, in a list with the latest round first. -/
def lastAccepting (immediate : Bool) : List Round → Option Round
  | [] => none
  | r :: past => if r.accepts immediate past then some r else lastAccepting immediate past

/-- What a round has to do with its past to deliver rows. -/
structure Delivers (immediate : Bool) (past : List Round) (r : Round) (rows : List Row) : Prop where
  captured : r.snapshot ≠ none
  fetched : r.rows = some rows
  begun : immediate = true ∨ lastAccepting immediate past ≠ none
  changed : ∀ a, lastAccepting immediate past = some a → a.snapshot ≠ r.snapshot

/-- One call with the rows if there are rows to deliver, and none otherwise. -/
def Obeys (immediate : Bool) (past : List Round) (r : Round) : Prop :=
  (r.got = [] ∨ ∃ rows, r.got = [.rows rows]) ∧
    ∀ rows, .rows rows ∈ r.got ↔ r.Delivers immediate past rows

def Lawful (immediate : Bool) : List Round → Prop
  | [] => True
  | r :: past => r.Obeys immediate past ∧ Lawful immediate past

variable {immediate : Bool} {r : Round} {past rounds : List Round} {snapshot : Snapshot}
  {rows : List Row} {ctx : Context} {q : Query} {w : σ}

theorem Lawful.obeys (h : Lawful immediate rounds) (hr : r :: past <:+ rounds) :
    r.Obeys immediate past := by
  induction rounds with
  | nil => exact absurd (List.eq_nil_of_suffix_nil hr) (List.cons_ne_nil _ _)
  | cons r' rounds ih =>
    rcases List.suffix_cons_iff.mp hr with heq | hr
    · cases heq
      exact h.1
    · exact ih h.2 hr

theorem Obeys.captured (h : r.Obeys immediate past) (hc : r.calls ≠ []) : r.snapshot ≠ none := by
  obtain ⟨hnone | ⟨rows, hrows⟩, hiff⟩ := h
  · exact absurd (List.map_eq_nil_iff.mp hnone) hc
  · exact ((hiff rows).mp (by simp [hrows])).captured

/-- With no delivery at the start, the subscriber knows something from the first capture on. -/
theorem lastAccepting_eq_none_iff (h : Lawful false rounds) :
    lastAccepting false rounds = none ↔ rounds.all (·.snapshot.isNone) = true := by
  induction rounds with
  | nil => simp [lastAccepting]
  | cons r past ih =>
    have hc : r.calls ≠ [] → r.snapshot ≠ none := h.1.captured
    cases hs : r.snapshot with
    | none =>
      have hcalls : r.calls = [] := Classical.not_not.mp fun hne => hc hne hs
      simp [lastAccepting, accepts, hs, hcalls, ih h.2]
    | some s =>
      cases hall : past.all (·.snapshot.isNone) with
      | true => simp [lastAccepting, accepts, hs, hall]
      | false =>
        have hne : lastAccepting false past ≠ none := by simp [ih h.2, hall]
        simp only [lastAccepting, List.all_cons, hs, Option.isNone_some, Bool.false_and,
          Bool.false_eq_true, iff_false]
        split
        · exact Option.some_ne_none r
        · exact hne

theorem ofWorld_calls : (ofWorld reply ctx q w).calls = [] := rfl

theorem ofWorld_snapshot_iff :
    (ofWorld reply ctx q w).snapshot = some snapshot ↔
      ∃ u, (ctx.capture q).run.run reply w = (.ok snapshot, u) := by
  rcases hc : (ctx.capture q).run.run reply w with ⟨e | s, u⟩ <;> simp [ofWorld, hc, Except.toOption]

theorem ofWorld_rows_iff {u : σ} (hc : (ctx.capture q).run.run reply w = (.ok snapshot, u)) :
    (ofWorld reply ctx q w).rows = some rows ↔
      ∃ v, (q.fetchAll ctx).run.run reply u = (.ok rows, v) := by
  rcases hf : (q.fetchAll ctx).run.run reply u with ⟨e | s, v⟩ <;>
    simp [ofWorld, hc, hf, Except.toOption]

theorem hears_ofWorld (reply : (r : Request) → σ → r.Reply × σ) (ctx : Context) (q : Query) (w : σ) :
    (ofWorld reply ctx q w).Hears reply ctx q w where
  snapshot s := by simp only [ofWorld_snapshot_iff, Context.run_capture_iff]
  rows s v hs rows := by
    rw [ofWorld_rows_iff (Context.run_capture_iff.mpr hs)]
    constructor
    · rintro ⟨t, h⟩
      obtain ⟨found, u, hfound, hload⟩ := Query.run_fetchAll_iff.mp h
      exact ⟨found, u, t, hfound, hload⟩
    · rintro ⟨found, u, t, h⟩
      exact ⟨t, Query.run_fetchAll_iff.mpr ⟨found, u, h⟩⟩

theorem Hears.call (h : r.Hears reply ctx q w) (calls : List (Bool × Delivery)) :
    Hears reply ctx q w { r with calls := calls } := ⟨h.snapshot, h.rows⟩

end Round

namespace SnapshotPoller

open Round

variable {immediate force accepted : Bool} {p p' : SnapshotPoller} {ctx : Context} {q : Query}
  {w v : σ} {r : Round} {past rounds : List Round} {snapshot : Snapshot} {rows : List Row}

/-- The poller remembers of its rounds what the next one has to be compared with. -/
structure Agrees (immediate : Bool) (p : SnapshotPoller) (rounds : List Round) : Prop where
  baseline : p.needsBaseline = (!immediate && rounds.all (·.snapshot.isNone))
  last : p.detector.last = (lastAccepting immediate rounds).bind Round.snapshot

theorem agrees_nil (q : Query) (immediate : Bool) :
    Agrees immediate { query := q, needsBaseline := !immediate } [] where
  baseline := by simp
  last := rfl

/-- A round that does not accept leaves the poller as it is. -/
theorem Agrees.cons (h : p.Agrees immediate past) (ha : r.accepts immediate past = false)
    (hb : p.needsBaseline = true → r.snapshot = none) : p.Agrees immediate (r :: past) where
  baseline := by
    have hbase := h.baseline
    cases hp : p.needsBaseline <;> simp_all
  last := by simp [lastAccepting, ha, h.last]

theorem Agrees.begun_iff (h : p.Agrees immediate past) (hl : Lawful immediate past) :
    p.needsBaseline = false ↔ immediate = true ∨ lastAccepting immediate past ≠ none := by
  rw [h.baseline]
  cases immediate with
  | true => simp
  | false => simp [lastAccepting_eq_none_iff hl]

theorem Agrees.hasChanged_iff (h : p.Agrees immediate past) :
    p.detector.last ≠ some snapshot ↔
      ∀ a, lastAccepting immediate past = some a → a.snapshot ≠ some snapshot := by
  rw [h.last]
  cases lastAccepting immediate past <;> simp

/-- A fetch has something to deliver exactly if its round does. -/
theorem Agrees.fetch_iff (h : p.Agrees immediate past) (hl : Lawful immediate past)
    (hb : p.needsBaseline = false) (hforce : force = true → past = []) :
    (∃ v, (p.fetch ctx force).run.run reply w = (.ok (some (snapshot, rows)), v)) ↔
      (ofWorld reply ctx p.query w).snapshot = some snapshot ∧
        (ofWorld reply ctx p.query w).Delivers immediate past rows := by
  have hbegun := (h.begun_iff hl).mp hb
  -- nothing is recorded at the first poll, so it has nothing to force
  have hchanged : (force = true ∨ p.detector.last ≠ some snapshot) ↔
      ∀ a, lastAccepting immediate past = some a → a.snapshot ≠ some snapshot := by
    rw [h.hasChanged_iff, or_iff_right_iff_imp]
    intro hf
    simp [hforce hf, lastAccepting]
  constructor
  · rintro ⟨v, hv⟩
    obtain ⟨u, hc, hch, hf⟩ := ends_fetch_some.mp (Dialogue.ends_run_iff.mpr hv)
    have hcap := Dialogue.ends_run_iff.mp hc
    have hs := ofWorld_snapshot_iff.mpr ⟨u, hcap⟩
    refine ⟨hs, ?_, (ofWorld_rows_iff hcap).mpr ⟨v, Dialogue.ends_run_iff.mp hf⟩, hbegun, ?_⟩
    · simp [hs]
    · simpa [hs] using hchanged.mp hch
  · rintro ⟨hs, hd⟩
    obtain ⟨u, hcap⟩ := ofWorld_snapshot_iff.mp hs
    obtain ⟨v, hf⟩ := (ofWorld_rows_iff hcap).mp hd.fetched
    have hch := hchanged.mpr (by simpa [hs] using hd.changed)
    exact ⟨v, Dialogue.ends_run_iff.mp (ends_fetch_some.mpr
      ⟨u, Dialogue.ends_run_iff.mpr hcap, hch, Dialogue.ends_run_iff.mpr hf⟩)⟩

/-- What a poll leaves behind, seen from its round. -/
structure Polled (immediate : Bool) (past : List Round) (r : Round) (p : SnapshotPoller) : Prop where
  agrees : p.Agrees immediate (r :: past)
  pending : ∀ snapshot rows, p.pending = some (snapshot, rows) ↔
    r.snapshot = some snapshot ∧ r.Delivers immediate past rows

theorem Agrees.prime (h : p.Agrees immediate past) (hl : Lawful immediate past)
    (hb : p.needsBaseline = true) (idle : p.pending = none) {x : Except QueryError Snapshot}
    (hx : (ctx.capture p.query).run.run reply w = (x, v)) :
    Polled immediate past (ofWorld reply ctx p.query w) (p.primed x) := by
  have hnone : ¬(immediate = true ∨ lastAccepting immediate past ≠ none) := by
    rw [← h.begun_iff hl, hb]
    exact Bool.noConfusion
  have hbase := h.baseline
  obtain ⟨rfl, hall⟩ : immediate = false ∧ past.all (·.snapshot.isNone) = true := by
    simpa [hb] using hbase
  have hpend : (p.primed x).pending = none := by cases x <;> exact idle
  refine ⟨?_, fun snapshot rows => ⟨fun hs => ?_, fun ⟨_, hd⟩ => absurd hd.begun hnone⟩⟩
  · cases x with
    | error e =>
      have hs : (ofWorld reply ctx p.query w).snapshot = none := by
        simp [ofWorld, hx, Except.toOption]
      exact h.cons (by simp [accepts, hs, ofWorld_calls]) fun _ => hs
    | ok s =>
      have hs : (ofWorld reply ctx p.query w).snapshot = some s := ofWorld_snapshot_iff.mpr ⟨v, hx⟩
      constructor
      · simp [primed, hs]
      · simp [primed, lastAccepting, accepts, hs, hall, Detector.record]
  · exact absurd (hpend.symm.trans hs) (by simp)

theorem Agrees.take (h : p.Agrees immediate past) (hl : Lawful immediate past)
    (hb : p.needsBaseline = false) (idle : p.pending = none) (hforce : force = true → past = [])
    {x : Except QueryError (Option (Snapshot × List Row))}
    (hx : (p.fetch ctx force).run.run reply w = (x, v)) :
    Polled immediate past (ofWorld reply ctx p.query w) (p.take x) := by
  have hquiet : (ofWorld reply ctx p.query w).accepts immediate past = false := by
    have hbase := h.baseline
    rw [hb] at hbase
    cases immediate with
    | true => simp [accepts, ofWorld_calls]
    | false =>
      have hall : past.all (·.snapshot.isNone) = false := by simpa using hbase.symm
      simp [accepts, ofWorld_calls, hall]
  have hagrees : p.Agrees immediate (ofWorld reply ctx p.query w :: past) :=
    h.cons hquiet (by simp [hb])
  refine ⟨?_, fun snapshot rows => ?_⟩
  · cases x with
    | error e => exact hagrees
    | ok pending => exact ⟨hagrees.baseline, hagrees.last⟩
  · rw [← h.fetch_iff hl hb hforce, hx]
    cases x <;> simp [SnapshotPoller.take, idle]

theorem Agrees.poll (h : p.Agrees immediate past) (hl : Lawful immediate past)
    (idle : p.pending = none) (hforce : force = true → past = [])
    (hp : (p.poll ctx force).run reply w = (p', v)) :
    Polled immediate past (ofWorld reply ctx p.query w) p' ∧ p'.query = p.query := by
  have hends := Dialogue.ends_run_iff.mpr hp
  cases hb : p.needsBaseline with
  | true =>
    rw [poll_of_needsBaseline hb, Dialogue.ends_map] at hends
    obtain ⟨x, hx, rfl⟩ := hends
    exact ⟨h.prime hl hb idle (Dialogue.ends_run_iff.mp hx), by cases x <;> rfl⟩
  | false =>
    rw [poll_of_baseline hb, Dialogue.ends_map] at hends
    obtain ⟨x, hx, rfl⟩ := hends
    exact ⟨h.take hl hb idle hforce (Dialogue.ends_run_iff.mp hx), by cases x <;> rfl⟩

/-- The outcome of a call makes its round accept if it has succeeded. -/
theorem Polled.settle (h : Polled immediate past r p) (hr : r.calls = [])
    (hp : p.pending = some (snapshot, rows)) (accepted : Bool) :
    (p.settle accepted).Agrees immediate ({ r with calls := [(accepted, .rows rows)] } :: past) := by
  have hset : p.settle accepted =
      { p with
        detector := if accepted then p.detector.record snapshot else p.detector
        pending := none } := by simp [SnapshotPoller.settle, hp]
  obtain ⟨hs, -⟩ := (h.pending snapshot rows).mp hp
  rw [hset]
  refine ⟨by simpa using h.agrees.baseline, ?_⟩
  cases accepted with
  | true => simp [lastAccepting, accepts, Detector.record, hs]
  | false =>
    have hlast := h.agrees.last
    simp only [lastAccepting, accepts, hr, List.any_cons, List.any_nil, Bool.false_or,
      Bool.false_eq_true, if_false] at hlast ⊢
    rw [hlast]
    split <;> rfl

/-- A poll obeys without a call if it has left nothing pending. -/
theorem Polled.obeys_quiet (h : Polled immediate past r p) (hr : r.calls = [])
    (hp : p.pending = none) : r.Obeys immediate past := by
  refine ⟨.inl (by simp [got, hr]), fun rows => ⟨by simp [got, hr], fun hd => ?_⟩⟩
  obtain ⟨snapshot, hs⟩ := Option.ne_none_iff_exists'.mp hd.captured
  have hpend := (h.pending snapshot rows).mpr ⟨hs, hd⟩
  exact absurd (hp.symm.trans hpend) (by simp)

/-- It obeys with the call for what it has left pending. -/
theorem Polled.obeys_call (h : Polled immediate past r p) (hp : p.pending = some (snapshot, rows))
    (accepted : Bool) : Obeys immediate past { r with calls := [(accepted, .rows rows)] } := by
  obtain ⟨-, hd⟩ := (h.pending snapshot rows).mp hp
  refine ⟨.inr ⟨rows, rfl⟩, fun rows' => ⟨fun hmem => ?_, fun hd' => ?_⟩⟩
  · obtain rfl : rows' = rows := by simpa [got] using hmem
    exact ⟨hd.captured, hd.fetched, hd.begun, hd.changed⟩
  · obtain rfl : rows = rows' := Option.some.inj (hd.fetched.symm.trans hd'.fetched)
    simp [got]

end SnapshotPoller

namespace Subscription

open Round SnapshotPoller

def snapshots (ctx : Context) (q : Query) (interval : Nat) (immediate : Bool)
    (callback : Callback) : Subscription where
  context := ctx
  poller := .snapshot { query := q, needsBaseline := !immediate }
  interval := interval
  callback := callback

def polls (s : Subscription) : Bool :=
  match s.phase with
  | .fresh => true
  | .asleep _ => !s.cancelled
  | _ => false

/-- The calls of a wake-up belong to the poll that has begun last. -/
def recorded (s : Subscription) (r : Round) (calls : List (Bool × Delivery))
    (rounds : List Round) : List Round :=
  if s.polls then { r with calls := calls } :: rounds
  else rounds.modifyHead fun r => { r with calls := r.calls ++ calls }

/-- The task of a subscription on `q` wakes up in any world, and is cancelled at any time. -/
inductive Step (reply : (r : Request) → σ → r.Reply × σ) (q : Query) :
    Subscription × List Round → Subscription × List Round → Prop
  | cancel (s : Subscription) (rounds : List Round) : Step reply q (s, rounds) (s.cancel, rounds)
  | wake {s s' : Subscription} {events : List Event} {world world' : σ} (now : Nat)
      (rounds : List Round) (h : (s.wake now).run reply world = ((s', events), world')) :
      Step reply q (s, rounds)
        (s', s.recorded (ofWorld reply s.context q world) (events.filterMap Event.call?) rounds)

variable {immediate : Bool} {q : Query} {s s' : Subscription} {p : SnapshotPoller} {r : Round}
  {past rounds rounds' : List Round} {now : Nat} {events : List Event}

/-- The task between its wake-ups and the rounds so far. -/
inductive Standing (q : Query) (immediate : Bool) : Subscription → List Round → Prop
  | idle {s : Subscription} {p : SnapshotPoller} {rounds : List Round}
      (poller : s.poller = .snapshot p) (query : p.query = q) (idle : p.pending = none)
      (phase : ∀ wake accepted, s.phase ≠ .busy wake accepted)
      (fresh : s.phase = .fresh → rounds = []) (agrees : p.Agrees immediate rounds) :
      Standing q immediate s rounds
  | busy {s : Subscription} {p : SnapshotPoller} {r : Round} {past : List Round}
      {snapshot : Snapshot} {rows : List Row} {wake : Nat} {accepted : Bool}
      (poller : s.poller = .snapshot p) (query : p.query = q)
      (phase : s.phase = .busy wake accepted) (pending : p.pending = some (snapshot, rows))
      (calls : r.calls = []) (polled : p.Polled immediate past r) :
      Standing q immediate s ({ r with calls := [(accepted, .rows rows)] } :: past)

theorem standing_pause (poller : s.poller = .snapshot p) (query : p.query = q)
    (idle : p.pending = none) (agrees : p.Agrees immediate rounds) :
    Standing q immediate (s.pause now) rounds := by
  refine .idle (p := p) poller query idle ?_ ?_ agrees
  · intro wake accepted
    simp only [pause]
    split <;> exact Phase.noConfusion
  · simp only [pause]
    split <;> exact Phase.noConfusion

/-- After a poll the task calls back as its round says. -/
theorem standing_deliverPending (poller : s.poller = .snapshot p) (query : p.query = q)
    (calls : r.calls = []) (polled : p.Polled immediate past r)
    (h : s.deliverPending now = (s', events)) :
    Standing q immediate s' ({ r with calls := events.filterMap Event.call? } :: past) ∧
      Obeys immediate past { r with calls := events.filterMap Event.call? } := by
  rw [deliverPending, poller] at h
  cases hp : p.pending with
  | none =>
    simp only [Poller.pending, hp, Option.toList_none, List.map_nil, deliver, Prod.mk.injEq] at h
    obtain ⟨rfl, rfl⟩ := h
    have hr : { r with calls := [].filterMap Event.call? } = r := by rw [List.filterMap_nil, ← calls]
    rw [hr]
    exact ⟨standing_pause poller query hp polled.agrees, polled.obeys_quiet calls hp⟩
  | some d =>
    obtain ⟨snapshot, rows⟩ := d
    have hstand (accepted : Bool) {s : Subscription}
        (hs : s.poller = .snapshot (p.settle accepted)) : Standing q immediate (s.pause now)
          ({ r with calls := [(accepted, .rows rows)] } :: past) :=
      standing_pause hs ((p.query_settle accepted).trans query) (p.pending_settle accepted)
        (polled.settle calls hp accepted)
    simp only [Poller.pending, hp, Option.toList_some, List.map_cons, List.map_nil, deliver] at h
    by_cases hd : s.callback.duration s.calls = 0
    · cases ha : s.callback.succeeds s.calls <;>
        simp only [hd, ha, if_true, Bool.false_eq_true, if_false, Prod.mk.injEq] at h <;>
        obtain ⟨rfl, rfl⟩ := h
      · exact ⟨hstand false (by rw [poller]; rfl), polled.obeys_call hp false⟩
      · exact ⟨hstand true (by rw [poller]; rfl), polled.obeys_call hp true⟩
    · simp only [hd, if_false, Prod.mk.injEq] at h
      obtain ⟨rfl, rfl⟩ := h
      exact ⟨.busy poller query rfl hp calls polled, polled.obeys_call hp _⟩

/-- Between two polls no call is made. -/
theorem recorded_nothing (hp : s.polls = false) (r : Round) :
    s.recorded r [] rounds = rounds := by
  cases rounds <;> simp [recorded, hp]

theorem standing_poll {ctx : Context} {force : Bool} {p' : SnapshotPoller} {world world' : σ}
    (hl : Lawful immediate rounds) (query : p.query = q) (idle : p.pending = none)
    (agrees : p.Agrees immediate rounds) (hforce : force = true → rounds = [])
    (hpoll : (p.poll ctx force).run reply world = (p', world'))
    (hs : s.poller = .snapshot p') (hd : s.deliverPending now = (s', events)) :
    let r := { ofWorld reply ctx q world with calls := events.filterMap Event.call? }
    Standing q immediate s' (r :: rounds) ∧ Lawful immediate (r :: rounds) := by
  obtain ⟨hpolled, hquery⟩ := agrees.poll hl idle hforce hpoll
  rw [query] at hpolled hquery
  obtain ⟨hstand, hobey⟩ := standing_deliverPending hs hquery ofWorld_calls hpolled hd
  exact ⟨hstand, hobey, hl⟩

theorem Standing.wake {rounds : List Round} {world world' : σ} (hs : Standing q immediate s rounds)
    (hl : Lawful immediate rounds) (h : (s.wake now).run reply world = ((s', events), world')) :
    let rounds' :=
      s.recorded (ofWorld reply s.context q world) (events.filterMap Event.call?) rounds
    Standing q immediate s' rounds' ∧ Lawful immediate rounds' := by
  have hends := Dialogue.ends_run_iff.mpr h
  cases hs with
  | idle poller query idle phase fresh agrees =>
    cases hphase : s.phase with
    | fresh =>
      simp only [Subscription.wake, hphase, poller, Poller.start, Dialogue.ends_bind,
        Dialogue.ends_map, Dialogue.ends_pure] at hends
      obtain ⟨_, _, ⟨p', hp, rfl⟩, hd, rfl⟩ := hends
      have hpolls : s.polls = true := by simp [polls, hphase]
      simp only [recorded, hpolls, if_true]
      exact standing_poll hl query idle agrees (fun _ => fresh hphase)
        (Dialogue.ends_run_iff.mp hp) rfl hd
    | asleep wake =>
      simp only [Subscription.wake, hphase] at hends
      split at hends
      · rename_i hcancelled
        simp only [Dialogue.ends_pure, Prod.mk.injEq] at hends
        obtain ⟨⟨rfl, rfl⟩, rfl⟩ := hends
        have hpolls : s.polls = false := by simp [polls, hphase, hcancelled]
        rw [List.filterMap_nil, recorded_nothing hpolls]
        exact ⟨.idle poller query idle (by simp) (by simp) agrees, hl⟩
      · rename_i hcancelled
        simp only [poller, Poller.poll, Dialogue.ends_bind, Dialogue.ends_map,
          Dialogue.ends_pure] at hends
        obtain ⟨_, _, ⟨p', hp, rfl⟩, hd, rfl⟩ := hends
        have hpolls : s.polls = true := by simp [polls, hphase, hcancelled]
        simp only [recorded, hpolls, if_true]
        exact standing_poll hl query idle agrees (by simp) (Dialogue.ends_run_iff.mp hp) rfl hd
    | busy wake accepted => exact absurd hphase (phase wake accepted)
    | finished =>
      simp only [Subscription.wake, hphase, Dialogue.ends_pure, Prod.mk.injEq] at hends
      obtain ⟨⟨rfl, rfl⟩, rfl⟩ := hends
      have hpolls : s.polls = false := by simp [polls, hphase]
      rw [List.filterMap_nil, recorded_nothing hpolls]
      exact ⟨.idle poller query idle phase fresh agrees, hl⟩
  | busy poller query phase pending calls polled =>
    rename_i p r past snapshot rows wake accepted
    simp only [Subscription.wake, phase, poller, Poller.settle, deliverPending, Poller.pending,
      pending_settle, Option.toList_none, List.map_nil, deliver, Dialogue.ends_pure, Prod.mk.injEq] at hends
    obtain ⟨⟨rfl, rfl⟩, rfl⟩ := hends
    have hpolls : s.polls = false := by simp [polls, phase]
    have hevents : [Event.returned now (s.calls - 1)].filterMap Event.call? = [] := rfl
    rw [hevents, recorded_nothing hpolls]
    exact ⟨standing_pause rfl ((p.query_settle accepted).trans query) (p.pending_settle accepted)
      (polled.settle calls pending accepted), hl⟩

theorem Standing.cancel {rounds : List Round} (hs : Standing q immediate s rounds) :
    Standing q immediate s.cancel rounds := by
  cases hs with
  | idle poller query idle phase fresh agrees => exact .idle poller query idle phase fresh agrees
  | busy poller query phase pending calls polled =>
    exact .busy poller query phase pending calls polled

theorem standing_of_run {ctx : Context} {interval : Nat} {callback : Callback}
    (h : Relation.ReflTransGen (Step reply q) (snapshots ctx q interval immediate callback, [])
      (s, rounds)) :
    Standing q immediate s rounds ∧ Lawful immediate rounds := by
  generalize hd : (s, rounds) = d at h
  induction h generalizing s rounds with
  | refl =>
    cases hd
    exact ⟨.idle rfl rfl rfl (by simp [snapshots]) (fun _ => rfl) (agrees_nil q immediate), trivial⟩
  | tail _ hst ih =>
    cases hst with
    | cancel s rounds =>
      cases hd
      obtain ⟨hs, hl⟩ := ih rfl
      exact ⟨hs.cancel, hl⟩
    | wake now rounds hw =>
      cases hd
      obtain ⟨hs, hl⟩ := ih rfl
      exact hs.wake hl hw

theorem hears_recorded {ctx : Context} {w : σ} {calls : List (Bool × Delivery)}
    (hr : r.Hears reply ctx q w) (h : ∀ t ∈ rounds, ∃ w, t.Hears reply ctx q w) :
    ∀ t ∈ s.recorded r calls rounds, ∃ w, t.Hears reply ctx q w := by
  unfold recorded
  split
  · exact List.forall_mem_cons.mpr ⟨⟨w, hr.call calls⟩, h⟩
  · cases rounds with
    | nil => exact h
    | cons r past =>
      obtain ⟨⟨w, hr⟩, hpast⟩ := List.forall_mem_cons.mp h
      exact List.forall_mem_cons.mpr ⟨⟨w, hr.call _⟩, hpast⟩

theorem hears_of_run {ctx : Context} {interval : Nat} {callback : Callback}
    (h : Relation.ReflTransGen (Step reply q) (snapshots ctx q interval immediate callback, [])
      (s, rounds)) :
    s.context = ctx ∧ ∀ r ∈ rounds, ∃ w, r.Hears reply ctx q w := by
  generalize hd : (s, rounds) = d at h
  induction h generalizing s rounds with
  | refl =>
    cases hd
    exact ⟨rfl, by simp⟩
  | tail _ hst ih =>
    cases hst with
    | cancel s rounds =>
      cases hd
      obtain ⟨hctx, hall⟩ := ih rfl
      exact ⟨hctx, hall⟩
    | wake now rounds hw =>
      cases hd
      obtain ⟨rfl, hall⟩ := ih rfl
      exact ⟨context_wake (Dialogue.ends_run_iff.mpr hw), hears_recorded (hears_ofWorld _ _ _ _) hall⟩

/-- A round shows what the collaborators have replied to its poll. A poll calls back at most
once, and it does so with rows exactly if its capture gives a snapshot, its fetch these rows, and
its past leaves the snapshot to be delivered: there is a poll that the subscriber has accepted, or
the subscription delivers from the start, and the latest one accepted had another snapshot. -/
theorem calls_iff {ctx : Context} {interval : Nat} {callback : Callback}
    (h : Relation.ReflTransGen (Step reply q) (snapshots ctx q interval immediate callback, [])
      (s, rounds))
    (hr : r :: past <:+ rounds) :
    (∃ w, r.Hears reply ctx q w) ∧
    (r.got = [] ∨ ∃ rows, r.got = [.rows rows]) ∧
      ∀ rows, .rows rows ∈ r.got ↔ r.Delivers immediate past rows :=
  ⟨(hears_of_run h).2 r (hr.subset List.mem_cons_self), (standing_of_run h).2.obeys hr⟩

/-- A store of ids. Only fingerprints are asked for as raw rows. -/
def storeReply (r : Request) (ids : List Int64) : r.Reply × List Int64 :=
  (match r with
    | .revision => ""
    | .execute _ true => .ok [.ofColumns [("row_count", .integer (Int64.ofNat ids.length)),
        ("max_id", ids.max?.elim .null .integer)]]
    | .execute _ false => .ok (ids.map fun id => .ofColumns [("id", .integer id)])
    | .related _ _ _ => .ok [], ids)

/-- A call fails. The rows are delivered at the next poll, with one that has come since, then
nothing as long as the store stands still, and what is left once a row has gone. -/
theorem calls_iff_after_failure :
    let q : Query := { table := "t" }
    let callback : Callback := { duration := fun _ => 0, succeeds := fun call => 0 < call }
    let row (id : Int64) : Row := .ofColumns [("id", .integer id)]
    ∃ s gone still again first, Relation.ReflTransGen (Step storeReply q)
        (snapshots {} q 1000 true callback, []) (s, [gone, still, again, first]) ∧
      first.calls = [(false, .rows [row 5])] ∧ .rows [row 5, row 6] ∈ again.got ∧
      (∀ rows, .rows rows ∉ still.got) ∧ .rows [row 6] ∈ gone.got := by
  intro q callback row
  let first : Round := ⟨some ⟨1, 5, ""⟩, some [row 5], [(false, .rows [row 5])]⟩
  let again : Round := ⟨some ⟨2, 6, ""⟩, some [row 5, row 6], [(true, .rows [row 5, row 6])]⟩
  let still : Round := ⟨some ⟨2, 6, ""⟩, some [row 5, row 6], []⟩
  let gone : Round := ⟨some ⟨1, 6, ""⟩, some [row 6], [(true, .rows [row 6])]⟩
  let task (last : Option Snapshot) (calls wake : Nat) : Subscription :=
    { snapshots {} q 1000 true callback with
      poller := .snapshot { query := q, needsBaseline := false, detector := ⟨last⟩ }
      calls := calls
      phase := .asleep wake }
  let t₀ := snapshots {} q 1000 true callback
  let t₁ := task none 1 1000
  let t₂ := task (some ⟨2, 6, ""⟩) 2 2000
  let t₃ := task (some ⟨2, 6, ""⟩) 2 3000
  let t₄ := task (some ⟨1, 6, ""⟩) 3 4000
  have hwake₀ : (t₀.wake 0).run storeReply [5] =
      ((t₁, [.called 0 0 false (.rows [row 5])]), [5]) := rfl
  have hwake₁ : (t₁.wake 1000).run storeReply [5, 6] =
      ((t₂, [.called 1000 1 true (.rows [row 5, row 6])]), [5, 6]) := rfl
  have hwake₂ : (t₂.wake 2000).run storeReply [5, 6] = ((t₃, []), [5, 6]) := rfl
  have hwake₃ : (t₃.wake 3000).run storeReply [6] =
      ((t₄, [.called 3000 2 true (.rows [row 6])]), [6]) := rfl
  have hfirst : Step storeReply q (t₀, []) (t₁, [first]) := .wake 0 [] hwake₀
  have hagain : Step storeReply q (t₁, [first]) (t₂, [again, first]) := .wake 1000 [first] hwake₁
  have hstill : Step storeReply q (t₂, [again, first]) (t₃, [still, again, first]) :=
    .wake 2000 [again, first] hwake₂
  have hgone : Step storeReply q (t₃, [still, again, first]) (t₄, [gone, still, again, first]) :=
    .wake 3000 [still, again, first] hwake₃
  have hrun := (((Relation.ReflTransGen.single hfirst).tail hagain).tail hstill).tail hgone
  have hlast : lastAccepting true [still, again, first] = some again := rfl
  have hagain' : again.Delivers true [first] [row 5, row 6] :=
    ⟨Option.some_ne_none _, rfl, .inl rfl, by simp [lastAccepting, accepts, first]⟩
  have hstill' (rows : List Row) : ¬still.Delivers true [again, first] rows :=
    fun hd => hd.changed again rfl rfl
  have hgone' : gone.Delivers true [still, again, first] [row 6] := by
    refine ⟨Option.some_ne_none _, rfl, .inl rfl, fun a ha => ?_⟩
    cases hlast.symm.trans ha
    simp [again, gone]
  refine ⟨t₄, gone, still, again, first, hrun, rfl, ?_, ?_, ?_⟩
  · exact ((calls_iff hrun ⟨[gone, still], rfl⟩).2.2 _).mpr hagain'
  · exact fun rows hmem => hstill' rows (((calls_iff hrun ⟨[gone], rfl⟩).2.2 rows).mp hmem)
  · exact ((calls_iff hrun (List.suffix_refl _)).2.2 _).mpr hgone'

end Subscription

end LiveQuery
