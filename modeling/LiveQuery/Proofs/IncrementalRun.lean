import LiveQuery.Proofs.Ends
import LiveQuery.Subscription
import Mathlib.Logic.Relation

/-! The life of an incremental poller as a relation on stages. Between two of its moves
the world may drift; a poll asks the collaborators, and each row found waits for its
callback. -/

namespace LiveQuery

variable {ω : Type} {answer : Answers ω} {w v : ω}

namespace IncrementalPoller

def take (p : IncrementalPoller) : Except QueryError (Option Batch) → IncrementalPoller
  | .ok (some b) => p.receive b
  | .ok none => p
  | .error _ => p

theorem poll_eq (ctx : Context) (p : IncrementalPoller) :
    p.poll ctx = p.take <$> (p.fetch ctx).run := by
  change Dialogue.bind _ _ = Dialogue.bind _ _
  congr 1
  funext r
  rcases r with e | _ | b <;> rfl

theorem advance_of_lt {n m : Int64} (h : n < m) : advance (some m) n = m :=
  if_pos (Int64.le_of_lt h)

theorem le_advance (id : Option Int64) (n : Int64) : n ≤ advance id n := by
  cases id with
  | none => exact Int64.le_refl n
  | some k =>
    change n ≤ if n ≤ k then k else n
    split
    · assumption
    · exact Int64.le_refl n

theorem le_advance_of_eq_some {id : Option Int64} {k : Int64} (h : id = some k) (n : Int64) :
    k ≤ advance id n := by
  subst h
  change k ≤ if n ≤ k then k else n
  split
  · exact Int64.le_refl k
  · exact (Int64.le_total n k).resolve_left ‹_›

theorem ends_start {ctx : Context} {q : Query} {p : IncrementalPoller} :
    (start ctx q).run.Ends answer w (.ok p) v ↔
      ∃ s, (ctx.capture q).run.Ends answer w (.ok s) v ∧
        p = { query := q, detector := ⟨some s⟩, watermark := s.maxRowId } := by
  unfold start
  simp only [Inquiry.ends_bind_ok, Inquiry.ends_pure]
  constructor
  · rintro ⟨s, u, hs, hp, rfl⟩
    cases hp
    exact ⟨s, hs, rfl⟩
  · rintro ⟨s, hs, rfl⟩
    exact ⟨s, v, hs, rfl, rfl⟩

theorem ends_fetch_none {ctx : Context} {p : IncrementalPoller} :
    (p.fetch ctx).run.Ends answer w (.ok none) v ↔
      ∃ s, (ctx.capture p.query).run.Ends answer w (.ok s) v ∧
        p.detector.hasChanged s = false := by
  unfold fetch
  rw [Inquiry.ends_bind_ok]
  constructor
  · rintro ⟨s, u, hs, h⟩
    split at h
    · simp only [Inquiry.ends_bind_ok, Inquiry.ends_pure] at h
      obtain ⟨_, _, _, _, _, _, he, _⟩ := h
      cases he
    · rename_i hc
      obtain ⟨-, rfl⟩ := Inquiry.ends_pure.mp h
      exact ⟨s, hs, by simpa using hc⟩
  · rintro ⟨s, hs, hc⟩
    exact ⟨s, v, hs, by simp [hc]⟩

theorem ends_fetch_some {ctx : Context} {p : IncrementalPoller} {b : Batch} :
    (p.fetch ctx).run.Ends answer w (.ok (some b)) v ↔
      ∃ u u' rows loaded, (ctx.capture p.query).run.Ends answer w (.ok b.snapshot) u ∧
        p.detector.hasChanged b.snapshot = true ∧
        answer u (.execute (p.query.incremental ctx.config.idColumn p.watermark) p.query.raw)
          (.ok rows) u' ∧
        (p.query.loadRelated ctx rows).run.Ends answer u' (.ok loaded) v ∧
        b.rows = loaded.map (newRow ctx.config.idColumn) := by
  unfold fetch
  rw [Inquiry.ends_bind_ok]
  constructor
  · rintro ⟨s, u, hs, h⟩
    split at h
    · rename_i hc
      simp only [Inquiry.ends_bind_ok, Inquiry.ends_execute, Inquiry.ends_pure] at h
      obtain ⟨rows, u', hr, loaded, u'', hl, hb, rfl⟩ := h
      cases hb
      exact ⟨u, u', rows, loaded, hs, hc, hr, hl, rfl⟩
    · exact absurd (Inquiry.ends_pure.mp h).1 (by simp)
  · rintro ⟨u, u', rows, loaded, hs, hc, hr, hl, hb⟩
    refine ⟨b.snapshot, u, hs, ?_⟩
    rw [if_pos hc]
    simp only [Inquiry.ends_bind_ok, Inquiry.ends_execute, Inquiry.ends_pure]
    exact ⟨rows, u', hr, loaded, v, hl, by rw [← hb], rfl⟩

/-- The rows of the batch in hand that are still to be delivered. -/
def waiting (p : IncrementalPoller) : List NewRow := p.pending.toList.flatMap Batch.rows

def HoldsRows (p : IncrementalPoller) : Prop := ∀ b, p.pending = some b → b.rows ≠ []

theorem HoldsRows.pending_eq_none {p : IncrementalPoller} (h : p.HoldsRows)
    (hw : p.waiting = []) : p.pending = none := by
  cases hp : p.pending with
  | none => rfl
  | some b => exact absurd (by simpa [waiting, hp] using hw) (h b hp)

theorem pending_of_waiting {p : IncrementalPoller} {r : NewRow} {rest : List NewRow}
    (hw : p.waiting = r :: rest) : ∃ snapshot, p.pending = some ⟨snapshot, r :: rest⟩ := by
  cases hp : p.pending with
  | none => simp [waiting, hp] at hw
  | some b =>
    obtain ⟨snapshot, rows⟩ := b
    have : rows = r :: rest := by simpa [waiting, hp] using hw
    exact ⟨snapshot, by rw [this]⟩

theorem receive_of_nil {b : Batch} (h : b.rows = []) (p : IncrementalPoller) :
    p.receive b = { p with detector := p.detector.record b.snapshot, pending := none } := by
  simp [receive, h]

theorem receive_of_ne {b : Batch} (h : b.rows ≠ []) (p : IncrementalPoller) :
    p.receive b = { p with pending := some b } := by
  simp [receive, h]

theorem holdsRows_receive (b : Batch) (p : IncrementalPoller) : (p.receive b).HoldsRows := by
  intro c hc
  by_cases h : b.rows = [] <;> simp [receive, h] at hc
  exact hc ▸ h

theorem HoldsRows.take {p : IncrementalPoller} (h : p.HoldsRows)
    (r : Except QueryError (Option Batch)) : (p.take r).HoldsRows := by
  rcases r with e | _ | b
  · exact h
  · exact h
  · exact holdsRows_receive b p

theorem HoldsRows.settle {p : IncrementalPoller} (h : p.HoldsRows) (accepted : Bool) :
    (p.settle accepted).HoldsRows := by
  unfold IncrementalPoller.settle
  split
  · exact h
  · simp [HoldsRows]
  · split
    · exact holdsRows_receive _ _
    · simp [HoldsRows]

theorem waiting_receive (b : Batch) (p : IncrementalPoller) : (p.receive b).waiting = b.rows := by
  by_cases h : b.rows = [] <;> simp [receive, waiting, h]

end IncrementalPoller

/-- How a tick has ended: with nothing new, with every row found delivered, or in an
error of a collaborator or a callback. -/
inductive Ending
  | unchanged | delivered | failed
deriving DecidableEq

/-- A moment in the life of an incremental poller. -/
structure Stage (ω : Type) where
  world : ω
  poller : IncrementalPoller
  /-- The world as the last tick found it. -/
  read : ω
  /-- Rows whose callbacks have succeeded, in the order of the calls. -/
  delivered : List NewRow := []
  /-- How the last tick has ended, unless it is still under way. -/
  ended : Option Ending := none

namespace Stage

def endingOf : Except QueryError (Option Batch) → Option Ending
  | .error _ => some .failed
  | .ok none => some .unchanged
  | .ok (some b) => if b.rows.isEmpty then some .delivered else none

def endingAfter (accepted : Bool) (rest : List NewRow) : Option Ending :=
  if accepted then (if rest.isEmpty then some .delivered else none) else some .failed

def polled (s : Stage ω) (v : ω) (r : Except QueryError (Option Batch)) : Stage ω :=
  { s with world := v, read := s.world, poller := s.poller.take r, ended := endingOf r }

def settled (s : Stage ω) (accepted : Bool) (r : NewRow) (rest : List NewRow) : Stage ω :=
  { s with
    poller := s.poller.settle accepted
    delivered := if accepted then s.delivered ++ [r] else s.delivered
    ended := endingAfter accepted rest }

variable (ctx : Context) (answer : Answers ω) (drift : ω → ω → Prop)

inductive Step : Stage ω → Stage ω → Prop
  | drift {s : Stage ω} {v : ω} (h : drift s.world v) : Step s { s with world := v }
  | poll {s : Stage ω} {v : ω} {r : Except QueryError (Option Batch)}
      (idle : s.poller.pending = none)
      (h : (s.poller.fetch ctx).run.Ends answer s.world r v) : Step s (s.polled v r)
  | settle {s : Stage ω} {snapshot : Snapshot} {r : NewRow} {rest : List NewRow}
      (accepted : Bool) (h : s.poller.pending = some ⟨snapshot, r :: rest⟩) :
      Step s (s.settled accepted r rest)

def begin (w : ω) (p : IncrementalPoller) : Stage ω := { world := w, poller := p, read := w }

/-- Stages of a subscription that has read its baseline in the world `w`. -/
def Reached (q : Query) (w : ω) (s : Stage ω) : Prop :=
  ∃ v p, (IncrementalPoller.start ctx q).run.Ends answer w (.ok p) v ∧
    Relation.ReflTransGen (Step ctx answer drift) (begin v p) s

/-- Moves of a stage, with the callbacks that come back in them, each with whether it has
succeeded. -/
inductive Run : Stage ω → List (NewRow × Bool) → Stage ω → Prop
  | refl (s : Stage ω) : Run s [] s
  | drift {s s' : Stage ω} {v : ω} {calls : List (NewRow × Bool)} (hd : drift s.world v)
      (h : Run { s with world := v } calls s') : Run s calls s'
  | poll {s s' : Stage ω} {v : ω} {r : Except QueryError (Option Batch)}
      {calls : List (NewRow × Bool)} (idle : s.poller.pending = none)
      (hf : (s.poller.fetch ctx).run.Ends answer s.world r v) (h : Run (s.polled v r) calls s') :
      Run s calls s'
  | settle {s s' : Stage ω} {snapshot : Snapshot} {r : NewRow} {rest : List NewRow}
      {calls : List (NewRow × Bool)} (accepted : Bool)
      (hp : s.poller.pending = some ⟨snapshot, r :: rest⟩)
      (h : Run (s.settled accepted r rest) calls s') : Run s ((r, accepted) :: calls) s'

variable {ctx answer drift} {s s' : Stage ω} {calls : List (NewRow × Bool)}

theorem Run.moves (h : Run ctx answer drift s calls s') :
    Relation.ReflTransGen (Step ctx answer drift) s s' := by
  induction h with
  | refl s => exact .refl
  | drift hd _ ih => exact .head (.drift hd) ih
  | poll idle hf _ ih => exact .head (.poll idle hf) ih
  | settle accepted hp _ ih => exact .head (.settle accepted hp) ih

/-- The rows delivered are those of the callbacks that have succeeded. -/
theorem Run.delivered_eq (h : Run ctx answer drift s calls s') :
    s'.delivered = s.delivered ++ (calls.filter Prod.snd).map Prod.fst := by
  induction h with
  | refl s => simp
  | drift _ _ ih => exact ih
  | poll _ _ _ ih => exact ih
  | settle accepted _ _ ih => cases accepted <;> simp [ih, settled]

end Stage

/-- The row of a call, and whether the call is going to succeed. -/
def Event.rowCall? : Event → Option (Row × Bool)
  | .called _ _ accepted (.row r) => some (r, accepted)
  | _ => none

namespace Subscription

variable {ctx : Context} {drift : ω → ω → Prop} {now : Nat} {s s' : Subscription}
  {events : List Event} {st : Stage ω}

/-- The call that is under way. -/
def calling (s : Subscription) (p : IncrementalPoller) : List (NewRow × Bool) :=
  match s.phase with
  | .busy _ accepted => p.waiting.head?.toList.map fun r => (r, accepted)
  | _ => []

def shown (calls : List (NewRow × Bool)) : List (Row × Bool) := calls.map fun c => (c.1.row, c.2)

/-- The task of a subscription and its poller at a stage: rows are pending exactly while a
callback is under way. -/
structure At (s : Subscription) (st : Stage ω) : Prop where
  poller : s.poller = .incremental st.poller
  nonempty : st.poller.HoldsRows
  busy : st.poller.pending ≠ none ↔ ∃ wake accepted, s.phase = .busy wake accepted

theorem pause_at (hp : s.poller = .incremental st.poller) (hn : st.poller.pending = none) :
    (s.pause now).At st where
  poller := hp
  nonempty := by simp [IncrementalPoller.HoldsRows, hn]
  busy := by
    simp only [pause, hn]
    split <;> simp

theorem calling_pause (s : Subscription) (p : IncrementalPoller) :
    (s.pause now).calling p = [] := by
  unfold calling pause
  cases s.cancelled <;> rfl

/-- Between two waits the task only makes moves of a stage, and the calls it makes are those that
come back in them, with the one under way. -/
theorem deliver_runs (st : Stage ω) {rows : List NewRow} (hp : s.poller = .incremental st.poller)
    (hn : st.poller.HoldsRows) (hw : st.poller.waiting = rows)
    (h : s.deliver now (rows.map fun r => .row r.row) = (s', events)) :
    ∃ st' calls, Stage.Run ctx answer drift st calls st' ∧ st'.world = st.world ∧ s'.At st' ∧
      shown (calls ++ s'.calling st'.poller) = events.filterMap Event.rowCall? := by
  induction rows generalizing s st events with
  | nil =>
    cases h
    have hnone := hn.pending_eq_none hw
    refine ⟨st, [], .refl st, rfl, pause_at hp hnone, ?_⟩
    simp [calling_pause, shown]
  | cons r rest ih =>
    obtain ⟨snapshot, hpend⟩ := IncrementalPoller.pending_of_waiting hw
    simp only [List.map_cons, deliver] at h
    -- only a callback that takes no time is over before the next wait
    by_cases hd : s.callback.duration s.calls = 0
    · cases ha : s.callback.succeeds s.calls with
      | true =>
        simp only [hd, ha, if_true, Prod.mk.injEq] at h
        obtain ⟨hs, rfl⟩ := h
        have hset : (st.settled true r rest).poller =
            { st.poller with
              watermark := IncrementalPoller.advance r.id st.poller.watermark }.receive
                ⟨snapshot, rest⟩ := by simp [Stage.settled, IncrementalPoller.settle, hpend]
        obtain ⟨st', calls, hrun, hv, hat, hcalls⟩ := ih (st.settled true r rest)
          (by rw [hp]; rfl) (hset ▸ IncrementalPoller.holdsRows_receive _ _)
          (hset ▸ IncrementalPoller.waiting_receive _ _) (Prod.ext hs rfl)
        exact ⟨st', _, .settle true hpend hrun, hv, hat, congrArg ((r.row, true) :: ·) hcalls⟩
      | false =>
        simp only [hd, ha, if_true, Bool.false_eq_true, if_false, Prod.mk.injEq] at h
        obtain ⟨rfl, rfl⟩ := h
        have hnone : (st.settled false r rest).poller.pending = none := by
          simp [Stage.settled, IncrementalPoller.settle, hpend]
        refine ⟨_, _, .settle false hpend (.refl _), rfl, pause_at (by rw [hp]; rfl) hnone, ?_⟩
        simp [calling_pause, shown, Event.rowCall?]
    · simp only [hd, if_false, Prod.mk.injEq] at h
      obtain ⟨rfl, rfl⟩ := h
      refine ⟨st, [], .refl st, rfl, ⟨hp, hn, by simp [hpend]⟩, ?_⟩
      simp [calling, hw, shown, Event.rowCall?]

theorem deliverPending_runs (st : Stage ω) (hp : s.poller = .incremental st.poller)
    (hn : st.poller.HoldsRows) (h : s.deliverPending now = (s', events)) :
    ∃ st' calls, Stage.Run ctx answer drift st calls st' ∧ st'.world = st.world ∧ s'.At st' ∧
      shown (calls ++ s'.calling st'.poller) = events.filterMap Event.rowCall? := by
  rw [deliverPending, hp] at h
  exact deliver_runs st hp hn rfl h

/-- The task of a subscription, from a wake-up to its next wait, only makes moves of a
stage, and it makes the calls that come back in them. -/
theorem wake_runs {v : ω} (hat : s.At st)
    (h : (s.wake now).Ends answer st.world (s', events) v) :
    ∃ st' calls, Stage.Run s.context answer drift st calls st' ∧ st'.world = v ∧ s'.At st' ∧
      shown (calls ++ s'.calling st'.poller) =
        shown (s.calling st.poller) ++ events.filterMap Event.rowCall? := by
  obtain ⟨context, poller, interval, callback, calls, cancelled, phase⟩ := s
  obtain rfl : poller = .incremental st.poller := hat.poller
  have hidle (hphase : ¬ ∃ wake accepted, phase = .busy wake accepted) :
      st.poller.pending = none := Classical.not_not.mp fun hne => hphase (hat.busy.mp hne)
  cases phase with
  | fresh =>
    simp only [wake, Poller.start, Dialogue.ends_bind, Dialogue.ends_pure] at h
    obtain ⟨_, _, ⟨rfl, rfl⟩, h, rfl⟩ := h
    exact deliverPending_runs st rfl hat.nonempty h
  | asleep w =>
    simp only [wake] at h
    split at h
    · simp only [Dialogue.ends_pure, Prod.mk.injEq] at h
      obtain ⟨⟨rfl, rfl⟩, rfl⟩ := h
      exact ⟨st, [], .refl st, rfl, ⟨rfl, hat.nonempty, by simp [hidle]⟩, rfl⟩
    · simp only [Poller.poll, Dialogue.ends_bind, Dialogue.ends_map, Dialogue.ends_pure,
        IncrementalPoller.poll_eq] at h
      obtain ⟨_, u, ⟨_, ⟨r, hr, rfl⟩, rfl⟩, h, rfl⟩ := h
      obtain ⟨st', calls, hrun, hv, hat', hcalls⟩ := deliverPending_runs (st.polled u r)
        rfl (hat.nonempty.take r) h
      exact ⟨st', calls, .poll (hidle (by simp)) hr hrun, hv, hat', hcalls⟩
  | busy w accepted =>
    simp only [wake] at h
    generalize hd : deliverPending now _ = d at h
    obtain ⟨s', events⟩ := d
    obtain ⟨⟨rfl, rfl⟩, rfl⟩ := h
    obtain ⟨⟨snapshot, rows⟩, hb⟩ := Option.ne_none_iff_exists'.mp
      (hat.busy.mpr ⟨w, accepted, rfl⟩)
    cases rows with
    | nil => exact absurd rfl (hat.nonempty _ hb)
    | cons r rest =>
      obtain ⟨st', calls, hrun, hv, hat', hcalls⟩ := deliverPending_runs
        (st.settled accepted r rest) (congrArg Subscription.poller rfl)
        (hat.nonempty.settle accepted) hd
      refine ⟨st', _, .settle accepted hb hrun, hv, hat', ?_⟩
      rw [List.filterMap_cons_none rfl, ← hcalls]
      simp [calling, IncrementalPoller.waiting, hb, shown]
  | finished =>
    simp only [wake, Dialogue.ends_pure, Prod.mk.injEq] at h
    obtain ⟨⟨rfl, rfl⟩, rfl⟩ := h
    exact ⟨st, [], .refl st, rfl, hat, by simp⟩

end Subscription

end LiveQuery
