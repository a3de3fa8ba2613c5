import LiveQuery.Proofs.History
import LiveQuery.Subscription

/-! The life of a snapshot poller among writers as a relation on watches. -/

namespace LiveQuery

namespace SnapshotPoller

variable {ω : Type} {answer : Answers ω} {w v : ω} {ctx : Context} {p : SnapshotPoller}
  {force : Bool}

def take (p : SnapshotPoller) :
    Except QueryError (Option (Snapshot × List Row)) → SnapshotPoller
  | .ok pending => { p with pending := pending }
  | .error _ => p

def primed (p : SnapshotPoller) : Except QueryError Snapshot → SnapshotPoller
  | .ok s => { p with detector := p.detector.record s, needsBaseline := false }
  | .error _ => p

theorem poll_of_needsBaseline (h : p.needsBaseline = true) :
    p.poll ctx force = p.primed <$> (ctx.capture p.query).run := by
  rw [poll, if_pos h]
  change Dialogue.bind _ _ = Dialogue.bind _ _
  congr 1
  funext r
  cases r <;> rfl

theorem poll_of_baseline (h : p.needsBaseline = false) :
    p.poll ctx force = p.take <$> (p.fetch ctx force).run := by
  rw [poll, if_neg (by simp [h])]
  change Dialogue.bind _ _ = Dialogue.bind _ _
  congr 1
  funext r
  cases r <;> rfl

@[simp] theorem pending_settle (accepted : Bool) (p : SnapshotPoller) :
    (p.settle accepted).pending = none := by
  unfold settle
  split
  · assumption
  · rfl

@[simp] theorem query_settle (accepted : Bool) (p : SnapshotPoller) :
    (p.settle accepted).query = p.query := by
  unfold settle
  split <;> rfl

theorem ends_fetch_none :
    (p.fetch ctx force).run.Ends answer w (.ok none) v ↔
      ∃ s, (ctx.capture p.query).run.Ends answer w (.ok s) v ∧
        force = false ∧ p.detector.last = some s := by
  unfold fetch
  rw [Inquiry.ends_bind_ok]
  constructor
  · rintro ⟨s, u, hs, h⟩
    split at h
    · simp only [Inquiry.ends_bind_ok, Inquiry.ends_pure] at h
      obtain ⟨_, _, _, he, _⟩ := h
      cases he
    · rename_i hc
      obtain ⟨-, rfl⟩ := Inquiry.ends_pure.mp h
      exact ⟨s, hs, by simpa [Detector.hasChanged] using hc⟩
  · rintro ⟨s, hs, hf, hl⟩
    exact ⟨s, v, hs, by simp [Detector.hasChanged, hf, hl]⟩

theorem ends_fetch_some {s : Snapshot} {rows : List Row} :
    (p.fetch ctx force).run.Ends answer w (.ok (some (s, rows))) v ↔
      ∃ u, (ctx.capture p.query).run.Ends answer w (.ok s) u ∧
        (force = true ∨ p.detector.last ≠ some s) ∧
        (p.query.fetchAll ctx).run.Ends answer u (.ok rows) v := by
  unfold fetch
  rw [Inquiry.ends_bind_ok]
  constructor
  · rintro ⟨s, u, hs, h⟩
    split at h
    · rename_i hc
      simp only [Inquiry.ends_bind_ok, Inquiry.ends_pure] at h
      obtain ⟨rows, u', hr, he, rfl⟩ := h
      cases he
      exact ⟨u, hs, by simpa [Detector.hasChanged] using hc, hr⟩
    · exact absurd (Inquiry.ends_pure.mp h).1 (by simp)
  · rintro ⟨u, hs, hc, hr⟩
    refine ⟨s, u, hs, ?_⟩
    rw [if_pos (by simpa [Detector.hasChanged] using hc)]
    simp only [Inquiry.ends_bind_ok, Inquiry.ends_pure]
    exact ⟨rows, v, hr, rfl, rfl⟩

end SnapshotPoller

/-- A snapshot poller and all that has happened around it. -/
structure Watch where
  poller : SnapshotPoller
  history : History := []

namespace Watch

open History

variable (ctx : Context) (reads : History → (r : Request) → r.Reply → Prop)

inductive Step : Watch → Watch → Prop
  | write {s : Watch} {h : History} (hw : Writes s.history h) : Step s { s with history := h }
  | poll {s : Watch} {p : SnapshotPoller} {h : History} (force : Bool)
      (idle : s.poller.pending = none)
      (hp : (s.poller.poll ctx force).Ends (answers reads) s.history p h) :
      Step s ⟨p, if s.poller.needsBaseline && !p.needsBaseline then .primed :: h else h⟩
  | settle {s : Watch} {snapshot : Snapshot} {rows : List Row} (accepted : Bool)
      (hp : s.poller.pending = some (snapshot, rows)) :
      Step s ⟨s.poller.settle accepted,
        (if accepted then .accepted rows else .refused) :: s.history⟩

def begin (q : Query) (needsBaseline : Bool) : Watch :=
  { poller := { query := q, needsBaseline } }

def Reached (q : Query) (s : Watch) : Prop :=
  ∃ needsBaseline, Relation.ReflTransGen (Step ctx reads) (begin q needsBaseline) s

end Watch

namespace Subscription

open History

variable {reads : History → (r : Request) → r.Reply → Prop} {now : Nat} {s s' : Subscription}
  {events : List Event} {w : Watch} {h : History}

/-- The task of a subscription and its watch: rows are pending exactly while a callback is
under way. -/
structure Watched (s : Subscription) (w : Watch) : Prop where
  poller : s.poller = .snapshot w.poller
  busy : w.poller.pending ≠ none ↔ ∃ wake accepted, s.phase = .busy wake accepted

theorem pause_watched (hp : s.poller = .snapshot w.poller) (hn : w.poller.pending = none) :
    (s.pause now).Watched w where
  poller := hp
  busy := by
    simp only [pause, hn]
    split <;> simp

/-- A history that has grown by outcomes of the task alone. -/
def Concludes (h g : History) : Prop := ∃ l, g = l ++ h ∧ l.all Happening.isOutcome

theorem deliverPending_steps {ctx : Context} (w : Watch) (hp : s.poller = .snapshot w.poller)
    (h : s.deliverPending now = (s', events)) :
    ∃ w', Relation.ReflTransGen (Watch.Step ctx reads) w w' ∧
      Concludes w.history w'.history ∧ s'.Watched w' := by
  rw [deliverPending, hp] at h
  cases hpend : w.poller.pending with
  | none =>
    simp only [Poller.pending, hpend, Option.toList_none, List.map_nil, deliver] at h
    cases h
    exact ⟨w, .refl, ⟨[], rfl, rfl⟩, pause_watched hp hpend⟩
  | some d =>
    obtain ⟨snapshot, rows⟩ := d
    simp only [Poller.pending, hpend, Option.toList_some, List.map_cons, List.map_nil, deliver] at h
    by_cases hd : s.callback.duration s.calls = 0
    · cases ha : s.callback.succeeds s.calls with
      | true =>
        simp only [hd, ha, if_true, Prod.mk.injEq] at h
        obtain ⟨rfl, -⟩ := h
        exact ⟨_, .single (.settle true hpend), ⟨[_], rfl, rfl⟩,
          pause_watched (by rw [hp]; rfl) (w.poller.pending_settle true)⟩
      | false =>
        simp only [hd, ha, if_true, Bool.false_eq_true, if_false, Prod.mk.injEq] at h
        obtain ⟨rfl, -⟩ := h
        exact ⟨_, .single (.settle false hpend), ⟨[_], rfl, rfl⟩,
          pause_watched (by rw [hp]; rfl) (w.poller.pending_settle false)⟩
    · simp only [hd, if_false, Prod.mk.injEq] at h
      obtain ⟨rfl, -⟩ := h
      exact ⟨w, .refl, ⟨[], rfl, rfl⟩, hp, by simp [hpend]⟩

theorem poll_steps {ctx : Context} {force : Bool} {p : SnapshotPoller}
    (hp : s.poller = .snapshot p) (idle : w.poller.pending = none)
    (hpoll : (w.poller.poll ctx force).Ends (answers reads) w.history p h)
    (hd : s.deliverPending now = (s', events)) :
    ∃ w', Relation.ReflTransGen (Watch.Step ctx reads) w w' ∧ Concludes h w'.history ∧
      s'.Watched w' := by
  obtain ⟨w', hrun, ⟨l, hl, ho⟩, hw⟩ := deliverPending_steps
    ⟨p, if w.poller.needsBaseline && !p.needsBaseline then .primed :: h else h⟩ hp hd
  refine ⟨w', .head (.poll force idle hpoll) hrun, ?_, hw⟩
  split at hl
  · exact ⟨l ++ [.primed], by simp [hl], by simp [ho, Happening.isOutcome]⟩
  · exact ⟨l, hl, ho⟩

/-- The task of a snapshot subscription, from a wake-up to its next wait, only makes steps
of a watch. -/
theorem wake_steps (hs : s.Watched w)
    (hw : (s.wake now).Ends (answers reads) w.history (s', events) h) :
    ∃ w', Relation.ReflTransGen (Watch.Step s.context reads) w w' ∧ Concludes h w'.history ∧
      s'.Watched w' := by
  obtain ⟨context, poller, interval, callback, calls, cancelled, phase⟩ := s
  obtain rfl : poller = .snapshot w.poller := hs.poller
  have hidle (hphase : ¬ ∃ wake accepted, phase = .busy wake accepted) :
      w.poller.pending = none := Classical.not_not.mp fun hne => hphase (hs.busy.mp hne)
  cases phase with
  | fresh =>
    simp only [wake, Poller.start, Dialogue.ends_bind, Dialogue.ends_map, Dialogue.ends_pure] at hw
    obtain ⟨_, u, ⟨p, hp, rfl⟩, hd, rfl⟩ := hw
    exact poll_steps rfl (hidle (by simp)) hp hd
  | asleep wake =>
    simp only [Subscription.wake] at hw
    split at hw
    · simp only [Dialogue.ends_pure, Prod.mk.injEq] at hw
      obtain ⟨⟨rfl, rfl⟩, rfl⟩ := hw
      exact ⟨w, .refl, ⟨[], rfl, rfl⟩, rfl, by simp [hidle]⟩
    · simp only [Poller.poll, Dialogue.ends_bind, Dialogue.ends_map, Dialogue.ends_pure] at hw
      obtain ⟨_, u, ⟨p, hp, rfl⟩, hd, rfl⟩ := hw
      exact poll_steps rfl (hidle (by simp)) hp hd
  | busy wake accepted =>
    simp only [Subscription.wake] at hw
    generalize hd : deliverPending now _ = d at hw
    obtain ⟨s', events⟩ := d
    obtain ⟨⟨rfl, rfl⟩, rfl⟩ := hw
    obtain ⟨⟨snapshot, rows⟩, hp⟩ :=
      Option.ne_none_iff_exists'.mp (hs.busy.mpr ⟨wake, accepted, rfl⟩)
    obtain ⟨w', hrun, ⟨l, hl, ho⟩, hw'⟩ := deliverPending_steps
      ⟨w.poller.settle accepted, (if accepted then .accepted rows else .refused) :: w.history⟩
      rfl hd
    refine ⟨w', .head (.settle accepted hp) hrun,
      ⟨l ++ [if accepted then .accepted rows else .refused], ?_, ?_⟩, hw'⟩
    · rw [hl, List.append_assoc]
      rfl
    · cases accepted <;> simp [ho, Happening.isOutcome]
  | finished =>
    simp only [wake, Dialogue.ends_pure, Prod.mk.injEq] at hw
    obtain ⟨⟨rfl, rfl⟩, rfl⟩ := hw
    exact ⟨w, .refl, ⟨[], rfl, rfl⟩, hs⟩

end Subscription

end LiveQuery
