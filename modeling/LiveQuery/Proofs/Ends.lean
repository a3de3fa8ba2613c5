import LiveQuery.Subscription

/-! What a dialogue can end in when its collaborators are free in their replies. Their
part is a relation: which replies a request may get in a state of the world, and which
states it may leave behind. -/

namespace LiveQuery

variable {ω α β : Type}

/-- What collaborators may do when they are asked. -/
abbrev Answers (ω : Type) := ω → (r : Request) → r.Reply → ω → Prop

namespace Dialogue

def Ends (answer : Answers ω) : Dialogue α → ω → α → ω → Prop
  | done a, w, b, v => a = b ∧ w = v
  | ask r next, w, b, v => ∃ x u, answer w r x u ∧ (next x).Ends answer u b v

variable {answer : Answers ω} {w v : ω}

@[simp] theorem ends_pure {a b : α} :
    (pure a : Dialogue α).Ends answer w b v ↔ a = b ∧ w = v := Iff.rfl

@[simp] theorem ends_request {r : Request} {x : r.Reply} :
    (request r).Ends answer w x v ↔ answer w r x v := by
  constructor
  · rintro ⟨y, u, h, rfl, rfl⟩
    exact h
  · intro h
    exact ⟨x, v, h, rfl, rfl⟩

theorem ends_bind {d : Dialogue α} {f : α → Dialogue β} {b : β} :
    (d >>= f).Ends answer w b v ↔ ∃ a u, d.Ends answer w a u ∧ (f a).Ends answer u b v := by
  induction d generalizing w with
  | done a =>
    constructor
    · intro h
      exact ⟨a, w, ⟨rfl, rfl⟩, h⟩
    · rintro ⟨a', u, ⟨rfl, rfl⟩, h⟩
      exact h
  | ask r next ih =>
    constructor
    · rintro ⟨x, u, hx, h⟩
      obtain ⟨a, t, ha, hb⟩ := (ih x).mp h
      exact ⟨a, t, ⟨x, u, hx, ha⟩, hb⟩
    · rintro ⟨a, t, ⟨x, u, hx, ha⟩, hb⟩
      exact ⟨x, u, hx, (ih x).mpr ⟨a, t, ha, hb⟩⟩

theorem ends_map {d : Dialogue α} {f : α → β} {b : β} :
    (f <$> d).Ends answer w b v ↔ ∃ a, d.Ends answer w a v ∧ f a = b := by
  change Ends answer (d >>= fun a => pure (f a)) w b v ↔ _
  simp only [ends_bind, ends_pure]
  constructor
  · rintro ⟨a, u, h, hb, rfl⟩
    exact ⟨a, h, hb⟩
  · rintro ⟨a, h, hb⟩
    exact ⟨a, v, h, hb, rfl⟩

/-- Collaborators that keep a state and answer by a function leave no choice. -/
theorem ends_run_iff {σ : Type} {reply : (r : Request) → σ → r.Reply × σ} {d : Dialogue α}
    {s t : σ} {a : α} :
    d.Ends (fun s r x t => reply r s = (x, t)) s a t ↔ d.run reply s = (a, t) := by
  induction d generalizing s with
  | done b => simp [Ends, run]
  | ask r next ih =>
    constructor
    · rintro ⟨x, u, hx, h⟩
      simpa [run, hx] using (ih x).mp h
    · intro h
      exact ⟨(reply r s).1, (reply r s).2, rfl, (ih _).mpr h⟩

end Dialogue

namespace Inquiry

variable {answer : Answers ω} {w v : ω}

@[simp] theorem ends_pure {a : α} {r : Except QueryError α} :
    (pure a : Inquiry α).run.Ends answer w r v ↔ r = .ok a ∧ w = v := by
  simp [ExceptT.run_pure, eq_comm]

@[simp] theorem ends_throw {e : QueryError} {r : Except QueryError α} :
    (throw e : Inquiry α).run.Ends answer w r v ↔ r = .error e ∧ w = v := by
  simp [ExceptT.run_throw, eq_comm]

theorem ends_bind {x : Inquiry α} {f : α → Inquiry β} {r : Except QueryError β} :
    (x >>= f).run.Ends answer w r v ↔
      (∃ e, x.run.Ends answer w (.error e) v ∧ r = .error e) ∨
      ∃ a u, x.run.Ends answer w (.ok a) u ∧ (f a).run.Ends answer u r v := by
  rw [ExceptT.run_bind, Dialogue.ends_bind]
  constructor
  · rintro ⟨e | a, u, hx, h⟩
    · obtain ⟨rfl, rfl⟩ := h
      exact .inl ⟨e, hx, rfl⟩
    · exact .inr ⟨a, u, hx, h⟩
  · rintro (⟨e, hx, rfl⟩ | ⟨a, u, hx, h⟩)
    · exact ⟨.error e, v, hx, rfl, rfl⟩
    · exact ⟨.ok a, u, hx, h⟩

theorem ends_bind_ok {x : Inquiry α} {f : α → Inquiry β} {b : β} :
    (x >>= f).run.Ends answer w (.ok b) v ↔
      ∃ a u, x.run.Ends answer w (.ok a) u ∧ (f a).run.Ends answer u (.ok b) v := by
  rw [ends_bind]
  constructor
  · rintro (⟨e, _, he⟩ | h)
    · cases he
    · exact h
  · exact .inr

theorem ends_lift {d : Dialogue α} {a : α} :
    (liftM d : Inquiry α).run.Ends answer w (.ok a) v ↔ d.Ends answer w a v := by
  change Dialogue.Ends answer (Except.ok <$> d) w _ v ↔ _
  simp [Dialogue.ends_map]

/-- A failing collaborator leaves its message as the error. -/
theorem ends_orFail_iff {d : Dialogue (Except String α)} {x : Except QueryError α} :
    (orFail d).run.Ends answer w x v ↔
      ∃ reply, d.Ends answer w reply v ∧ x = reply.mapError .execution := by
  change Dialogue.Ends answer (d >>= _) w _ v ↔ _
  rw [Dialogue.ends_bind]
  constructor
  · rintro ⟨message | a, u, hd, h⟩
    · obtain ⟨rfl, rfl⟩ := h
      exact ⟨_, hd, rfl⟩
    · obtain ⟨rfl, rfl⟩ := h
      exact ⟨_, hd, rfl⟩
  · rintro ⟨message | a, hd, rfl⟩
    · exact ⟨_, v, hd, rfl, rfl⟩
    · exact ⟨_, v, hd, rfl, rfl⟩

theorem ends_orFail {d : Dialogue (Except String α)} {a : α} :
    (orFail d).run.Ends answer w (.ok a) v ↔ d.Ends answer w (.ok a) v := by
  rw [ends_orFail_iff]
  constructor
  · rintro ⟨message | b, hd, h⟩
    · cases h
    · cases h
      exact hd
  · exact fun h => ⟨_, h, rfl⟩

theorem ends_orFail_error {d : Dialogue (Except String α)} {e : QueryError} :
    (orFail d).run.Ends answer w (.error e) v ↔
      ∃ message, d.Ends answer w (.error message) v ∧ e = .execution message := by
  rw [ends_orFail_iff]
  constructor
  · rintro ⟨message | b, hd, h⟩
    · cases h
      exact ⟨message, hd, rfl⟩
    · cases h
  · rintro ⟨message, hd, rfl⟩
    exact ⟨_, hd, rfl⟩

theorem ends_execute {s : Statement} {raw : Bool} {rows : List Row} :
    (execute s raw).run.Ends answer w (.ok rows) v ↔ answer w (.execute s raw) (.ok rows) v :=
  ends_orFail.trans Dialogue.ends_request

theorem ends_related {table relation : String} {parents : List Int64}
    {groups : List (Int64 × List Row)} :
    (related table relation parents).run.Ends answer w (.ok groups) v ↔
      answer w (.related table relation parents) (.ok groups) v :=
  ends_orFail.trans Dialogue.ends_request

theorem ends_executeFirst {s : Statement} {raw : Bool} {row : Option Row} :
    (executeFirst s raw).run.Ends answer w (.ok row) v ↔
      ∃ rows, answer w (.execute s raw) (.ok rows) v ∧ rows.head? = row := by
  change (execute s raw >>= fun rows => pure rows.head?).run.Ends answer w _ v ↔ _
  simp only [ends_bind_ok, ends_execute, ends_pure]
  constructor
  · rintro ⟨rows, u, h, hr, rfl⟩
    cases hr
    exact ⟨rows, h, rfl⟩
  · rintro ⟨rows, h, rfl⟩
    exact ⟨rows, v, h, rfl, rfl⟩

end Inquiry

def Snapshot.ofRows (token : String) (rows : List Row) : Snapshot :=
  ⟨Context.reading rows.head? "row_count", Context.reading rows.head? "max_id", token⟩

namespace Context

variable {answer : Answers ω} {w v : ω}

/-- Without a source the token is empty and nobody is asked. -/
def ReadsToken (ctx : Context) (answer : Answers ω) (w : ω) (token : String) (v : ω) : Prop :=
  if ctx.hasRevisions then answer w .revision token v else token = "" ∧ w = v

theorem ends_revision {ctx : Context} {token : String} :
    ctx.revision.Ends answer w token v ↔ ctx.ReadsToken answer w token v := by
  unfold revision ReadsToken
  split
  · exact Dialogue.ends_request
  · simp [eq_comm]

theorem ends_capture {ctx : Context} {q : Query} {s : Snapshot} :
    (ctx.capture q).run.Ends answer w (.ok s) v ↔
      ∃ token u rows, ctx.ReadsToken answer w token u ∧
        answer u (.execute (q.fingerprint ctx.config.idColumn) true) (.ok rows) v ∧
        s = .ofRows token rows := by
  unfold capture
  simp only [Inquiry.ends_bind_ok, Inquiry.ends_lift, Inquiry.ends_executeFirst,
    Inquiry.ends_pure, ends_revision]
  constructor
  · rintro ⟨token, u, ht, _, _, ⟨rows, hr, rfl⟩, hs, rfl⟩
    cases hs
    exact ⟨token, u, rows, ht, hr, rfl⟩
  · rintro ⟨token, u, rows, ht, hr, rfl⟩
    exact ⟨token, u, ht, _, v, ⟨rows, hr, rfl⟩, rfl, rfl⟩

end Context

namespace Query

variable {answer : Answers ω} {w v : ω}

theorem loadEach_columns {q : Query} {idColumn : String} {parents : List Int64}
    {relations : List String} {rows loaded : List Row}
    (h : (q.loadEach idColumn parents relations rows).run.Ends answer w (.ok loaded) v) :
    loaded.map Row.columns = rows.map Row.columns := by
  induction relations generalizing rows w with
  | nil =>
    cases (Inquiry.ends_pure.mp h).1
    rfl
  | cons relation relations ih =>
    obtain ⟨groups, u, _, hl⟩ := Inquiry.ends_bind_ok.mp h
    rw [ih hl, List.map_map]
    rfl

theorem loadRelated_columns {ctx : Context} {q : Query} {rows loaded : List Row}
    (h : (q.loadRelated ctx rows).run.Ends answer w (.ok loaded) v) :
    loaded.map Row.columns = rows.map Row.columns := by
  unfold loadRelated at h
  split at h
  · cases (Inquiry.ends_pure.mp h).1
    rfl
  · cases (Inquiry.ends_pure.mp h).1
    rfl
  · split at h
    · exact loadEach_columns h
    · exact absurd (Inquiry.ends_throw.mp h).1 (by simp)

theorem loadEach_moves {P : ω → ω → Prop} (refl : ∀ s, P s s)
    (trans : ∀ {s t u}, P s t → P t u → P s u)
    (related : ∀ {s t table relation parents x},
      answer s (.related table relation parents) x t → P s t)
    {q : Query} {idColumn : String} {parents : List Int64} {relations : List String}
    {rows loaded : List Row}
    (h : (q.loadEach idColumn parents relations rows).run.Ends answer w (.ok loaded) v) :
    P w v := by
  induction relations generalizing rows w with
  | nil =>
    cases (Inquiry.ends_pure.mp h).2
    exact refl _
  | cons relation relations ih =>
    obtain ⟨groups, u, hg, hl⟩ := Inquiry.ends_bind_ok.mp h
    exact trans (related (Inquiry.ends_related.mp hg)) (ih hl)

theorem loadRelated_moves {P : ω → ω → Prop} (refl : ∀ s, P s s)
    (trans : ∀ {s t u}, P s t → P t u → P s u)
    (related : ∀ {s t table relation parents x},
      answer s (.related table relation parents) x t → P s t)
    {ctx : Context} {q : Query} {rows loaded : List Row}
    (h : (q.loadRelated ctx rows).run.Ends answer w (.ok loaded) v) : P w v := by
  unfold loadRelated at h
  split at h
  · cases (Inquiry.ends_pure.mp h).2
    exact refl _
  · cases (Inquiry.ends_pure.mp h).2
    exact refl _
  · split at h
    · exact loadEach_moves refl trans related h
    · exact absurd (Inquiry.ends_throw.mp h).1 (by simp)

theorem ends_fetchAll {ctx : Context} {q : Query} {rows : List Row} :
    (q.fetchAll ctx).run.Ends answer w (.ok rows) v ↔
      ∃ found u, answer w (.execute q.select q.raw) (.ok found) u ∧
        (q.loadRelated ctx found).run.Ends answer u (.ok rows) v := by
  simp only [fetchAll, Inquiry.ends_bind_ok, Inquiry.ends_execute]

end Query

namespace Subscription

variable {answer : Answers ω} {w v : ω} {now : Nat} {s s' : Subscription} {events : List Event}

theorem context_deliver (now : Nat) (ds : List Delivery) (s : Subscription) :
    (s.deliver now ds).1.context = s.context := by
  induction ds generalizing s with
  | nil => rfl
  | cons d ds ih =>
    simp only [deliver]
    split
    · split
      · exact ih _
      · rfl
    · rfl

theorem context_wake (h : (s.wake now).Ends answer w (s', events) v) : s'.context = s.context := by
  have hdeliver (p : Poller) :
      (({ s with poller := p } : Subscription).deliverPending now).1.context = s.context :=
    context_deliver now _ _
  unfold wake at h
  split at h
  · obtain ⟨p, u, -, hd, -⟩ := Dialogue.ends_bind.mp h
    rw [← hdeliver p, hd]
  · split at h
    · obtain ⟨hd, -⟩ := h
      cases hd
      rfl
    · obtain ⟨p, u, -, hd, -⟩ := Dialogue.ends_bind.mp h
      rw [← hdeliver p, hd]
  · obtain ⟨hd, -⟩ := h
    cases hd
    exact hdeliver _
  · obtain ⟨hd, -⟩ := h
    cases hd
    rfl

end Subscription

end LiveQuery
