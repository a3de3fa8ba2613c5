import LiveQuery.Poller

/-! What an inquiry may ask and how it may fail, whatever its collaborators reply. A collaborator
that fails ends the inquiry at once, and with its own message. -/

namespace LiveQuery

variable {α β : Type}

/-- The message of a collaborator that fails. -/
def Request.failure? : (r : Request) → r.Reply → Option String
  | revision, _ => none
  | execute _ _, .error message => some message
  | related _ _ _, .error message => some message
  | _, _ => none

namespace Inquiry

/-- Every request is one of `asks`, every error that is not a collaborator's is one of `fails`,
and after a failure nothing more is asked. -/
def Heeds (asks : Request → Prop) (fails : QueryError → Prop) : Dialogue (Except QueryError α) → Prop
  | .done (.ok _) => True
  | .done (.error e) => fails e
  | .ask r next => asks r ∧ ∀ x,
      match r.failure? x with
      | some message => next x = .done (.error (.execution message))
      | none => Heeds asks fails (next x)

variable {asks : Request → Prop} {fails : QueryError → Prop} {x : Inquiry α}

theorem heeds_bind {f : α → Inquiry β} (hx : Heeds asks fails x.run)
    (hf : ∀ a, Heeds asks fails (f a).run) : Heeds asks fails (x >>= f).run := by
  rw [ExceptT.run_bind]
  generalize x.run = d at hx ⊢
  induction d with
  | done r =>
    cases r with
    | error e => exact hx
    | ok a => exact hf a
  | ask r next ih =>
    refine ⟨hx.1, fun y => ?_⟩
    have hy := hx.2 y
    cases hfail : r.failure? y with
    | some message =>
      simp only [hfail] at hy ⊢
      rw [hy]
      rfl
    | none =>
      simp only [hfail] at hy ⊢
      exact ih y hy

theorem heeds_pure (a : α) : Heeds asks fails (pure a : Inquiry α).run := trivial

theorem heeds_execute {s : Statement} {raw : Bool} (h : asks (.execute s raw)) :
    Heeds asks fails (execute s raw).run := by
  refine ⟨h, fun reply => ?_⟩
  cases reply with
  | error message => exact rfl
  | ok rows => exact trivial

theorem heeds_related {table relation : String} {parents : List Int64}
    (h : asks (.related table relation parents)) :
    Heeds asks fails (related table relation parents).run := by
  refine ⟨h, fun reply => ?_⟩
  cases reply with
  | error message => exact rfl
  | ok groups => exact trivial

theorem heeds_executeFirst {s : Statement} {raw : Bool} (h : asks (.execute s raw)) :
    Heeds asks fails (executeFirst s raw).run :=
  heeds_bind (heeds_execute h) fun rows => heeds_pure rows.head?

end Inquiry

open Inquiry

variable {asks : Request → Prop} {fails : QueryError → Prop} {ctx : Context} {q : Query}

theorem Context.heeds_capture (hrevision : asks .revision)
    (hfingerprint : asks (.execute (q.fingerprint ctx.config.idColumn) true)) :
    Heeds asks fails (ctx.capture q).run := by
  have htoken : Heeds asks fails (liftM ctx.revision : Inquiry String).run := by
    unfold Context.revision
    cases ctx.hasRevisions with
    | false => exact trivial
    | true => exact ⟨hrevision, fun _ => trivial⟩
  exact heeds_bind htoken fun _ => heeds_bind (heeds_executeFirst hfingerprint) fun _ => heeds_pure _

namespace Query

theorem heeds_loadEach (h : ∀ relation parents, asks (.related q.table relation parents))
    (idColumn : String) (parents : List Int64) (relations : List String) (rows : List Row) :
    Heeds asks fails (q.loadEach idColumn parents relations rows).run := by
  induction relations generalizing rows with
  | nil => exact heeds_pure rows
  | cons relation relations ih => exact heeds_bind (heeds_related (h relation parents)) fun _ => ih _

/-- Related rows cannot be had without someone to load them. -/
theorem heeds_loadRelated (h : ∀ relation parents, asks (.related q.table relation parents))
    (hfails : ctx.hasRelations = false → ∀ relation ∈ q.relations, fails (.noRelatedLoader relation))
    (rows : List Row) : Heeds asks fails (q.loadRelated ctx rows).run := by
  unfold loadRelated
  cases hr : q.relations with
  | nil => exact heeds_pure rows
  | cons relation relations =>
    cases rows with
    | nil => exact heeds_pure []
    | cons row rows =>
      cases hrel : ctx.hasRelations with
      | true => exact q.heeds_loadEach h _ _ _ _
      | false => exact hfails hrel relation (by simp [hr])

theorem heeds_fetchAll (hselect : asks (.execute q.select q.raw))
    (hrelated : ∀ relation parents, asks (.related q.table relation parents))
    (hfails : ctx.hasRelations = false → ∀ relation ∈ q.relations, fails (.noRelatedLoader relation)) :
    Heeds asks fails (q.fetchAll ctx).run :=
  heeds_bind (heeds_execute hselect) fun rows => heeds_loadRelated hrelated hfails rows

theorem heeds_fetchFirst (hselect : asks (.execute q.selectFirst q.raw))
    (hrelated : ∀ relation parents, asks (.related q.table relation parents))
    (hfails : ctx.hasRelations = false → ∀ relation ∈ q.relations, fails (.noRelatedLoader relation)) :
    Heeds asks fails (q.fetchFirst ctx).run := by
  refine heeds_bind (heeds_executeFirst hselect) fun row => ?_
  cases row with
  | none => exact heeds_pure none
  | some row => exact heeds_bind (heeds_loadRelated hrelated hfails [row]) fun _ => heeds_pure _

theorem heeds_fetchCount (hcount : asks (.execute q.count true)) : Heeds asks fails q.fetchCount.run :=
  heeds_bind (heeds_executeFirst hcount) fun _ => heeds_pure _

end Query

/-- A poll may ask for a token and for the fingerprint, and for all rows if it fetches them. -/
theorem SnapshotPoller.heeds_fetch {p : SnapshotPoller} (hrevision : asks .revision)
    (hfingerprint : asks (.execute (p.query.fingerprint ctx.config.idColumn) true))
    (hselect : asks (.execute p.query.select p.query.raw))
    (hrelated : ∀ relation parents, asks (.related p.query.table relation parents))
    (hfails : ctx.hasRelations = false →
      ∀ relation ∈ p.query.relations, fails (.noRelatedLoader relation)) (force : Bool) :
    Heeds asks fails (p.fetch ctx force).run := by
  refine heeds_bind (Context.heeds_capture hrevision hfingerprint) fun s => ?_
  split
  · exact heeds_bind (Query.heeds_fetchAll hselect hrelated hfails) fun _ => heeds_pure _
  · exact heeds_pure none

/-- A tick may ask for a token, for the fingerprint, for the rows past the watermark and for what
is related to them. -/
theorem IncrementalPoller.heeds_fetch {p : IncrementalPoller} (hrevision : asks .revision)
    (hfingerprint : asks (.execute (p.query.fingerprint ctx.config.idColumn) true))
    (hincremental :
      asks (.execute (p.query.incremental ctx.config.idColumn p.watermark) p.query.raw))
    (hrelated : ∀ relation parents, asks (.related p.query.table relation parents))
    (hfails : ctx.hasRelations = false →
      ∀ relation ∈ p.query.relations, fails (.noRelatedLoader relation)) :
    Heeds asks fails (p.fetch ctx).run := by
  refine heeds_bind (Context.heeds_capture hrevision hfingerprint) fun s => ?_
  split
  · refine heeds_bind (heeds_execute hincremental) fun rows => ?_
    exact heeds_bind (Query.heeds_loadRelated hrelated hfails rows) fun _ => heeds_pure _
  · exact heeds_pure none

end LiveQuery
