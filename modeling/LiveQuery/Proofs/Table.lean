import LiveQuery.Proofs.Entries
import LiveQuery.Proofs.IncrementalRun
import LiveQuery.Proofs.Pieces
import Mathlib.Data.List.Forall2

/-! A polled table whose ids only ever grow: rows are deleted freely, and a new row has a
positive id above every id ever stored. The query's statements are answered from what is
stored at that moment. Without joins each matching row is found once. -/

namespace LiveQuery

/-- A stored row: its id and what the query selects of it. -/
structure Entry where
  id : Int64
  row : Row

namespace Entry

/-- The row in a result that carries its id under the watermark column as well. -/
def shown (e : Entry) : Row := e.row.set watermarkColumn (.integer e.id)

def Shows (e : Entry) (n : NewRow) : Prop :=
  n.id = some e.id ∧ n.row.columns = (e.row.remove watermarkColumn).columns

theorem shows_newRow {e : Entry} {r : Row} (idColumn : String)
    (h : r.columns = e.shown.columns) : e.Shows (IncrementalPoller.newRow idColumn r) := by
  have hid : r.get? watermarkColumn = some (.integer e.id) := by
    simp [Row.get?, h, shown, Row.set]
  refine ⟨by simp [IncrementalPoller.newRow, hid, Value.integer?], ?_⟩
  simp [IncrementalPoller.newRow, Row.remove, h, shown, Row.set]

theorem shows_newRows {es : List Entry} {rows : List Row} (idColumn : String)
    (h : rows.map Row.columns = (es.map shown).map Row.columns) :
    List.Forall₂ Shows es (rows.map (IncrementalPoller.newRow idColumn)) := by
  induction es generalizing rows with
  | nil => simpa using h
  | cons e es ih =>
    cases rows with
    | nil => simp at h
    | cons r rows =>
      simp only [List.map_cons, List.cons.injEq] at h ⊢
      exact .cons (shows_newRow idColumn h.1) (ih h.2)

end Entry

/-- The greatest id among some rows, null if there are none. -/
def IsMaximum (es : List Entry) : Value → Prop
  | .null => es = []
  | .integer n => (∃ e ∈ es, e.id = n) ∧ ∀ e ∈ es, e.id ≤ n
  | _ => False

/-- The answer to a fingerprint over some rows. -/
structure IsFingerprint (es : List Entry) (r : Row) : Prop where
  rowCount : r.get? "row_count" = some (.integer (Int64.ofNat es.length))
  maxId : ∃ v, r.get? "max_id" = some v ∧ IsMaximum es v

theorem IsFingerprint.le_reading {es : List Entry} {r : Row} (h : IsFingerprint es r) :
    ∀ e ∈ es, e.id ≤ Context.reading (some r) "max_id" := by
  obtain ⟨v, hv, hm⟩ := h.maxId
  cases v <;> simp_all [IsMaximum, Context.reading, Value.integer?]

theorem IsFingerprint.reading_eq_zero {r : Row} (h : IsFingerprint [] r) :
    Context.reading (some r) "max_id" = 0 := by
  obtain ⟨v, hv, hm⟩ := h.maxId
  cases v <;> simp_all [IsMaximum, Context.reading, Value.integer?]

theorem IsFingerprint.exists_reading {es : List Entry} {r : Row} (h : IsFingerprint es r)
    (hne : es ≠ []) : ∃ e ∈ es, e.id = Context.reading (some r) "max_id" := by
  obtain ⟨v, hv, hm⟩ := h.maxId
  cases v <;> simp_all [IsMaximum, Context.reading, Value.integer?]

theorem IsFingerprint.reading_mem {es : List Entry} {r : Row} (h : IsFingerprint es r) :
    Context.reading (some r) "max_id" = 0 ∨
      ∃ e ∈ es, e.id = Context.reading (some r) "max_id" := by
  cases es with
  | nil => exact .inl h.reading_eq_zero
  | cons e es => exact .inr (h.exists_reading (List.cons_ne_nil e es))

structure Table where
  rows : List Entry
  /-- All rows ever stored. -/
  stored : List Entry
  mem_stored : ∀ e ∈ rows, e ∈ stored

namespace Table

def delete (t : Table) (keep : Entry → Bool) : Table where
  rows := t.rows.filter keep
  stored := t.stored
  mem_stored e h := t.mem_stored e (List.mem_filter.mp h).1

def insert (t : Table) (e : Entry) : Table where
  rows := t.rows ++ [e]
  stored := e :: t.stored
  mem_stored x h := by
    rcases List.mem_append.mp h with hx | hx
    · exact List.mem_cons_of_mem _ (t.mem_stored x hx)
    · simp [List.mem_singleton.mp hx]

inductive Change : Table → Table → Prop
  | delete (t : Table) (keep : Entry → Bool) : Change t (t.delete keep)
  | insert (t : Table) (e : Entry) (pos : 0 < e.id) (new : ∀ x ∈ t.stored, x.id < e.id) :
      Change t (t.insert e)

theorem Change.stored {t u : Table} (h : t.Change u) : ∀ e ∈ t.stored, e ∈ u.stored := by
  intro e he
  cases h with
  | delete keep => exact he
  | insert x pos new => exact List.mem_cons_of_mem _ he

/-- Later states of a table. A row that was not there at first is younger than every row
before it. -/
structure Grown (base t : Table) : Prop where
  pos : ∀ e ∈ t.rows, e ∉ base.rows → 0 < e.id
  ordered : t.rows.Pairwise fun a b => b ∈ base.rows ∨ a.id < b.id

theorem Grown.refl (t : Table) : t.Grown t where
  pos _ h hn := absurd h hn
  ordered := List.pairwise_of_forall_mem_list fun _ _ _ hb => .inl hb

theorem Grown.change {base t u : Table} (h : base.Grown t) (hc : t.Change u) : base.Grown u := by
  cases hc with
  | delete keep => exact ⟨fun e he => h.pos e (List.mem_filter.mp he).1, h.ordered.filter _⟩
  | insert e pos new =>
    refine ⟨?_, ?_⟩
    · intro x hx hn
      rcases List.mem_append.mp hx with hx | hx
      · exact h.pos x hx hn
      · cases List.mem_singleton.mp hx
        exact pos
    · refine List.pairwise_append.mpr ⟨h.ordered, List.pairwise_singleton _ _, ?_⟩
      intro a ha b hb
      cases List.mem_singleton.mp hb
      exact .inr (new a (t.mem_stored a ha))

variable (selects : Entry → Bool)

def matching (t : Table) : List Entry := t.rows.filter selects

/-- The rows under the predicate and past a watermark. -/
def past (t : Table) (watermark : Int64) : List Entry :=
  (t.matching selects).filter fun e => watermark < e.id

theorem mem_past {t : Table} {n : Int64} {e : Entry} :
    e ∈ t.past selects n ↔ e ∈ t.matching selects ∧ n < e.id := by
  simp [past]

theorem mem_rows_of_matching {t : Table} {e : Entry} (h : e ∈ t.matching selects) : e ∈ t.rows :=
  (List.mem_filter.mp h).1

theorem matching_delete (t : Table) (keep : Entry → Bool) {e : Entry}
    (h : e ∈ (t.delete keep).matching selects) : e ∈ t.matching selects := by
  simp only [matching, delete, List.mem_filter] at h ⊢
  exact ⟨h.1.1, h.2⟩

theorem matching_insert (t : Table) {e x : Entry} (h : x ∈ (t.insert e).matching selects) :
    x ∈ t.matching selects ∨ x = e := by
  simp only [matching, insert, List.mem_filter, List.mem_append, List.mem_singleton] at h ⊢
  rcases h with ⟨hx | hx, hs⟩
  · exact .inl ⟨hx, hs⟩
  · exact .inr hx

end Table

namespace Query

theorem incremental_injective {q : Query} {idColumn : String} {n m : Int64}
    (h : q.incremental idColumn n = q.incremental idColumn m) : n = m := by
  have hp := congrArg Statement.params h
  simpa [params_incremental] using hp

theorem fingerprint_ne_incremental (q : Query) (idColumn : String) (n : Int64) :
    q.fingerprint idColumn ≠ q.incremental idColumn n := by
  intro h
  have hp := congrArg Statement.params h
  simp [params_incremental] at hp

end Query

namespace Table

variable (selects : Entry → Bool)

/-- The replies that a table can give. Any statement and any loading of related rows may
fail, and revision tokens may be anything. -/
def Replies (ctx : Context) (q : Query) (t : Table) : (r : Request) → r.Reply → Prop
  | .execute s _, .ok rows =>
    (s = q.fingerprint ctx.config.idColumn →
      ∃ r, rows.head? = some r ∧ IsFingerprint (t.matching selects) r) ∧
    ∀ n, s = q.incremental ctx.config.idColumn n →
      ∃ found : List Entry, found.Perm (t.past selects n) ∧
        found.Pairwise (fun a b => a.id ≤ b.id) ∧ rows = found.map Entry.shown
  | _, _ => True

/-- A table stands still while it is asked. -/
def answers (ctx : Context) (q : Query) : Answers Table :=
  fun t r x u => u = t ∧ t.Replies selects ctx q r x

variable {selects} {ctx : Context} {q : Query} {t u : Table}

theorem ends_answers {α : Type} {d : Dialogue α} {a : α}
    (h : d.Ends (answers selects ctx q) t a u) : u = t := by
  induction d generalizing t with
  | done b => exact h.2.symm
  | ask r next ih =>
    obtain ⟨x, v, ⟨rfl, _⟩, h⟩ := h
    exact ih x h

theorem replies_fingerprint {r : Row} (raw : Bool) (h : IsFingerprint (t.matching selects) r) :
    t.Replies selects ctx q (.execute (q.fingerprint ctx.config.idColumn) raw) (.ok [r]) :=
  ⟨fun _ => ⟨r, rfl, h⟩, fun n hn => absurd hn (q.fingerprint_ne_incremental _ n)⟩

theorem replies_incremental {found : List Entry} {n : Int64} (raw : Bool)
    (hp : found.Perm (t.past selects n)) (ho : found.Pairwise fun a b => a.id ≤ b.id) :
    t.Replies selects ctx q (.execute (q.incremental ctx.config.idColumn n) raw)
      (.ok (found.map Entry.shown)) := by
  refine ⟨fun h => absurd h.symm (q.fingerprint_ne_incremental _ n), fun m hm => ?_⟩
  cases Query.incremental_injective hm
  exact ⟨found, hp, ho, rfl⟩

theorem fingerprint_of_capture {s : Snapshot}
    (h : (ctx.capture q).run.Ends (answers selects ctx q) t (.ok s) u) :
    ∃ r, IsFingerprint (t.matching selects) r ∧ s.maxRowId = Context.reading (some r) "max_id" := by
  obtain ⟨token, v, rows, ht, ⟨-, hr⟩, rfl⟩ := Context.ends_capture.mp h
  have hv : v = t := ends_answers (Context.ends_revision.mpr ht)
  subst hv
  obtain ⟨r, hr, hf⟩ := hr.1 rfl
  exact ⟨r, hf, by rw [Snapshot.ofRows, hr]⟩

theorem le_of_capture {s : Snapshot}
    (h : (ctx.capture q).run.Ends (answers selects ctx q) t (.ok s) u) :
    (∀ e ∈ t.matching selects, e.id ≤ s.maxRowId) ∧
      (s.maxRowId = 0 ∨ ∃ e ∈ t.matching selects, e.id = s.maxRowId) := by
  obtain ⟨r, hf, hs⟩ := fingerprint_of_capture h
  rw [hs]
  exact ⟨hf.le_reading, hf.reading_mem⟩

theorem found_of_fetch {p : IncrementalPoller} {b : Batch} (hq : p.query = q)
    (h : (p.fetch ctx).run.Ends (answers selects ctx q) t (.ok (some b)) u) :
    (ctx.capture q).run.Ends (answers selects ctx q) t (.ok b.snapshot) t ∧
      ∃ found : List Entry, found.Perm (t.past selects p.watermark) ∧
        found.Pairwise (fun a b => a.id ≤ b.id) ∧ List.Forall₂ Entry.Shows found b.rows := by
  subst hq
  obtain ⟨v, v', rows, loaded, hs, -, ⟨rfl, hr⟩, hl, hb⟩ := IncrementalPoller.ends_fetch_some.mp h
  have hv := ends_answers hs
  subst hv
  obtain ⟨found, hp, ho, rfl⟩ := hr.2 p.watermark rfl
  refine ⟨hs, found, hp, ho, ?_⟩
  rw [hb]
  exact Entry.shows_newRows _ (Query.loadRelated_columns hl)

end Table

end LiveQuery
