import LiveQuery.Proofs.Table

/-! What a failed delivery leaves to be found again. Rows of a joined result may share the id
of their base row, and the watermark is an id: a row that fails behind a delivered row of the
same id is not past the watermark any more, and every other row of the batch is. -/

namespace LiveQuery

namespace IncrementalPoller

variable {ω : Type} {answer : Answers ω} {w v : ω} {ctx : Context} {p : IncrementalPoller}

theorem advance_of_le {n m : Int64} (h : n ≤ m) : advance (some m) n = m := if_pos h

theorem settle_failed {snapshot : Snapshot} {r : NewRow} {rest : List NewRow}
    (h : p.pending = some ⟨snapshot, r :: rest⟩) : p.settle false = { p with pending := none } := by
  simp [settle, h]

theorem settle_accepted {snapshot : Snapshot} {r : NewRow} {rest : List NewRow}
    (h : p.pending = some ⟨snapshot, r :: rest⟩) :
    p.settle true = { p with watermark := advance r.id p.watermark }.receive ⟨snapshot, rest⟩ := by
  simp [settle, h]

theorem newRow_id_of_columns {r r' : Row} (idColumn : String) (h : r.columns = r'.columns) :
    (newRow idColumn r).id = (newRow idColumn r').id := by
  simp [newRow, Row.get?, Row.remove, Row.id?, h]

theorem newRows_ids {rows rows' : List Row} (idColumn : String)
    (h : rows.map Row.columns = rows'.map Row.columns) :
    (rows.map (newRow idColumn)).map NewRow.id = (rows'.map (newRow idColumn)).map NewRow.id := by
  induction rows generalizing rows' with
  | nil =>
    cases rows' with
    | nil => rfl
    | cons r' rows' => simp at h
  | cons r rows ih =>
    cases rows' with
    | nil => simp at h
    | cons r' rows' =>
      simp only [List.map_cons, List.cons.injEq] at h ⊢
      exact ⟨newRow_id_of_columns idColumn h.1, ih h.2⟩

/-- A run of `fetch` that asks for the rows past the watermark in the world that its capture has
left. It ends with the rows found and loaded, or in the failure of either. -/
def FetchesNew (ctx : Context) (answer : Answers ω) (p : IncrementalPoller) (w : ω)
    (x : Except QueryError (Option Batch)) (v : ω) : Prop :=
  ∃ (snapshot : Snapshot) (u : ω) (reply : Except String (List Row)) (u' : ω),
    (ctx.capture p.query).run.Ends answer w (.ok snapshot) u ∧
    answer u (.execute (p.query.incremental ctx.config.idColumn p.watermark) p.query.raw) reply u' ∧
    match reply with
    | .error message => x = .error (.execution message) ∧ u' = v
    | .ok rows => ∃ loaded, (p.query.loadRelated ctx rows).run.Ends answer u' loaded v ∧
        x = loaded.map fun rows => some ⟨snapshot, rows.map (newRow ctx.config.idColumn)⟩

/-- A tick that can take a snapshot, and has not recorded it last, asks for the rows past the
watermark. -/
theorem asks_of_hasChanged {x : Except QueryError (Option Batch)}
    (hc : ∀ s u, (ctx.capture p.query).run.Ends answer w (.ok s) u → p.detector.hasChanged s = true)
    (h : (p.fetch ctx).run.Ends answer w x v) :
    (∃ e, (ctx.capture p.query).run.Ends answer w (.error e) v ∧ x = .error e) ∨
      p.FetchesNew ctx answer w x v := by
  unfold fetch at h
  rcases Inquiry.ends_bind.mp h with ⟨e, he, rfl⟩ | ⟨s, u, hs, h⟩
  · exact .inl ⟨e, he, rfl⟩
  right
  rw [if_pos (hc s u hs)] at h
  rcases Inquiry.ends_bind.mp h with ⟨e, he, rfl⟩ | ⟨rows, u', hrows, h⟩
  · obtain ⟨message, hm, rfl⟩ := Inquiry.ends_orFail_error.mp he
    exact ⟨s, u, .error message, v, hs, Dialogue.ends_request.mp hm, rfl, rfl⟩
  · refine ⟨s, u, .ok rows, u', hs, Inquiry.ends_execute.mp hrows, ?_⟩
    rcases Inquiry.ends_bind.mp h with ⟨e, he, rfl⟩ | ⟨loaded, t, hl, hb⟩
    · exact ⟨.error e, he, rfl⟩
    · obtain ⟨rfl, rfl⟩ := Inquiry.ends_pure.mp hb
      exact ⟨.ok loaded, hl, rfl⟩

end IncrementalPoller

/-- There are rows, one of them with an id of `m` or above. -/
def Snapshot.Reaches (s : Snapshot) (m : Int64) : Prop := s.rowCount ≠ 0 ∧ m ≤ s.maxRowId

/-- The snapshot of a batch reaches no further than its rows, or else not past `n`. -/
def Batch.Covered (n : Int64) (b : Batch) : Prop :=
  ∀ m, b.snapshot.Reaches m → m ≤ n ∨ ∃ r ∈ b.rows, ∃ k, r.id = some k ∧ m ≤ k

theorem Batch.Covered.deliver {n : Int64} {snapshot : Snapshot} {r : NewRow} {rest : List NewRow}
    (h : Batch.Covered n ⟨snapshot, r :: rest⟩) :
    Batch.Covered (IncrementalPoller.advance r.id n) ⟨snapshot, rest⟩ := by
  intro m hm
  rcases h m hm with hle | ⟨x, hx, k, hk, hle⟩
  · exact .inl (Int64.le_trans hle (IncrementalPoller.le_advance r.id n))
  · rcases List.mem_cons.mp hx with rfl | hx
    · exact .inl (Int64.le_trans hle (IncrementalPoller.le_advance_of_eq_some hk n))
    · exact .inr ⟨x, hx, k, hk, hle⟩

namespace Table

theorem reaches_of_mem {selects : Entry → Bool} {ctx : Context} {q : Query} {t u : Table}
    {s : Snapshot} {e : Entry} {m : Int64}
    (h : (ctx.capture q).run.Ends (answers selects ctx q) t (.ok s) u)
    (hcount : Int64.ofNat (t.matching selects).length ≠ 0) (he : e ∈ t.matching selects)
    (hm : m ≤ e.id) : s.Reaches m := by
  obtain ⟨token, v, rows, ht, ⟨-, hr⟩, rfl⟩ := Context.ends_capture.mp h
  obtain rfl : v = t := ends_answers (Context.ends_revision.mpr ht)
  obtain ⟨r, hrow, hf⟩ := hr.1 rfl
  simp only [Snapshot.Reaches, Snapshot.ofRows, hrow]
  refine ⟨?_, Int64.le_trans hm (hf.le_reading e he)⟩
  simpa [Context.reading, hf.rowCount, Value.integer?] using hcount

theorem mem_of_reaches {selects : Entry → Bool} {ctx : Context} {q : Query} {t u : Table}
    {s : Snapshot} {m : Int64} (h : (ctx.capture q).run.Ends (answers selects ctx q) t (.ok s) u)
    (hm : s.Reaches m) : ∃ e ∈ t.matching selects, m ≤ e.id := by
  obtain ⟨token, v, rows, ht, ⟨-, hr⟩, rfl⟩ := Context.ends_capture.mp h
  obtain rfl : v = t := ends_answers (Context.ends_revision.mpr ht)
  obtain ⟨r, hrow, hf⟩ := hr.1 rfl
  obtain ⟨max, hmax, hismax⟩ := hf.maxId
  have hcount := hf.rowCount
  simp only [Snapshot.Reaches, Snapshot.ofRows, Context.reading, hrow, Option.bind_some, hmax,
    hcount] at hm
  cases max with
  | null =>
    have hempty : v.matching selects = [] := hismax
    simp [hempty, Value.integer?] at hm
  | integer n =>
    obtain ⟨⟨e, he, rfl⟩, -⟩ := hismax
    exact ⟨e, he, hm.2⟩
  | _ => exact hismax.elim

end Table

namespace Stage

open IncrementalPoller

variable {ω : Type} {ctx : Context} {answer : Answers ω} {drift : ω → ω → Prop} {q : Query}
  {w v : ω} {s s' : Stage ω} {n m : Int64} {ids : List Int64} {delivered : List NewRow}
  {snapshot : Snapshot} {r : NewRow} {rest : List NewRow}

/-- The rows past a watermark are found in the order of their ids, which may be repeated. -/
def Orderly (ctx : Context) (answer : Answers ω) (q : Query) : Prop :=
  ∀ ⦃w v : ω⦄ ⦃n : Int64⦄ ⦃raw : Bool⦄ ⦃rows : List Row⦄,
    answer w (.execute (q.incremental ctx.config.idColumn n) raw) (.ok rows) v →
      ∃ ids : List Int64, (rows.map (newRow ctx.config.idColumn)).map NewRow.id = ids.map some ∧
        ids.Pairwise (· ≤ ·) ∧ ∀ m ∈ ids, n < m

/-- What is left of a batch, with the ids of its rows. Only the row delivered last can have
the id of rows still to be delivered. -/
structure Underway (delivered : List NewRow) (n : Int64) (b : Batch) (ids : List Int64) : Prop where
  rows : b.rows.map NewRow.id = ids.map some
  ascending : ids.Pairwise (· ≤ ·)
  past : ∀ m ∈ ids, n < m ∨ m = n ∧ ∃ d, delivered.getLast? = some d ∧ d.id = some n

/-- The rows delivered are not past the watermark, and the ones in hand hardly before it. -/
structure Resumable (q : Query) (s : Stage ω) : Prop where
  query : s.poller.query = q
  delivered : ∀ d ∈ s.delivered, ∀ m, d.id = some m → m ≤ s.poller.watermark
  waiting : ∀ b, s.poller.pending = some b →
    ∃ ids, Underway s.delivered s.poller.watermark b ids

theorem resumable_begin {p : IncrementalPoller}
    (h : (IncrementalPoller.start ctx q).run.Ends answer w (.ok p) v) :
    (begin v p).Resumable q := by
  obtain ⟨l, -, rfl⟩ := ends_start.mp h
  exact ⟨rfl, by simp [begin], by simp [begin]⟩

theorem Orderly.underway {p : IncrementalPoller} {b : Batch} (ho : Orderly ctx answer q)
    (hq : p.query = q) (h : (p.fetch ctx).run.Ends answer w (.ok (some b)) v)
    (delivered : List NewRow) : ∃ ids, Underway delivered p.watermark b ids := by
  obtain ⟨u, u', rows, loaded, -, -, hr, hl, hb⟩ := ends_fetch_some.mp h
  obtain ⟨ids, hids, hasc, hpast⟩ := ho (hq ▸ hr)
  have hcols : loaded.map Row.columns = rows.map Row.columns := Query.loadRelated_columns hl
  have hrows : b.rows.map NewRow.id = ids.map some := by
    rw [hb, ← hids]
    exact newRows_ids ctx.config.idColumn hcols
  exact ⟨ids, hrows, hasc, fun m hm => .inl (hpast m hm)⟩

theorem Underway.cons (h : Underway delivered n ⟨snapshot, r :: rest⟩ ids) :
    ∃ m ids', ids = m :: ids' ∧ r.id = some m ∧ n ≤ m ∧ ∀ k ∈ ids', m ≤ k := by
  have hrows := h.rows
  cases ids with
  | nil => simp at hrows
  | cons m ids' =>
    obtain ⟨hr, -⟩ : r.id = some m ∧ rest.map NewRow.id = ids'.map some := by simpa using hrows
    have hle : n ≤ m := by
      rcases h.past m List.mem_cons_self with hlt | ⟨rfl, -⟩
      · exact Int64.le_of_lt hlt
      · exact Int64.le_refl m
    exact ⟨m, ids', rfl, hr, hle, (List.pairwise_cons.mp h.ascending).1⟩

/-- A delivery leaves the rows of the same id behind its row, and the others past it. -/
theorem Underway.deliver (h : Underway delivered n ⟨snapshot, r :: rest⟩ ids) (hm : r.id = some m) :
    ∃ ids', Underway (delivered ++ [r]) m ⟨snapshot, rest⟩ ids' := by
  obtain ⟨m', ids', rfl, hr, hle, hids⟩ := h.cons
  obtain rfl : m = m' := Option.some.inj (hm.symm.trans hr)
  refine ⟨ids', ?_, (List.pairwise_cons.mp h.ascending).2, ?_⟩
  · simpa [hm] using h.rows
  · intro k hk
    by_cases heq : k = m
    · exact .inr ⟨heq, r, by simp, hm⟩
    · have := hids k hk
      exact .inl (by grind)

/-- A failure keeps the rest of the batch past the watermark exactly if it does not strike
a row of the id delivered last. -/
theorem Underway.past_iff (h : Underway delivered n ⟨snapshot, r :: rest⟩ ids)
    (hd : ∀ d ∈ delivered, ∀ m, d.id = some m → m ≤ n) :
    (∀ x ∈ r :: rest, ∃ m, x.id = some m ∧ n < m) ↔
      ∀ d, delivered.getLast? = some d → d.id ≠ r.id := by
  obtain ⟨m, ids', rfl, hr, -, hids⟩ := h.cons
  constructor
  · intro hall d hlast heq
    obtain ⟨k, hk, hlt⟩ := hall r List.mem_cons_self
    have hle := hd d (List.mem_of_getLast? hlast) k (heq.trans hk)
    exact absurd hlt (by grind)
  · intro hne x hx
    have hlt : n < m := by
      rcases h.past m List.mem_cons_self with hlt | ⟨rfl, d, hlast, hdm⟩
      · exact hlt
      · exact absurd (hdm.trans hr.symm) (hne d hlast)
    have hmem : x.id ∈ (m :: ids').map some := by
      rw [← h.rows]
      exact List.mem_map_of_mem hx
    obtain ⟨k, hk, hxk⟩ := List.mem_map.mp hmem
    refine ⟨k, hxk.symm, ?_⟩
    rcases List.mem_cons.mp hk with rfl | hk
    · exact hlt
    · have := hids k hk
      grind

theorem Resumable.receive {p : IncrementalPoller} {b : Batch} {ids : List Int64} {read : ω}
    {ended : Option Ending} (hq : p.query = q)
    (hd : ∀ d ∈ delivered, ∀ m, d.id = some m → m ≤ p.watermark)
    (hu : Underway delivered p.watermark b ids) :
    Resumable q ⟨w, p.receive b, read, delivered, ended⟩ := by
  by_cases hb : b.rows = []
  · rw [receive_of_nil hb]
    exact ⟨hq, hd, by simp⟩
  · rw [receive_of_ne hb]
    refine ⟨hq, hd, ?_⟩
    intro b' hb'
    cases hb'
    exact ⟨ids, hu⟩

theorem Resumable.settle (h : s.Resumable q) (accepted : Bool)
    (hp : s.poller.pending = some ⟨snapshot, r :: rest⟩) :
    (s.settled accepted r rest).Resumable q := by
  obtain ⟨ids, hu⟩ := h.waiting _ hp
  cases accepted with
  | false =>
    rw [settled, settle_failed hp]
    exact ⟨h.query, h.delivered, by simp⟩
  | true =>
    obtain ⟨m, -, -, hm, hle, -⟩ := hu.cons
    obtain ⟨ids', hu'⟩ := hu.deliver hm
    rw [settled, settle_accepted hp, hm, advance_of_le hle]
    refine Resumable.receive h.query ?_ hu'
    intro d hd k hk
    rcases List.mem_append.mp hd with hd | hd
    · exact Int64.le_trans (h.delivered d hd k hk) hle
    · obtain rfl := List.mem_singleton.mp hd
      obtain rfl : m = k := Option.some.inj (hm.symm.trans hk)
      exact Int64.le_refl m

theorem Resumable.step (ho : Orderly ctx answer q) (h : s.Resumable q)
    (hs : Step ctx answer drift s s') : s'.Resumable q := by
  cases hs with
  | drift hd => exact ⟨h.query, h.delivered, h.waiting⟩
  | poll idle hf =>
    rename_i v x
    rcases x with e | _ | b
    · exact ⟨h.query, h.delivered, h.waiting⟩
    · exact ⟨h.query, h.delivered, h.waiting⟩
    · obtain ⟨ids, hu⟩ := ho.underway h.query hf s.delivered
      exact Resumable.receive h.query h.delivered hu
  | settle accepted hp => exact h.settle accepted hp

theorem Reached.resumable (ho : Orderly ctx answer q) (h : Reached ctx answer drift q w s) :
    s.Resumable q := by
  obtain ⟨v, p, hp, hrun⟩ := h
  induction hrun with
  | refl => exact resumable_begin hp
  | tail _ hs ih => exact ih.step ho hs

/-- A batch reaches as far as its snapshot, since the table stands still in a tick and no join
leaves a row out. -/
def Covers (ctx : Context) (answer : Answers ω) (q : Query) : Prop :=
  ∀ ⦃w v : ω⦄ ⦃p : IncrementalPoller⦄ ⦃b : Batch⦄, p.query = q →
    (p.fetch ctx).run.Ends answer w (.ok (some b)) v → b.Covered p.watermark

/-- The snapshot that was recorded last does not reach past the watermark, nor the one in hand
past the rows in hand. -/
structure Recorded (q : Query) (s : Stage ω) : Prop where
  query : s.poller.query = q
  last : ∀ l, s.poller.detector.last = some l → ∀ m, l.Reaches m → m ≤ s.poller.watermark
  waiting : ∀ b, s.poller.pending = some b → b.Covered s.poller.watermark

theorem recorded_begin {p : IncrementalPoller}
    (h : (IncrementalPoller.start ctx q).run.Ends answer w (.ok p) v) :
    (begin v p).Recorded q := by
  obtain ⟨l, -, rfl⟩ := ends_start.mp h
  refine ⟨rfl, ?_, by simp [begin]⟩
  intro l' hl m hm
  cases hl
  exact hm.2

theorem Recorded.receive {p : IncrementalPoller} {b : Batch} {read : ω} {ended : Option Ending}
    (hq : p.query = q)
    (hr : ∀ l, p.detector.last = some l → ∀ m, l.Reaches m → m ≤ p.watermark)
    (hb : b.Covered p.watermark) : Recorded q ⟨w, p.receive b, read, delivered, ended⟩ := by
  by_cases hrows : b.rows = []
  · rw [receive_of_nil hrows]
    refine ⟨hq, ?_, by simp⟩
    intro l hl m hm
    cases hl
    simpa [hrows] using hb m hm
  · rw [receive_of_ne hrows]
    refine ⟨hq, hr, ?_⟩
    intro b' hb'
    cases hb'
    exact hb

theorem Recorded.settle (h : s.Recorded q) (accepted : Bool)
    (hp : s.poller.pending = some ⟨snapshot, r :: rest⟩) :
    (s.settled accepted r rest).Recorded q := by
  cases accepted with
  | false =>
    rw [settled, settle_failed hp]
    exact ⟨h.query, h.last, by simp⟩
  | true =>
    rw [settled, settle_accepted hp]
    refine Recorded.receive h.query ?_ (h.waiting _ hp).deliver
    intro l hl m hm
    exact Int64.le_trans (h.last l hl m hm) (le_advance r.id _)

theorem Recorded.step (hc : Covers ctx answer q) (h : s.Recorded q)
    (hs : Step ctx answer drift s s') : s'.Recorded q := by
  cases hs with
  | drift hd => exact ⟨h.query, h.last, h.waiting⟩
  | poll idle hf =>
    rename_i v x
    rcases x with e | _ | b
    · exact ⟨h.query, h.last, h.waiting⟩
    · exact ⟨h.query, h.last, h.waiting⟩
    · exact Recorded.receive h.query h.last (hc h.query hf)
  | settle accepted hp => exact h.settle accepted hp

theorem Reached.recorded (hc : Covers ctx answer q) (h : Reached ctx answer drift q w s) :
    s.Recorded q := by
  obtain ⟨v, p, hp, hrun⟩ := h
  induction hrun with
  | refl => exact recorded_begin hp
  | tail _ hs ih => exact ih.step hc hs

/-- After a failure the rest of the batch is past the watermark exactly if the row delivered
last has another id than the one that has failed. As long as snapshots reach past the
watermark, the next tick either cannot take one or asks for the rows past the watermark. -/
theorem failed_delivery_keeps_rest (h : Reached ctx answer drift q w s)
    (hp : s.poller.pending = some ⟨snapshot, r :: rest⟩) :
    let p := (s.settled false r rest).poller
    (Orderly ctx answer q → ((∀ x ∈ r :: rest, ∃ m, x.id = some m ∧ p.watermark < m) ↔
      ∀ d, s.delivered.getLast? = some d → d.id ≠ r.id)) ∧
    (Covers ctx answer q → p.query = q ∧ ∀ m u x v, p.watermark < m →
      (∀ l t, (ctx.capture q).run.Ends answer u (.ok l) t → l.Reaches m) →
      (p.fetch ctx).run.Ends answer u x v →
        (∃ e, (ctx.capture q).run.Ends answer u (.error e) v ∧ x = .error e) ∨
          p.FetchesNew ctx answer u x v) := by
  intro p
  have hset : p = { s.poller with pending := none } := settle_failed hp
  refine ⟨fun ho => ?_, fun hc => ?_⟩
  · have hs := h.resumable ho
    obtain ⟨ids, hu⟩ := hs.waiting _ hp
    rw [hset]
    exact hu.past_iff hs.delivered
  · have hs := h.recorded hc
    have hquery : p.query = q := by rw [hset]; exact hs.query
    refine ⟨hquery, fun m u x v hm hreach hf => ?_⟩
    have hchanged : ∀ l t, (ctx.capture p.query).run.Ends answer u (.ok l) t →
        p.detector.hasChanged l = true := by
      intro l t hl
      have hlm := hreach l t (hquery ▸ hl)
      have hne : s.poller.detector.last ≠ some l := by
        intro hlast
        have hle := hs.last l hlast m hlm
        rw [hset] at hm
        exact absurd hm (by grind)
      rw [hset]
      simpa [Detector.hasChanged] using hne
    have hasks := asks_of_hasChanged hchanged hf
    rwa [hquery] at hasks

open Table in
theorem orderly_answers (selects : Entry → Bool) (ctx : Context) (q : Query) :
    Orderly ctx (answers selects ctx q) q := by
  rintro t _ n raw rows ⟨rfl, -, hr⟩
  obtain ⟨found, hp, ho, rfl⟩ := hr n rfl
  refine ⟨found.map Entry.id, ?_, List.pairwise_map.mpr ho, ?_⟩
  · rw [List.map_map, List.map_map, List.map_map]
    exact List.map_congr_left fun e _ => (Entry.shows_newRow _ rfl).1
  · intro m hm
    obtain ⟨e, he, rfl⟩ := List.mem_map.mp hm
    exact ((mem_past selects).mp (hp.mem_iff.mp he)).2

open Table in
theorem covers_answers (selects : Entry → Bool) (ctx : Context) (q : Query) :
    Covers ctx (answers selects ctx q) q := by
  intro t _ p b hq hf m hm
  obtain ⟨hs, found, hp, -, hrows⟩ := found_of_fetch hq hf
  obtain ⟨e, he, hle⟩ := mem_of_reaches hs hm
  by_cases hn : p.watermark < e.id
  · have hmem : e ∈ found := hp.mem_iff.mpr ((mem_past selects).mpr ⟨he, hn⟩)
    obtain ⟨i, hi, rfl⟩ := List.getElem_of_mem hmem
    have hlen := hrows.length_eq
    exact .inr ⟨_, List.getElem_mem (hlen ▸ hi), _, (hrows.get hi _).1, hle⟩
  · exact .inl (by grind)

/-- The orders with their items: an order has a row for each of them. -/
def items : Query := { table := "orders", joins := [⟨"items", "id", "order_id", ["sku"]⟩], raw := true }

def item (id : Int64) (sku : String) : Entry :=
  ⟨id, .ofColumns [("id", .integer id), ("items_sku", .text sku)]⟩

/-- Rows have come since an empty baseline, and the first of them has been delivered. -/
theorem exists_first_delivered {t : Table} {e e' : Entry} {es : List Entry} {top : Int64}
    (hpast : t.past (fun _ => true) 0 = e :: e' :: es)
    (hasc : (e :: e' :: es).Pairwise fun a b => a.id ≤ b.id)
    (hmax : IsMaximum (t.matching fun _ => true) (.integer top)) (htop : top ≠ 0) :
    ∃ s snapshot, Reached {} (Table.answers (fun _ => true) {} items) (fun _ _ => True) items
        ⟨[], [], by simp⟩ s ∧
      s.world = t ∧ s.delivered = [newRow "id" e.shown] ∧
      s.poller.pending = some ⟨snapshot, (e' :: es).map fun x => newRow "id" x.shown⟩ ∧
      s.poller.watermark = advance (newRow "id" e.shown).id 0 := by
  let base : Table := ⟨[], [], by simp⟩
  let answers := Table.answers (fun _ => true) {} items
  let count := Int64.ofNat (t.matching fun _ => true).length
  have hbase : (({} : Context).capture items).run.Ends answers base (.ok ⟨0, 0, ""⟩) base :=
    Context.ends_capture.mpr ⟨"", base, _, ⟨rfl, rfl⟩, ⟨rfl, Table.replies_fingerprint true
      (r := .ofColumns [("row_count", .integer 0), ("max_id", .null)]) ⟨rfl, _, rfl, rfl⟩⟩, rfl⟩
  have hnew : (({} : Context).capture items).run.Ends answers t (.ok ⟨count, top, ""⟩) t :=
    Context.ends_capture.mpr ⟨"", t, _, ⟨rfl, rfl⟩, ⟨rfl, Table.replies_fingerprint true
      (r := .ofColumns [("row_count", .integer count), ("max_id", .integer top)])
        ⟨rfl, _, rfl, hmax⟩⟩, rfl⟩
  let p : IncrementalPoller := { query := items, detector := ⟨some ⟨0, 0, ""⟩⟩, watermark := 0 }
  let b : Batch := ⟨⟨count, top, ""⟩, (e :: e' :: es).map fun x => newRow "id" x.shown⟩
  have hchanged : p.detector.hasChanged b.snapshot = true := by
    simp [Detector.hasChanged, p, b, htop.symm]
  have hfetch : (p.fetch {}).run.Ends answers t (.ok (some b)) t :=
    ends_fetch_some.mpr ⟨t, t, (e :: e' :: es).map Entry.shown, (e :: e' :: es).map Entry.shown,
      hnew, hchanged, ⟨rfl, Table.replies_incremental _ (.of_eq hpast.symm) hasc⟩, ⟨rfl, rfl⟩,
      by simp [b]⟩
  exact ⟨_, b.snapshot, ⟨base, p, ends_start.mpr ⟨_, hbase, rfl⟩,
    .tail (.tail (.single (.drift trivial)) (.poll rfl hfetch)) (.settle true rfl)⟩,
    rfl, rfl, rfl, rfl⟩

/-- Items that fail behind another order are past the watermark, and the next tick asks for them. -/
theorem failed_delivery_keeps_next_order :
    let answers := Table.answers (fun _ => true) {} items
    ∃ s snapshot r rest, Reached {} answers (fun _ _ => True) items ⟨[], [], by simp⟩ s ∧
      s.world.rows = [item 5 "a", item 6 "b", item 6 "c"] ∧
      s.poller.pending = some ⟨snapshot, r :: rest⟩ ∧ rest.length = 1 ∧
      let p := (s.settled false r rest).poller
      (∀ x ∈ r :: rest, ∃ m, x.id = some m ∧ p.watermark < m) ∧
      ∀ x v, (p.fetch {}).run.Ends answers s.world x v →
        (∃ e, (({} : Context).capture items).run.Ends answers s.world (.error e) v ∧ x = .error e) ∨
          p.FetchesNew {} answers s.world x v := by
  intro answers
  let t : Table := ⟨[item 5 "a", item 6 "b", item 6 "c"], _, fun _ h => h⟩
  have hmem : item 6 "b" ∈ t.matching fun _ => true := by simp [t, Table.matching]
  have hmax : IsMaximum (t.matching fun _ => true) (.integer 6) := by
    refine ⟨⟨item 6 "b", hmem, rfl⟩, ?_⟩
    simp [t, Table.matching, item]
  obtain ⟨s, snapshot, hs, hworld, hd, hp, hw⟩ := @exists_first_delivered t (item 5 "a") (item 6 "b")
    [item 6 "c"] 6 rfl (by simp [item]) hmax (by decide)
  have hid (e : Entry) : (newRow "id" e.shown).id = some e.id := (Entry.shows_newRow "id" rfl).1
  let r := newRow "id" (item 6 "b").shown
  let rest := [newRow "id" (item 6 "c").shown]
  have hp : s.poller.pending = some ⟨snapshot, r :: rest⟩ := hp
  obtain ⟨hkept, hnext⟩ := failed_delivery_keeps_rest hs hp
  have hkept := hkept (orderly_answers _ _ _)
  obtain ⟨-, hnext⟩ := hnext (covers_answers _ _ _)
  refine ⟨s, snapshot, r, rest, hs, by rw [hworld], hp, rfl, hkept.mpr ?_, fun x v hf => ?_⟩
  · intro d hlast
    rw [hd] at hlast
    cases hlast
    rw [List.getLast_singleton, hid, hid]
    simp [item]
  · have hlt : (s.settled false r rest).poller.watermark < 6 := by
      rw [settled, settle_failed hp]
      change s.poller.watermark < 6
      rw [hw, hid]
      decide
    have hcount : Int64.ofNat (t.matching fun _ => true).length ≠ 0 := by decide
    have hreach (l : Snapshot) (u : Table)
        (hl : (({} : Context).capture items).run.Ends answers t (.ok l) u) : l.Reaches 6 :=
      Table.reaches_of_mem hl hcount hmem (Int64.le_refl 6)
    rw [hworld] at hf ⊢
    exact hnext 6 t x v hlt hreach hf

/-- An item that fails behind one of its own order is not past the watermark. -/
theorem failed_delivery_passes_same_order :
    ∃ s snapshot r, Reached {} (Table.answers (fun _ => true) {} items) (fun _ _ => True) items
        ⟨[], [], by simp⟩ s ∧
      s.world.rows = [item 6 "b", item 6 "c"] ∧ s.poller.pending = some ⟨snapshot, [r]⟩ ∧
      r.id = some 6 ∧ (s.settled false r []).poller.watermark = 6 := by
  let t : Table := ⟨[item 6 "b", item 6 "c"], _, fun _ h => h⟩
  have hmax : IsMaximum (t.matching fun _ => true) (.integer 6) := by
    refine ⟨⟨item 6 "b", by simp [t, Table.matching], rfl⟩, ?_⟩
    simp [t, Table.matching, item]
  obtain ⟨s, snapshot, hs, hw, -, hp, hn⟩ := @exists_first_delivered t (item 6 "b") (item 6 "c")
    [] 6 rfl (by simp [item]) hmax (by decide)
  have hid (sku : String) : (newRow "id" (item 6 sku).shown).id = some 6 :=
    (Entry.shows_newRow "id" rfl).1
  refine ⟨s, snapshot, _, hs, by rw [hw], hp, hid "c", ?_⟩
  simp only [settled, IncrementalPoller.settle, hp]
  rw [hid "b"] at hn
  exact hn

end Stage

end LiveQuery
