import Mathlib.Order.Bounds.Defs
import LiveQuery.Proofs.Pieces
import LiveQuery.Proofs.Redelivery
import LiveQuery.Proofs.Requests
import LiveQuery.Proofs.RowIdentity

/-! The watermark over the whole life of an incremental poller, whatever the collaborators reply
and however the callbacks end. The ticks are told one by one, each with the callbacks that were made
in it. -/

namespace LiveQuery

open IncrementalPoller

variable {ω : Type} {answer : Answers ω} {drift : ω → ω → Prop} {ctx : Context} {q : Query}
  {idColumn : String}

/-- The rows of a batch are those that the executor has returned, in the same order. Only the
watermark column is taken out. -/
structure Batch.Holds (b : Batch) (idColumn : String) (found : List Row) : Prop where
  ids : b.rows.map NewRow.id = found.map (Row.baseId? idColumn)
  columns : (b.rows.map fun n => n.row.columns) =
    found.map fun r => Keyed.erase watermarkColumn r.columns
  hidden : ∀ n ∈ b.rows, watermarkColumn ∉ n.row.columns.map Prod.fst

theorem holds_of_loaded {b : Batch} {found loaded : List Row} (hfound : ∀ r ∈ found, r.Distinct)
    (hl : loaded.map Row.columns = found.map Row.columns)
    (hb : b.rows = loaded.map (newRow idColumn)) : b.Holds idColumn found := by
  have hcolumns : (b.rows.map fun n => n.row.columns) =
      found.map fun r => Keyed.erase watermarkColumn r.columns := by
    have herase := congrArg (List.map (Keyed.erase watermarkColumn)) hl
    rw [List.map_map, List.map_map] at herase
    rw [hb, List.map_map]
    exact herase
  refine ⟨?_, hcolumns, fun n hn => ?_⟩
  · rw [hb, newRows_ids idColumn hl, List.map_map]
    exact List.map_congr_left fun r hr => (hfound r hr).newRow_id
  · have hmem : n.row.columns ∈ b.rows.map fun n => n.row.columns :=
      List.mem_map.mpr ⟨n, hn, rfl⟩
    rw [hcolumns] at hmem
    obtain ⟨r, hr, hr'⟩ := List.mem_map.mp hmem
    rw [← hr']
    exact Keyed.not_mem_erase (hfound r hr)

namespace IncrementalPoller

theorem advance_cases (id : Option Int64) (n : Int64) :
    advance id n = n ∨ id = some (advance id n) := by
  cases id with
  | none => exact .inl rfl
  | some k =>
    change (if n ≤ k then k else n) = n ∨ some k = some (if n ≤ k then k else n)
    split
    · exact .inr rfl
    · exact .inl rfl

theorem watermark_receive (b : Batch) (p : IncrementalPoller) :
    (p.receive b).watermark = p.watermark := by
  unfold receive
  split <;> rfl

theorem watermark_take (p : IncrementalPoller) (r : Except QueryError (Option Batch)) :
    (p.take r).watermark = p.watermark := by
  rcases r with e | _ | b
  · rfl
  · rfl
  · exact watermark_receive b p

theorem watermark_settle {p : IncrementalPoller} {snapshot : Snapshot} {r : NewRow}
    {rest : List NewRow} (hp : p.pending = some ⟨snapshot, r :: rest⟩) (accepted : Bool) :
    (p.settle accepted).watermark = if accepted then advance r.id p.watermark else p.watermark := by
  rw [IncrementalPoller.settle, hp]
  cases accepted with
  | true => exact watermark_receive _ _
  | false => rfl

end IncrementalPoller

/-- `n` is the greatest of `base` and the ids of the rows whose callbacks have succeeded. -/
def Counts (base : Int64) (calls : List (NewRow × Bool)) (n : Int64) : Prop :=
  IsGreatest {m | m = base ∨ ∃ r, (r, true) ∈ calls ∧ r.id = some m} n

namespace Counts

variable {base n m : Int64} {calls calls' : List (NewRow × Bool)}

theorem nil (n : Int64) : Counts n [] n := by
  refine ⟨.inl rfl, ?_⟩
  rintro m (rfl | ⟨r, hr, -⟩)
  · exact Int64.le_refl m
  · exact absurd hr List.not_mem_nil

theorem base_le (h : Counts base calls n) : base ≤ n := h.2 (.inl rfl)

theorem append (h : Counts base calls n) (h' : Counts n calls' m) :
    Counts base (calls ++ calls') m := by
  have hle : n ≤ m := h'.base_le
  constructor
  · rcases h'.1 with rfl | ⟨r, hr, hid⟩
    · rcases h.1 with hbase | ⟨r, hr, hid⟩
      · exact .inl hbase
      · exact .inr ⟨r, List.mem_append_left _ hr, hid⟩
    · exact .inr ⟨r, List.mem_append_right _ hr, hid⟩
  · rintro k (hk | ⟨r, hr, hid⟩)
    · exact Int64.le_trans (h.2 (.inl hk)) hle
    · rcases List.mem_append.mp hr with hr | hr
      · exact Int64.le_trans (h.2 (.inr ⟨r, hr, hid⟩)) hle
      · exact h'.2 (.inr ⟨r, hr, hid⟩)

theorem single (n : Int64) (r : NewRow) (accepted : Bool) :
    Counts n [(r, accepted)] (if accepted then advance r.id n else n) := by
  cases accepted with
  | false =>
    refine ⟨.inl rfl, ?_⟩
    rintro m (rfl | ⟨r', hr', -⟩)
    · exact Int64.le_refl m
    · simp at hr'
  | true =>
    constructor
    · rcases advance_cases r.id n with hn | hid
      · exact .inl hn
      · exact .inr ⟨r, List.mem_singleton_self _, hid⟩
    · rintro m (rfl | ⟨r', hr', hid⟩)
      · exact le_advance r.id m
      · cases List.mem_singleton.mp hr'
        exact le_advance_of_eq_some hid n

end Counts

/-- One tick of a poller: the world and the poller at its start, what it has found, the callbacks
made since, each with whether it has succeeded, and the poller as they have left it. -/
structure Pull (ω : Type) where
  world : ω
  start : IncrementalPoller
  result : Except QueryError (Option Batch)
  calls : List (NewRow × Bool) := []
  finish : IncrementalPoller

/-- The requests of a tick. -/
def IncrementalPoller.Asks (ctx : Context) (p : IncrementalPoller) : Request → Prop
  | .revision => True
  | .execute s raw => s = p.query.fingerprint ctx.config.idColumn ∧ raw = true ∨
      s = p.query.incremental ctx.config.idColumn p.watermark ∧ raw = p.query.raw
  | .related table _ _ => table = p.query.table

namespace Pull

/-- How far a tick has come, and what it leaves to the next one. The callbacks are made for the rows
found, from the first on, until one of them fails. -/
inductive Stands (t : Pull ω) : Prop
  | nothing (result : ∀ b, t.result ≠ .ok (some b)) (calls : t.calls = [])
      (finish : t.finish = t.start)
  | underWay (b : Batch) (done : List NewRow) (r : NewRow) (rest : List NewRow)
      (result : t.result = .ok (some b)) (rows : b.rows = done ++ r :: rest)
      (calls : t.calls = done.map fun r => (r, true))
      (finish : t.finish = { t.start with
        watermark := t.finish.watermark, pending := some ⟨b.snapshot, r :: rest⟩ })
  | delivered (b : Batch) (result : t.result = .ok (some b))
      (calls : t.calls = b.rows.map fun r => (r, true))
      (finish : t.finish = { t.start with
        watermark := t.finish.watermark, detector := ⟨some b.snapshot⟩ })
  | failed (b : Batch) (done : List NewRow) (r : NewRow) (rest : List NewRow)
      (result : t.result = .ok (some b)) (rows : b.rows = done ++ r :: rest)
      (calls : t.calls = (done.map fun r => (r, true)) ++ [(r, false)])
      (finish : t.finish = { t.start with watermark := t.finish.watermark })

/-- What holds of every tick. -/
structure Sound (ctx : Context) (answer : Answers ω) (q : Query) (t : Pull ω) : Prop where
  query : t.start.query = q
  idle : t.start.pending = none
  fetched : ∃ v, (t.start.fetch ctx).run.Ends answer t.world t.result v
  asks : Inquiry.Heeds (t.start.Asks ctx)
    (fun e => ctx.hasRelations = false ∧ ∃ relation ∈ q.relations, e = .noRelatedLoader relation)
    (t.start.fetch ctx).run
  unchanged : t.result = .ok none →
    ∃ s v, (ctx.capture q).run.Ends answer t.world (.ok s) v ∧ t.start.detector.hasChanged s = false
  found : ∀ b, t.result = .ok (some b) → t.start.detector.hasChanged b.snapshot = true ∧
    ∃ u u' rows, (ctx.capture q).run.Ends answer t.world (.ok b.snapshot) u ∧
      answer u (.execute (q.incremental ctx.config.idColumn t.start.watermark) q.raw) (.ok rows) u' ∧
      b.Holds ctx.config.idColumn rows
  stands : t.Stands
  counts : Counts t.start.watermark t.calls t.finish.watermark

variable {t : Pull ω}

/-- The tick after one more callback. -/
def called (t : Pull ω) (r : NewRow) (accepted : Bool) : Pull ω :=
  { t with calls := t.calls ++ [(r, accepted)], finish := t.finish.settle accepted }

theorem Stands.exists_batch (h : t.Stands) {c : NewRow × Bool} (hc : c ∈ t.calls) :
    ∃ b, t.result = .ok (some b) ∧ c.1 ∈ b.rows := by
  cases h with
  | nothing _ calls _ => simp [calls] at hc
  | underWay b done r rest result rows calls _ =>
    rw [calls] at hc
    obtain ⟨n, hn, rfl⟩ := List.mem_map.mp hc
    exact ⟨b, result, rows ▸ List.mem_append_left _ hn⟩
  | delivered b result calls _ =>
    rw [calls] at hc
    obtain ⟨n, hn, rfl⟩ := List.mem_map.mp hc
    exact ⟨b, result, hn⟩
  | failed b done r rest result rows calls _ =>
    refine ⟨b, result, ?_⟩
    rw [rows]
    rw [calls] at hc
    rcases List.mem_append.mp hc with hc | hc
    · obtain ⟨n, hn, rfl⟩ := List.mem_map.mp hc
      exact List.mem_append_left _ hn
    · rw [List.mem_singleton.mp hc]
      exact List.mem_append_right _ List.mem_cons_self

theorem Stands.query (h : t.Stands) : t.finish.query = t.start.query := by
  cases h with
  | nothing _ _ finish => rw [finish]
  | underWay _ _ _ _ _ _ _ finish => rw [finish]
  | delivered _ _ _ finish => rw [finish]
  | failed _ _ _ _ _ _ _ finish => rw [finish]

theorem stands_take {w : ω} {p : IncrementalPoller} (idle : p.pending = none)
    (r : Except QueryError (Option Batch)) : (Pull.mk w p r [] (p.take r)).Stands := by
  obtain ⟨query, detector, watermark, pending⟩ := p
  obtain rfl : pending = none := idle
  rcases r with e | _ | ⟨snapshot, _ | ⟨r, rest⟩⟩
  · exact .nothing nofun rfl rfl
  · exact .nothing nofun rfl rfl
  · exact .delivered _ rfl rfl rfl
  · exact .underWay _ [] r rest rfl rfl rfl rfl

/-- A callback takes the tick on to the next row, or ends it. -/
theorem Stands.called (h : t.Stands) (idle : t.start.pending = none) {snapshot : Snapshot}
    {r : NewRow} {rest : List NewRow} (hp : t.finish.pending = some ⟨snapshot, r :: rest⟩)
    (accepted : Bool) : (t.called r accepted).Stands := by
  cases h with
  | nothing _ _ finish =>
    rw [finish, idle] at hp
    cases hp
  | delivered _ _ _ finish =>
    rw [finish, idle] at hp
    cases hp
  | failed _ _ _ _ _ _ _ finish =>
    rw [finish, idle] at hp
    cases hp
  | underWay b done r' rest' result rows calls finish =>
    obtain ⟨world, ⟨query, detector, start, pending⟩, _, _, ⟨query', detector', n, pending'⟩⟩ := t
    obtain rfl : pending = none := idle
    simp only [IncrementalPoller.mk.injEq] at finish
    obtain ⟨rfl, rfl, -, rfl⟩ := finish
    cases hp
    cases accepted with
    | false => exact .failed b done r rest result rows (congrArg (· ++ [(r, false)]) calls) rfl
    | true =>
      have hcalls := congrArg (· ++ [(r, true)]) calls
      have hdone : (done.map fun r => (r, true)) ++ [(r, true)] =
          (done ++ [r]).map fun r => (r, true) := by simp
      cases rest with
      | nil => exact .delivered b result (rows ▸ hcalls.trans hdone) rfl
      | cons r'' rest =>
        exact .underWay b (done ++ [r]) r'' rest result (by simp [rows]) (hcalls.trans hdone) rfl

theorem Sound.called (h : t.Sound ctx answer q) {snapshot : Snapshot} {r : NewRow}
    {rest : List NewRow} (hp : t.finish.pending = some ⟨snapshot, r :: rest⟩) (accepted : Bool) :
    (t.called r accepted).Sound ctx answer q where
  query := h.query
  idle := h.idle
  fetched := h.fetched
  asks := h.asks
  unchanged := h.unchanged
  found := h.found
  stands := h.stands.called h.idle hp accepted
  counts := by
    have hsingle := Counts.single t.finish.watermark r accepted
    rw [← watermark_settle hp] at hsingle
    exact h.counts.append hsingle

/-- No callback is given the watermark column. -/
theorem Sound.hidden (h : t.Sound ctx answer q) {c : NewRow × Bool} (hc : c ∈ t.calls) :
    watermarkColumn ∉ c.1.row.columns.map Prod.fst := by
  obtain ⟨b, hb, hmem⟩ := h.stands.exists_batch hc
  obtain ⟨-, u, u', rows, -, -, hholds⟩ := h.found b hb
  exact hholds.hidden c.1 hmem

theorem sound_take {w v : ω} {p : IncrementalPoller} {r : Except QueryError (Option Batch)}
    (hdistinct : ∀ u s raw rows u', answer u (.execute s raw) (.ok rows) u' → ∀ r ∈ rows, r.Distinct)
    (hq : p.query = q) (idle : p.pending = none) (hf : (p.fetch ctx).run.Ends answer w r v) :
    (Pull.mk w p r [] (p.take r)).Sound ctx answer q where
  query := hq
  idle := idle
  fetched := ⟨v, hf⟩
  asks := by
    subst hq
    exact heeds_fetch trivial (.inl ⟨rfl, rfl⟩) (.inr ⟨rfl, rfl⟩) (fun _ _ => rfl)
      fun hno relation hr => ⟨hno, relation, hr, rfl⟩
  unchanged := by
    rintro rfl
    subst hq
    obtain ⟨s, hs, hc⟩ := ends_fetch_none.mp hf
    exact ⟨s, v, hs, hc⟩
  found := by
    rintro b rfl
    subst hq
    obtain ⟨u, u', rows, loaded, hs, hc, hr, hl, hb⟩ := ends_fetch_some.mp hf
    exact ⟨hc, u, u', rows, hs, hr,
      holds_of_loaded (hdistinct _ _ _ _ _ hr) (Query.loadRelated_columns hl) hb⟩
  stands := stands_take idle r
  counts := by
    rw [watermark_take]
    exact .nil p.watermark

end Pull

namespace Stage

variable {base : Snapshot} {s s' : Stage ω} {pulls : List (Pull ω)}

/-- A poller that starts past the rows of its baseline. -/
def baseline (q : Query) (base : Snapshot) : IncrementalPoller :=
  { query := q, detector := ⟨some base⟩, watermark := base.maxRowId }

/-- What has happened until a stage is reached, the last tick first. -/
inductive Told (ctx : Context) (answer : Answers ω) (drift : ω → ω → Prop) (q : Query)
    (base : Snapshot) : Stage ω → List (Pull ω) → Prop
  | begin {w v : ω} (h : (ctx.capture q).run.Ends answer w (.ok base) v) :
      Told ctx answer drift q base (Stage.begin v (baseline q base)) []
  | drift {s : Stage ω} {pulls : List (Pull ω)} {v : ω}
      (h : Told ctx answer drift q base s pulls) (hd : drift s.world v) :
      Told ctx answer drift q base { s with world := v } pulls
  | poll {s : Stage ω} {pulls : List (Pull ω)} {v : ω} {r : Except QueryError (Option Batch)}
      (h : Told ctx answer drift q base s pulls) (idle : s.poller.pending = none)
      (hf : (s.poller.fetch ctx).run.Ends answer s.world r v) :
      Told ctx answer drift q base (s.polled v r)
        (⟨s.world, s.poller, r, [], s.poller.take r⟩ :: pulls)
  | settle {s : Stage ω} {t : Pull ω} {pulls : List (Pull ω)} {snapshot : Snapshot} {r : NewRow}
      {rest : List NewRow} (h : Told ctx answer drift q base s (t :: pulls)) (accepted : Bool)
      (hp : s.poller.pending = some ⟨snapshot, r :: rest⟩) :
      Told ctx answer drift q base (s.settled accepted r rest) (t.called r accepted :: pulls)

/-- The callbacks of all ticks in the order of time. -/
def callsIn (pulls : List (Pull ω)) : List (NewRow × Bool) := pulls.reverse.flatMap Pull.calls

/-- Every tick starts with the poller that the one before it has left, up to `p`. -/
def Follows (base : IncrementalPoller) : List (Pull ω) → IncrementalPoller → Prop
  | [], p => p = base
  | t :: pulls, p => p = t.finish ∧ Follows base pulls t.start

theorem Follows.query {p : IncrementalPoller} (h : Follows (baseline q base) pulls p)
    (ht : ∀ t ∈ pulls, t.Sound ctx answer q) : p.query = q := by
  cases pulls with
  | nil =>
    obtain rfl : p = baseline q base := h
    rfl
  | cons t pulls =>
    have hsound := ht t List.mem_cons_self
    rw [h.1, hsound.stands.query, hsound.query]

theorem Told.follows (h : Told ctx answer drift q base s pulls) :
    Follows (baseline q base) pulls s.poller := by
  induction h with
  | begin _ => exact rfl
  | drift _ _ ih => exact ih
  | poll _ _ _ ih => exact ⟨rfl, ih⟩
  | settle _ accepted _ ih => exact ⟨congrArg (·.settle accepted) ih.1, ih.2⟩

theorem Told.sound (h : Told ctx answer drift q base s pulls)
    (hdistinct : ∀ u s raw rows u', answer u (.execute s raw) (.ok rows) u' →
      ∀ r ∈ rows, r.Distinct) : ∀ t ∈ pulls, t.Sound ctx answer q := by
  induction h with
  | begin _ => simp
  | drift _ _ ih => exact ih
  | poll h idle hf ih =>
    exact List.forall_mem_cons.mpr
      ⟨Pull.sound_take hdistinct (h.follows.query ih) idle hf, ih⟩
  | settle h accepted hp ih =>
    obtain ⟨ht, hpulls⟩ := List.forall_mem_cons.mp ih
    exact List.forall_mem_cons.mpr ⟨ht.called (h.follows.1 ▸ hp) accepted, hpulls⟩

/-- The watermark counts the callbacks of all ticks. -/
theorem Follows.counts {p : IncrementalPoller} (h : Follows (baseline q base) pulls p)
    (ht : ∀ t ∈ pulls, t.Sound ctx answer q) :
    Counts base.maxRowId (callsIn pulls) p.watermark := by
  induction pulls generalizing p with
  | nil =>
    obtain rfl : p = baseline q base := h
    exact .nil base.maxRowId
  | cons t pulls ih =>
    obtain ⟨hsound, hpulls⟩ := List.forall_mem_cons.mp ht
    obtain ⟨rfl, hbefore⟩ := h
    have hall := (ih hbefore hpulls).append hsound.counts
    simpa [callsIn] using hall

theorem Step.watermark_le (h : Step ctx answer drift s s') :
    s.poller.watermark ≤ s'.poller.watermark := by
  cases h with
  | drift _ => exact Int64.le_refl _
  | @poll v r _ _ =>
    rw [polled, watermark_take]
    exact Int64.le_refl _
  | @settle snapshot r rest accepted hp =>
    rw [settled, watermark_settle hp]
    split
    · exact le_advance _ _
    · exact Int64.le_refl _

theorem watermark_le_of_run (h : Relation.ReflTransGen (Step ctx answer drift) s s') :
    s.poller.watermark ≤ s'.poller.watermark := by
  induction h with
  | refl => exact Int64.le_refl _
  | tail _ hs ih => exact Int64.le_trans ih hs.watermark_le

/-- Rows are waiting only after a tick that has found them. -/
theorem Told.exists_settled (h : Told ctx answer drift q base s pulls) {snapshot : Snapshot}
    {r : NewRow} {rest : List NewRow} (hp : s.poller.pending = some ⟨snapshot, r :: rest⟩)
    (accepted : Bool) : ∃ pulls', Told ctx answer drift q base (s.settled accepted r rest) pulls' ∧
      callsIn pulls' = callsIn pulls ++ [(r, accepted)] := by
  cases pulls with
  | nil =>
    have hbase : s.poller = baseline q base := h.follows
    rw [hbase] at hp
    cases hp
  | cons t pulls => exact ⟨_, h.settle accepted hp, by simp [callsIn, Pull.called]⟩

/-- A story goes on with every move. -/
theorem Told.run (h : Told ctx answer drift q base s pulls) {calls : List (NewRow × Bool)}
    (hrun : Run ctx answer drift s calls s') : ∃ pulls', Told ctx answer drift q base s' pulls' ∧
      callsIn pulls' = callsIn pulls ++ calls := by
  induction hrun generalizing pulls with
  | refl s => exact ⟨pulls, h, (List.append_nil _).symm⟩
  | drift hd _ ih => exact ih (h.drift hd)
  | poll idle hf _ ih =>
    obtain ⟨pulls', hpulls, hcalls⟩ := ih (h.poll idle hf)
    exact ⟨pulls', hpulls, by simpa [callsIn] using hcalls⟩
  | settle accepted hp _ ih =>
    obtain ⟨pulls₁, hsettled, hone⟩ := h.exists_settled hp accepted
    obtain ⟨pulls', hpulls, hcalls⟩ := ih hsettled
    exact ⟨pulls', hpulls, by rw [hcalls, hone, List.append_assoc]; rfl⟩

/-- Whatever has been reached can be told. -/
theorem Reached.exists_told {w : ω} (h : Reached ctx answer drift q w s) :
    ∃ base pulls, Told ctx answer drift q base s pulls := by
  obtain ⟨v, p, hp, hrun⟩ := h
  obtain ⟨base, hs, rfl⟩ := ends_start.mp hp
  refine ⟨base, ?_⟩
  induction hrun with
  | refl => exact ⟨[], .begin hs⟩
  | tail _ hstep ih =>
    obtain ⟨pulls, hpulls⟩ := ih
    cases hstep with
    | drift hd => exact ⟨pulls, hpulls.drift hd⟩
    | poll idle hf => exact ⟨_, hpulls.poll idle hf⟩
    | settle accepted hp =>
      obtain ⟨pulls', hsettled, -⟩ := hpulls.exists_settled hp accepted
      exact ⟨pulls', hsettled⟩

/-- The watermark is always the greatest of the baseline's id and the ids of the rows whose
callbacks have succeeded, and never moves back. Every tick asks for the rows past the watermark
it has started with, and ends in one of the ways that `Pull.Stands` lists. -/
theorem watermark_counts_accepted
    (hdistinct : ∀ u s raw rows u', answer u (.execute s raw) (.ok rows) u' →
      ∀ r ∈ rows, r.Distinct) :
    (∀ w s, Reached ctx answer drift q w s → ∃ base pulls, Told ctx answer drift q base s pulls) ∧
    ∀ base s pulls, Told ctx answer drift q base s pulls →
      Counts base.maxRowId (callsIn pulls) s.poller.watermark ∧
      (∀ s', Relation.ReflTransGen (Step ctx answer drift) s s' →
        s.poller.watermark ≤ s'.poller.watermark) ∧
      Follows (baseline q base) pulls s.poller ∧
      ∀ t ∈ pulls, t.Sound ctx answer q ∧
        (q.incremental ctx.config.idColumn t.start.watermark).params.getLast? =
          some (.integer t.start.watermark) ∧
        ∀ c ∈ t.calls, watermarkColumn ∉ c.1.row.columns.map Prod.fst := by
  refine ⟨fun w s h => h.exists_told, fun base s pulls h => ?_⟩
  have hsound := h.sound hdistinct
  refine ⟨h.follows.counts hsound, fun s' => watermark_le_of_run, h.follows, fun t ht => ?_⟩
  refine ⟨hsound t ht, ?_, fun c => (hsound t ht).hidden⟩
  rw [Query.params_incremental, List.getLast?_concat]

/-- Four rows are there at the first poll, one with its id as a text, one without an id and two
with ids from before the baseline. -/
def unruly : Collaborators := fun n r =>
  match r with
  | .revision => ""
  | .execute _ _ => .ok (
      if n < 2 then [.ofColumns [("row_count", .integer (Int64.ofNat n)), ("max_id", .integer 4)]]
      else [.ofColumns [("id", .integer 9), ("__watermark_id", .text "7")], .ofColumns [("id", .null)],
        .ofColumns [("id", .integer 3)], .ofColumns [("id", .integer 2)]])
  | .related _ _ _ => .ok []

theorem distinct_unruly {u v : List Request} {st : Statement} {raw : Bool} {rows : List Row}
    (h : unruly.Replies u (.execute st raw) (.ok rows) v) : ∀ r ∈ rows, r.Distinct := by
  have hreply := (Collaborators.replies_iff.mp h).1
  simp only [unruly, Except.ok.injEq] at hreply
  subst hreply
  split <;> simp [Row.distinct_ofColumns]

/-- The last callback fails. -/
theorem watermark_counts_accepted_unruly :
    let q : Query := { table := "users" }
    ∃ base s t, Told {} unruly.Replies (fun _ _ => False) q base s [t] ∧
      t.calls.map (fun c => (c.1.id, c.2)) =
        [(some 7, true), (none, true), (some 3, true), (some 2, false)] ∧
      Counts 4 t.calls 7 ∧ s.poller.watermark = 7 ∧ s.poller.detector = ⟨some base⟩ := by
  intro q
  let fingerprint : Request := .execute (q.fingerprint "id") true
  let select : Request := .execute (q.incremental "id" 4) false
  have hcapture (log : List Request) (n : Nat) (hn : log.length = n) (hlt : n < 2) :
      (({} : Context).capture q).run.Ends unruly.Replies log (.ok ⟨Int64.ofNat n, 4, ""⟩)
        (log ++ [fingerprint]) := by
    refine Context.ends_capture.mpr ⟨"", log,
      [.ofColumns [("row_count", .integer (Int64.ofNat n)), ("max_id", .integer 4)]], ⟨rfl, rfl⟩,
      Collaborators.replies_iff.mpr ⟨?_, rfl⟩, rfl⟩
    simp [unruly, hn, hlt]
  let found : List Row := [.ofColumns [("id", .integer 9), ("__watermark_id", .text "7")],
    .ofColumns [("id", .null)], .ofColumns [("id", .integer 3)], .ofColumns [("id", .integer 2)]]
  let b : Batch := ⟨⟨1, 4, ""⟩, found.map (newRow "id")⟩
  have hfetch : ((baseline q ⟨0, 4, ""⟩).fetch {}).run.Ends unruly.Replies [fingerprint]
      (.ok (some b)) [fingerprint, fingerprint, select] :=
    ends_fetch_some.mpr ⟨[fingerprint, fingerprint], [fingerprint, fingerprint, select], found,
      found, hcapture [fingerprint] 1 rfl (by decide), by simp [Detector.hasChanged, baseline, b],
      Collaborators.replies_iff.mpr ⟨rfl, rfl⟩, ⟨rfl, rfl⟩, rfl⟩
  have hbegun : Told {} unruly.Replies (fun _ _ => False) q ⟨0, 4, ""⟩
      (begin [fingerprint] (baseline q ⟨0, 4, ""⟩)) [] := .begin (hcapture [] 0 rfl (by decide))
  have hfound := hbegun.poll rfl hfetch
  have htold := (((hfound.settle true rfl).settle true rfl).settle true rfl).settle false rfl
  obtain ⟨hcounts, -⟩ :=
    (watermark_counts_accepted fun _ _ _ _ _ => distinct_unruly).2 _ _ _ htold
  exact ⟨_, _, _, htold, rfl, hcounts, rfl, rfl⟩

end Stage

/-- At each wake-up the task of a subscription goes on with its story, and the calls it makes are
those that the ticks tell, with the one under way. -/
theorem Subscription.wake_told {now : Nat} {sub sub' : Subscription} {events : List Event}
    {base : Snapshot} {s : Stage ω} {pulls : List (Pull ω)} {v : ω}
    (h : Stage.Told sub.context answer drift q base s pulls) (hat : sub.At s)
    (hw : (sub.wake now).Ends answer s.world (sub', events) v) :
    ∃ s' pulls', Stage.Told sub.context answer drift q base s' pulls' ∧ s'.world = v ∧ sub'.At s' ∧
      shown (Stage.callsIn pulls' ++ sub'.calling s'.poller) =
        shown (Stage.callsIn pulls ++ sub.calling s.poller) ++ events.filterMap Event.rowCall? := by
  obtain ⟨s', calls, hrun, hv, hat', hcalls⟩ := wake_runs hat hw
  obtain ⟨pulls', hpulls, hall⟩ := h.run hrun
  refine ⟨s', pulls', hpulls, hv, hat', ?_⟩
  rw [hall]
  simp only [shown, List.map_append, List.append_assoc] at hcalls ⊢
  rw [hcalls]

end LiveQuery
