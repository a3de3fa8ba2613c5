import LiveQuery.Proofs.EagerLoading
import LiveQuery.Proofs.IncrementalRun

/-! The two ids of a row past the watermark. The watermark moves to the id that the row carries
under a name of its own, but related rows are loaded for the id that its id column shows, and a
joined table may show another one there. -/

namespace LiveQuery

open IncrementalPoller

variable {ω : Type} {answer : Answers ω} {ctx : Context} {q : Query} {idColumn : String}

theorem newRow_id? (h : idColumn ≠ watermarkColumn) (r : Row) :
    (newRow idColumn r).row.id? idColumn = r.id? idColumn := by
  have hcolumn : (newRow idColumn r).row.get? idColumn = r.get? idColumn :=
    Keyed.get?_erase_of_ne h r.columns
  rw [Row.id?, Row.id?, hcolumn]

namespace Row

variable {r : Row}

/-- No column comes twice, as in every row whose columns have been set one by one. -/
def Distinct (r : Row) : Prop := (r.columns.map Prod.fst).Nodup

/-- The id of a row as the executor returns it. -/
def baseId? (idColumn : String) (r : Row) : Option Int64 :=
  ((r.get? watermarkColumn).bind Value.integer?).or (r.id? idColumn)

theorem distinct_ofColumns (columns : List (String × Value)) : (ofColumns columns).Distinct :=
  List.foldlRecOn (motive := Distinct) columns _ List.nodup_nil
    fun _ hr p _ => Keyed.nodup_put hr p.1 p.2

theorem Distinct.newRow_hides (h : r.Distinct) :
    watermarkColumn ∉ (newRow idColumn r).row.columns.map Prod.fst := Keyed.not_mem_erase h

theorem Distinct.newRow_id (h : r.Distinct) : (newRow idColumn r).id = r.baseId? idColumn := by
  change ((r.get? watermarkColumn).bind Value.integer?).or ((newRow idColumn r).row.id? idColumn) = _
  by_cases hid : idColumn = watermarkColumn
  · subst hid
    have hnone : (newRow watermarkColumn r).row.get? watermarkColumn = none :=
      Keyed.get?_eq_none h.newRow_hides
    rw [baseId?, Row.id?, hnone, Row.id?]
    simp
  · rw [newRow_id? hid, baseId?]

end Row

theorem IncrementalPoller.query_receive (b : Batch) (p : IncrementalPoller) :
    (p.receive b).query = p.query := by
  unfold receive
  split <;> rfl

/-- A batch that a tick has found, with the calls that ended the tick. They were made for the ids
that the rows show in their id column. -/
structure LoadedFor (answer : Answers ω) (ctx : Context) (q : Query) (b : Batch)
    (parents : List Int64) (calls : List (String × Groups)) : Prop where
  fetched : ∃ (p : IncrementalPoller) (w u v : ω), p.query = q ∧
    (p.fetch ctx).run.Ends answer w (.ok (some b)) v ∧ Loads answer q.table parents calls u v
  relations : calls.map Prod.fst = q.relations
  ascending : parents.Pairwise (· < ·)
  mem_parents : ∀ id, id ∈ parents ↔ ∃ n ∈ b.rows, n.row.id? ctx.config.idColumn = some id
  attached : ∀ n ∈ b.rows, ∀ before relation groups after,
    calls = before ++ (relation, groups) :: after → relation ∉ after.map Prod.fst →
      n.row.related? relation = some (groupOf ctx.config.idColumn groups n.row)

theorem loadedFor_of_fetch (hrel : ctx.hasRelations = true)
    (hid : ctx.config.idColumn ≠ watermarkColumn) {p : IncrementalPoller} {b : Batch} {w v : ω}
    (hq : p.query = q) (h : (p.fetch ctx).run.Ends answer w (.ok (some b)) v)
    (hne : b.rows ≠ []) : ∃ parents calls, LoadedFor answer ctx q b parents calls := by
  obtain ⟨-, u, found, loaded, -, -, -, hl, hb⟩ := ends_fetch_some.mp h
  rw [hq] at hl
  have hfound : found ≠ [] := by
    rintro rfl
    rw [Query.loadRelated_nothing (.inl rfl)] at hl
    obtain ⟨hloaded, -⟩ := Inquiry.ends_pure.mp hl
    cases hloaded
    exact hne hb
  rw [Query.loadRelated_eq_loadEach hrel hfound] at hl
  obtain ⟨calls, hcalls, hloads, rfl⟩ := Query.ends_loadEach_ok.mp hl
  rw [List.map_map] at hb
  have hshown (r : Row) : (newRow ctx.config.idColumn
      (attachAll ctx.config.idColumn calls r)).row.id? ctx.config.idColumn =
        r.id? ctx.config.idColumn := by
    rw [newRow_id? hid, id?_congr (attachAll_columns calls r)]
  -- taking the watermark column out and attaching collections leave the id column as found
  refine ⟨_, calls, ⟨p, w, u, v, hq, h, hloads⟩, hcalls, pairwise_parentIds, fun id => ?_, ?_⟩
  · rw [mem_parentIds, hb]
    simp [hshown]
  · intro n hn before relation groups after hsplit hlast
    rw [hb] at hn
    obtain ⟨r, -, rfl⟩ := List.mem_map.mp hn
    have hown : (attachAll ctx.config.idColumn calls r).related? relation =
        some (groupOf ctx.config.idColumn groups r) := by
      rw [hsplit]
      exact attachAll_own hlast r
    refine hown.trans (congrArg some ?_)
    rw [groupOf, groupOf, Function.comp_apply, hshown]

namespace Stage

variable {drift : ω → ω → Prop} {w : ω} {s s' : Stage ω}

/-- Rows delivered and rows waiting all come from ticks that loaded what belongs to them. -/
structure Furnished (answer : Answers ω) (ctx : Context) (q : Query) (s : Stage ω) : Prop where
  query : s.poller.query = q
  loaded : ∀ n ∈ s.delivered ++ s.poller.waiting,
    ∃ b parents calls, n ∈ b.rows ∧ LoadedFor answer ctx q b parents calls

theorem furnished_begin {p : IncrementalPoller} {v : ω}
    (h : (IncrementalPoller.start ctx q).run.Ends answer w (.ok p) v) :
    (begin v p).Furnished answer ctx q := by
  obtain ⟨snapshot, -, rfl⟩ := ends_start.mp h
  refine ⟨rfl, fun n hn => ?_⟩
  simp [begin, waiting] at hn

theorem settled_subset {snapshot : Snapshot} {r : NewRow} {rest : List NewRow}
    (hp : s.poller.pending = some ⟨snapshot, r :: rest⟩) (accepted : Bool) :
    (s.settled accepted r rest).poller.query = s.poller.query ∧
      (s.settled accepted r rest).delivered ++ (s.settled accepted r rest).poller.waiting ⊆
        s.delivered ++ s.poller.waiting := by
  have hw : s.poller.waiting = r :: rest := by simp [waiting, hp]
  cases accepted with
  | false =>
    have hset : s.poller.settle false = { s.poller with pending := none } := by
      simp [IncrementalPoller.settle, hp]
    rw [settled, hset]
    exact ⟨rfl, by simp [waiting]⟩
  | true =>
    have hset : s.poller.settle true = { s.poller with
        watermark := advance r.id s.poller.watermark }.receive ⟨snapshot, rest⟩ := by
      simp [IncrementalPoller.settle, hp]
    rw [settled, hset]
    refine ⟨query_receive _ _, ?_⟩
    rw [waiting_receive, hw]
    simp

theorem Furnished.step (hrel : ctx.hasRelations = true)
    (hid : ctx.config.idColumn ≠ watermarkColumn) (h : s.Furnished answer ctx q)
    (hs : Step ctx answer drift s s') : s'.Furnished answer ctx q := by
  cases hs with
  | drift _ => exact ⟨h.query, h.loaded⟩
  | @poll v r idle hf =>
    rcases r with e | _ | b
    · exact ⟨h.query, h.loaded⟩
    · exact ⟨h.query, h.loaded⟩
    · refine ⟨(query_receive b s.poller).trans h.query, fun n hn => ?_⟩
      rcases List.mem_append.mp hn with hn | hn
      · exact h.loaded n (List.mem_append_left _ hn)
      · have hb : n ∈ b.rows := by
          rw [← waiting_receive b s.poller]
          exact hn
        obtain ⟨parents, calls, hl⟩ :=
          loadedFor_of_fetch hrel hid h.query hf (List.ne_nil_of_mem hb)
        exact ⟨b, parents, calls, hb, hl⟩
  | @settle snapshot r rest accepted hp =>
    obtain ⟨hquery, hrows⟩ := settled_subset hp accepted
    exact ⟨hquery.trans h.query, fun n hn => h.loaded n (hrows hn)⟩

theorem Reached.furnished (hrel : ctx.hasRelations = true)
    (hid : ctx.config.idColumn ≠ watermarkColumn) (h : Reached ctx answer drift q w s) :
    s.Furnished answer ctx q := by
  obtain ⟨v, p, hp, hrun⟩ := h
  induction hrun with
  | refl => exact furnished_begin hp
  | tail _ hs ih => exact ih.step hrel hid hs

/-- Each row carries, for every relation, the group that the loader returned for the id in its
id column. Where that is the id the watermark moves to, the row carries the group of its own id,
and if it is so for all rows of a tick, the loader was asked for exactly their ids. -/
theorem rows_carry_own_groups (hrel : ctx.hasRelations = true)
    (hid : ctx.config.idColumn ≠ watermarkColumn) (h : Reached ctx answer drift q w s)
    {n : NewRow} (hn : n ∈ s.delivered ++ s.poller.waiting) :
    ∃ b parents calls, n ∈ b.rows ∧ LoadedFor answer ctx q b parents calls ∧
      (n.row.id? ctx.config.idColumn = n.id → ∀ before relation groups after,
        calls = before ++ (relation, groups) :: after → relation ∉ after.map Prod.fst →
          n.row.related? relation = some ((n.id.bind fun id => groups.lookup id).getD [])) ∧
      ((∀ m ∈ b.rows, m.row.id? ctx.config.idColumn = m.id) →
        ∀ id, id ∈ parents ↔ ∃ m ∈ b.rows, m.id = some id) := by
  obtain ⟨b, parents, calls, hmem, hl⟩ := (h.furnished hrel hid).loaded n hn
  refine ⟨b, parents, calls, hmem, hl, ?_, ?_⟩
  · intro hown before relation groups after hsplit hlast
    rw [hl.attached n hmem before relation groups after hsplit hlast, groupOf, hown]
  · intro hall id
    rw [hl.mem_parents]
    constructor
    · rintro ⟨m, hm, hshown⟩
      exact ⟨m, hm, (hall m hm).symm.trans hshown⟩
    · rintro ⟨m, hm, hbase⟩
      exact ⟨m, hm, (hall m hm).trans hbase⟩

/-- Events with their teams, whose ids come under the same name. -/
def events : Query where
  table := "events"
  joins := [⟨"teams", "team_id", "id", []⟩]
  relations := ["posts"]
  raw := true

def post (id : Int64) : Row := { columns := [("id", .integer id)] }

def posts : Groups := [(5, [post 100]), (77, [post 200])]

/-- Nothing is there at the start, and one row at the first poll. -/
def oneEvent (found : Row) : Collaborators := fun n r =>
  match r with
  | .revision => ""
  | .execute _ _ =>
    .ok [if n < 2 then { columns := [("row_count", .integer (Int64.ofNat n))] } else found]
  | .related _ _ _ => .ok posts

theorem exists_waiting {found : Row} {id : Int64} (h : found.id? "id" = some id) :
    ∃ s, Reached { hasRelations := true } (oneEvent found).Replies (fun _ _ => False) events [] s ∧
      s.poller.waiting = [newRow "id" (attach "id" "posts" posts found)] ∧
      s.world.getLast? = some (.related "events" "posts" [id]) := by
  let ctx : Context := { hasRelations := true }
  let fingerprint : Request := .execute (events.fingerprint "id") true
  let select : Request := .execute (events.incremental "id" 0) true
  let load : Request := .related "events" "posts" [id]
  have hcapture (log : List Request) (n : Nat) (hn : log.length = n) (hlt : n < 2) :
      (ctx.capture events).run.Ends (oneEvent found).Replies log
        (.ok ⟨Int64.ofNat n, 0, ""⟩) (log ++ [fingerprint]) := by
    refine Context.ends_capture.mpr ⟨"", log,
      [{ columns := [("row_count", .integer (Int64.ofNat n))] }], ⟨rfl, rfl⟩,
      Collaborators.replies_iff.mpr ⟨?_, rfl⟩, rfl⟩
    simp [oneEvent, hn, hlt]
  have hload : (events.loadRelated ctx [found]).run.Ends (oneEvent found).Replies
      [fingerprint, fingerprint, select] (.ok [attach "id" "posts" posts found])
      [fingerprint, fingerprint, select, load] := by
    have hparents : parentIds "id" [found] = [id] := by rw [parentIds_singleton, h]; rfl
    rw [Query.loadRelated_eq_loadEach rfl (List.cons_ne_nil found [])]
    refine Query.ends_loadEach_ok.mpr ⟨[("posts", posts)], rfl, ⟨_, ?_, rfl⟩, rfl⟩
    refine Collaborators.replies_iff.mpr ⟨rfl, ?_⟩
    change _ = [fingerprint, fingerprint, select] ++
      [Request.related "events" "posts" (parentIds "id" [found])]
    rw [hparents]
    rfl
  let p : IncrementalPoller := { query := events, detector := ⟨some ⟨0, 0, ""⟩⟩, watermark := 0 }
  let b : Batch := ⟨⟨1, 0, ""⟩, [newRow "id" (attach "id" "posts" posts found)]⟩
  have hchanged : p.detector.hasChanged b.snapshot = true := by simp [Detector.hasChanged, p, b]
  have hfetch : (p.fetch ctx).run.Ends (oneEvent found).Replies [fingerprint] (.ok (some b))
      [fingerprint, fingerprint, select, load] :=
    ends_fetch_some.mpr ⟨[fingerprint, fingerprint], [fingerprint, fingerprint, select], [found], _,
      hcapture [fingerprint] 1 rfl (by decide), hchanged,
      Collaborators.replies_iff.mpr ⟨rfl, rfl⟩, hload, rfl⟩
  exact ⟨_, ⟨[fingerprint], p, ends_start.mpr ⟨_, hcapture [] 0 rfl (by decide), rfl⟩,
    .single (.poll rfl hfetch)⟩, rfl, rfl⟩

/-- A row that shows its own id has its own posts. -/
theorem rows_carry_own_groups_shown :
    let found : Row := { columns := [("id", .integer 5), ("__watermark_id", .integer 5)] }
    ∃ s n,
      Reached { hasRelations := true } (oneEvent found).Replies (fun _ _ => False) events [] s ∧
      s.poller.waiting = [n] ∧ n.id = some 5 ∧ n.row.related? "posts" = some [post 100] := by
  intro found
  have hid : found.id? "id" = some 5 := rfl
  obtain ⟨s, hs, hw, -⟩ := exists_waiting hid
  refine ⟨s, _, hs, hw, rfl, ?_⟩
  obtain ⟨b, parents, calls, -, hl, hown, -⟩ := rows_carry_own_groups rfl (by decide) hs
    (n := newRow "id" (attach "id" "posts" posts found)) (by simp [hw])
  obtain ⟨⟨name, groups⟩, rest, rfl, rfl, hrest⟩ := List.map_eq_cons_iff.mp hl.relations
  obtain rfl := List.map_eq_nil_iff.mp hrest
  obtain ⟨p, w, u, v, -, -, t, hgroups, -⟩ := hl.fetched
  obtain ⟨hgroups, -⟩ := Collaborators.replies_iff.mp hgroups
  cases hgroups
  exact hown rfl [] _ _ [] rfl (by simp)

/-- A row that shows the id of its team has the posts of that id. -/
theorem rows_carry_groups_of_team :
    let found : Row := { columns := [("id", .integer 77), ("__watermark_id", .integer 5)] }
    ∃ s n,
      Reached { hasRelations := true } (oneEvent found).Replies (fun _ _ => False) events [] s ∧
      s.poller.waiting = [n] ∧ n.id = some 5 ∧ posts.lookup 5 = some [post 100] ∧
      n.row.related? "posts" = some [post 200] ∧
      s.world.getLast? = some (.related "events" "posts" [77]) := by
  intro found
  have hid : found.id? "id" = some 77 := rfl
  obtain ⟨s, hs, hw, hasked⟩ := exists_waiting hid
  exact ⟨s, _, hs, hw, rfl, rfl, rfl, hasked⟩

end Stage

end LiveQuery
