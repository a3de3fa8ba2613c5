import LiveQuery.Proofs.RelatedRows

/-! Eager loading. The loader is asked once for each relation, with the ids of all rows, and each
row is given what it would be given if it were alone. -/

namespace LiveQuery

/-- Collaborators that answer by the request and the number of requests before it. -/
abbrev Collaborators := Nat → (r : Request) → r.Reply

namespace Collaborators

variable {f : Collaborators} {table relation : String} {parents : List Int64}
  {relations : List String} {calls : List (String × Groups)} {log : List Request}

def reply (f : Collaborators) (r : Request) (log : List Request) : r.Reply × List Request :=
  (f log.length r, log ++ [r])

def Replies (f : Collaborators) : Answers (List Request) :=
  fun log r x log' => f.reply r log = (x, log')

theorem replies_iff {r : Request} {x : r.Reply} {log' : List Request} :
    f.Replies log r x log' ↔ f log.length r = x ∧ log' = log ++ [r] := by
  simp [Replies, reply, eq_comm]

/-- Loading the relations succeeds if it starts after `n` requests. -/
def Succeeds (f : Collaborators) (table : String) (parents : List Int64)
    (relations : List String) (n : Nat) : Prop :=
  ∀ c ∈ relations.zipIdx n, ∃ groups, f c.2 (.related table c.1 parents) = .ok groups

theorem succeeds_cons {n : Nat} : f.Succeeds table parents (relation :: relations) n ↔
    (∃ groups, f n (.related table relation parents) = .ok groups) ∧
      f.Succeeds table parents relations (n + 1) := by
  rw [Succeeds, List.zipIdx_cons, List.forall_mem_cons]
  rfl

/-- Whether loading succeeds, and the group of a parent, do not depend on the other parents. -/
structure LoadsAlike (f : Collaborators) (table : String) : Prop where
  success : ∀ {n relation parents groups}, f n (.related table relation parents) = .ok groups →
    ∀ parents', ∃ groups', f n (.related table relation parents') = .ok groups'
  group : ∀ {n relation parents parents' groups groups' id},
    f n (.related table relation parents) = .ok groups →
    f n (.related table relation parents') = .ok groups' →
    id ∈ parents → id ∈ parents' → groups.lookup id = groups'.lookup id

/-- The group of a parent when no other one is asked for. -/
def groupAlone (f : Collaborators) (n : Nat) (table relation : String) (id : Int64) :
    Option (List Row) :=
  match f n (.related table relation [id]) with
  | .ok groups => groups.lookup id
  | .error _ => none

theorem loads_iff {log' : List Request} : Loads f.Replies table parents calls log log' ↔
    (∀ c ∈ calls.zipIdx log.length, f c.2 (.related table c.1.1 parents) = .ok c.1.2) ∧
      log' = log ++ calls.map fun c => .related table c.1 parents := by
  induction calls generalizing log with
  | nil => simp [Loads, eq_comm]
  | cons c calls ih =>
    simp only [Loads, replies_iff, ih]
    simp [List.zipIdx_cons, and_assoc]

theorem exists_loads (h : f.Succeeds table parents relations log.length) :
    ∃ calls, calls.map Prod.fst = relations ∧ Loads f.Replies table parents calls log
      (log ++ relations.map fun relation => .related table relation parents) := by
  induction relations generalizing log with
  | nil => exact ⟨[], rfl, by simp [Loads]⟩
  | cons relation relations ih =>
    obtain ⟨⟨groups, hg⟩, hrest⟩ := succeeds_cons.mp h
    have hlen : (log ++ [Request.related table relation parents]).length = log.length + 1 := by simp
    rw [← hlen] at hrest
    obtain ⟨calls, hcalls, hl⟩ := ih hrest
    refine ⟨(relation, groups) :: calls, by rw [List.map_cons, hcalls], _,
      replies_iff.mpr ⟨hg, rfl⟩, ?_⟩
    simpa using hl

/-- Collections for the same row, loaded with different other rows. -/
theorem LoadsAlike.groups {r : Row} {idColumn : String} {parents' : List Int64}
    {calls' : List (String × Groups)} {log' v v' : List Request} (hf : f.LoadsAlike table)
    (hl : Loads f.Replies table parents calls log v)
    (hl' : Loads f.Replies table parents' calls' log' v') (hlen : log.length = log'.length)
    (hcalls : calls.map Prod.fst = calls'.map Prod.fst)
    (hr : ∀ id, r.id? idColumn = some id → id ∈ parents ∧ id ∈ parents') :
    attachAll idColumn calls r = attachAll idColumn calls' r := by
  refine attachAll_congr ?_
  -- the logs differ in the parents they name, but the calls stand at the same places in them
  induction calls generalizing calls' log log' with
  | nil =>
    rw [List.map_eq_nil_iff.mp hcalls.symm]
    exact .nil
  | cons c calls ih =>
    obtain ⟨c', calls', rfl, hname, hrest⟩ := List.map_eq_cons_iff.mp hcalls.symm
    obtain ⟨u, hc, hl⟩ := hl
    obtain ⟨u', hc', hl'⟩ := hl'
    obtain ⟨hg, rfl⟩ := replies_iff.mp hc
    obtain ⟨hg', rfl⟩ := replies_iff.mp hc'
    rw [hname, ← hlen] at hg'
    refine .cons ⟨hname.symm, ?_⟩ (ih hl hl' (by simp [hlen]) hrest.symm)
    cases hid : r.id? idColumn with
    | none => simp [groupOf, hid]
    | some id =>
      obtain ⟨hmem, hmem'⟩ := hr id hid
      simp [groupOf, hid, hf.group hg hg' hmem hmem']

theorem LoadsAlike.succeeds {n : Nat} (hf : f.LoadsAlike table)
    (h : f.Succeeds table parents relations n) (parents' : List Int64) :
    f.Succeeds table parents' relations n := by
  intro c hc
  obtain ⟨groups, hg⟩ := h c hc
  exact hf.success hg parents'

theorem exists_failure {n : Nat} (h : ¬f.Succeeds table parents relations n) :
    ∃ before relation after message, relations = before ++ relation :: after ∧
      f.Succeeds table parents before n ∧
        f (n + before.length) (.related table relation parents) = .error message := by
  induction relations generalizing n with
  | nil => exact absurd (by simp [Succeeds]) h
  | cons relation relations ih =>
    cases hr : f n (.related table relation parents) with
    | error message => exact ⟨[], relation, relations, message, rfl, by simp [Succeeds], hr⟩
    | ok groups =>
      have hrest : ¬f.Succeeds table parents relations (n + 1) :=
        fun hs => h (succeeds_cons.mpr ⟨⟨groups, hr⟩, hs⟩)
      obtain ⟨before, name, after, message, rfl, hs, hm⟩ := ih hrest
      refine ⟨relation :: before, name, after, message, rfl,
        succeeds_cons.mpr ⟨⟨groups, hr⟩, hs⟩, ?_⟩
      rw [List.length_cons, ← Nat.add_assoc, Nat.add_right_comm]
      exact hm

theorem replies_at {before after : List (String × Groups)} {groups : Groups}
    {v : List Request}
    (h : Loads f.Replies table parents (before ++ (relation, groups) :: after) log v) :
    f (log.length + before.length) (.related table relation parents) = .ok groups := by
  have hall := (loads_iff.mp h).1
  rw [List.zipIdx_append, List.zipIdx_cons] at hall
  exact hall _ (List.mem_append_right _ List.mem_cons_self)

theorem LoadsAlike.groupOf_eq {r : Row} {idColumn : String} {groups : Groups} {n : Nat}
    (hf : f.LoadsAlike table) (h : f n (.related table relation parents) = .ok groups)
    (hr : ∀ id, r.id? idColumn = some id → id ∈ parents) : groupOf idColumn groups r =
      ((r.id? idColumn).bind (f.groupAlone n table relation)).getD [] := by
  rw [groupOf]
  cases hid : r.id? idColumn with
  | none => rfl
  | some id =>
    obtain ⟨groups', hg⟩ := hf.success h [id]
    have hlookup := hf.group h hg (hr id hid) (List.mem_singleton_self id)
    simp [groupAlone, hg, hlookup]

end Collaborators

namespace Inquiry

variable {α β : Type} {x : Inquiry α} {s : Statement} {raw : Bool} {f : Collaborators}
  {log log' : List Request} {r : Except QueryError α} {found : List Row} {message : String}

/-- What an inquiry gives, and all requests made until then. -/
def play (x : Inquiry α) (f : Collaborators) (log : List Request) :
    Except QueryError α × List Request :=
  x.run.run f.reply log

theorem play_eq_iff : x.play f log = (r, log') ↔ x.run.Ends f.Replies log r log' :=
  Dialogue.ends_run_iff.symm

theorem play_execute (h : f log.length (.execute s raw) = .ok found) (g : List Row → Inquiry α) :
    (execute s raw >>= g).play f log = (g found).play f (log ++ [.execute s raw]) := by
  have hexec := ends_execute.mpr (Collaborators.replies_iff.mpr ⟨h, rfl⟩)
  exact play_eq_iff.mpr (ends_bind.mpr (.inr ⟨found, _, hexec, play_eq_iff.mp rfl⟩))

theorem play_executeFirst (h : f log.length (.execute s raw) = .ok found)
    (g : Option Row → Inquiry α) :
    (executeFirst s raw >>= g).play f log = (g found.head?).play f (log ++ [.execute s raw]) := by
  have hexec := ends_executeFirst.mpr ⟨found, Collaborators.replies_iff.mpr ⟨h, rfl⟩, rfl⟩
  exact play_eq_iff.mpr (ends_bind.mpr (.inr ⟨_, _, hexec, play_eq_iff.mp rfl⟩))

theorem ends_execute_error (h : f log.length (.execute s raw) = .error message) :
    (execute s raw).run.Ends f.Replies log (.error (.execution message))
      (log ++ [.execute s raw]) := by
  have hask : (Dialogue.request (.execute s raw)).Ends f.Replies log (.error message)
      (log ++ [.execute s raw]) :=
    Dialogue.ends_request.mpr (Collaborators.replies_iff.mpr ⟨h, rfl⟩)
  exact ends_orFail_error.mpr ⟨message, hask, rfl⟩

theorem play_execute_error (h : f log.length (.execute s raw) = .error message)
    (g : List Row → Inquiry α) : (execute s raw >>= g).play f log =
      (.error (.execution message), log ++ [.execute s raw]) :=
  play_eq_iff.mpr (ends_bind.mpr (.inl ⟨_, ends_execute_error h, rfl⟩))

theorem play_executeFirst_error (h : f log.length (.execute s raw) = .error message)
    (g : Option Row → Inquiry α) : (executeFirst s raw >>= g).play f log =
      (.error (.execution message), log ++ [.execute s raw]) := by
  have hfirst : (executeFirst s raw).run.Ends f.Replies log (.error (.execution message))
      (log ++ [.execute s raw]) := ends_bind.mpr (.inl ⟨_, ends_execute_error h, rfl⟩)
  exact play_eq_iff.mpr (ends_bind.mpr (.inl ⟨_, hfirst, rfl⟩))

theorem play_bind_pure (h : x.play f log = (r, log')) (g : α → β) :
    (x >>= fun a => pure (g a)).play f log = (r.map g, log') := by
  refine play_eq_iff.mpr (ends_bind.mpr ?_)
  cases r with
  | error e => exact .inl ⟨e, play_eq_iff.mp h, rfl⟩
  | ok a => exact .inr ⟨a, log', play_eq_iff.mp h, ends_pure.mpr ⟨rfl, rfl⟩⟩

end Inquiry

namespace Query

variable {ctx : Context} {q : Query} {f : Collaborators} {rows : List Row} {log : List Request}

def relatedRequests (q : Query) (parents : List Int64) : List Request :=
  q.relations.map fun relation => .related q.table relation parents

theorem play_loadRelated (hrel : ctx.hasRelations = true) (hne : rows ≠ [])
    (hs : f.Succeeds q.table (parentIds ctx.config.idColumn rows) q.relations log.length) :
    ∃ calls, calls.map Prod.fst = q.relations ∧
      Loads f.Replies q.table (parentIds ctx.config.idColumn rows) calls log
        (log ++ q.relatedRequests (parentIds ctx.config.idColumn rows)) ∧
      (q.loadRelated ctx rows).play f log =
        (.ok (rows.map (attachAll ctx.config.idColumn calls)),
          log ++ q.relatedRequests (parentIds ctx.config.idColumn rows)) := by
  obtain ⟨calls, hcalls, hl⟩ := f.exists_loads hs
  refine ⟨calls, hcalls, hl, Inquiry.play_eq_iff.mpr ?_⟩
  rw [loadRelated_eq_loadEach hrel hne]
  exact ends_loadEach_ok.mpr ⟨calls, hcalls, hl, rfl⟩

theorem play_loadRelated_error (hrel : ctx.hasRelations = true) (hne : rows ≠ [])
    {before after : List String} {relation message : String}
    (hq : q.relations = before ++ relation :: after)
    (hs : f.Succeeds q.table (parentIds ctx.config.idColumn rows) before log.length)
    (hr : f (log.length + before.length)
      (.related q.table relation (parentIds ctx.config.idColumn rows)) = .error message) :
    (q.loadRelated ctx rows).play f log = (.error (.execution message),
      log ++ (before ++ [relation]).map fun relation =>
        .related q.table relation (parentIds ctx.config.idColumn rows)) := by
  obtain ⟨calls, hcalls, hl⟩ := f.exists_loads hs
  rw [Inquiry.play_eq_iff, loadRelated_eq_loadEach hrel hne, hq]
  refine ends_loadEach_error hcalls hl (Collaborators.replies_iff.mpr ⟨?_, ?_⟩)
  · rw [List.length_append, List.length_map]
    exact hr
  · simp

/-- A row among others gets what it gets alone. -/
theorem play_loadRelated_alone (hf : f.LoadsAlike q.table) (hrel : ctx.hasRelations = true)
    {parents : List Int64} {calls : List (String × Groups)} {v : List Request}
    (hs : f.Succeeds q.table parents q.relations log.length)
    (hcalls : calls.map Prod.fst = q.relations)
    (hl : Loads f.Replies q.table parents calls log v) {r : Row}
    (hr : ∀ id, r.id? ctx.config.idColumn = some id → id ∈ parents) :
    (q.loadRelated ctx [r]).play f log = (.ok [attachAll ctx.config.idColumn calls r],
      log ++ q.relatedRequests (parentIds ctx.config.idColumn [r])) := by
  obtain ⟨calls', hcalls', hl', hplay⟩ :=
    play_loadRelated hrel (List.cons_ne_nil r []) (hf.succeeds hs _)
  have hsame := hf.groups hl hl' rfl (hcalls.trans hcalls'.symm)
    fun id hid => ⟨hr id hid, mem_parentIds.mpr ⟨r, List.mem_singleton_self r, hid⟩⟩
  rw [hplay, hsame]
  rfl

/-- The first row of several gets what it gets alone, or loading fails for both. -/
theorem play_loadRelated_first (hf : f.LoadsAlike q.table) (hrel : ctx.hasRelations = true)
    (log : List Request) (r : Row) (rest : List Row) :
    (∃ a found v v', (q.loadRelated ctx (r :: rest)).play f log = (.ok (a :: found), v) ∧
        (q.loadRelated ctx [r]).play f log = (.ok [a], v')) ∨
      ∃ e e' v v', (q.loadRelated ctx (r :: rest)).play f log = (.error e, v) ∧
        (q.loadRelated ctx [r]).play f log = (.error e', v') := by
  by_cases hs : f.Succeeds q.table (parentIds ctx.config.idColumn (r :: rest)) q.relations
      log.length
  · obtain ⟨calls, hcalls, hl, hplay⟩ := play_loadRelated hrel (List.cons_ne_nil r rest) hs
    have halone := play_loadRelated_alone hf hrel hs hcalls hl (r := r)
      fun id hid => mem_parentIds.mpr ⟨r, List.mem_cons_self, hid⟩
    exact .inl ⟨_, _, _, _, hplay, halone⟩
  · have hs' : ¬f.Succeeds q.table (parentIds ctx.config.idColumn [r]) q.relations log.length :=
      fun h => hs (hf.succeeds h _)
    obtain ⟨before, relation, after, message, hq, hb, hm⟩ := f.exists_failure hs
    obtain ⟨before', relation', after', message', hq', hb', hm'⟩ := f.exists_failure hs'
    exact .inr ⟨_, _, _, _, play_loadRelated_error hrel (List.cons_ne_nil r rest) hq hb hm,
      play_loadRelated_error hrel (List.cons_ne_nil r []) hq' hb' hm'⟩

theorem loadEach_congr {q' : Query} {idColumn : String} {parents : List Int64}
    (h : q'.table = q.table) (relations : List String) (rows : List Row) :
    q'.loadEach idColumn parents relations rows = q.loadEach idColumn parents relations rows := by
  induction relations generalizing rows with
  | nil => rfl
  | cons relation relations ih => simp only [loadEach, h, ih]

theorem loadRelated_limit (n : Option UInt64) :
    { q with limit := n }.loadRelated ctx rows = q.loadRelated ctx rows := by
  unfold loadRelated
  have htable : { q with limit := n }.table = q.table := rfl
  simp only [loadEach_congr htable]

theorem play_fetchFirst_none (h : f log.length (.execute q.selectFirst q.raw) = .ok []) :
    (q.fetchFirst ctx).play f log = (.ok none, log ++ [.execute q.selectFirst q.raw]) := by
  rw [fetchFirst, Inquiry.play_executeFirst h]
  rfl

theorem play_fetchFirst_some {r : Row} {rest : List Row} {result : Except QueryError (List Row)}
    {v : List Request} (h : f log.length (.execute q.selectFirst q.raw) = .ok (r :: rest))
    (hr : (q.loadRelated ctx [r]).play f (log ++ [.execute q.selectFirst q.raw]) = (result, v)) :
    (q.fetchFirst ctx).play f log = (result.map List.getLast?, v) := by
  rw [fetchFirst, Inquiry.play_executeFirst h]
  exact Inquiry.play_bind_pure hr List.getLast?

theorem play_fetchFirst_limited (hf : f.LoadsAlike q.table) (hrel : ctx.hasRelations = true)
    (log : List Request) :
    (∃ found v v', ({ q with limit := some 1 }.fetchAll ctx).play f log = (.ok found, v) ∧
        (q.fetchFirst ctx).play f log = (.ok found.head?, v')) ∨
      ∃ e e' v v', ({ q with limit := some 1 }.fetchAll ctx).play f log = (.error e, v) ∧
        (q.fetchFirst ctx).play f log = (.error e', v') := by
  let one : Query := { q with limit := some 1 }
  have hload (rows : List Row) : one.loadRelated ctx rows = q.loadRelated ctx rows :=
    loadRelated_limit (some 1)
  cases h : f log.length (.execute q.selectFirst q.raw) with
  | error message =>
    have hall := Inquiry.play_execute_error h (one.loadRelated ctx)
    exact .inr ⟨_, _, _, _, hall, Inquiry.play_executeFirst_error h _⟩
  | ok found =>
    have hall : (one.fetchAll ctx).play f log =
        (q.loadRelated ctx found).play f (log ++ [.execute q.selectFirst q.raw]) := by
      rw [← hload]
      exact Inquiry.play_execute h (one.loadRelated ctx)
    cases found with
    | nil =>
      rw [loadRelated_nothing (.inl rfl)] at hall
      exact .inl ⟨[], _, _, hall, play_fetchFirst_none h⟩
    | cons r rest =>
      rcases play_loadRelated_first hf hrel (log ++ [.execute q.selectFirst q.raw]) r rest
        with ⟨a, loaded, v, v', hrows, hrow⟩ | ⟨e, e', v, v', hrows, hrow⟩
      · exact .inl ⟨_, _, _, hall.trans hrows, play_fetchFirst_some h hrow⟩
      · exact .inr ⟨_, _, _, _, hall.trans hrows, play_fetchFirst_some h hrow⟩

/-- `r'` is `r` with the groups of its own id, asked for after `n` requests. Where a relation is
named twice the later group stays. -/
structure AttachesOwn (q : Query) (f : Collaborators) (idColumn : String) (n : Nat) (r r' : Row) :
    Prop where
  columns : r'.columns = r.columns
  others : ∀ name, name ∉ q.relations → r'.related? name = r.related? name
  own : ∀ before relation after, q.relations = before ++ relation :: after → relation ∉ after →
    r'.related? relation = some (((r.id? idColumn).bind
      (f.groupAlone (n + before.length) q.table relation)).getD [])

theorem attachesOwn_attachAll (hf : f.LoadsAlike q.table) {idColumn : String}
    {parents : List Int64} {calls : List (String × Groups)} {v : List Request}
    (hcalls : calls.map Prod.fst = q.relations)
    (hl : Loads f.Replies q.table parents calls log v) {r : Row}
    (hr : ∀ id, r.id? idColumn = some id → id ∈ parents) :
    q.AttachesOwn f idColumn log.length r (attachAll idColumn calls r) where
  columns := attachAll_columns calls r
  others := by
    intro name hname
    rw [← hcalls] at hname
    exact attachAll_other hname r
  own := by
    intro before relation after hq hlast
    rw [hq] at hcalls
    obtain ⟨calls, rest, rfl, rfl, hrest⟩ := List.map_eq_append_iff.mp hcalls
    obtain ⟨⟨_, groups⟩, calls', rfl, rfl, rfl⟩ := List.map_eq_cons_iff.mp hrest
    rw [attachAll_own hlast, List.length_map, hf.groupOf_eq (Collaborators.replies_at hl) hr]

/-- One batch for each relation, in order, gives every row what it gets if it is loaded alone:
the group of its own id. A failure ends the loading, and the first row of a query comes with
the collections that it has in the full result. -/
theorem loads_as_alone (hrel : ctx.hasRelations = true) (hf : f.LoadsAlike q.table)
    (rows : List Row) (log : List Request) :
    let parents := parentIds ctx.config.idColumn rows
    (parents.Pairwise (· < ·) ∧
      ∀ id, id ∈ parents ↔ ∃ r ∈ rows, r.id? ctx.config.idColumn = some id) ∧
    (rows = [] ∨ q.relations = [] → (q.loadRelated ctx rows).play f log = (.ok rows, log)) ∧
    (rows ≠ [] → f.Succeeds q.table parents q.relations log.length → ∃ alone : Row → Row,
      (q.loadRelated ctx rows).play f log =
        (.ok (rows.map alone), log ++ q.relatedRequests parents) ∧
      ∀ r ∈ rows, ((q.loadRelated ctx [r]).play f log).1 = .ok [alone r] ∧
        q.AttachesOwn f ctx.config.idColumn log.length r (alone r)) ∧
    (∀ before relation after message, rows ≠ [] → q.relations = before ++ relation :: after →
      f.Succeeds q.table parents before log.length →
      f (log.length + before.length) (.related q.table relation parents) = .error message →
      (q.loadRelated ctx rows).play f log = (.error (.execution message),
        log ++ (before ++ [relation]).map fun relation => .related q.table relation parents)) ∧
    (∀ found, f log.length (.execute q.select q.raw) = .ok found →
      (q.fetchAll ctx).play f log =
        (q.loadRelated ctx found).play f (log ++ [.execute q.select q.raw])) ∧
    (∀ r rest result v, f log.length (.execute q.selectFirst q.raw) = .ok (r :: rest) →
      (q.loadRelated ctx [r]).play f (log ++ [.execute q.selectFirst q.raw]) = (result, v) →
      (q.fetchFirst ctx).play f log = (result.map List.getLast?, v)) ∧
    (∀ found, (({ q with limit := some 1 }.fetchAll ctx).play f log).1 = .ok found →
      ((q.fetchFirst ctx).play f log).1 = .ok found.head?) ∧
    ∀ e, (({ q with limit := some 1 }.fetchAll ctx).play f log).1 = .error e →
      ∃ e', ((q.fetchFirst ctx).play f log).1 = .error e' := by
  intro parents
  refine ⟨⟨pairwise_parentIds, fun id => mem_parentIds⟩, ?_, ?_, ?_, ?_, ?_, ?_⟩
  · intro h
    rw [loadRelated_nothing h]
    rfl
  · intro hne hs
    obtain ⟨calls, hcalls, hl, hplay⟩ := play_loadRelated hrel hne hs
    refine ⟨attachAll ctx.config.idColumn calls, hplay, fun r hr => ?_⟩
    have hmem : ∀ id, r.id? ctx.config.idColumn = some id → id ∈ parents :=
      fun id hid => mem_parentIds.mpr ⟨r, hr, hid⟩
    rw [play_loadRelated_alone hf hrel hs hcalls hl hmem]
    exact ⟨rfl, attachesOwn_attachAll hf hcalls hl hmem⟩
  · intro before relation after message hne hq hs hr
    exact play_loadRelated_error hrel hne hq hs hr
  · intro found hfound
    exact Inquiry.play_execute hfound (q.loadRelated ctx)
  · intro r rest result v hfound hplay
    exact play_fetchFirst_some hfound hplay
  · rcases play_fetchFirst_limited hf hrel log with
      ⟨found, v, v', hall, hone⟩ | ⟨e, e', v, v', hall, hone⟩
    · rw [hall, hone]
      refine ⟨fun found' h => ?_, fun e h => ?_⟩
      · cases h
        rfl
      · cases h
    · rw [hall, hone]
      refine ⟨fun found' h => ?_, fun e h => ⟨e', rfl⟩⟩
      cases h

def postsOfFirst : Collaborators := fun _ r =>
  match r with
  | .revision => ""
  | .execute _ _ => .ok []
  | .related _ _ parents => .ok (if 1 ∈ parents then [(1, [{}, {}])] else [])

theorem loadsAlike_postsOfFirst (table : String) : postsOfFirst.LoadsAlike table where
  success := fun _ _ => ⟨_, rfl⟩
  group := by
    intro n relation parents parents' groups groups' id h h' hid hid'
    cases h
    cases h'
    by_cases hone : id = 1
    · rw [hone] at hid hid'
      simp [hid, hid']
    · have hnone (ids : List Int64) :
          (if 1 ∈ ids then [((1 : Int64), [({} : Row), {}])] else []).lookup id = none := by
        have hbeq : (id == 1) = false := beq_eq_false_iff_ne.mpr hone
        by_cases hm : 1 ∈ ids <;> simp [hm, List.lookup_cons, hbeq]
      rw [hnone, hnone]

theorem loads_as_alone_posts :
    let user (id : Int64) : Row := { columns := [("id", .integer id)] }
    let q : Query := { table := "users", relations := ["posts"] }
    ∃ alone : Row → Row,
      (q.loadRelated { hasRelations := true } [user 2, user 1, user 2]).play postsOfFirst [] =
        (.ok [alone (user 2), alone (user 1), alone (user 2)],
          [.related "users" "posts" [1, 2]]) ∧
      (alone (user 1)).related? "posts" = some [{}, {}] ∧
        (alone (user 2)).related? "posts" = some [] := by
  intro user q
  have hparents : parentIds "id" [user 2, user 1, user 2] = [1, 2] := by
    simp [parentIds, user, List.mergeSort, parentIds.distinct, Row.id?, Row.get?, Keyed.get?,
      Value.integer?]
  have hrel : ({ hasRelations := true } : Context).hasRelations = true := rfl
  obtain ⟨-, -, hloads, -⟩ := loads_as_alone (q := q) hrel
    (loadsAlike_postsOfFirst "users") [user 2, user 1, user 2] []
  obtain ⟨alone, hplay, hown⟩ := hloads (by simp) fun c hc => ⟨_, rfl⟩
  refine ⟨alone, ?_, ?_, ?_⟩
  · rw [hplay]
    simp [relatedRequests, q, hparents]
  · rw [(hown (user 1) (by simp)).2.own [] "posts" [] rfl (by simp)]
    rfl
  · rw [(hown (user 2) (by simp)).2.own [] "posts" [] rfl (by simp)]
    rfl

end Query

end LiveQuery
