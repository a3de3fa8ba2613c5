import LiveQuery.Proofs.Contribution
import LiveQuery.Proofs.Dispatch
import LiveQuery.Proofs.Requests

/-! Queries built call by call, where a refused call leaves the query as it was. What a call adds,
and whether it is refused, depends on the context and the table and on nothing that was called
before. So a query shows, kind by kind, the calls it was built by, and calls of different kinds may
change places. -/

namespace LiveQuery

/-- Calls of one kind write to the same parts of a query. -/
inductive Step.Kind
  | columns | filters | trees | orderings | limits | offsets | joins | raw | relations
deriving DecidableEq

namespace Step

def kind : Step → Kind
  | select _ => .columns
  | filter _ | filterJson _ => .filters
  | filterTree _ => .trees
  | orderBy _ _ => .orderings
  | limit _ => .limits
  | offset _ => .offsets
  | join _ _ | joinOn _ _ _ _ => .joins
  | raw => .raw
  | withRelated _ => .relations

/-- What the criteria of a filter resolve to. -/
def selection? (ctx : Context) (table : String) (s : Step) : Option Selection :=
  s.criteria?.bind fun c => (ctx.adapt table c).resolve.toOption

def tree? : Step → Option Expression
  | filterTree e => some e
  | _ => none

def join? (ctx : Context) (table : String) : Step → Option Join
  | join target columns => (Query.relationship ctx target columns { table := table }).toOption
  | joinOn target fromColumn toColumn columns => some ⟨target, fromColumn, toColumn, columns⟩
  | _ => none

def relations (ctx : Context) : Step → List String
  | withRelated relations => if ctx.hasRelations then relations else []
  | _ => []

def isRaw : Step → Bool
  | raw => true
  | _ => false

/-- What a call adds to a query on the table, whatever the query is; nothing if it is refused. -/
def share (ctx : Context) (table : String) (s : Step) : Query where
  table := table
  columns := s.columns
  conditions := (s.selection? ctx table).toList.flatMap Selection.conditions
  orGroups := (s.selection? ctx table).toList.flatMap Selection.orGroups
  tree := s.tree?
  joins := (s.join? ctx table).toList
  limit := s.limit?
  offset := s.offset?
  ordering := s.sortKey?.toList
  relations := s.relations ctx
  raw := s.isRaw || (s.join? ctx table).isSome

end Step

namespace Query

open Inquiry

variable {ctx : Context} {q : Query} {table : String}

/-- The error of a call, if it is refused. -/
def refusal? (ctx : Context) (q : Query) (s : Step) : Option QueryError :=
  match q.step ctx s with
  | .ok _ => none
  | .error e => some e

/-- The query after a call, which stays as it was if the call is refused. -/
def after (ctx : Context) (q : Query) (s : Step) : Query := (q.step ctx s).toOption.getD q

def afterAll (ctx : Context) (q : Query) (ss : List Step) : Query := ss.foldl (after ctx) q

/-- How each call ends, one after the other. -/
def refusals (ctx : Context) (q : Query) : List Step → List (Option QueryError)
  | [] => []
  | s :: ss => q.refusal? ctx s :: (q.after ctx s).refusals ctx ss

/-- The query that has everything the calls add, each kind for itself. -/
def accumulated (ctx : Context) (table : String) (ss : List Step) : Query where
  table := table
  columns := ss.flatMap Step.columns
  conditions := (ss.filterMap (Step.selection? ctx table)).flatMap Selection.conditions
  orGroups := (ss.filterMap (Step.selection? ctx table)).flatMap Selection.orGroups
  tree := Expression.all? (ss.filterMap Step.tree?)
  joins := ss.filterMap (Step.join? ctx table)
  limit := (ss.filterMap Step.limit?).getLast?
  offset := (ss.filterMap Step.offset?).getLast?
  ordering := ss.filterMap Step.sortKey?
  relations := ss.flatMap (Step.relations ctx)
  raw := ss.any fun s => s.isRaw || (s.join? ctx table).isSome

theorem filter_share (ctx : Context) (table : String) (c : Criteria) :
    (Query.filter ctx c { table := table }).toOption.getD { table := table } =
      (Step.filter c).share ctx table := by
  have hshare : (Step.filter c).share ctx table =
      { table := table
        conditions := (ctx.adapt table c).resolve.toOption.toList.flatMap Selection.conditions
        orGroups := (ctx.adapt table c).resolve.toOption.toList.flatMap Selection.orGroups } := rfl
  rw [hshare, filter_eq]
  cases (ctx.adapt table c).resolve <;> simp [restrict, Except.toOption]

/-- A refused call is as one that adds nothing. -/
theorem after_fresh (ctx : Context) (table : String) (s : Step) :
    after ctx { table := table } s = s.share ctx table := by
  unfold after
  cases s with
  | filter c => exact filter_share ctx table c
  | filterJson j =>
    have hstep : Query.step ctx { table := table } (.filterJson j) =
      Criteria.ofJson j >>= fun c => Query.filter ctx c { table := table } := rfl
    cases hj : Criteria.ofJson j with
    | error e =>
      have hnone : (Step.filterJson j).selection? ctx table = none := by
        simp [Step.selection?, Step.criteria?, hj, Except.toOption]
      simp only [hstep, hj, Step.share, hnone]
      rfl
    | ok c =>
      have hsome : (Step.filterJson j).selection? ctx table = (Step.filter c).selection? ctx table := by
        simp [Step.selection?, Step.criteria?, hj, Except.toOption]
      simp only [hstep, hj, Step.share, hsome]
      exact filter_share ctx table c
  | join target columns =>
    have hstep : Query.step ctx { table := table } (.join target columns) =
      (addJoin · { table := table }) <$> relationship ctx target columns { table := table } := rfl
    have hshare : (Step.join target columns).share ctx table =
        { table := table
          joins := (relationship ctx target columns { table := table }).toOption.toList
          raw := (relationship ctx target columns { table := table }).toOption.isSome } := rfl
    rw [hstep, hshare]
    cases relationship ctx target columns { table := table } <;> rfl
  | withRelated relations =>
    unfold step withRelated
    have hshare : (Step.withRelated relations).share ctx table =
      { table := table, relations := if ctx.hasRelations then relations else [] } := rfl
    rw [hshare]
    cases ctx.hasRelations with
    | true => rfl
    | false => cases relations <;> rfl
  | _ => rfl

theorem append_fresh (q : Query) : q.append { table := q.table } = q := by
  simp [append]

theorem after_eq (ctx : Context) (q : Query) (s : Step) :
    q.after ctx s = q.append (s.share ctx q.table) := by
  rw [← after_fresh, after, after, step_eq]
  cases Query.step ctx { table := q.table } s with
  | error e => exact q.append_fresh.symm
  | ok p => rfl

theorem refusal?_eq (ctx : Context) (q : Query) (s : Step) :
    q.refusal? ctx s = refusal? ctx { table := q.table } s := by
  rw [refusal?, refusal?, step_eq]
  cases Query.step ctx { table := q.table } s <;> rfl

theorem refusals_eq (ctx : Context) (q : Query) (ss : List Step) :
    q.refusals ctx ss = ss.map (refusal? ctx { table := q.table }) := by
  induction ss generalizing q with
  | nil => rfl
  | cons s ss ih =>
    have htable : (q.after ctx s).table = q.table := by rw [after_eq]; rfl
    rw [refusals, List.map_cons, ih, htable, refusal?_eq]

theorem afterAll_eq_foldl (ctx : Context) (q : Query) (ss : List Step) :
    q.afterAll ctx ss = (ss.map (Step.share ctx q.table)).foldl append q := by
  induction ss generalizing q with
  | nil => rfl
  | cons s ss ih =>
    have htable : (q.append (s.share ctx q.table)).table = q.table := rfl
    rw [List.map_cons, List.foldl_cons, afterAll, List.foldl_cons, after_eq]
    exact (ih _).trans (by rw [htable])

theorem afterAll_fresh (ctx : Context) (table : String) (ss : List Step) :
    afterAll ctx { table := table } ss = accumulated ctx table ss := by
  rw [afterAll_eq_foldl, foldl_append, accumulated]
  simp only [List.filterMap_eq_flatMap_toList, List.flatMap_assoc, List.flatMap_map, List.any_map,
    List.nil_append, Option.or_none, Bool.false_or]
  rfl

theorem steps_eq_ok_iff {ss : List Step} {q' : Query} : q.steps ctx ss = .ok q' ↔
    (∀ r ∈ q.refusals ctx ss, r = none) ∧ q' = q.afterAll ctx ss := by
  induction ss generalizing q with
  | nil => simp [steps, refusals, afterAll, pure, Except.pure, eq_comm]
  | cons s ss ih =>
    rw [steps, List.foldlM_cons, refusals, List.forall_mem_cons]
    cases h : q.step ctx s with
    | error e => simp [refusal?, h, bind, Except.bind]
    | ok p =>
      have hafter : q.after ctx s = p := by simp [after, h, Except.toOption]
      have hnone : q.refusal? ctx s = none := by simp [refusal?, h]
      have hall : q.afterAll ctx (s :: ss) = p.afterAll ctx ss :=
        congrArg (afterAll ctx · ss) hafter
      rw [hall, hafter, hnone]
      exact ih.trans (by simp)

/-- Rows of joined tables are asked for flat. -/
def Flat (q : Query) (r : Request) : Prop :=
  ∀ s raw, r = .execute s raw → q.hasJoins = true → raw = true

/-- Whatever is asked for the query, and whatever the replies are, rows of joined tables are asked
for flat, and no relation lacks a loader. -/
structure Provided (ctx : Context) (q : Query) : Prop where
  joined : q.hasJoins = true → q.raw = true
  related : ∀ rows, Heeds q.Flat (fun _ => False) (q.loadRelated ctx rows).run
  all : Heeds q.Flat (fun _ => False) (q.fetchAll ctx).run
  first : Heeds q.Flat (fun _ => False) (q.fetchFirst ctx).run
  count : Heeds q.Flat (fun _ => False) q.fetchCount.run
  capture : Heeds q.Flat (fun _ => False) (ctx.capture q).run
  snapshot : ∀ p : SnapshotPoller, p.query = q →
    ∀ force, Heeds q.Flat (fun _ => False) (p.fetch ctx force).run
  incremental : ∀ p : IncrementalPoller, p.query = q →
    Heeds q.Flat (fun _ => False) (p.fetch ctx).run

theorem provided_of (hjoins : q.hasJoins = true → q.raw = true)
    (hrelations : ctx.hasRelations = false → q.relations = []) : q.Provided ctx := by
  have hown (s : Statement) : q.Flat (.execute s q.raw) := by
    rintro _ _ ⟨⟩ hj
    exact hjoins hj
  have hflat (s : Statement) : q.Flat (.execute s true) := by
    rintro _ _ ⟨⟩ -
    rfl
  have hrevision : q.Flat .revision := nofun
  have hrelated : ∀ relation parents, q.Flat (.related q.table relation parents) := nofun
  have hfails : ctx.hasRelations = false → ∀ relation ∈ q.relations, False := by
    intro hno relation hmem
    rw [hrelations hno] at hmem
    exact List.not_mem_nil hmem
  constructor
  case joined => exact hjoins
  case related => exact heeds_loadRelated hrelated hfails
  case all => exact heeds_fetchAll (hown _) hrelated hfails
  case first => exact heeds_fetchFirst (hown _) hrelated hfails
  case count => exact heeds_fetchCount (hflat _)
  case capture => exact Context.heeds_capture hrevision (hflat _)
  case snapshot =>
    rintro p rfl
    exact SnapshotPoller.heeds_fetch hrevision (hflat _) (hown _) hrelated hfails
  case incremental =>
    rintro p rfl
    exact IncrementalPoller.heeds_fetch hrevision (hflat _) (hown _) hrelated hfails

theorem accumulated_provided (ctx : Context) (table : String) (ss : List Step) :
    (accumulated ctx table ss).Provided ctx := by
  apply provided_of
  · intro hjoins
    have hne : ss.filterMap (Step.join? ctx table) ≠ [] := by
      simpa [hasJoins, accumulated] using hjoins
    obtain ⟨j, hj⟩ := List.exists_mem_of_ne_nil _ hne
    obtain ⟨s, hs, hjoin⟩ := List.mem_filterMap.mp hj
    exact List.any_eq_true.mpr ⟨s, hs, by simp [hjoin]⟩
  · intro hno
    refine List.flatMap_eq_nil_iff.mpr fun s _ => ?_
    cases s <;> simp [Step.relations, hno]

/-- How the calls of one kind end. -/
def outcomes (ctx : Context) (q : Query) (ss : List Step) (kind : Step.Kind) :
    List (Step × Option QueryError) :=
  (ss.zip (q.refusals ctx ss)).filter (·.1.kind = kind)

theorem outcomes_eq (ctx : Context) (q : Query) (ss : List Step) (kind : Step.Kind) :
    q.outcomes ctx ss kind =
      (ss.filter (·.kind = kind)).map fun s => (s, refusal? ctx { table := q.table } s) := by
  have hzip (f : Step → Option QueryError) : ss.zip (ss.map f) = ss.map fun s => (s, f s) := by
    simpa using List.zip_map' (f := id) (g := f) (l := ss)
  rw [outcomes, refusals_eq, hzip, List.filter_map]
  rfl

end Query

namespace Step

/-- Each kind of calls is the same, one by one; calls of different kinds may have changed places. -/
def Interleaves (ss ss' : List Step) : Prop :=
  ∀ kind, ss.filter (·.kind = kind) = ss'.filter (·.kind = kind)

variable {ss ss' : List Step} {α : Type}

theorem Interleaves.flatMap_eq (h : Interleaves ss ss') (kind : Kind) {f : Step → List α}
    (hf : ∀ s, s.kind ≠ kind → f s = []) : ss.flatMap f = ss'.flatMap f := by
  have honly (ss : List Step) : ss.flatMap f = (ss.filter (·.kind = kind)).flatMap f := by
    induction ss with
    | nil => rfl
    | cons s ss ih =>
      by_cases hs : s.kind = kind
      · simp [hs, ih]
      · simp [hs, ih, hf s hs]
  rw [honly ss, h kind, ← honly ss']

theorem Interleaves.filterMap_eq (h : Interleaves ss ss') (kind : Kind) {f : Step → Option α}
    (hf : ∀ s, s.kind ≠ kind → f s = none) : ss.filterMap f = ss'.filterMap f := by
  simp only [List.filterMap_eq_flatMap_toList]
  exact h.flatMap_eq kind fun s hs => by simp [hf s hs]

theorem Interleaves.any_eq (h : Interleaves ss ss') (f : Step → Bool) : ss.any f = ss'.any f := by
  have hmem (s : Step) : s ∈ ss ↔ s ∈ ss' := by
    have hs := congrArg (s ∈ ·) (h s.kind)
    simpa using hs
  rw [Bool.eq_iff_iff, List.any_eq_true, List.any_eq_true]
  simp only [hmem]

/-- A call adds nothing to the parts that belong to other kinds. -/
structure Confined (ctx : Context) (table : String) (s : Step) : Prop where
  columns : s.kind ≠ .columns → s.columns = []
  selection : s.kind ≠ .filters → s.selection? ctx table = none
  tree : s.kind ≠ .trees → s.tree? = none
  sortKey : s.kind ≠ .orderings → s.sortKey? = none
  limit : s.kind ≠ .limits → s.limit? = none
  offset : s.kind ≠ .offsets → s.offset? = none
  join : s.kind ≠ .joins → s.join? ctx table = none
  relations : s.kind ≠ .relations → s.relations ctx = []

theorem confined (ctx : Context) (table : String) (s : Step) : s.Confined ctx table := by
  constructor <;> intro hkind <;> cases s <;> first | rfl | exact absurd rfl hkind

end Step

namespace Query

theorem accumulated_interleaves {ss ss' : List Step} (h : Step.Interleaves ss ss') (ctx : Context)
    (table : String) : accumulated ctx table ss = accumulated ctx table ss' := by
  have hconfined := Step.confined ctx table
  have hcolumns := h.flatMap_eq .columns fun s => (hconfined s).columns
  have hselections := h.filterMap_eq .filters fun s => (hconfined s).selection
  have htrees := h.filterMap_eq .trees fun s => (hconfined s).tree
  have hjoins := h.filterMap_eq .joins fun s => (hconfined s).join
  have hlimits := h.filterMap_eq .limits fun s => (hconfined s).limit
  have hoffsets := h.filterMap_eq .offsets fun s => (hconfined s).offset
  have hkeys := h.filterMap_eq .orderings fun s => (hconfined s).sortKey
  have hrelations := h.flatMap_eq .relations fun s => (hconfined s).relations
  rw [accumulated, accumulated, hcolumns, hselections, htrees, hjoins, hlimits, hoffsets, hkeys,
    hrelations, h.any_eq]

/-- All that a query compiles to. -/
def statements (q : Query) (idColumn : String) (watermark : Int64) : List Statement :=
  [q.select, q.count, q.fingerprint idColumn, q.incremental idColumn watermark]

/-- The query that calls build, refused ones among them, is what they add up to kind by kind, and
how a call ends is settled by the call itself. So calls of different kinds may change places. Joined
rows are always asked for flat, and a query never comes to need a loader that there is not. -/
theorem calls_accumulate (ctx : Context) (table : String) (ss : List Step) :
    afterAll ctx { table := table } ss = accumulated ctx table ss ∧
    refusals ctx { table := table } ss = ss.map (refusal? ctx { table := table }) ∧
    (∀ q, Query.steps ctx { table := table } ss = .ok q ↔
      (∀ r ∈ refusals ctx { table := table } ss, r = none) ∧ q = accumulated ctx table ss) ∧
    (∀ ss', Step.Interleaves ss ss' →
      afterAll ctx { table := table } ss' = afterAll ctx { table := table } ss ∧
      (∀ idColumn watermark, (afterAll ctx { table := table } ss').statements idColumn watermark =
        (afterAll ctx { table := table } ss).statements idColumn watermark) ∧
      ∀ kind, outcomes ctx { table := table } ss' kind = outcomes ctx { table := table } ss kind) ∧
    (afterAll ctx { table := table } ss).Provided ctx := by
  have hall := afterAll_fresh ctx table
  refine ⟨hall ss, refusals_eq ctx _ ss, fun q => ?_, fun ss' h => ?_, ?_⟩
  · rw [steps_eq_ok_iff, hall]
  · have hsame : afterAll ctx { table := table } ss' = afterAll ctx { table := table } ss := by
      rw [hall, hall, accumulated_interleaves h]
    refine ⟨hsame, fun _ _ => by rw [hsame], fun kind => ?_⟩
    rw [outcomes_eq, outcomes_eq, h kind]
  · rw [hall]
    exact accumulated_provided ctx table ss

example : afterAll {} { table := "users" } [.limit 5, .withRelated ["posts"], .raw, .limit 2] =
    { table := "users", limit := some 2, raw := true } := rfl

end Query

end LiveQuery
