import LiveQuery.Proofs.Alternatives

/-! What filters leave in the statements. All filters of a chain come to one list of entries,
and each entry brings its own clauses to the predicate, unless it names no condition at all. -/

namespace LiveQuery

/-- Operands that name no condition: a map without operators, and branches in which no key has
more than such a map. -/
def Operand.IsHollow : Operand → Prop
  | operators ops => ops = []
  | branches bs => ∀ b ∈ bs, ∀ k ∈ b, k.2 = operators []
  | _ => False

theorem resolveField_eq_nil_iff {field : String} {operand : Operand} {cs : List Condition}
    (h : resolveField field operand = .ok cs) : cs = [] ↔ operand = .operators [] := by
  cases operand with
  | scalar v =>
    cases h
    simp
  | list vs =>
    cases h
    simp
  | operators ops =>
    have hlen := (forall₂_of_mapM h).length_eq
    rw [Operand.operators.injEq, ← List.length_eq_zero_iff, ← List.length_eq_zero_iff, hlen]
  | branches bs => cases h

theorem resolveOr_eq_nil_iff {bs : List Criteria} {g : OrGroup}
    (h : resolveOr (.branches bs) = .ok g) : g = [] ↔ (Operand.branches bs).IsHollow := by
  obtain ⟨hok, hmem⟩ := resolveOr_ok h
  rw [List.eq_nil_iff_forall_not_mem]
  constructor
  · intro hg b hb k hk
    obtain ⟨ks, hks⟩ := hok b hb k hk
    have hnone : ks = [] := List.eq_nil_iff_forall_not_mem.mpr fun c hc =>
      hg c ((hmem c).mpr ⟨b, hb, k, hk, ks, hks, hc⟩)
    exact (resolveField_eq_nil_iff (resolveKey_eq_ok.mp hks).2).mp hnone
  · intro hb c hc
    obtain ⟨b, hmb, k, hmk, ks, hks, hck⟩ := (hmem c).mp hc
    have hnone := (resolveField_eq_nil_iff (resolveKey_eq_ok.mp hks).2).mpr (hb b hmb k hmk)
    rw [hnone] at hck
    exact absurd hck List.not_mem_nil

theorem Criteria.resolve_append {c d : Criteria} {s t : Selection} (hc : c.resolve = .ok s)
    (hd : d.resolve = .ok t) :
    (c ++ d).resolve = .ok ⟨s.conditions ++ t.conditions, s.orGroups ++ t.orGroups⟩ := by
  rw [resolve_eq] at hc hd
  obtain ⟨ss, hss, rfl⟩ := map_eq_ok hc
  obtain ⟨ts, hts, rfl⟩ := map_eq_ok hd
  have hall : (c ++ d).mapM resolveEntry = .ok (ss ++ ts) :=
    mapM_eq_ok_iff.mpr (List.rel_append (forall₂_of_mapM hss) (forall₂_of_mapM hts))
  rw [resolve_eq, hall]
  simp [Selection.concat, Functor.map, Except.map]

def Step.criteria? : Step → Option Criteria
  | .filter c => some c
  | .filterJson j => (Criteria.ofJson j).toOption
  | _ => none

/-- The entries that a step hands on to be resolved. -/
def Step.entries (ctx : Context) (table : String) (s : Step) : Criteria :=
  (s.criteria?.map (ctx.adapt table)).getD []

namespace Query

variable {ctx : Context} {q q' : Query} {qualify : Bool}

def clausesOf (q : Query) (qualify : Bool) (s : Selection) : List Fragment :=
  s.conditions.map (q.condition qualify) ++ s.orGroups.filterMap (q.orGroup? qualify)

def entryClauses (q : Query) (qualify : Bool) (e : String × Operand) : List Fragment :=
  match resolveEntry e with
  | .ok s => q.clausesOf qualify s
  | .error _ => []

theorem clauses_eq (h : q.tree = none) (qualify : Bool) :
    q.clauses qualify = q.clausesOf qualify ⟨q.conditions, q.orGroups⟩ := by
  simp [clauses, clausesOf, h]

theorem clausesOf_table (h : q'.table = q.table) : q'.clausesOf = q.clausesOf := by
  have hc : q'.condition = q.condition := by
    funext qualify c
    rw [condition, condition, fieldName, fieldName, h]
  have hg : q'.orGroup? = q.orGroup? := by
    funext qualify g
    rw [orGroup?, orGroup?, hc]
  funext qualify s
  rw [clausesOf, clausesOf, hc, hg]

theorem clausesOf_append (q : Query) (qualify : Bool) (s t : Selection) :
    (q.clausesOf qualify ⟨s.conditions ++ t.conditions, s.orGroups ++ t.orGroups⟩).Perm
      (q.clausesOf qualify s ++ q.clausesOf qualify t) := by
  simp only [clausesOf, List.map_append, List.filterMap_append, List.append_assoc]
  exact (List.perm_append_comm_assoc _ _ _).append_left _

theorem clausesOf_resolve {c : Criteria} {s : Selection} (h : c.resolve = .ok s) :
    (q.clausesOf qualify s).Perm (c.flatMap (q.entryClauses qualify)) := by
  rw [Criteria.resolve_eq] at h
  obtain ⟨ss, hss, rfl⟩ := map_eq_ok h
  have hall := forall₂_of_mapM hss
  clear h hss
  induction hall with
  | nil => exact .refl _
  | @cons e s c ss he _ ih =>
    have hentry : q.entryClauses qualify e = q.clausesOf qualify s := by rw [entryClauses, he]
    rw [List.flatMap_cons, hentry]
    exact (q.clausesOf_append qualify s (Selection.concat ss)).trans (ih.append_left _)

theorem entryClauses_eq_nil_iff {e : String × Operand} {s : Selection}
    (h : resolveEntry e = .ok s) : q.entryClauses qualify e = [] ↔ e.2.IsHollow := by
  obtain ⟨field, operand⟩ := e
  rw [entryClauses, h]
  unfold resolveEntry at h
  split at h
  · obtain ⟨g, hg, rfl⟩ := map_eq_ok h
    cases operand with
    | branches bs => simpa [clausesOf, orGroup?] using resolveOr_eq_nil_iff hg
    | _ => cases hg
  · split at h
    · cases h
    · obtain ⟨cs, hcs, rfl⟩ := map_eq_ok h
      have hnil := resolveField_eq_nil_iff hcs
      cases operand with
      | branches bs => cases hcs
      | _ => simpa [clausesOf, Operand.IsHollow] using hnil

/-- `q'` has the conditions and groups of `q` and those of the selection that `c` resolves to,
and no tree in their place. -/
structure Adds (q q' : Query) (c : Criteria) (s : Selection) : Prop where
  tree : q.tree = none
  table : q'.table = q.table
  resolve : c.resolve = .ok s
  conditions : q'.conditions = q.conditions ++ s.conditions
  orGroups : q'.orGroups = q.orGroups ++ s.orGroups

theorem adds_nothing (ht : q.tree = none) (htable : q'.table = q.table)
    (hc : q'.conditions = q.conditions) (hg : q'.orGroups = q.orGroups) : q.Adds q' [] {} where
  tree := ht
  table := htable
  resolve := rfl
  conditions := by simp [hc]
  orGroups := by simp [hg]

theorem adds_filter {c : Criteria} (h : q.filter ctx c = .ok q') (ht : q'.tree = none) :
    ∃ s, q.Adds q' (ctx.adapt q.table c) s := by
  rw [filter_eq] at h
  obtain ⟨s, hs, rfl⟩ := map_eq_ok h
  exact ⟨s, ht, rfl, hs, rfl, rfl⟩

theorem Adds.trans {p : Query} {c d : Criteria} {s t : Selection} (h : q.Adds p c s)
    (h' : p.Adds q' d t) :
    q.Adds q' (c ++ d) ⟨s.conditions ++ t.conditions, s.orGroups ++ t.orGroups⟩ where
  tree := h.tree
  table := h'.table.trans h.table
  resolve := Criteria.resolve_append h.resolve h'.resolve
  conditions := by rw [h'.conditions, h.conditions, List.append_assoc]
  orGroups := by rw [h'.orGroups, h.orGroups, List.append_assoc]

theorem step_adds {st : Step} (h : q.step ctx st = .ok q') (ht : q'.tree = none) :
    ∃ s, q.Adds q' (st.entries ctx q.table) s := by
  cases st with
  | filter c => exact adds_filter h ht
  | filterJson j =>
    obtain ⟨c, hj, hc⟩ := bind_eq_ok h
    have hentries : (Step.filterJson j).entries ctx q.table = ctx.adapt q.table c := by
      simp [Step.entries, Step.criteria?, hj, Except.toOption]
    rw [hentries]
    exact adds_filter hc ht
  | filterTree e =>
    -- the query ends without a tree, so there was no such step
    cases h
    cases ht
  | join table columns =>
    obtain ⟨j, -, hj⟩ := bind_eq_ok h
    cases hj
    exact ⟨{}, adds_nothing ht rfl rfl rfl⟩
  | withRelated relations =>
    simp only [step, withRelated] at h
    split at h
    · cases h
      exact ⟨{}, adds_nothing ht rfl rfl rfl⟩
    · cases relations with
      | nil =>
        cases h
        exact ⟨{}, adds_nothing ht rfl rfl rfl⟩
      | cons => cases h
  | _ =>
    cases h
    exact ⟨{}, adds_nothing ht rfl rfl rfl⟩

/-- The filters of a chain are as one filter with the entries of all. -/
theorem steps_adds {sts : List Step} (h : q.steps ctx sts = .ok q') (ht : q'.tree = none) :
    ∃ s, q.Adds q' (sts.flatMap (Step.entries ctx q.table)) s := by
  induction sts generalizing q with
  | nil =>
    cases h
    exact ⟨{}, adds_nothing ht rfl rfl rfl⟩
  | cons st sts ih =>
    rw [steps, List.foldlM_cons] at h
    obtain ⟨p, hp, hsts⟩ := bind_eq_ok h
    obtain ⟨t, hrest⟩ := ih hsts
    obtain ⟨s, hfirst⟩ := step_adds hp hrest.tree
    rw [hfirst.table] at hrest
    exact ⟨_, hfirst.trans hrest⟩

/-- What has to hold, as it is written. -/
def conjunction (q : Query) (qualify : Bool) : String :=
  " AND ".intercalate ((q.clauses qualify).map Fragment.text)

def bindings (q : Query) (qualify : Bool) : List Value :=
  (q.clauses qualify).flatMap Fragment.params

/-- Each statement asks for what has to hold. -/
structure Restricts (q : Query) (idColumn : String) (watermark : Int64) : Prop where
  select : q.select =
    ⟨"SELECT " ++ q.selectList ++ " FROM " ++ q.table ++ q.joinClauses ++ " WHERE " ++
      q.conjunction q.hasJoins ++ q.orderClause ++ q.pageClause, q.bindings q.hasJoins⟩
  count : q.count =
    ⟨"SELECT COUNT(*) AS count FROM " ++ q.table ++ " WHERE " ++ q.conjunction false,
      q.bindings false⟩
  fingerprint : q.fingerprint idColumn =
    ⟨"SELECT COUNT(*) AS row_count, MAX(" ++ q.fieldName q.hasJoins idColumn ++
      ") AS max_id FROM " ++ q.table ++ q.joinClauses ++ " WHERE " ++ q.conjunction q.hasJoins,
      q.bindings q.hasJoins⟩
  incremental : q.incremental idColumn watermark =
    ⟨"SELECT " ++ q.selectList ++ ", " ++ qualified q.table idColumn ++ " AS " ++
      watermarkColumn ++ " FROM " ++ q.table ++ q.joinClauses ++ " WHERE (" ++
      q.conjunction q.hasJoins ++ ") AND " ++ qualified q.table idColumn ++ " > ? ORDER BY " ++
      qualified q.table idColumn ++ " ASC", q.bindings q.hasJoins ++ [.integer watermark]⟩

theorem predicate?_of_clauses (h : q.clauses qualify ≠ []) : ∃ p, q.predicate? qualify = some p ∧
    p.text = q.conjunction qualify ∧ p.params = q.bindings qualify := by
  unfold predicate? conjunction bindings
  cases hc : q.clauses qualify with
  | nil => exact absurd hc h
  | cons c cs => exact ⟨_, rfl, Fragment.text_joined _ _, Fragment.params_joined _ _⟩

theorem restricts_of_clauses (h : ∀ qualify, q.clauses qualify ≠ []) (idColumn : String)
    (watermark : Int64) : q.Restricts idColumn watermark := by
  obtain ⟨p, hp, htext, hparams⟩ := predicate?_of_clauses (h q.hasJoins)
  obtain ⟨p', hp', htext', hparams'⟩ := predicate?_of_clauses (h false)
  constructor
  · simp [select, selectFragment, whereClause, hp, Fragment.statement, htext, hparams,
      String.append_assoc]
  · simp [count, countFragment, whereClause, hp', Fragment.statement, htext', hparams',
      String.append_assoc]
  · simp [fingerprint, fingerprintFragment, whereClause, hp, Fragment.statement, htext, hparams,
      String.append_assoc]
  · have hmark (s : String) : s ++ " > " ++ "? ORDER BY " = s ++ " > ? ORDER BY " :=
      String.append_assoc
    simp [incremental, incrementalFragment, pastClause, hp, Fragment.statement, htext, hparams,
      hmark, ← String.append_assoc]

/-- However a query is built, its predicate has the clauses of every entry of its filters. An
entry without a clause names no condition, and with any other the statements are restricted. -/
theorem entries_write_clauses {sts : List Step} (h : q.steps ctx sts = .ok q')
    (ht : q'.tree = none) :
    (∀ qualify, (q'.clauses qualify).Perm (q.clauses qualify ++
      (sts.flatMap (Step.entries ctx q.table)).flatMap (q'.entryClauses qualify))) ∧
    (∀ e ∈ sts.flatMap (Step.entries ctx q.table), ∀ qualify,
      q'.entryClauses qualify e ≠ [] ↔ ¬e.2.IsHollow) ∧
    ((∃ e ∈ sts.flatMap (Step.entries ctx q.table), ¬e.2.IsHollow) →
      ∀ idColumn watermark, q'.Restricts idColumn watermark) := by
  obtain ⟨s, hadds⟩ := steps_adds h ht
  have hperm (qualify : Bool) : (q'.clauses qualify).Perm (q.clauses qualify ++
      (sts.flatMap (Step.entries ctx q.table)).flatMap (q'.entryClauses qualify)) := by
    rw [clauses_eq ht, clauses_eq hadds.tree, hadds.conditions, hadds.orGroups,
      ← clausesOf_table hadds.table]
    have hsplit := q'.clausesOf_append qualify ⟨q.conditions, q.orGroups⟩ s
    exact hsplit.trans ((clausesOf_resolve hadds.resolve).append_left _)
  have hwrites : ∀ e ∈ sts.flatMap (Step.entries ctx q.table), ∀ qualify,
      q'.entryClauses qualify e ≠ [] ↔ ¬e.2.IsHollow := by
    intro e he qualify
    have hresolve := hadds.resolve
    rw [Criteria.resolve_eq] at hresolve
    obtain ⟨ss, hss, -⟩ := map_eq_ok hresolve
    obtain ⟨t, ht⟩ := ok_of_mapM hss e he
    exact not_congr (entryClauses_eq_nil_iff ht)
  refine ⟨hperm, hwrites, fun ⟨e, he, hfull⟩ => restricts_of_clauses fun qualify hnil => ?_⟩
  have hall := hperm qualify
  rw [hnil] at hall
  obtain ⟨-, hentries⟩ := List.append_eq_nil_iff.mp hall.nil_eq.symm
  exact (hwrites e he qualify).mpr hfull (List.flatMap_eq_nil_iff.mp hentries e he)

theorem entries_write_clauses_nobody :
    ∃ q, users.steps {} [.filter [("name", .list [])]] = .ok q ∧ q.Restricts "id" 0 ∧
      q.select.sql = "SELECT users.* FROM users WHERE 1 = 0" := by
  have hsteps : users.steps {} [.filter [("name", .list [])]] =
      .ok { users with conditions := [⟨"name", .among []⟩] } := rfl
  obtain ⟨-, -, hrestricts⟩ := entries_write_clauses hsteps rfl
  exact ⟨_, hsteps, hrestricts ⟨_, List.mem_cons_self, not_false⟩ "id" 0, by decide⟩

/-- A filter of one entry that is taken and leaves no trace in the statements. -/
def LetsAllThrough (j : Json) : Prop :=
  ∃ q, users.steps {} [.filterJson j] = .ok q ∧ q.tree = none ∧
    ((Step.filterJson j).entries {} "users").length = 1 ∧
    q.select = ⟨"SELECT users.* FROM users", []⟩ ∧
    q.count = ⟨"SELECT COUNT(*) AS count FROM users", []⟩ ∧
    q.fingerprint "id" = ⟨"SELECT COUNT(*) AS row_count, MAX(id) AS max_id FROM users", []⟩ ∧
    q.incremental "id" 0 =
      ⟨"SELECT users.*, users.id AS __watermark_id FROM users " ++
        "WHERE users.id > ? ORDER BY users.id ASC", [.integer 0]⟩

/-- A map without operators and an `$or` without keys hold nothing back. -/
theorem hollow_entries_restrict_nothing :
    LetsAllThrough (.object [("age", .object [])]) ∧
      LetsAllThrough (.object [("$or", .array [.object []])]) := by
  constructor
  · exact ⟨_, rfl, rfl, rfl, rfl, rfl, rfl, rfl⟩
  · exact ⟨_, rfl, rfl, rfl, rfl, rfl, rfl, rfl⟩

end Query

end LiveQuery
