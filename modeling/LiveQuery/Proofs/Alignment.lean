import LiveQuery.Proofs.Inline

/-! Text and parameters of every statement line up, whatever stands in quoted names and in
values, as long as the names written as they are have neither `?` nor quotes. -/

namespace LiveQuery

variable {print : Value → String}

open Fragment (IsQuiet isQuiet_nil isQuiet_of_plain isQuiet_joined)

theorem BinaryOp.plain_sql (op : BinaryOp) : Plain op.sql := by
  cases op <;> decide

theorem RangeOp.plain_sql (op : RangeOp) : Plain op.sql := by
  cases op <;> decide

theorem Expression.isQuiet_fragment {e : Expression} (h : ∀ f ∈ e.functions, Plain f) :
    IsQuiet e.fragment := by
  induction e with
  | column name => exact isQuiet_nil.sql (quiet_quotedName name)
  | literal v => exact isQuiet_nil.bound v
  | binary op l r ihl ihr =>
    have hl := ihl fun f hf => h f (List.mem_append_left _ hf)
    have hr := ihr fun f hf => h f (List.mem_append_right _ hf)
    have hop : Plain (" " ++ op.sql ++ " ") :=
      (Plain.append (by decide) op.plain_sql).append (by decide)
    exact ((((isQuiet_of_plain (by decide)).append hl).append (isQuiet_of_plain hop)).append
      hr).append (isQuiet_of_plain (by decide))
  | unary op e ih =>
    have he := ih h
    cases op <;>
      exact ((isQuiet_of_plain (by decide)).append he).append (isQuiet_of_plain (by decide))
  | call name args ih =>
    have hargs : ∀ f ∈ fragments args, IsQuiet f := by
      rw [fragments_eq_map]
      simp only [functions, functionsAll_eq_flatMap, List.mem_cons, List.mem_flatMap] at h
      intro f hf
      obtain ⟨a, ha, rfl⟩ := List.mem_map.mp hf
      exact ih a ha fun f hf => h f (.inr ⟨a, ha, hf⟩)
    have hname : Plain (name ++ "(") := (h name List.mem_cons_self).append (by decide)
    exact ((isQuiet_of_plain hname).append (isQuiet_joined (by decide) hargs)).append
      (isQuiet_of_plain (by decide))
  | member negated e items ih ihs =>
    simp only [functions, functionsAll_eq_flatMap, List.mem_append, List.mem_flatMap] at h
    cases items with
    | nil => cases negated <;> exact isQuiet_of_plain (by decide)
    | cons item items =>
      have he := ih fun f hf => h f (.inl hf)
      have hitems : ∀ f ∈ fragments (item :: items), IsQuiet f := by
        rw [fragments_eq_map]
        intro f hf
        obtain ⟨a, ha, rfl⟩ := List.mem_map.mp hf
        exact ihs a ha fun f hf => h f (.inr ⟨a, ha, hf⟩)
      cases negated <;>
        exact ((((isQuiet_of_plain (by decide)).append he).append
          (isQuiet_of_plain (by decide))).append (isQuiet_joined (by decide) hitems)).append
          (isQuiet_of_plain (by decide))

theorem Condition.isQuiet_fragment {field : String} (h : Plain field) (t : Test) :
    IsQuiet (fragment field t) := by
  cases t with
  | equals v =>
    have hnull : Plain (field ++ " IS NULL") := h.append (by decide)
    have heq : Plain (field ++ " = ") := h.append (by decide)
    cases v <;> first | exact isQuiet_of_plain hnull | exact (isQuiet_nil.bound _).sql heq.quiet
  | range op v =>
    have hop : Plain (field ++ " " ++ op.sql ++ " ") :=
      ((h.append (by decide)).append op.plain_sql).append (by decide)
    exact (isQuiet_nil.bound _).sql hop.quiet
  | among vs =>
    cases vs with
    | nil => exact isQuiet_of_plain (by decide)
    | cons v vs =>
      have hvalues : ∀ f ∈ (v :: vs).map fun w => ([.bound w.toParam] : Fragment), IsQuiet f := by
        intro f hf
        obtain ⟨w, -, rfl⟩ := List.mem_map.mp hf
        exact isQuiet_nil.bound _
      have hin : Plain (field ++ " IN (") := h.append (by decide)
      exact ((isQuiet_of_plain hin).append (isQuiet_joined (by decide) hvalues)).append
        (isQuiet_of_plain (by decide))

theorem plain_qualified {table column : String} (ht : Plain table) (hc : Plain column) :
    Plain (qualified table column) := by
  unfold qualified
  split
  · exact hc
  · exact (ht.append (by decide)).append hc

namespace Query

variable {q : Query}

theorem Named.plain_fieldName (h : q.Named Plain) {field : String} (hf : Plain field)
    (qualify : Bool) : Plain (q.fieldName qualify field) := by
  cases qualify with
  | false => exact hf
  | true => exact plain_qualified h.table hf

theorem Named.isQuiet_clauses (h : q.Named Plain) (qualify : Bool) :
    ∀ f ∈ q.clauses qualify, IsQuiet f := by
  have hcondition {c : Condition} (hc : Plain c.field) : IsQuiet (q.condition qualify c) :=
    Condition.isQuiet_fragment (h.plain_fieldName hc qualify) c.test
  intro f hf
  rcases List.mem_append.mp hf with hf | hf
  · cases ht : q.tree with
    | none =>
      rw [ht] at hf
      obtain ⟨c, hc, rfl⟩ := List.mem_map.mp hf
      exact hcondition (h.conditions c hc)
    | some e =>
      rw [ht] at hf
      obtain rfl := List.mem_singleton.mp hf
      exact Expression.isQuiet_fragment (h.functions e ht)
  · obtain ⟨g, hg, hsome⟩ := List.mem_filterMap.mp hf
    have hgroup : ∀ f ∈ g.map (q.condition qualify), IsQuiet f := by
      intro f hf
      obtain ⟨c, hc, rfl⟩ := List.mem_map.mp hf
      exact hcondition (h.orGroups g hg c hc)
    unfold orGroup? at hsome
    split at hsome
    · cases hsome
    · cases hsome
      exact ((isQuiet_of_plain (by decide)).append (isQuiet_joined (by decide) hgroup)).append
        (isQuiet_of_plain (by decide))

theorem Named.isQuiet_predicate (h : q.Named Plain) {qualify : Bool} {p : Fragment}
    (hp : q.predicate? qualify = some p) : IsQuiet p := by
  have hclauses := h.isQuiet_clauses qualify
  unfold predicate? at hp
  split at hp
  · cases hp
  · rename_i c cs hc
    cases hp
    exact isQuiet_joined (by decide) (hc ▸ hclauses)

theorem Named.isQuiet_whereClause (h : q.Named Plain) (qualify : Bool) :
    IsQuiet (q.whereClause qualify) := by
  unfold whereClause
  cases hp : q.predicate? qualify with
  | none => exact isQuiet_nil
  | some p => exact (isQuiet_of_plain (by decide)).append (h.isQuiet_predicate hp)

theorem Named.isQuiet_pastClause (h : q.Named Plain) {id : String} (hid : Plain id)
    (watermark : Int64) : IsQuiet (q.pastClause id watermark) := by
  unfold pastClause
  cases hp : q.predicate? q.hasJoins with
  | none =>
    have hwhere : Plain (" WHERE " ++ id ++ " > ") :=
      (Plain.append (by decide) hid).append (by decide)
    exact (isQuiet_nil.bound _).sql hwhere.quiet
  | some p =>
    have hopen : Plain " WHERE (" := by decide
    have hpast : Plain (") AND " ++ id ++ " > ") :=
      (Plain.append (by decide) hid).append (by decide)
    exact ((h.isQuiet_predicate hp).sql hopen.quiet).append ((isQuiet_nil.bound _).sql hpast.quiet)

theorem Named.plain_selectList (h : q.Named Plain) (hs : q.Selects Plain) : Plain q.selectList := by
  refine Plain.intercalate (by decide) fun s hmem => ?_
  rcases List.mem_append.mp hmem with hmem | hmem
  · split at hmem
    · obtain rfl := List.mem_singleton.mp hmem
      exact h.table.append (by decide)
    · obtain ⟨c, hc, rfl⟩ := List.mem_map.mp hmem
      exact plain_qualified h.table (hs.columns c hc)
  · obtain ⟨j, hj, hmem⟩ := List.mem_flatMap.mp hmem
    have htable : Plain j.table := (h.joins j hj).1
    split at hmem
    · obtain rfl := List.mem_singleton.mp hmem
      exact htable.append (by decide)
    · obtain ⟨c, hc, rfl⟩ := List.mem_map.mp hmem
      have hcolumn := hs.joined j hj c hc
      exact htable.append (by decide) |>.append hcolumn |>.append (by decide)
        |>.append htable |>.append (by decide) |>.append hcolumn

theorem Named.plain_joinClauses (h : q.Named Plain) : Plain q.joinClauses := by
  refine Plain.join fun s hmem => ?_
  obtain ⟨j, hj, rfl⟩ := List.mem_map.mp hmem
  obtain ⟨htable, hfrom, hto⟩ := h.joins j hj
  exact Plain.append (by decide) htable |>.append (by decide) |>.append h.table
    |>.append (by decide) |>.append hfrom |>.append (by decide) |>.append htable
    |>.append (by decide) |>.append hto

theorem Named.plain_orderClause (h : q.Named Plain) : Plain q.orderClause := by
  unfold orderClause
  split
  · decide
  · refine Plain.append (by decide) (Plain.intercalate (by decide) fun s hmem => ?_)
    obtain ⟨o, ho, rfl⟩ := List.mem_map.mp hmem
    have hdirection : Plain o.direction.sql := by cases o.direction <;> decide
    exact ((h.ordering o ho).append (by decide)).append hdirection

theorem plain_pageClause (q : Query) : Plain q.pageClause := by
  unfold pageClause
  refine Plain.append ?_ ?_
  · cases q.limit with
    | none => decide
    | some n => exact Plain.append (by decide) (plain_toString n.toNat)
  · cases q.offset with
    | none => decide
    | some n => exact Plain.append (by decide) (plain_toString n.toNat)

theorem Named.isQuiet_selectFragment (h : q.Named Plain) (hs : q.Selects Plain) :
    IsQuiet q.selectFragment := by
  have hhead : Plain ("SELECT " ++ q.selectList ++ " FROM " ++ q.table ++ q.joinClauses) :=
    Plain.append (by decide) (h.plain_selectList hs) |>.append (by decide) |>.append h.table
      |>.append h.plain_joinClauses
  have htail : Plain (q.orderClause ++ q.pageClause) :=
    h.plain_orderClause.append q.plain_pageClause
  unfold selectFragment
  exact ((isQuiet_of_plain hhead).append (h.isQuiet_whereClause _)).append (isQuiet_of_plain htail)

theorem Named.isQuiet_countFragment (h : q.Named Plain) : IsQuiet q.countFragment := by
  have hhead : Plain ("SELECT COUNT(*) AS count FROM " ++ q.table) :=
    Plain.append (by decide) h.table
  unfold countFragment
  exact (isQuiet_of_plain hhead).append (h.isQuiet_whereClause false)

theorem Named.isQuiet_fingerprintFragment (h : q.Named Plain) {idColumn : String}
    (hid : Plain idColumn) : IsQuiet (q.fingerprintFragment idColumn) := by
  have hhead : Plain ("SELECT COUNT(*) AS row_count, MAX(" ++ q.fieldName q.hasJoins idColumn ++
      ") AS max_id FROM " ++ q.table ++ q.joinClauses) :=
    Plain.append (by decide) (h.plain_fieldName hid _) |>.append (by decide)
      |>.append h.table |>.append h.plain_joinClauses
  unfold fingerprintFragment
  exact (isQuiet_of_plain hhead).append (h.isQuiet_whereClause _)

theorem Named.isQuiet_incrementalFragment (h : q.Named Plain) (hs : q.Selects Plain)
    {idColumn : String} (hid : Plain idColumn) (watermark : Int64) :
    IsQuiet (q.incrementalFragment idColumn watermark) := by
  have hqualified := plain_qualified h.table hid
  have hcolumn : Plain watermarkColumn := by decide
  have hhead : Plain ("SELECT " ++ q.selectList ++ ", " ++ qualified q.table idColumn ++ " AS " ++
      watermarkColumn ++ " FROM " ++ q.table ++ q.joinClauses) :=
    Plain.append (by decide) (h.plain_selectList hs) |>.append (by decide)
      |>.append hqualified |>.append (by decide) |>.append hcolumn |>.append (by decide)
      |>.append h.table |>.append h.plain_joinClauses
  have htail : Plain (" ORDER BY " ++ qualified q.table idColumn ++ " ASC") :=
    (Plain.append (by decide) hqualified).append (by decide)
  unfold incrementalFragment
  exact ((isQuiet_of_plain hhead).append (h.isQuiet_pastClause hqualified watermark)).append
    (isQuiet_of_plain htail)

end Query

/-- Each placeholder has a value, and with every value in its place the statement is `text`. -/
def Statement.Prints (print : Value → String) (s : Statement) (text : String) : Prop :=
  s.placeholders = s.params.length ∧ s.filled print = some text

theorem Fragment.prints_statement {f : Fragment} {text : String} (h : IsQuiet f)
    (ht : f.printed print = text) : f.statement.Prints print text :=
  ⟨placeholders_statement h, ht ▸ filled_statement h⟩

namespace Query

/-- Every value of the four statements is bound to the placeholder that stands where an
inline statement would print it. -/
theorem statements_print_inlined (print : Value → String) {q : Query} {idColumn : String}
    (h : q.Named Plain) (hs : q.Selects Plain) (hid : Plain idColumn) (watermark : Int64) :
    q.select.Prints print (q.inlinedSelect print) ∧
      q.count.Prints print (q.inlinedCount print) ∧
      (q.fingerprint idColumn).Prints print (q.inlinedFingerprint print idColumn) ∧
      (q.incremental idColumn watermark).Prints print
        (q.inlinedIncremental print idColumn watermark) := by
  refine ⟨?_, ?_, ?_, ?_⟩
  · exact Fragment.prints_statement (h.isQuiet_selectFragment hs) q.printed_selectFragment
  · exact Fragment.prints_statement h.isQuiet_countFragment q.printed_countFragment
  · exact Fragment.prints_statement (h.isQuiet_fingerprintFragment hid)
      (q.printed_fingerprintFragment idColumn)
  · exact Fragment.prints_statement (h.isQuiet_incrementalFragment hs hid watermark)
      (q.printed_incrementalFragment idColumn watermark)

theorem statements_print_inlined_quoted_mark :
    ∃ q : Query, q.tree = some ((Expression.column "a?").like "x") ∧
      (q.Named Plain ∧ q.Selects Plain ∧ Plain "id") ∧
      (q.incremental "id" 7).Prints (fun _ => "0")
        (q.inlinedIncremental (fun _ => "0") "id" 7) := by
  let q : Query := { table := "t", tree := some ((Expression.column "a?").like "x") }
  have h : q.Named Plain :=
    { table := by decide
      conditions := by simp [q]
      orGroups := by simp [q]
      functions := by simp [q, Expression.like, Expression.functions]
      joins := by simp [q]
      ordering := by simp [q] }
  have hs : q.Selects Plain := ⟨by simp [q], by simp [q]⟩
  have hid : Plain "id" := by decide
  exact ⟨q, rfl, ⟨h, hs, hid⟩, (statements_print_inlined (fun _ => "0") h hs hid 7).2.2.2⟩

end Query

end LiveQuery
