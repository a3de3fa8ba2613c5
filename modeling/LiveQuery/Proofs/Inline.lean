import LiveQuery.Proofs.Placeholders

/-! Statements as they would be written without parameters, each value printed in its own
place. Filling the placeholders of the statements sent gives the same texts. -/

namespace LiveQuery

variable (print : Value → String)

namespace Expression

mutual

def inlined : Expression → String
  | column name => quotedName name
  | literal v => print v
  | binary op l r => "(" ++ l.inlined ++ " " ++ op.sql ++ " " ++ r.inlined ++ ")"
  | unary .not e => "(NOT " ++ e.inlined ++ ")"
  | unary .minus e => "(-" ++ e.inlined ++ ")"
  | unary .isNull e => "(" ++ e.inlined ++ " IS NULL)"
  | unary .isNotNull e => "(" ++ e.inlined ++ " IS NOT NULL)"
  | call name args => name ++ "(" ++ ", ".intercalate (inlinedAll args) ++ ")"
  | member true _ [] => "(1 = 1)"
  | member false _ [] => "(1 = 0)"
  | member true e (item :: items) =>
    "(" ++ e.inlined ++ " NOT IN (" ++ ", ".intercalate (inlinedAll (item :: items)) ++ "))"
  | member false e (item :: items) =>
    "(" ++ e.inlined ++ " IN (" ++ ", ".intercalate (inlinedAll (item :: items)) ++ "))"

def inlinedAll : List Expression → List String
  | [] => []
  | e :: es => e.inlined :: inlinedAll es

end

theorem inlinedAll_eq_map (es : List Expression) :
    inlinedAll print es = es.map (inlined print) := by
  induction es with
  | nil => rfl
  | cons e es ih => rw [inlinedAll, ih, List.map_cons]

end Expression

/-- Filters print their values in the form in which they bind them. -/
def Test.inlined (field : String) : Test → String
  | equals .null => field ++ " IS NULL"
  | equals v => field ++ " = " ++ print v.toParam
  | range op v => field ++ " " ++ op.sql ++ " " ++ print v.toParam
  | among [] => "1 = 0"
  | among (v :: vs) =>
    field ++ " IN (" ++ ", ".intercalate ((v :: vs).map fun w => print w.toParam) ++ ")"

namespace Query

def inlinedCondition (q : Query) (qualify : Bool) (c : Condition) : String :=
  c.test.inlined print (q.fieldName qualify c.field)

def inlinedGroup (q : Query) (qualify : Bool) (g : OrGroup) : String :=
  "(" ++ " OR ".intercalate (g.map (q.inlinedCondition print qualify)) ++ ")"

def inlinedClauses (q : Query) (qualify : Bool) : List String :=
  (match q.tree with
    | some e => [e.inlined print]
    | none => q.conditions.map (q.inlinedCondition print qualify)) ++
  (q.orGroups.filter fun g => !g.isEmpty).map (q.inlinedGroup print qualify)

def inlinedPredicate (q : Query) (qualify : Bool) : String :=
  " AND ".intercalate (q.inlinedClauses print qualify)

def inlinedWhere (q : Query) (qualify : Bool) : String :=
  if q.inlinedClauses print qualify = [] then "" else " WHERE " ++ q.inlinedPredicate print qualify

def inlinedSelect (q : Query) : String :=
  "SELECT " ++ q.selectList ++ " FROM " ++ q.table ++ q.joinClauses ++
    q.inlinedWhere print q.hasJoins ++ q.orderClause ++ q.pageClause

def inlinedCount (q : Query) : String :=
  "SELECT COUNT(*) AS count FROM " ++ q.table ++ q.inlinedWhere print false

def inlinedFingerprint (q : Query) (idColumn : String) : String :=
  "SELECT COUNT(*) AS row_count, MAX(" ++ q.fieldName q.hasJoins idColumn ++ ") AS max_id FROM " ++
    q.table ++ q.joinClauses ++ q.inlinedWhere print q.hasJoins

def inlinedIncremental (q : Query) (idColumn : String) (watermark : Int64) : String :=
  let id := qualified q.table idColumn
  "SELECT " ++ q.selectList ++ ", " ++ id ++ " AS " ++ watermarkColumn ++ " FROM " ++ q.table ++
    q.joinClauses ++ " WHERE " ++
    (if q.inlinedClauses print q.hasJoins = [] then ""
      else "(" ++ q.inlinedPredicate print q.hasJoins ++ ") AND ") ++
    id ++ " > " ++ print (.integer watermark) ++ " ORDER BY " ++ id ++ " ASC"

end Query

variable {print}

theorem Expression.printed_fragment (e : Expression) :
    e.fragment.printed print = e.inlined print := by
  induction e with
  | column name => simp [fragment, inlined]
  | literal v => simp [fragment, inlined]
  | binary op l r ihl ihr => simp [fragment, inlined, ihl, ihr, String.append_assoc]
  | unary op e ih => cases op <;> simp [fragment, inlined, ih, String.append_assoc]
  | call name args ih =>
    have hargs : args.map (fun a => a.fragment.printed print) = args.map (inlined print) :=
      List.map_congr_left ih
    simp [fragment, inlined, fragments_eq_map, inlinedAll_eq_map, Fragment.printed_joined,
      hargs, Function.comp_def, String.append_assoc]
  | member negated e items ih ihs =>
    cases items with
    | nil => cases negated <;> simp [fragment, inlined]
    | cons item items =>
      have hitems : (item :: items).map (fun a => a.fragment.printed print) =
          (item :: items).map (inlined print) := List.map_congr_left ihs
      cases negated <;>
        simp only [fragment, inlined, fragments_eq_map, inlinedAll_eq_map, List.map_map,
          Fragment.printed_append, Fragment.printed_joined, Fragment.printed_sql,
          Fragment.printed_nil, ih, Function.comp_def, hitems, String.append_assoc,
          String.append_empty, if_true, Bool.false_eq_true, if_false]

theorem Test.printed_fragment (field : String) (t : Test) :
    (Condition.fragment field t).printed print = t.inlined print field := by
  cases t with
  | equals v => cases v <;> simp [Condition.fragment, inlined, String.append_assoc]
  | range op v => simp [Condition.fragment, inlined, String.append_assoc]
  | among vs =>
    cases vs with
    | nil => simp [Condition.fragment, inlined]
    | cons v vs =>
      simp only [Condition.fragment, inlined, Fragment.printed_append, Fragment.printed_joined,
        Fragment.printed_sql, Fragment.printed_nil, List.map_map, String.append_assoc,
        String.append_empty]
      congr 3

namespace Query

theorem printed_clauses (q : Query) (qualify : Bool) :
    (q.clauses qualify).map (Fragment.printed print) = q.inlinedClauses print qualify := by
  have hcondition (c : Condition) :
      (q.condition qualify c).printed print = q.inlinedCondition print qualify c :=
    Test.printed_fragment _ _
  have hgroups : (q.orGroups.filterMap (q.orGroup? qualify)).map (Fragment.printed print) =
      (q.orGroups.filter fun g => !g.isEmpty).map (q.inlinedGroup print qualify) := by
    induction q.orGroups with
    | nil => rfl
    | cons g gs ih =>
      -- a group without conditions gives no clause on either side
      cases hg : g.isEmpty with
      | true => simpa [orGroup?, hg] using ih
      | false =>
        have hsome : q.orGroup? qualify g =
            some ("(" ++ Fragment.joined " OR " (g.map (q.condition qualify)) ++ ")") :=
          if_neg (by simp [hg])
        rw [List.filterMap_cons_some hsome, List.map_cons, ih,
          List.filter_cons_of_pos (by simp [hg])]
        simp [inlinedGroup, Fragment.printed_joined, Function.comp_def, hcondition,
          String.append_assoc]
  rw [clauses, inlinedClauses, List.map_append, hgroups]
  cases q.tree with
  | none => simp [Function.comp_def, hcondition]
  | some e => simp [Expression.printed_fragment]

theorem printed_predicate {q : Query} {qualify : Bool} {p : Fragment}
    (h : q.predicate? qualify = some p) :
    q.inlinedClauses print qualify ≠ [] ∧
      p.printed print = q.inlinedPredicate print qualify := by
  rw [inlinedPredicate, ← printed_clauses]
  unfold predicate? at h
  split at h
  · cases h
  · rename_i c cs hc
    cases h
    rw [hc, Fragment.printed_joined]
    exact ⟨by simp, rfl⟩

theorem inlinedClauses_eq_nil {q : Query} {qualify : Bool} (h : q.predicate? qualify = none) :
    q.inlinedClauses print qualify = [] := by
  rw [← printed_clauses]
  unfold predicate? at h
  split at h
  · rename_i hc
    rw [hc, List.map_nil]
  · cases h

theorem printed_whereClause (q : Query) (qualify : Bool) :
    (q.whereClause qualify).printed print = q.inlinedWhere print qualify := by
  unfold whereClause inlinedWhere
  cases hp : q.predicate? qualify with
  | none => rw [if_pos (inlinedClauses_eq_nil hp), Fragment.printed_nil]
  | some p =>
    obtain ⟨hne, hprinted⟩ := @printed_predicate print _ _ _ hp
    rw [if_neg hne, ← hprinted]
    simp

theorem printed_pastClause (q : Query) (id : String) (watermark : Int64) :
    (q.pastClause id watermark).printed print =
      " WHERE " ++ (if q.inlinedClauses print q.hasJoins = [] then ""
        else "(" ++ q.inlinedPredicate print q.hasJoins ++ ") AND ") ++
        id ++ " > " ++ print (.integer watermark) := by
  unfold pastClause
  cases hp : q.predicate? q.hasJoins with
  | none => simp [inlinedClauses_eq_nil hp, String.append_assoc]
  | some p =>
    obtain ⟨hne, hprinted⟩ := @printed_predicate print _ _ _ hp
    rw [if_neg hne, ← hprinted]
    have hopen : (" WHERE (" : String) = " WHERE " ++ "(" := by decide
    simp only [Fragment.printed_sql, Fragment.printed_append, Fragment.printed_bound,
      Fragment.printed_nil, String.append_assoc, String.append_empty, hopen]

theorem printed_selectFragment (q : Query) :
    q.selectFragment.printed print = q.inlinedSelect print := by
  unfold selectFragment inlinedSelect
  simp only [Fragment.printed_append, Fragment.printed_sql,
    Fragment.printed_nil, printed_whereClause, String.append_assoc, String.append_empty]

theorem printed_countFragment (q : Query) :
    q.countFragment.printed print = q.inlinedCount print := by
  unfold countFragment inlinedCount
  simp only [Fragment.printed_append, Fragment.printed_sql,
    Fragment.printed_nil, printed_whereClause, String.append_assoc, String.append_empty]

theorem printed_fingerprintFragment (q : Query) (idColumn : String) :
    (q.fingerprintFragment idColumn).printed print = q.inlinedFingerprint print idColumn := by
  unfold fingerprintFragment inlinedFingerprint
  simp only [Fragment.printed_append, Fragment.printed_sql,
    Fragment.printed_nil, printed_whereClause, String.append_assoc, String.append_empty]

theorem printed_incrementalFragment (q : Query) (idColumn : String) (watermark : Int64) :
    (q.incrementalFragment idColumn watermark).printed print =
      q.inlinedIncremental print idColumn watermark := by
  unfold incrementalFragment inlinedIncremental
  simp only [Fragment.printed_append, Fragment.printed_sql,
    Fragment.printed_nil, printed_pastClause, String.append_assoc, String.append_empty]

end Query

end LiveQuery
