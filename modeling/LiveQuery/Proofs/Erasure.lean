import LiveQuery.Proofs.JsonFilter
import LiveQuery.Proofs.Names
import LiveQuery.Proofs.Pieces

/-! Queries without their values. Erasing the values of a query erases the parameters of its
statements and leaves their texts alone, so that no text depends on a value. -/

namespace LiveQuery

/-- Stands for any value. It binds as it is. -/
def Value.blank : Value := integer 0

/-- Whether a value is null may show. -/
def Value.erase : Value → Value
  | null => null
  | _ => blank

def Piece.erase : Piece → Piece
  | sql s => sql s
  | bound _ => bound .blank

def Statement.Alike (s t : Statement) : Prop := s.sql = t.sql ∧ s.params.length = t.params.length

namespace Fragment

def erase (f : Fragment) : Fragment := f.map Piece.erase

@[simp] theorem erase_nil : erase [] = [] := rfl

@[simp] theorem erase_sql (s : String) (f : Fragment) : erase (.sql s :: f) = .sql s :: erase f := rfl

@[simp] theorem erase_bound (v : Value) (f : Fragment) :
    erase (.bound v :: f) = .bound .blank :: erase f := rfl

@[simp] theorem erase_append (f g : Fragment) : erase (f ++ g) = erase f ++ erase g := List.map_append

theorem erase_joined (separator : String) (fs : List Fragment) :
    (joined separator fs).erase = joined separator (fs.map erase) := by
  induction fs with
  | nil => rfl
  | cons f fs ih =>
    cases fs with
    | nil => rfl
    | cons g fs =>
      rw [joined, erase_append, erase_sql, ih]
      rfl

theorem text_erase (f : Fragment) : f.erase.text = f.text := by
  induction f with
  | nil => rfl
  | cons p f ih => cases p <;> simp [ih]

theorem length_params_erase (f : Fragment) : f.erase.params.length = f.params.length := by
  induction f with
  | nil => rfl
  | cons p f ih => cases p <;> simp [ih]

theorem alike_of_erase {f g : Fragment} (h : f.erase = g.erase) : f.statement.Alike g.statement := by
  constructor
  · rw [statement, statement, ← text_erase f, h, text_erase]
  · rw [statement, statement, ← length_params_erase f, h, length_params_erase]

end Fragment

namespace Expression

mutual

def erase : Expression → Expression
  | column name => column name
  | literal _ => literal .blank
  | binary op l r => binary op l.erase r.erase
  | unary op e => unary op e.erase
  | call name args => call name (eraseAll args)
  | member negated e items => member negated e.erase (eraseAll items)

def eraseAll : List Expression → List Expression
  | [] => []
  | e :: es => e.erase :: eraseAll es

end

theorem eraseAll_eq_map (es : List Expression) : eraseAll es = es.map erase := by
  induction es with
  | nil => rfl
  | cons e es ih => rw [eraseAll, ih, List.map_cons]

theorem fragment_erase (e : Expression) : e.erase.fragment = e.fragment.erase := by
  have hall : ∀ es : List Expression, (∀ a ∈ es, a.erase.fragment = a.fragment.erase) →
      fragments (eraseAll es) = (fragments es).map Fragment.erase := by
    intro es h
    rw [fragments_eq_map, fragments_eq_map, eraseAll_eq_map, List.map_map, List.map_map]
    exact List.map_congr_left h
  induction e with
  | column name => rfl
  | literal v => rfl
  | binary op l r hl hr => simp [erase, fragment, hl, hr]
  | unary op e he => cases op <;> simp [erase, fragment, he]
  | call name args hargs => simp [erase, fragment, hall args hargs, Fragment.erase_joined]
  | member negated e items he hitems =>
    cases items with
    | nil => cases negated <;> rfl
    | cons item items =>
      have hrest := hall (item :: items) hitems
      rw [eraseAll] at hrest
      rw [erase, eraseAll, fragment, fragment, hrest]
      cases negated <;> simp [he, Fragment.erase_joined]

end Expression

def Test.erase : Test → Test
  | equals v => equals v.erase
  | range op _ => range op .blank
  | among vs => among (vs.map fun _ => .blank)

def Condition.erase (c : Condition) : Condition := ⟨c.field, c.test.erase⟩

theorem Condition.fragment_erase (field : String) (t : Test) :
    fragment field t.erase = (fragment field t).erase := by
  cases t with
  | equals v => cases v <;> rfl
  | range op v => rfl
  | among vs =>
    cases vs with
    | nil => rfl
    | cons v vs =>
      have hblank : Value.blank.toParam = .blank := rfl
      simp [Test.erase, fragment, Fragment.erase_joined, Function.comp_def, hblank]

def Selection.erase (s : Selection) : Selection :=
  ⟨s.conditions.map Condition.erase, s.orGroups.map (List.map Condition.erase)⟩

namespace Query

def erase (q : Query) : Query :=
  { q with
    conditions := q.conditions.map Condition.erase
    orGroups := q.orGroups.map (List.map Condition.erase)
    tree := q.tree.map Expression.erase }

theorem condition_erase (q : Query) (qualify : Bool) (c : Condition) :
    q.erase.condition qualify c.erase = (q.condition qualify c).erase :=
  Condition.fragment_erase _ _

theorem orGroup?_erase (q : Query) (qualify : Bool) (g : OrGroup) :
    q.erase.orGroup? qualify (g.map Condition.erase) = (q.orGroup? qualify g).map Fragment.erase := by
  cases g with
  | nil => rfl
  | cons c g => simp [orGroup?, Fragment.erase_joined, condition_erase, Function.comp_def]

theorem clauses_erase (q : Query) (qualify : Bool) :
    q.erase.clauses qualify = (q.clauses qualify).map Fragment.erase := by
  have hgroups : q.erase.orGroups.filterMap (q.erase.orGroup? qualify) =
      (q.orGroups.filterMap (q.orGroup? qualify)).map Fragment.erase := by
    simp [erase, List.filterMap_map, List.map_filterMap, ← orGroup?_erase]
  rw [clauses, clauses, List.map_append, hgroups]
  congr 1
  cases h : q.tree with
  | none => simp [erase, h, ← condition_erase]
  | some e => simp [erase, h, Expression.fragment_erase]

theorem predicate?_erase (q : Query) (qualify : Bool) :
    q.erase.predicate? qualify = (q.predicate? qualify).map Fragment.erase := by
  rw [predicate?, predicate?, clauses_erase]
  cases q.clauses qualify with
  | nil => rfl
  | cons c cs => exact congrArg some (Fragment.erase_joined " AND " (c :: cs)).symm

theorem whereClause_erase (q : Query) (qualify : Bool) :
    q.erase.whereClause qualify = (q.whereClause qualify).erase := by
  rw [whereClause, whereClause, predicate?_erase]
  cases q.predicate? qualify <;> simp

theorem pastClause_erase (q : Query) (id : String) (watermark : Int64) :
    q.erase.pastClause id 0 = (q.pastClause id watermark).erase := by
  have hjoins : q.erase.hasJoins = q.hasJoins := rfl
  rw [pastClause, pastClause, predicate?_erase, hjoins]
  cases q.predicate? q.hasJoins <;> simp [Value.blank]

variable (q : Query) (idColumn : String)

theorem selectFragment_erase : q.erase.selectFragment = q.selectFragment.erase := by
  have hjoins : q.erase.hasJoins = q.hasJoins := rfl
  simp only [selectFragment, Fragment.erase_append, ← whereClause_erase, hjoins]
  rfl

theorem countFragment_erase : q.erase.countFragment = q.countFragment.erase := by
  simp only [countFragment, Fragment.erase_append, ← whereClause_erase]
  rfl

theorem fingerprintFragment_erase :
    q.erase.fingerprintFragment idColumn = (q.fingerprintFragment idColumn).erase := by
  have hjoins : q.erase.hasJoins = q.hasJoins := rfl
  simp only [fingerprintFragment, Fragment.erase_append, ← whereClause_erase, hjoins]
  rfl

theorem incrementalFragment_erase (watermark : Int64) :
    q.erase.incrementalFragment idColumn 0 = (q.incrementalFragment idColumn watermark).erase := by
  simp only [incrementalFragment, Fragment.erase_append, ← pastClause_erase]
  rfl

/-- The statements of two queries have the same texts and as many parameters. -/
structure Alike (q r : Query) : Prop where
  select : q.select.Alike r.select
  count : q.count.Alike r.count
  fingerprint : ∀ idColumn, (q.fingerprint idColumn).Alike (r.fingerprint idColumn)
  incremental : ∀ idColumn m n, (q.incremental idColumn m).Alike (r.incremental idColumn n)

theorem alike_of_erase {q r : Query} (h : q.erase = r.erase) : q.Alike r where
  select := by
    apply Fragment.alike_of_erase
    rw [← selectFragment_erase, ← selectFragment_erase, h]
  count := by
    apply Fragment.alike_of_erase
    rw [← countFragment_erase, ← countFragment_erase, h]
  fingerprint := by
    intro idColumn
    apply Fragment.alike_of_erase
    rw [← fingerprintFragment_erase, ← fingerprintFragment_erase, h]
  incremental := by
    intro idColumn m n
    apply Fragment.alike_of_erase
    rw [← incrementalFragment_erase, ← incrementalFragment_erase, h]

theorem restrict_erase (q : Query) (s : Selection) :
    (q.restrict s).erase = q.erase.restrict s.erase := by
  simp [restrict, erase, Selection.erase]

end Query

namespace Json

mutual

def erase : Json → Json
  | null => null
  | array items => array (eraseItems items)
  | object ms => object (eraseMembers ms)
  | _ => integer 0

def eraseItems : List Json → List Json
  | [] => []
  | j :: js => j.erase :: eraseItems js

def eraseMembers : List (String × Json) → List (String × Json)
  | [] => []
  | (key, j) :: ms => (key, j.erase) :: eraseMembers ms

end

theorem erase_array (items : List Json) : (array items).erase = array (items.map erase) := by
  have hitems : eraseItems items = items.map erase := by
    induction items with
    | nil => rfl
    | cons j js ih => rw [eraseItems, ih, List.map_cons]
  rw [erase, hitems]

def eraseMember (m : String × Json) : String × Json := (m.1, m.2.erase)

theorem erase_object (ms : List (String × Json)) : (object ms).erase = object (ms.map eraseMember) := by
  have hms : eraseMembers ms = ms.map eraseMember := by
    induction ms with
    | nil => rfl
    | cons m ms ih =>
      obtain ⟨key, j⟩ := m
      rw [eraseMembers, ih, List.map_cons, eraseMember]
  rw [erase, hms]

theorem isScalar_erase (j : Json) : j.erase.IsScalar ↔ j.IsScalar := by
  cases j <;> simp [erase, IsScalar]

theorem isList_erase (j : Json) : j.erase.IsList ↔ j.IsList := by
  cases j with
  | array items =>
    rw [erase_array]
    simp only [IsList, List.forall_mem_map, isScalar_erase]
  | _ => simp [erase, IsList]

theorem isOperator_erase (m : String × Json) : IsOperator (eraseMember m) ↔ IsOperator m := by
  simp only [IsOperator, eraseMember, isScalar_erase, isList_erase]

theorem isOperand_erase (j : Json) : j.erase.IsOperand ↔ j.IsOperand := by
  rw [IsOperand, IsOperand, isScalar_erase, isList_erase]
  refine or_congr_right (or_congr_right ?_)
  cases j with
  | object ops =>
    simp only [erase_object, object.injEq, exists_eq_left', List.forall_mem_map, isOperator_erase]
  | _ => simp [erase]

theorem isEntry_erase (m : String × Json) : IsEntry (eraseMember m) ↔ IsEntry m := by
  simp only [IsEntry, eraseMember, isOperand_erase]

theorem isBranch_erase (j : Json) : j.erase.IsBranch ↔ j.IsBranch := by
  cases j with
  | object ms =>
    simp only [IsBranch, erase_object, object.injEq, exists_eq_left', List.forall_mem_map,
      isEntry_erase]
  | _ => simp [IsBranch, erase]

theorem isAlternatives_erase (j : Json) : j.erase.IsAlternatives ↔ j.IsAlternatives := by
  cases j with
  | array bs => simp [IsAlternatives, erase_array, isBranch_erase]
  | _ => simp [IsAlternatives, erase]

/-- Whether a document is a filter does not depend on its values. -/
theorem isFilter_erase (j : Json) : j.erase.IsFilter ↔ j.IsFilter := by
  cases j with
  | object ms =>
    have hmember : ∀ m, (if (eraseMember m).1 = "$or" then (eraseMember m).2.IsAlternatives
        else IsEntry (eraseMember m)) ↔ if m.1 = "$or" then m.2.IsAlternatives else IsEntry m := by
      intro m
      rw [isEntry_erase, eraseMember, isAlternatives_erase]
    simp only [IsFilter, erase_object, object.injEq, exists_eq_left', List.forall_mem_map, hmember]
  | _ => simp [IsFilter, erase]

theorem erase_value_integer (n : Int) : (integer n).value.erase = .blank := by
  rw [value]
  split <;> rfl

theorem erase_value (j : Json) : j.erase.value.erase = j.value.erase := by
  cases j with
  | null => rfl
  | integer n => exact (erase_value_integer 0).trans (erase_value_integer n).symm
  | array items => rfl
  | object ms => rfl
  | _ => exact erase_value_integer 0

theorem length_values_erase (j : Json) : j.erase.values.length = j.values.length := by
  cases j with
  | array items =>
    rw [erase_array]
    simp [values]
  | _ => simp only [erase, values, List.length_singleton]

theorem erase_among {vs ws : List Value} (h : vs.length = ws.length) :
    (Test.among vs).erase = (Test.among ws).erase := by
  simp [Test.erase, List.map_const', h]

theorem erase_operatorTest (m : String × Json) :
    (operatorTest (eraseMember m)).erase = (operatorTest m).erase := by
  obtain ⟨key, j⟩ := m
  rw [eraseMember]
  by_cases hkey : ∃ op : RangeOp, key = op.key
  · obtain ⟨op, rfl⟩ := hkey
    rw [operatorTest_key, operatorTest_key]
    rfl
  · have hne : ∀ op : RangeOp, key ≠ op.key := fun op h => hkey ⟨op, h⟩
    rw [operatorTest_of_ne hne, operatorTest_of_ne hne]
    exact erase_among j.length_values_erase

theorem erase_tests (j : Json) : j.erase.tests.map Test.erase = j.tests.map Test.erase := by
  cases j with
  | array items =>
    rw [erase_array]
    simp [tests, Test.erase]
  | object ops =>
    rw [erase_object]
    simp [tests, erase_operatorTest]
  | _ => exact congrArg (fun v => [Test.equals v]) (erase_value _)

theorem erase_entryConditions (m : String × Json) :
    (entryConditions (eraseMember m)).map Condition.erase = (entryConditions m).map Condition.erase := by
  have htests := congrArg (List.map (Condition.mk m.1)) (erase_tests m.2)
  simpa [entryConditions, eraseMember, Function.comp_def, Condition.erase] using htests

theorem erase_branchConditions (j : Json) :
    j.erase.branchConditions.map Condition.erase = j.branchConditions.map Condition.erase := by
  cases j with
  | object ms =>
    rw [erase_object]
    simp [branchConditions, List.map_flatMap, List.flatMap_map, erase_entryConditions]
  | _ => rfl

theorem erase_alternatives (j : Json) :
    j.erase.alternatives.map Condition.erase = j.alternatives.map Condition.erase := by
  cases j with
  | array bs =>
    rw [erase_array]
    simp [alternatives, List.map_flatMap, List.flatMap_map, erase_branchConditions]
  | _ => rfl

theorem erase_selection (j : Json) : j.erase.selection.erase = j.selection.erase := by
  cases j with
  | object ms =>
    have hkey : ∀ m, (eraseMember m).1 = m.1 := fun _ => rfl
    have hvalue : ∀ m, (eraseMember m).2 = m.2.erase := fun _ => rfl
    rw [erase_object, Selection.erase, Selection.erase, selection, selection]
    congr 1
    · simp only [List.filter_map, List.map_flatMap, List.flatMap_map, Function.comp_def, hkey,
        erase_entryConditions]
    · simp only [List.filter_map, List.map_map, Function.comp_def, hkey, hvalue, erase_alternatives]
  | _ => rfl

end Json

/-- Queries that differ in values alone have statements with the same texts and as many
parameters, also after filters that differ in values alone: either both filters are refused
or both are taken. -/
theorem Query.statements_hide_values {q r : Query} {j k : Json} (hq : q.erase = r.erase)
    (hj : j.erase = k.erase) :
    q.Alike r ∧
    ((∃ s, (Criteria.ofJson j >>= Criteria.resolve) = .ok s) ↔
      ∃ t, (Criteria.ofJson k >>= Criteria.resolve) = .ok t) ∧
    ∀ s t, (Criteria.ofJson j >>= Criteria.resolve) = .ok s →
      (Criteria.ofJson k >>= Criteria.resolve) = .ok t → (q.restrict s).Alike (r.restrict t) := by
  refine ⟨alike_of_erase hq, ?_, ?_⟩
  · rw [j.yields_selection.isOk_iff, k.yields_selection.isOk_iff, ← j.isFilter_erase, hj,
      k.isFilter_erase]
  · intro s t hs ht
    obtain ⟨-, rfl⟩ := (j.yields_selection s).mp hs
    obtain ⟨-, rfl⟩ := (k.yields_selection t).mp ht
    have hselection : j.selection.erase = k.selection.erase := by
      rw [← j.erase_selection, hj, k.erase_selection]
    apply alike_of_erase
    rw [restrict_erase, restrict_erase, hq, hselection]

theorem Query.statements_hide_values_quote :
    let users (age : Value) : Query := { table := "users", conditions := [⟨"age", .range .ge age⟩] }
    let named (name : String) : Json := .object [("name", .text name), ("city", .null)]
    (users (.integer 18)).erase = (users (.text "0; --")).erase ∧
    (named "Ann").erase = (named "' OR '1' = '1").erase ∧
    ∀ s t, (Criteria.ofJson (named "Ann") >>= Criteria.resolve) = .ok s →
      (Criteria.ofJson (named "' OR '1' = '1") >>= Criteria.resolve) = .ok t →
      ((users (.integer 18)).restrict s).Alike ((users (.text "0; --")).restrict t) := by
  intro users named
  have husers : (users (.integer 18)).erase = (users (.text "0; --")).erase := rfl
  have hnamed : (named "Ann").erase = (named "' OR '1' = '1").erase := rfl
  exact ⟨husers, hnamed, (statements_hide_values husers hnamed).2.2⟩

end LiveQuery
