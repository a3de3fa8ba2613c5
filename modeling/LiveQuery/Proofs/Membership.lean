import LiveQuery.Proofs.Alternatives

/-! A list of values as a filter, against one alternative for each value. Both compare a field of a
row with the values, and a comparison with null tells nothing. Equality with null is written as
a test for null, which a list of values is not. -/

namespace LiveQuery

namespace Truth

def ofBool : Bool → Truth
  | true => yes
  | false => no

/-- The comparison of two values, by `same` if there are two. -/
def equals (same : Value → Value → Bool) (v w : Value) : Truth :=
  if v.isNull || w.isNull then unknown else ofBool (same v w)

/-- Membership is equality with one of the members. -/
def among (same : Value → Value → Bool) (v : Value) : List Value → Truth
  | [] => no
  | w :: ws => (equals same v w).or (among same v ws)

variable {same : Value → Value → Bool} {v w : Value} {ws : List Value}

theorem ofBool_eq_yes {b : Bool} : ofBool b = yes ↔ b = true := by
  cases b <;> decide

theorem equals_eq_yes : equals same v w = yes ↔ v ≠ .null ∧ w ≠ .null ∧ same v w = true := by
  unfold equals
  cases v <;> cases w <;> simp [Value.isNull, ofBool_eq_yes]

theorem among_eq_yes : among same v ws = yes ↔ ∃ w ∈ ws, equals same v w = yes := by
  induction ws with
  | nil => simp [among]
  | cons w ws ih => rw [among, or_eq_yes, ih, List.exists_mem_cons_iff]

end Truth

/-- A row with a value in every cell. -/
def Valuation.stored (same : Value → Value → Bool) (cell : List Part → Value) : Valuation
  | .unary .isNull (.name parts), [] => .ofBool (cell parts).isNull
  | .binary .eq (.name parts) .placeholder, [w] => .equals same (cell parts) w
  | .member false (.name parts) _, ws => .among same (cell parts) ws
  | _, _ => .unknown

theorem Value.isNull_iff {v : Value} : v.isNull = true ↔ v = .null := by
  cases v <;> simp [isNull]

namespace Query

variable {q : Query} {qualify : Bool} {field : String} {vs : List Value}

/-- The criteria, as the only filter, are written as one clause, which says what the formula does. -/
def Compiles (q : Query) (qualify : Bool) (c : Criteria) (clause : Fragment) (f : Formula) : Prop :=
  ∃ s, c.resolve = .ok s ∧ (q.filtered s).clauses qualify = [clause] ∧
    (q.filtered s).conjuncts qualify = [f] ∧
    ((q.filtered s).Named IsName → Clause clause.text f)

theorem compiles_of {c : Criteria} {s : Selection} {clause : Fragment} {f : Formula}
    (hs : c.resolve = .ok s) (hclauses : (q.filtered s).clauses qualify = [clause])
    (hconjuncts : (q.filtered s).conjuncts qualify = [f]) : q.Compiles qualify c clause f := by
  refine ⟨s, hs, hclauses, hconjuncts, fun hnamed => ?_⟩
  have hall := hnamed.clause_clauses qualify
  rw [hclauses, hconjuncts] at hall
  exact (List.forall₂_cons.mp hall).1

/-- One alternative for each value. -/
def alternatives (field : String) (vs : List Value) : Criteria :=
  [("$or", .branches (vs.map fun v => [(field, .scalar v)]))]

theorem resolve_alternatives (hfield : isReserved field = false) (hvs : vs ≠ []) :
    (alternatives field vs).resolve = .ok ⟨[], [vs.map fun v => ⟨field, .equals v⟩]⟩ := by
  have hbranch (v : Value) : resolveBranch [(field, .scalar v)] = .ok [⟨field, .equals v⟩] := by
    have hkey : resolveKey (field, .scalar v) = .ok [⟨field, .equals v⟩] :=
      resolveKey_eq_ok.mpr ⟨hfield, rfl⟩
    simp [resolveBranch_eq, hkey, Functor.map, Except.map, bind, Except.bind, pure, Except.pure]
  have hbranches : (vs.map fun v => [(field, .scalar v)]).mapM resolveBranch =
      .ok (vs.map fun v => [⟨field, .equals v⟩]) :=
    mapM_eq_ok_iff.mpr (List.forall₂_map_left_iff.mpr (List.forall₂_map_right_iff.mpr
      (List.forall₂_same.mpr fun v _ => hbranch v)))
  have hor : resolveOr (.branches (vs.map fun v => [(field, .scalar v)])) =
      .ok (vs.map fun v => ⟨field, .equals v⟩) := by
    cases vs with
    | nil => exact absurd rfl hvs
    | cons v vs =>
      change List.flatten <$> ((v :: vs).map fun v => [(field, .scalar v)]).mapM resolveBranch = _
      rw [hbranches]
      exact congrArg Except.ok List.map_eq_flatMap.symm
  rw [alternatives, Criteria.resolve, if_pos rfl, hor]
  rfl

theorem compiles_condition {c : Criteria} {d : Condition} (h : c.resolve = .ok ⟨[d], []⟩)
    (q : Query) (qualify : Bool) :
    q.Compiles qualify c (q.condition qualify d) (q.conditionFormula qualify d) :=
  compiles_of h rfl rfl

theorem compiles_group {c : Criteria} {g : OrGroup} (hg : g ≠ []) (h : c.resolve = .ok ⟨[], [g]⟩)
    (q : Query) (qualify : Bool) :
    ∃ clause f, q.Compiles qualify c clause f ∧ ∀ row,
      f.truth row clause.params = .yes ↔ ∃ d ∈ g, q.holds qualify row d = .yes := by
  obtain ⟨d, ds, rfl⟩ := List.exists_cons_of_ne_nil hg
  refine ⟨_, _, compiles_of h rfl rfl, fun row => ?_⟩
  have hparams := q.params_group qualify d ds
  have hsome := q.truth_some qualify row d ds
  rw [← hparams] at hsome
  exact hsome

theorem resolve_list (hfield : isReserved field = false) (vs : List Value) :
    Criteria.resolve [(field, .list vs)] = .ok ⟨[⟨field, .among vs⟩], []⟩ := by
  rw [Criteria.resolve, if_neg (ne_or_of_isReserved hfield), if_neg (by simp [hfield])]
  rfl

theorem resolve_in (hfield : isReserved field = false) (vs : List Value) :
    Criteria.resolve [(field, .operators [("$in", .list vs)])] =
      .ok ⟨[⟨field, .among vs⟩], []⟩ := by
  rw [Criteria.resolve, if_neg (ne_or_of_isReserved hfield), if_neg (by simp [hfield])]
  rfl

/-- The value that a row has for a field. -/
def fieldValue (q : Query) (qualify : Bool) (cell : List Part → Value) (field : String) : Value :=
  cell (bareParts (q.fieldName qualify field))

variable {same : Value → Value → Bool} {cell : List Part → Value}

theorem values_among (q : Query) (qualify : Bool) (field : String) (vs : List Value) :
    q.values qualify ⟨field, .among vs⟩ = vs.map Value.toParam := by
  cases vs with
  | nil => rfl
  | cons v vs =>
    have hflat : q.values qualify ⟨field, .among (v :: vs)⟩ =
        (v :: vs).flatMap fun w => [w.toParam] := by
      simp [values, condition, Condition.fragment, Fragment.params_joined, List.flatMap_map]
    rw [hflat, ← List.map_eq_flatMap]

theorem holds_among_iff (hvs : vs ≠ []) :
    q.holds qualify (.stored same cell) ⟨field, .among vs⟩ = .yes ↔
      ∃ v ∈ vs, Truth.equals same (q.fieldValue qualify cell field) v.toParam = .yes := by
  obtain ⟨v, vs, rfl⟩ := List.exists_cons_of_ne_nil hvs
  rw [holds, values_among]
  change Truth.among same (q.fieldValue qualify cell field) _ = .yes ↔ _
  rw [Truth.among_eq_yes]
  simp

theorem holds_equals_iff (v : Value) :
    q.holds qualify (.stored same cell) ⟨field, .equals v⟩ = .yes ↔
      Truth.equals same (q.fieldValue qualify cell field) v.toParam = .yes ∨
        v = .null ∧ q.fieldValue qualify cell field = .null := by
  by_cases hv : v = .null
  · subst hv
    change Truth.ofBool (q.fieldValue qualify cell field).isNull = .yes ↔ _
    rw [Truth.ofBool_eq_yes, Value.isNull_iff]
    simp [Value.toParam, Truth.equals_eq_yes]
  · have hholds : q.holds qualify (.stored same cell) ⟨field, .equals v⟩ =
        Truth.equals same (q.fieldValue qualify cell field) v.toParam := by
      cases v with
      | null => exact absurd rfl hv
      | _ => rfl
    simp [hholds, hv]

theorem truth_list (hvs : vs ≠ []) :
    (q.conditionFormula qualify ⟨field, .among vs⟩).truth (.stored same cell)
        (q.condition qualify ⟨field, .among vs⟩).params = .yes ↔
      ∃ v ∈ vs, Truth.equals same (q.fieldValue qualify cell field) v.toParam = .yes := by
  rw [truth_condition]
  exact holds_among_iff hvs

theorem compiles_alternatives (q : Query) (qualify : Bool) (hfield : isReserved field = false)
    (hvs : vs ≠ []) : ∃ clause f, q.Compiles qualify (alternatives field vs) clause f ∧
      ∀ same cell, f.truth (.stored same cell) clause.params = .yes ↔
        (∃ v ∈ vs, Truth.equals same (q.fieldValue qualify cell field) v.toParam = .yes) ∨
          .null ∈ vs ∧ q.fieldValue qualify cell field = .null := by
  obtain ⟨clause, f, hcompiles, htruth⟩ :=
    compiles_group (by simpa using hvs) (resolve_alternatives hfield hvs) q qualify
  refine ⟨clause, f, hcompiles, fun same cell => ?_⟩
  simp [htruth, holds_equals_iff, and_or_left, exists_or]

/-- A list of values and the alternatives for each of them come to one clause each. The list holds
if the field is equal to one of the values, and then the alternatives do. The two tell rows apart
in the same way but for a row without a value, which a null among the alternatives lets through
and a null in the list does not. -/
theorem list_as_alternatives (q : Query) (qualify : Bool) (hfield : isReserved field = false)
    (hvs : vs ≠ []) :
    ∃ clause f clause' f', q.Compiles qualify [(field, .list vs)] clause f ∧
      q.Compiles qualify [(field, .operators [("$in", .list vs)])] clause f ∧
      q.Compiles qualify (alternatives field vs) clause' f' ∧
      ∀ same cell,
        (f.truth (.stored same cell) clause.params = .yes ↔
          ∃ v ∈ vs, Truth.equals same (q.fieldValue qualify cell field) v.toParam = .yes) ∧
        ((f.truth (.stored same cell) clause.params = .yes ↔
            f'.truth (.stored same cell) clause'.params = .yes) ↔
          ¬(q.fieldValue qualify cell field = .null ∧ .null ∈ vs)) := by
  obtain ⟨clause', f', halternatives, htruth⟩ := compiles_alternatives q qualify hfield hvs
  refine ⟨_, _, clause', f', compiles_condition (resolve_list hfield vs) q qualify,
    compiles_condition (resolve_in hfield vs) q qualify, halternatives, fun same cell => ?_⟩
  refine ⟨truth_list hvs, ?_⟩
  rw [truth_list hvs, htruth]
  constructor
  · rintro hsame ⟨hx, hnull⟩
    obtain ⟨v, -, hv⟩ := hsame.mpr (.inr ⟨hnull, hx⟩)
    exact (Truth.equals_eq_yes.mp hv).1 hx
  · intro hnot
    refine ⟨.inl, fun h => h.resolve_right fun ⟨hnull, hx⟩ => hnot ⟨hx, hnull⟩⟩

theorem list_as_alternatives_one :
    let vs : List Value := [.integer 1, .null]
    let row : Valuation := .stored (fun v w => v = w) fun _ => .integer 1
    ∃ clause f clause' f', users.Compiles false [("age", .list vs)] clause f ∧
      users.Compiles false (alternatives "age" vs) clause' f' ∧ Clause clause.text f ∧
      f.truth row clause.params = .yes ∧ f'.truth row clause'.params = .yes := by
  intro vs row
  have hage : isReserved "age" = false := by decide
  obtain ⟨clause, f, clause', f', hlist, -, halternatives, htruth⟩ :=
    users.list_as_alternatives false hage (List.cons_ne_nil (.integer 1) [.null])
  obtain ⟨hone, hsame⟩ := htruth (fun v w => v = w) fun _ => .integer 1
  have hf : f.truth row clause.params = .yes := hone.mpr ⟨.integer 1, List.mem_cons_self, rfl⟩
  have hf' : f'.truth row clause'.params = .yes := (hsame.mpr fun h => absurd h.1 nofun).mp hf
  refine ⟨clause, f, clause', f', hlist, halternatives, ?_, hf, hf'⟩
  obtain ⟨s, hs, -, -, hclause⟩ := hlist
  obtain rfl : ⟨[⟨"age", .among vs⟩], []⟩ = s := Except.ok.inj hs
  have hname : IsName "age" := by decide
  exact hclause { named_users with conditions := by simpa [filtered] using hname }

/-- A null in the list is not found where the field is null. -/
theorem list_misses_null :
    ∃ clause f clause' f', users.Compiles false [("age", .list [.null])] clause f ∧
      users.Compiles false (alternatives "age" [.null]) clause' f' ∧
      clause.text = "age IN (?)" ∧ clause.params = [.null] ∧ clause'.text = "(age IS NULL)" ∧
      ∀ same, f.truth (.stored same fun _ => .null) clause.params = .unknown ∧
        f'.truth (.stored same fun _ => .null) clause'.params = .yes :=
  ⟨_, _, _, _, compiles_of rfl rfl rfl, compiles_of rfl rfl rfl, rfl, rfl, rfl, fun _ => ⟨rfl, rfl⟩⟩

end Query

end LiveQuery
