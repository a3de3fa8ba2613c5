import LiveQuery.Criteria
import LiveQuery.Proofs.Predicate

/-! The truth of a predicate for one row. A comparison may be true, false or unknown, and
which it is depends on the row and on the values bound in it. The connectives take the values
of their operands in order, as the placeholders stand. -/

namespace LiveQuery

inductive Truth
  | yes | no | unknown
deriving DecidableEq

namespace Truth

def not : Truth → Truth
  | yes => no
  | no => yes
  | unknown => unknown

def and : Truth → Truth → Truth
  | yes, b => b
  | no, _ => no
  | unknown, no => no
  | unknown, _ => unknown

def or : Truth → Truth → Truth
  | yes, _ => yes
  | no, b => b
  | unknown, yes => yes
  | unknown, _ => unknown

@[simp] theorem and_eq_yes {a b : Truth} : a.and b = yes ↔ a = yes ∧ b = yes := by
  cases a <;> cases b <;> decide

@[simp] theorem or_eq_yes {a b : Truth} : a.or b = yes ↔ a = yes ∨ b = yes := by
  cases a <;> cases b <;> decide

end Truth

/-- What a row makes of each comparison with the values bound in it. -/
abbrev Valuation := Formula → List Value → Truth

namespace Formula

mutual

/-- The number of placeholders. -/
def marks : Formula → Nat
  | name _ => 0
  | numeral _ => 0
  | placeholder => 1
  | binary _ f g => f.marks + g.marks
  | unary _ f => f.marks
  | call _ args => marksAll args
  | member _ f items => f.marks + marksAll items

def marksAll : List Formula → Nat
  | [] => 0
  | f :: fs => f.marks + marksAll fs

end

theorem marksAll_placeholders (vs : List Value) :
    marksAll (vs.map fun _ => placeholder) = vs.length := by
  induction vs with
  | nil => rfl
  | cons v vs ih => rw [List.map_cons, marksAll, ih, marks, List.length_cons, Nat.add_comm]

def truth (row : Valuation) : Formula → List Value → Truth
  | binary .and f g, vs => (f.truth row (vs.take f.marks)).and (g.truth row (vs.drop f.marks))
  | binary .or f g, vs => (f.truth row (vs.take f.marks)).or (g.truth row (vs.drop f.marks))
  | unary .not f, vs => (f.truth row vs).not
  | f, vs => row f vs

variable {row : Valuation} {f g : Formula} {vs ws : List Value}

theorem truth_and (h : vs.length = f.marks) :
    (binary .and f g).truth row (vs ++ ws) = (f.truth row vs).and (g.truth row ws) := by
  rw [truth, ← h, List.take_left, List.drop_left]

theorem truth_or (h : vs.length = f.marks) :
    (binary .or f g).truth row (vs ++ ws) = (f.truth row vs).or (g.truth row ws) := by
  rw [truth, ← h, List.take_left, List.drop_left]

end Formula

namespace Query

variable {q : Query} {qualify : Bool} {row : Valuation} {f : Formula} {vs : List Value}

def values (q : Query) (qualify : Bool) (c : Condition) : List Value := (q.condition qualify c).params

/-- Whether a row fulfils a condition. -/
def holds (q : Query) (qualify : Bool) (row : Valuation) (c : Condition) : Truth :=
  row (q.conditionFormula qualify c) (q.values qualify c)

theorem truth_condition (c : Condition) (vs : List Value) :
    (q.conditionFormula qualify c).truth row vs = row (q.conditionFormula qualify c) vs := by
  obtain ⟨field, test⟩ := c
  unfold conditionFormula
  cases test with
  | equals v => cases v <;> rfl
  | range op v => cases op <;> rfl
  | among vs => cases vs <;> rfl

theorem length_values (c : Condition) :
    (q.values qualify c).length = (q.conditionFormula qualify c).marks := by
  obtain ⟨field, test⟩ := c
  cases test with
  | equals v => cases v <;> rfl
  | range op v => rfl
  | among vs =>
    cases vs with
    | nil => rfl
    | cons v vs =>
      have hvalues : q.values qualify ⟨field, .among (v :: vs)⟩ =
          (v :: vs).flatMap fun w => [w.toParam] := by
        simp [values, condition, Condition.fragment, Fragment.params_joined, List.flatMap_map]
      have hmarks : (q.conditionFormula qualify ⟨field, .among (v :: vs)⟩).marks =
          (v :: vs).length := by
        rw [conditionFormula, Test.formula, Formula.marks, Formula.marksAll_placeholders,
          Formula.marks, Nat.zero_add]
      rw [hvalues, hmarks, ← List.map_eq_flatMap, List.length_map]

theorem length_append_values {op : BinaryOp} (h : vs.length = f.marks) (c : Condition) :
    (vs ++ q.values qualify c).length =
      (Formula.binary op f (q.conditionFormula qualify c)).marks := by
  rw [List.length_append, h, q.length_values, Formula.marks]

/-- A disjunction holds if one of its conditions does. -/
theorem truth_joined_or (h : vs.length = f.marks) (cs : List Condition) :
    ((cs.map (q.conditionFormula qualify)).foldl (.binary .or) f).truth row
        (vs ++ cs.flatMap (q.values qualify)) = .yes ↔
      f.truth row vs = .yes ∨ ∃ c ∈ cs, q.holds qualify row c = .yes := by
  induction cs generalizing f vs with
  | nil => simp
  | cons c cs ih =>
    rw [List.map_cons, List.foldl_cons, List.flatMap_cons, ← List.append_assoc,
      ih (length_append_values h c), Formula.truth_or h, truth_condition, Truth.or_eq_yes,
      List.exists_mem_cons_iff, or_assoc]
    rfl

/-- A conjunction holds if all of its conditions do. -/
theorem truth_joined_and (h : vs.length = f.marks) (cs : List Condition) :
    ((cs.map (q.conditionFormula qualify)).foldl (.binary .and) f).truth row
        (vs ++ cs.flatMap (q.values qualify)) = .yes ↔
      f.truth row vs = .yes ∧ ∀ c ∈ cs, q.holds qualify row c = .yes := by
  induction cs generalizing f vs with
  | nil => simp
  | cons c cs ih =>
    rw [List.map_cons, List.foldl_cons, List.flatMap_cons, ← List.append_assoc,
      ih (length_append_values h c), Formula.truth_and h, truth_condition, Truth.and_eq_yes,
      List.forall_mem_cons, and_assoc]
    rfl

theorem truth_some (q : Query) (qualify : Bool) (row : Valuation) (c : Condition)
    (cs : List Condition) :
    ((cs.map (q.conditionFormula qualify)).foldl (.binary .or) (q.conditionFormula qualify c)).truth
        row ((c :: cs).flatMap (q.values qualify)) = .yes ↔
      ∃ d ∈ c :: cs, q.holds qualify row d = .yes := by
  rw [List.flatMap_cons, truth_joined_or (q.length_values c), truth_condition,
    List.exists_mem_cons_iff]
  rfl

theorem truth_every (q : Query) (qualify : Bool) (row : Valuation) (c : Condition)
    (cs : List Condition) :
    ((cs.map (q.conditionFormula qualify)).foldl (.binary .and) (q.conditionFormula qualify c)).truth
        row ((c :: cs).flatMap (q.values qualify)) = .yes ↔
      ∀ d ∈ c :: cs, q.holds qualify row d = .yes := by
  rw [List.flatMap_cons, truth_joined_and (q.length_values c), truth_condition,
    List.forall_mem_cons]
  rfl

/-- Whether a row passes the predicate, which every row does if there is none. -/
def Passes (q : Query) (qualify : Bool) (row : Valuation) : Prop :=
  ∀ f p, q.formula? qualify = some f → q.predicate? qualify = some p → f.truth row p.params = .yes

def filtered (q : Query) (s : Selection) : Query :=
  { q with tree := none, conditions := s.conditions, orGroups := s.orGroups }

/-- Whether a row passes the criteria as the only filter, which they have to resolve to. -/
def Accepts (q : Query) (qualify : Bool) (row : Valuation) (c : Criteria) : Prop :=
  ∃ s, c.resolve = .ok s ∧ (q.filtered s).Passes qualify row

theorem passes_conditions_iff (cs : List Condition) :
    (q.filtered ⟨cs, []⟩).Passes qualify row ↔ ∀ c ∈ cs, q.holds qualify row c = .yes := by
  cases cs with
  | nil =>
    refine ⟨fun _ c hc => absurd hc List.not_mem_nil, fun _ f p hf => ?_⟩
    exact absurd hf (by simp [formula?, conjuncts, filtered, Formula.joined?])
  | cons c cs =>
    have hformula : (q.filtered ⟨c :: cs, []⟩).formula? qualify =
        some ((cs.map (q.conditionFormula qualify)).foldl (.binary .and)
          (q.conditionFormula qualify c)) := by
      simp [formula?, conjuncts, filtered, Formula.joined?]
      rfl
    have hpredicate : (q.filtered ⟨c :: cs, []⟩).predicate? qualify =
        some (Fragment.joined " AND " ((c :: cs).map (q.condition qualify))) := by
      simp [predicate?, clauses, filtered]
      rfl
    have hparams : (Fragment.joined " AND " ((c :: cs).map (q.condition qualify))).params =
        (c :: cs).flatMap (q.values qualify) := by
      rw [Fragment.params_joined, List.flatMap_map]
      rfl
    rw [← q.truth_every qualify row c cs, ← hparams]
    refine ⟨fun h => h _ _ hformula hpredicate, fun h f p hf hp => ?_⟩
    rw [hformula] at hf
    rw [hpredicate] at hp
    cases hf
    cases hp
    exact h

end Query

end LiveQuery
