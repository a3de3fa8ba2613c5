import LiveQuery.Query

/-! The names in a query that are written into its statements as they are given. -/

namespace LiveQuery

namespace Expression

theorem fragments_eq_map (es : List Expression) : fragments es = es.map fragment := by
  induction es with
  | nil => rfl
  | cons e es ih => rw [fragments, ih, List.map_cons]

@[elab_as_elim, induction_eliminator]
theorem induct {P : Expression → Prop} (column : ∀ name, P (column name))
    (literal : ∀ v, P (literal v))
    (binary : ∀ op l r, P l → P r → P (binary op l r))
    (unary : ∀ op e, P e → P (unary op e))
    (call : ∀ name args, (∀ a ∈ args, P a) → P (call name args))
    (member : ∀ negated e items, P e → (∀ a ∈ items, P a) → P (member negated e items))
    (e : Expression) : P e :=
  @Expression.rec P (fun es => ∀ a ∈ es, P a) column literal binary unary call member
    (fun _ ha => absurd ha List.not_mem_nil)
    (fun _ _ he hes => List.forall_mem_cons.mpr ⟨he, hes⟩) e

mutual

def functions : Expression → List String
  | column _ => []
  | literal _ => []
  | binary _ l r => l.functions ++ r.functions
  | unary _ e => e.functions
  | call name args => name :: functionsAll args
  | member _ e items => e.functions ++ functionsAll items

def functionsAll : List Expression → List String
  | [] => []
  | e :: es => e.functions ++ functionsAll es

end

theorem functionsAll_eq_flatMap (es : List Expression) :
    functionsAll es = es.flatMap functions := by
  induction es with
  | nil => rfl
  | cons e es ih => rw [functionsAll, ih, List.flatMap_cons]

end Expression

namespace Query

/-- The names outside the select list. Columns in a tree are quoted and do not count. -/
structure Named (P : String → Prop) (q : Query) : Prop where
  table : P q.table
  conditions : ∀ c ∈ q.conditions, P c.field
  orGroups : ∀ g ∈ q.orGroups, ∀ c ∈ g, P c.field
  functions : ∀ e ∈ q.tree, ∀ f ∈ e.functions, P f
  joins : ∀ j ∈ q.joins, P j.table ∧ P j.fromColumn ∧ P j.toColumn
  ordering : ∀ o ∈ q.ordering, P o.field

structure Selects (P : String → Prop) (q : Query) : Prop where
  columns : ∀ c ∈ q.columns, P c
  joined : ∀ j ∈ q.joins, ∀ c ∈ j.columns, P c

end Query

end LiveQuery
