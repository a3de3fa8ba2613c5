import LiveQuery.Config
import LiveQuery.Criteria
import LiveQuery.Query

/-! Building a query step by step in a context that knows how tables are related. A
step either changes the query or refuses, and then the query stays as it was. -/

namespace LiveQuery

/-- Columns that join two tables: `fromTable.foreignKey = toTable.primaryKey`. -/
structure JoinKeys where
  foreignKey : String
  primaryKey : String

structure Context where
  config : Config := {}
  /-- Finds the keys that join one table to another. -/
  joinKeys : Option (String → String → Option JoinKeys) := none
  /-- Adapts criteria on a table before they are resolved. -/
  adapt : String → Criteria → Criteria := fun _ c => c
  hasRevisions : Bool := false
  hasRelations : Bool := false

/-- One call in the building of a query. -/
inductive Step
  | select (columns : List String)
  | filter (criteria : Criteria)
  | filterJson (j : Json)
  | filterTree (e : Expression)
  | orderBy (field : String) (direction : Direction)
  | limit (n : UInt64)
  | offset (n : UInt64)
  | join (table : String) (columns : List String)
  | joinOn (table fromColumn toColumn : String) (columns : List String)
  | raw
  | withRelated (relations : List String)

namespace Query

def filter (ctx : Context) (criteria : Criteria) (q : Query) : Except QueryError Query := do
  let s ← (ctx.adapt q.table criteria).resolve
  return { q with conditions := q.conditions ++ s.conditions, orGroups := q.orGroups ++ s.orGroups }

/-- A join makes the result raw. -/
def addJoin (j : Join) (q : Query) : Query := { q with joins := q.joins ++ [j], raw := true }

/-- The join of a table through its known relationship. -/
def relationship (ctx : Context) (table : String) (columns : List String) (q : Query) :
    Except QueryError Join :=
  match ctx.joinKeys with
  | none => .error (.noJoinResolver table)
  | some keys =>
    match keys q.table table with
    | none => .error (.noRelationship q.table table)
    | some k => .ok ⟨table, k.foreignKey, k.primaryKey, columns⟩

def withRelated (ctx : Context) (relations : List String) (q : Query) : Except QueryError Query :=
  if ctx.hasRelations then .ok { q with relations := q.relations ++ relations }
  else
    match relations with
    | [] => .ok q
    | relation :: _ => .error (.noRelatedLoader relation)

def step (ctx : Context) (q : Query) : Step → Except QueryError Query
  | .select columns => .ok { q with columns := q.columns ++ columns }
  | .filter criteria => q.filter ctx criteria
  | .filterJson j => do q.filter ctx (← Criteria.ofJson j)
  | .filterTree e => .ok (q.andTree e)
  | .orderBy field direction => .ok { q with ordering := q.ordering ++ [⟨field, direction⟩] }
  | .limit n => .ok { q with limit := some n }
  | .offset n => .ok { q with offset := some n }
  | .join table columns => return q.addJoin (← q.relationship ctx table columns)
  | .joinOn table fromColumn toColumn columns =>
    .ok (q.addJoin ⟨table, fromColumn, toColumn, columns⟩)
  | .raw => .ok { q with raw := true }
  | .withRelated relations => q.withRelated ctx relations

def steps (ctx : Context) (q : Query) (ss : List Step) : Except QueryError Query :=
  ss.foldlM (step ctx) q

end Query

end LiveQuery
