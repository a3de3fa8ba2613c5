import LiveQuery.Condition
import LiveQuery.Expression

/-! A query under construction, and the statements it stands for. A tree filter takes
the place of the flat conditions; groups of alternatives are added to either. -/

namespace LiveQuery

structure Query where
  table : String
  columns : List String := []
  conditions : List Condition := []
  orGroups : List OrGroup := []
  tree : Option Expression := none
  joins : List Join := []
  limit : Option UInt64 := none
  offset : Option UInt64 := none
  ordering : List SortKey := []
  /-- Relations whose rows are attached to the result. -/
  relations : List String := []
  /-- Whether rows come back flat and not in the table's own shape. -/
  raw : Bool := false

namespace Query

def hasJoins (q : Query) : Bool := !q.joins.isEmpty

def isFiltered (q : Query) : Bool := q.tree.isSome || !q.conditions.isEmpty || !q.orGroups.isEmpty

def andTree (q : Query) (e : Expression) : Query :=
  { q with tree := some (match q.tree with
    | some t => .binary .and t e
    | none => e) }

end Query

namespace Condition

/-- A test with a value binds its parameter form. Equality with null is a null test,
and nothing is among no values. -/
def fragment (field : String) : Test → Fragment
  | .equals .null => (field ++ " IS NULL" : String)
  | .equals v => [.sql (field ++ " = "), .bound v.toParam]
  | .range op v => [.sql (field ++ " " ++ op.sql ++ " "), .bound v.toParam]
  | .among [] => "1 = 0"
  | .among (v :: vs) =>
    (field ++ " IN (" : String) ++
      Fragment.joined ", " ((v :: vs).map fun w => [.bound w.toParam]) ++ ")"

end Condition

namespace Query

def fieldName (q : Query) (qualify : Bool) (field : String) : String :=
  if qualify then qualified q.table field else field

def condition (q : Query) (qualify : Bool) (c : Condition) : Fragment :=
  Condition.fragment (q.fieldName qualify c.field) c.test

/-- A group without alternatives is not written. -/
def orGroup? (q : Query) (qualify : Bool) (g : OrGroup) : Option Fragment :=
  if g.isEmpty then none else some ("(" ++ Fragment.joined " OR " (g.map (q.condition qualify)) ++ ")")

/-- What has to hold of a row, clause by clause. -/
def clauses (q : Query) (qualify : Bool) : List Fragment :=
  (match q.tree with
    | some e => [e.fragment]
    | none => q.conditions.map (q.condition qualify)) ++
  q.orGroups.filterMap (q.orGroup? qualify)

def predicate? (q : Query) (qualify : Bool) : Option Fragment :=
  match q.clauses qualify with
  | [] => none
  | c :: cs => some (Fragment.joined " AND " (c :: cs))

def whereClause (q : Query) (qualify : Bool) : Fragment :=
  match q.predicate? qualify with
  | some p => " WHERE " ++ p
  | none => []

/-- The selected columns, all of the table's if none is named, and those of the joined
tables under names of their own. -/
def selectList (q : Query) : String :=
  ", ".intercalate
    ((if q.columns.isEmpty then [q.table ++ ".*"] else q.columns.map (qualified q.table)) ++
      q.joins.flatMap fun j =>
        if j.columns.isEmpty then [j.table ++ ".*"]
        else j.columns.map fun c => j.table ++ "." ++ c ++ " AS " ++ j.table ++ "_" ++ c)

def joinClauses (q : Query) : String :=
  String.join (q.joins.map fun j =>
    " JOIN " ++ j.table ++ " ON " ++ q.table ++ "." ++ j.fromColumn ++ " = " ++
      j.table ++ "." ++ j.toColumn)

def orderClause (q : Query) : String :=
  if q.ordering.isEmpty then ""
  else " ORDER BY " ++ ", ".intercalate (q.ordering.map fun o => o.field ++ " " ++ o.direction.sql)

def pageClause (q : Query) : String :=
  (match q.limit with
    | some n => " LIMIT " ++ toString n.toNat
    | none => "") ++
  (match q.offset with
    | some n => " OFFSET " ++ toString n.toNat
    | none => "")

def selectFragment (q : Query) : Fragment :=
  ("SELECT " ++ q.selectList ++ " FROM " ++ q.table ++ q.joinClauses : String) ++
    q.whereClause q.hasJoins ++ (q.orderClause ++ q.pageClause : String)

/-- Counts the rows of the table under the predicate. Joins are left out, so fields are
written as they are given. -/
def countFragment (q : Query) : Fragment :=
  ("SELECT COUNT(*) AS count FROM " ++ q.table : String) ++ q.whereClause false

/-- The number of rows and their greatest id, with the joins. -/
def fingerprintFragment (q : Query) (idColumn : String) : Fragment :=
  ("SELECT COUNT(*) AS row_count, MAX(" ++ q.fieldName q.hasJoins idColumn ++ ") AS max_id FROM " ++
    q.table ++ q.joinClauses : String) ++ q.whereClause q.hasJoins

end Query

/-- The column that carries the base table's id through a join. -/
def watermarkColumn : String := "__watermark_id"

namespace Query

/-- The predicate as a whole, and the id past the watermark. -/
def pastClause (q : Query) (id : String) (watermark : Int64) : Fragment :=
  match q.predicate? q.hasJoins with
  | some p => .sql " WHERE (" :: p ++ [.sql (") AND " ++ id ++ " > "), .bound (.integer watermark)]
  | none => [.sql (" WHERE " ++ id ++ " > "), .bound (.integer watermark)]

/-- The rows past a watermark in the order of their ids, with the id once more under a
name that no joined table shadows. Ordering and paging of the query do not apply. -/
def incrementalFragment (q : Query) (idColumn : String) (watermark : Int64) : Fragment :=
  let id := qualified q.table idColumn
  ("SELECT " ++ q.selectList ++ ", " ++ id ++ " AS " ++ watermarkColumn ++ " FROM " ++ q.table ++
    q.joinClauses : String) ++ q.pastClause id watermark ++ (" ORDER BY " ++ id ++ " ASC" : String)

def select (q : Query) : Statement := q.selectFragment.statement

def selectFirst (q : Query) : Statement := { q with limit := some 1 }.select

def count (q : Query) : Statement := q.countFragment.statement

def fingerprint (q : Query) (idColumn : String) : Statement :=
  (q.fingerprintFragment idColumn).statement

def incremental (q : Query) (idColumn : String) (watermark : Int64) : Statement :=
  (q.incrementalFragment idColumn watermark).statement

end Query

end LiveQuery
