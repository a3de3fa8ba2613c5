import LiveQuery.Context
import LiveQuery.Dialogue

/-! Running a query: all rows, the first row, the number of rows. Related rows are
loaded in one batch for each relation and attached to the rows they belong to. -/

namespace LiveQuery

def parentIds (idColumn : String) (rows : List Row) : List Int64 :=
  distinct ((rows.filterMap (Row.id? · idColumn)).mergeSort fun a b => a ≤ b)
where
  /-- Drops repetitions next to each other. -/
  distinct : List Int64 → List Int64
    | [] => []
    | [a] => [a]
    | a :: b :: rest => if a = b then distinct (b :: rest) else a :: distinct (b :: rest)

/-- The group that belongs to a row, none of them for a row without an id. -/
def groupOf (idColumn : String) (groups : List (Int64 × List Row)) (r : Row) : List Row :=
  ((r.id? idColumn).bind fun id => groups.lookup id).getD []

def attach (idColumn relation : String) (groups : List (Int64 × List Row)) (r : Row) : Row :=
  r.setRelated relation (groupOf idColumn groups r)

namespace Query

def loadEach (q : Query) (idColumn : String) (parents : List Int64) :
    List String → List Row → Inquiry (List Row)
  | [], rows => return rows
  | relation :: relations, rows => do
    let groups ← Inquiry.related q.table relation parents
    q.loadEach idColumn parents relations (rows.map (attach idColumn relation groups))

/-- Attaches the query's relations to the rows. Nothing is asked when there are no rows
or no relations. -/
def loadRelated (ctx : Context) (q : Query) (rows : List Row) : Inquiry (List Row) :=
  match q.relations, rows with
  | [], rows => return rows
  | _, [] => return []
  | relation :: relations, rows =>
    if ctx.hasRelations then
      let idColumn := ctx.config.idColumn
      q.loadEach idColumn (parentIds idColumn rows) (relation :: relations) rows
    else throw (.noRelatedLoader relation)

def fetchAll (ctx : Context) (q : Query) : Inquiry (List Row) := do
  q.loadRelated ctx (← Inquiry.execute q.select q.raw)

def fetchFirst (ctx : Context) (q : Query) : Inquiry (Option Row) := do
  match ← Inquiry.executeFirst q.selectFirst q.raw with
  | none => return none
  | some row => return (← q.loadRelated ctx [row]).getLast?

/-- Zero if the answer holds no count. -/
def fetchCount (q : Query) : Inquiry Int64 := do
  let row ← Inquiry.executeFirst q.count true
  return ((row.bind (Row.get? · "count")).bind Value.integer?).getD 0

end Query

end LiveQuery
