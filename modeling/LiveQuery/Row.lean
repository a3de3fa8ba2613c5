import LiveQuery.JsonValue
import LiveQuery.Keyed

/-! Result rows: columns in the order they were first set, and beside them related
collections, which never meet the columns. -/

namespace LiveQuery

structure Row where
  columns : List (String × Value) := []
  /-- In ascending order of relation names. -/
  related : List (String × List Row) := []

namespace Row

def set (r : Row) (column : String) (v : Value) : Row :=
  { r with columns := Keyed.put column v r.columns }

def ofColumns (columns : List (String × Value)) : Row :=
  columns.foldl (fun r (c, v) => r.set c v) {}

def get? (r : Row) (column : String) : Option Value := Keyed.get? column r.columns

def id? (r : Row) (idColumn : String) : Option Int64 := (r.get? idColumn).bind Value.integer?

def remove (r : Row) (column : String) : Row :=
  { r with columns := Keyed.erase column r.columns }

/-- Takes a column out of the row, with its value. -/
def take (r : Row) (column : String) : Option Value × Row :=
  match Keyed.take? column r.columns with
  | some (v, columns) => (some v, { r with columns := columns })
  | none => (none, r)

def size (r : Row) : Nat := r.columns.length

def related? (r : Row) (relation : String) : Option (List Row) := Keyed.get? relation r.related

def setRelated (r : Row) (relation : String) (rows : List Row) : Row :=
  { r with related := Keyed.insert relation rows r.related }

def columnsEqual : List (String × Value) → List (String × Value) → Bool
  | [], [] => true
  | (c, v) :: cs, (d, w) :: ds => c = d && v.equal w && columnsEqual cs ds
  | _, _ => false

mutual

def equal : Row → Row → Bool
  | ⟨cs, rs⟩, ⟨ds, ss⟩ => columnsEqual cs ds && relatedEqual rs ss

def relatedEqual : List (String × List Row) → List (String × List Row) → Bool
  | [], [] => true
  | (n, rows) :: rs, (m, rows') :: ss => n = m && rowsEqual rows rows' && relatedEqual rs ss
  | _, _ => false

def rowsEqual : List Row → List Row → Bool
  | [], [] => true
  | r :: rs, s :: ss => equal r s && rowsEqual rs ss
  | _, _ => false

end

def columnsJson (columns : List (String × Value)) : String :=
  jsonArray (columns.map fun (c, v) => jsonArray [jsonString c, v.toJson])

mutual

/-- The row as a JSON object; without collections they are left out. -/
def toJson : Row → String
  | ⟨columns, []⟩ => jsonObject [("columns", columnsJson columns)]
  | ⟨columns, rel :: rels⟩ =>
    jsonObject [("columns", columnsJson columns), ("related", jsonObject (relatedJson (rel :: rels)))]

def relatedJson : List (String × List Row) → List (String × String)
  | [] => []
  | (n, rows) :: rest => (n, jsonArray (rowsJson rows)) :: relatedJson rest

def rowsJson : List Row → List String
  | [] => []
  | r :: rest => r.toJson :: rowsJson rest

end

end Row

end LiveQuery
