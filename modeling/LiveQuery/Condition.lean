import LiveQuery.Value

/-! The flat parts of a query: comparisons of a field, inner joins and ordering. -/

namespace LiveQuery

/-- Comparisons that a filter names by an operator key. -/
inductive RangeOp
  | gt | ge | lt | le | ne
deriving DecidableEq

namespace RangeOp

def ofKey? : String → Option RangeOp
  | "$gt" => some gt
  | "$gte" => some ge
  | "$lt" => some lt
  | "$lte" => some le
  | "$ne" => some ne
  | _ => none

def sql : RangeOp → String
  | gt => ">"
  | ge => ">="
  | lt => "<"
  | le => "<="
  | ne => "!="

end RangeOp

inductive Test
  | equals (v : Value)
  | range (op : RangeOp) (v : Value)
  | among (vs : List Value)
deriving DecidableEq

structure Condition where
  field : String
  test : Test
deriving DecidableEq

/-- Conditions of which one has to hold. -/
abbrev OrGroup := List Condition

structure Join where
  table : String
  /-- On the base table. -/
  fromColumn : String
  /-- On the joined table. -/
  toColumn : String
  /-- Columns taken from the joined table, all if there are none. -/
  columns : List String
deriving DecidableEq

inductive Direction
  | ascending | descending
deriving DecidableEq

namespace Direction

def sql : Direction → String
  | ascending => "ASC"
  | descending => "DESC"

/-- Reads `asc` or `desc` in any case; the error is the text in lower case. Only ASCII
letters have cases here. -/
def read (s : String) : Except String Direction :=
  let lower := String.ofList (s.toList.map Char.toLower)
  if lower = "asc" then .ok ascending
  else if lower = "desc" then .ok descending
  else .error lower

def unknown (text : String) : String := "Unknown sort direction: " ++ text

end Direction

structure SortKey where
  field : String
  direction : Direction
deriving DecidableEq

end LiveQuery
