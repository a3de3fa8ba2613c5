import LiveQuery.Condition
import LiveQuery.Error
import LiveQuery.JsonValue

/-! Filters in object style: entries `field → operand` in order, where an operand is a
scalar (equality), a list (membership) or a map of operator keys, and `$or` holds
branches of entries. They resolve to conditions that hold together, and to one group of
alternatives for each `$or`. -/

namespace LiveQuery

inductive Operand
  | scalar (v : Value)
  | list (vs : List Value)
  | operators (ops : List (String × Operand))
  | branches (bs : List (List (String × Operand)))

abbrev Criteria := List (String × Operand)

structure Selection where
  conditions : List Condition := []
  orGroups : List OrGroup := []
deriving DecidableEq

namespace Criteria

def entry (c : Criteria) (field : String) (operand : Operand) : Criteria := c ++ [(field, operand)]

def eq (c : Criteria) (field : String) (v : Value) : Criteria := c.entry field (.scalar v)

def isIn (c : Criteria) (field : String) (vs : List Value) : Criteria := c.entry field (.list vs)

def or (c : Criteria) (branches : List Criteria) : Criteria := c.entry "$or" (.branches branches)

/-- Adds an operator to the first operator map of the field, or as a new entry if the
field has none. -/
def op (c : Criteria) (field operator : String) (operand : Operand) : Criteria :=
  match c with
  | [] => [(field, .operators [(operator, operand)])]
  | (name, .operators ops) :: rest =>
    if name = field then (name, .operators (ops ++ [(operator, operand)])) :: rest
    else (name, .operators ops) :: op rest field operator operand
  | e :: rest => e :: op rest field operator operand

end Criteria

/-- Keys with a dollar sign in front are not fields. -/
def isReserved (key : String) : Bool := key.toList.head? = some '$'

def resolveOperator (field key : String) (operand : Operand) : Except QueryError Condition :=
  if key = "$in" then
    match operand with
    | .list vs => .ok ⟨field, .among vs⟩
    | .scalar v => .ok ⟨field, .among [v]⟩
    | _ => .error (.invalidFilter (.listExpected field))
  else
    match RangeOp.ofKey? key with
    | none => .error (.unknownOperator field key)
    | some op =>
      match operand with
      | .scalar v => .ok ⟨field, .range op v⟩
      | _ => .error (.invalidFilter (.scalarExpected key field))

def resolveField (field : String) : Operand → Except QueryError (List Condition)
  | .scalar v => .ok [⟨field, .equals v⟩]
  | .list vs => .ok [⟨field, .among vs⟩]
  | .operators ops => ops.mapM fun (key, operand) => resolveOperator field key operand
  | .branches _ => .error (.invalidFilter (.strayBranches field))

def resolveBranch (branch : Criteria) : Except QueryError (List Condition) :=
  List.flatten <$> branch.mapM fun (field, operand) =>
    if isReserved field then .error (.invalidFilter (.nestedKey field)) else resolveField field operand

def resolveOr : Operand → Except QueryError OrGroup
  | .branches (b :: bs) => List.flatten <$> (b :: bs).mapM resolveBranch
  | _ => .error (.invalidFilter .orWithoutBranch)

/-- Resolves the entries in order; the first that does not resolve is reported. -/
def Criteria.resolve : Criteria → Except QueryError Selection
  | [] => .ok {}
  | (field, operand) :: rest =>
    if field = "$or" then do
      let group ← resolveOr operand
      let s ← resolve rest
      return { s with orGroups := group :: s.orGroups }
    else if isReserved field then .error (.invalidFilter (.unsupportedKey field))
    else do
      let conditions ← resolveField field operand
      let s ← resolve rest
      return { s with conditions := conditions ++ s.conditions }

namespace Operand

def listOfJson (field : String) (items : List Json) : Except QueryError (List Value) :=
  items.mapM fun j =>
    match Value.ofJson? j with
    | some v => .ok v
    | none => .error (.invalidFilter (.listOfOthers field))

mutual

/-- All but arrays and objects are scalars. -/
def ofJson (field : String) : Json → Except QueryError Operand
  | .array items => .list <$> listOfJson field items
  | .object members => .operators <$> operatorsOfJson field members
  | j => .ok (.scalar ((Value.ofJson? j).getD .null))

def operatorsOfJson (field : String) : List (String × Json) → Except QueryError (List (String × Operand))
  | [] => .ok []
  | (key, j) :: rest => do
    let operand ← ofJson field j
    let rest ← operatorsOfJson field rest
    return (key, operand) :: rest

end

end Operand

namespace Criteria

mutual

def ofJson : Json → Except QueryError Criteria
  | .object members => ofMembers members
  | _ => .error (.invalidFilter .notAnObject)

def ofMembers : List (String × Json) → Except QueryError Criteria
  | [] => .ok []
  | (key, .array branches) :: rest => do
    let operand ←
      if key = "$or" then Operand.branches <$> ofBranches branches
      else Operand.ofJson key (.array branches)
    let rest ← ofMembers rest
    return (key, operand) :: rest
  | (key, j) :: rest => do
    let operand ←
      if key = "$or" then .error (.invalidFilter .orNotAnArray) else Operand.ofJson key j
    let rest ← ofMembers rest
    return (key, operand) :: rest

def ofBranches : List Json → Except QueryError (List Criteria)
  | [] => .ok []
  | j :: rest => do
    let c ← ofJson j
    let rest ← ofBranches rest
    return c :: rest

end

end Criteria

end LiveQuery
