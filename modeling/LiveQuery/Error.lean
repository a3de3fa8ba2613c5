/-! What can go wrong when a query is built or run, and how it is told. -/

namespace LiveQuery

inductive FilterFault
  | notAnObject
  | orNotAnArray
  | orWithoutBranch
  | nestedKey (key : String)
  | unsupportedKey (key : String)
  | listOfOthers (field : String)
  | strayBranches (field : String)
  | listExpected (field : String)
  | scalarExpected (key field : String)
deriving DecidableEq

def FilterFault.message : FilterFault → String
  | notAnObject => "criteria must be a JSON object"
  | orNotAnArray => "'$or' expects an array of objects"
  | orWithoutBranch => "'$or' requires at least one branch"
  | nestedKey key => "'" ++ key ++ "' is not allowed inside '$or'"
  | unsupportedKey key => "unsupported top-level key '" ++ key ++ "'"
  | listOfOthers field => "list for '" ++ field ++ "' must contain scalars"
  | strayBranches field => "branches are only allowed under '$or', found on '" ++ field ++ "'"
  | listExpected field => "'$in' on '" ++ field ++ "' expects a list"
  | scalarExpected key field => "'" ++ key ++ "' on '" ++ field ++ "' expects a scalar"

inductive QueryError
  | unknownOperator (field operator : String)
  | invalidFilter (fault : FilterFault)
  | noJoinResolver (table : String)
  | noRelationship (fromTable toTable : String)
  | noRelatedLoader (relation : String)
  /-- A collaborator's own failure. -/
  | execution (message : String)
deriving DecidableEq

def QueryError.message : QueryError → String
  | unknownOperator field operator =>
    "Unknown filter operator '" ++ operator ++ "' on field '" ++ field ++ "'"
  | invalidFilter fault => "Invalid filter: " ++ fault.message
  | noJoinResolver table => "Cannot join '" ++ table ++ "': no join resolver configured"
  | noRelationship fromTable toTable =>
    "No relationship between '" ++ fromTable ++ "' and '" ++ toTable ++ "'"
  | noRelatedLoader relation =>
    "Cannot load relation '" ++ relation ++ "': no related loader configured"
  | execution message => message

end LiveQuery
