import LiveQuery.Binary64

/-! JSON documents as values. Members keep the order in which their keys first
appeared; of a repeated key the last value counts. -/

namespace LiveQuery

inductive Json
  | null
  | boolean (b : Bool)
  | integer (n : Int)
  | real (x : Binary64)
  | text (s : String)
  | array (items : List Json)
  | object (members : List (String × Json))

end LiveQuery
