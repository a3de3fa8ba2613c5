/-! Names of tables and columns. Dots separate their segments. -/

namespace LiveQuery

def segments : List Char → List (List Char)
  | [] => [[]]
  | c :: cs => if c = '.' then [] :: segments cs else (segments cs).modifyHead (c :: ·)

/-- A segment in double quotes, with each quote in it written twice. -/
def quoted (segment : List Char) : List Char :=
  '"' :: segment.flatMap (fun c => if c = '"' then ['"', '"'] else [c]) ++ ['"']

def quotedName (name : String) : String :=
  String.ofList (['.'].intercalate ((segments name.toList).map quoted))

/-- A bare column name under its table; a dotted one stands as it is. -/
def qualified (table column : String) : String :=
  if '.' ∈ column.toList then column else table ++ "." ++ column

end LiveQuery
