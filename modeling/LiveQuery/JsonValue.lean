import LiveQuery.Json
import LiveQuery.Value

/-! Values and JSON: scalars of a document as values, and values written as text. -/

namespace LiveQuery

/-- The scalar that a JSON value is. Integers beyond 64 signed bits become reals. -/
def Value.ofJson? : Json → Option Value
  | .null => some .null
  | .boolean b => some (.boolean b)
  | .integer n =>
    some (if Int64.minValue.toInt ≤ n ∧ n ≤ Int64.maxValue.toInt then .integer (Int64.ofInt n)
      else .real (Binary64.ofInt n))
  | .real x => some (.real x)
  | .text s => some (.text s)
  | .array _ => none
  | .object _ => none

/-- Lower-case hexadecimal digits of `n`, at least four. -/
def hex4 (n : Nat) : List Char :=
  let ds := Nat.toDigits 16 n
  List.replicate (4 - ds.length) '0' ++ ds

/-- Only the quote, the backslash and control characters are escaped. -/
def escaped (c : Char) : List Char :=
  if c = '"' then ['\\', '"']
  else if c = '\\' then ['\\', '\\']
  else if c = '\x08' then ['\\', 'b']
  else if c = '\x0c' then ['\\', 'f']
  else if c = '\n' then ['\\', 'n']
  else if c = '\r' then ['\\', 'r']
  else if c = '\t' then ['\\', 't']
  else if c.toNat < 32 then '\\' :: 'u' :: hex4 c.toNat
  else [c]

def jsonString (s : String) : String :=
  String.ofList ('"' :: s.toList.flatMap escaped ++ ['"'])

def jsonArray (items : List String) : String :=
  "[" ++ ",".intercalate items ++ "]"

def jsonObject (members : List (String × String)) : String :=
  "\x7b" ++ ",".intercalate (members.map fun (k, v) => jsonString k ++ ":" ++ v) ++ "\x7d"

/-- Reals without a text are `null`; times are strings. -/
def Value.toJson : Value → String
  | null => "null"
  | boolean b => if b then "true" else "false"
  | integer n => toString n.toInt
  | real x => x.toText?.getD "null"
  | text s => jsonString s
  | timestamp t => jsonString t.toExactText
  | date d => jsonString d.toText

end LiveQuery
