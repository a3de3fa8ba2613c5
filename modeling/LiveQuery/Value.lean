import LiveQuery.Calendar
import LiveQuery.Decimal

/-! Scalar values: what filters compare with, what statements bind and what rows hold. -/

namespace LiveQuery

inductive Value
  | null
  | boolean (b : Bool)
  | integer (n : Int64)
  | real (x : Binary64)
  | text (s : String)
  | timestamp (t : Timestamp)
  | date (d : Date)
deriving DecidableEq

namespace Value

/-- Equality of values of one kind, numeric on reals. -/
def equal : Value → Value → Bool
  | real x, real y => x.equal y
  | v, w => v = w

/-- The form in which filters bind a value: booleans as 1 and 0, times as ISO 8601
text, everything else unchanged. -/
def toParam : Value → Value
  | boolean b => integer (if b then 1 else 0)
  | timestamp t => text t.toText
  | date d => text d.toText
  | v => v

def isNull : Value → Bool
  | null => true
  | _ => false

/-- An integer pressed into the signed 64-bit range. -/
def saturate (n : Int) : Int64 :=
  if n < Int64.minValue.toInt then Int64.minValue
  else if Int64.maxValue.toInt < n then Int64.maxValue
  else Int64.ofInt n

/-- The integer view: integers, integral reals, and text that is a numeral. -/
def integer? : Value → Option Int64
  | integer n => some n
  | real x => x.integer?.map saturate
  | text s => signed? s
  | _ => none

def text? : Value → Option String
  | text s => some s
  | _ => none

end Value

end LiveQuery
