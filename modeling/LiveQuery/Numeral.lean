/-! Decimal numerals in text: reading them with the range of the integer kind in
question, and writing them with leading zeros to a fixed width. -/

namespace LiveQuery

def natural (ds : List Char) : Nat :=
  ds.foldl (fun n c => 10 * n + (c.toNat - '0'.toNat)) 0

def digits? (cs : List Char) : Option Nat :=
  if cs.isEmpty || !cs.all Char.isDigit then none else some (natural cs)

/-- Reads `[+]digits` up to the largest 64-bit word. -/
def unsigned? (s : String) : Option UInt64 := do
  let n ← digits? (match s.toList with
    | '+' :: cs => cs
    | cs => cs)
  if n < UInt64.size then some (UInt64.ofNat n) else none

/-- Reads `[+-]digits` within the signed 64-bit range. -/
def signed? (s : String) : Option Int64 := do
  let n : Int ← match s.toList with
    | '-' :: cs => (digits? cs).map fun n => -(n : Int)
    | '+' :: cs => (digits? cs).map Int.ofNat
    | cs => (digits? cs).map Int.ofNat
  if Int64.minValue.toInt ≤ n ∧ n ≤ Int64.maxValue.toInt then some (Int64.ofInt n) else none

/-- The decimal digits of `n`, with zeros in front up to `width`. -/
def padded (width n : Nat) : List Char :=
  let ds := Nat.toDigits 10 n
  List.replicate (width - ds.length) '0' ++ ds

end LiveQuery
