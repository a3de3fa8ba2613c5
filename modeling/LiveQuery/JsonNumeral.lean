import LiveQuery.Binary64
import LiveQuery.Numeral

/-! Numbers of a JSON text, as integers and as reals. A real is read in double
arithmetic: its leading digits make a 64-bit word, and the power of ten that is left
is one multiplication or division. Each step rounds, so the result can miss the double
nearest to the numeral by a place. -/

namespace LiveQuery

/-- The digits before and after the point, and the exponent if one is written. -/
structure JsonNumeral where
  negative : Bool
  whole : List Char
  places : List Char
  exponent : Option Int

namespace JsonNumeral

/-- The magnitude of a numeral with neither fraction nor exponent that fits a 64-bit
word. -/
def word? (n : JsonNumeral) : Option Nat :=
  if n.places.isEmpty && n.exponent.isNone && natural n.whole < Nat.pow 2 64 then
    some (natural n.whole)
  else none

/-- The integer of such a numeral; the lower bound is that of 64 signed bits. A negative
zero is no integer. -/
def integer? (n : JsonNumeral) : Option Int :=
  n.word?.bind fun m =>
    if n.negative then (if 0 < m ∧ m ≤ Nat.pow 2 63 then some (-(m : Int)) else none) else some m

/-- Appends digits to a number as long as it fits a 64-bit word, and gives what is left
of them. -/
def extend : Nat → List Char → Nat × List Char
  | n, [] => (n, [])
  | n, c :: cs =>
    let m := 10 * n + (c.toNat - '0'.toNat)
    if m < Nat.pow 2 64 then extend m cs else (n, c :: cs)

/-- The greatest exponent of ten whose power is a finite double. -/
def topExponent : Nat := 308

/-- Divides by the greatest power of ten a number of times, until nothing is left. -/
def divideByTop? : Nat → Binary64 → Option Binary64
  | 0, x => some x
  | k + 1, x => do
    if x.isZero then return x
    divideByTop? k (← x.div? (← Binary64.powerOfTen? topExponent))

/-- `x / 10^n` for a positive `n`, by the greatest power as long as the exponent exceeds
its own. -/
def scaleDown? (x : Binary64) (n : Nat) : Option Binary64 := do
  let steps := (n - 1) / topExponent
  let y ← divideByTop? steps x
  y.div? (← Binary64.powerOfTen? (n - steps * topExponent))

def scale? (x : Binary64) (e : Int) : Option Binary64 :=
  if e < 0 then scaleDown? x e.natAbs
  else if e ≤ topExponent then (Binary64.powerOfTen? e.toNat).bind x.mul?
  else if x.isZero then some x
  else none

/-- The real that a numeral is read as. Digits of the whole part that do not fit the
word count as zeros, and those of the fraction are dropped. -/
def real? (n : JsonNumeral) : Option Binary64 := do
  let (m, dropped) := extend 0 n.whole
  let (m, unused) := extend m n.places
  let kept := n.places.length - unused.length
  let x ← scale? (← Binary64.ofNat? m) (n.exponent.getD 0 + dropped.length - kept)
  some (Binary64.signed n.negative x.bits.toNat)

end JsonNumeral

end LiveQuery
