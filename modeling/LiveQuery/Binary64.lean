/-! Double-precision numbers as their 64 bits. A finite one is `±m · 2^e` with natural
`m`; all arithmetic here is exact arithmetic on `m` and `e`. -/

namespace LiveQuery

structure Binary64 where
  bits : UInt64
deriving DecidableEq

namespace Binary64

def negative (x : Binary64) : Bool := Nat.pow 2 63 ≤ x.bits.toNat

def exponentField (x : Binary64) : Nat := x.bits.toNat / Nat.pow 2 52 % Nat.pow 2 11

def fractionField (x : Binary64) : Nat := x.bits.toNat % Nat.pow 2 52

def isFinite (x : Binary64) : Bool := x.exponentField ≠ 2047

def isNaN (x : Binary64) : Bool := !x.isFinite && x.fractionField ≠ 0

def isZero (x : Binary64) : Bool := x.exponentField = 0 && x.fractionField = 0

def significand (x : Binary64) : Nat :=
  if x.exponentField = 0 then x.fractionField else Nat.pow 2 52 + x.fractionField

def exponent (x : Binary64) : Int := (max x.exponentField 1 : Nat) - 1075

/-- Numeric equality: the zeros are equal and a NaN equals nothing. -/
def equal (x y : Binary64) : Bool :=
  !x.isNaN && !y.isNaN && (x.bits = y.bits || x.isZero && y.isZero)

def signed (negative : Bool) (magnitude : Nat) : Binary64 :=
  ⟨UInt64.ofNat ((if negative then Nat.pow 2 63 else 0) + magnitude)⟩

/-- The integer that `x` is, if it is one. -/
def integer? (x : Binary64) : Option Int :=
  let sign : Int := if x.negative then -1 else 1
  if !x.isFinite then none
  else if 0 ≤ x.exponent then some (sign * (x.significand * Nat.pow 2 x.exponent.toNat))
  else
    let unit := Nat.pow 2 (-x.exponent).toNat
    if x.significand % unit = 0 then some (sign * (x.significand / unit : Nat)) else none

/-- The quotient rounded to nearest, a half to the even neighbour. -/
def roundDiv (num den : Nat) : Nat :=
  let q := num / den
  let r := num % den
  if 2 * r < den ∨ 2 * r = den ∧ q % 2 = 0 then q else q + 1

/-- The double nearest to `± num / den`, none if it is beyond the finite ones. The
exponent `e` leaves at most 53 bits, and rounding up to the next power of two carries
into the exponent field. -/
def ofRatio? (negative : Bool) (num den : Nat) : Option Binary64 :=
  let low : Int := max (-1074) ((num.log2 : Int) - den.log2 - 53)
  let scaled (e : Int) : Nat × Nat := (num * Nat.pow 2 (-e).toNat, den * Nat.pow 2 e.toNat)
  let e := if (scaled low).1 / (scaled low).2 < Nat.pow 2 53 then low else low + 1
  let magnitude := (e + 1074).toNat * Nat.pow 2 52 + roundDiv (scaled e).1 (scaled e).2
  if num = 0 then some (signed negative 0)
  else if magnitude < 2047 * Nat.pow 2 52 then some (signed negative magnitude)
  else none

def numerator (x : Binary64) : Nat := x.significand * Nat.pow 2 x.exponent.toNat

def denominator (x : Binary64) : Nat := Nat.pow 2 (-x.exponent).toNat

def mul? (x y : Binary64) : Option Binary64 :=
  ofRatio? (x.negative != y.negative) (x.numerator * y.numerator) (x.denominator * y.denominator)

/-- The quotient of two finite doubles, the second not zero; none if it is infinite. -/
def div? (x y : Binary64) : Option Binary64 :=
  ofRatio? (x.negative != y.negative) (x.numerator * y.denominator) (x.denominator * y.numerator)

def ofNat? (n : Nat) : Option Binary64 := ofRatio? false n 1

/-- The double nearest to an integer, an infinity if it is beyond the finite ones. -/
def ofInt (n : Int) : Binary64 :=
  (ofRatio? (n < 0) n.natAbs 1).getD (signed (n < 0) (2047 * Nat.pow 2 52))

def powerOfTen? (n : Nat) : Option Binary64 := ofNat? (Nat.pow 10 n)

end Binary64

end LiveQuery
