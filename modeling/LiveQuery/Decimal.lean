import LiveQuery.Binary64

/-! The shortest decimal that reads back as a given double: the points of the coarsest
power-of-ten grid that has one among the reals rounding to the double, and of those
the nearest. -/

namespace LiveQuery

structure Decimal where
  digits : Nat
  exponent : Int

namespace Decimal

/-- Quarter units of the last place of `x`, as `(low, high)` ends of the reals that
round to it. Below a power of two the units are half as wide. -/
def interval (x : Binary64) : Nat × Nat :=
  let m := x.significand
  (4 * m - (if m = Nat.pow 2 52 ∧ 1 < x.exponentField then 1 else 2), 4 * m + 2)

def common (c : Nat) (p : Int) (n : Nat) (q : Int) : Nat × Nat :=
  (c * Nat.pow 10 p.toNat * Nat.pow 2 (-q).toNat, n * Nat.pow 2 q.toNat * Nat.pow 10 (-p).toNat)

/-- Whether `c · 10^p` rounds to `x`; the ends belong to the even significand. -/
def roundsTo (x : Binary64) (c : Nat) (p : Int) : Bool :=
  let q := x.exponent - 2
  let (low, high) := interval x
  let (a, l) := common c p low q
  let (b, h) := common c p high q
  if x.significand % 2 = 0 then l ≤ a && b ≤ h else l < a && b < h

/-- The point of the grid `10^p` nearest to `x` among its two neighbours there that
round to `x`; a tie goes to the even one. -/
def nearest? (x : Binary64) (p : Int) : Option Decimal :=
  let (g, v) := common 1 p x.significand x.exponent
  let c := v / g
  match roundsTo x c p, roundsTo x (c + 1) p with
  | true, true => some ⟨Binary64.roundDiv v g, p⟩
  | true, false => some ⟨c, p⟩
  | false, true => some ⟨c + 1, p⟩
  | false, false => none

def firstGrid (x : Binary64) : Nat :=
  let n := x.numerator / x.denominator
  if n = 0 then 0 else (Nat.toDigits 10 n).length

/-- The grid `10^(-324)` is finer than the spacing of the doubles, so the search ends. -/
def shortest (x : Binary64) : Decimal :=
  let top := firstGrid x
  ((List.range (top + 325)).findSome? fun i => nearest? x (top - (i : Nat))).getD ⟨0, 0⟩

/-- Decimal exponents of the leading digit that are written in plain notation, the
last one excluded. -/
structure Plain where
  first : Int
  last : Int

/-- Plain from `0.00001` up to below `10000000000000000.0`. -/
def plain : Plain := ⟨-5, 16⟩

def chars (range : Plain) (d : Decimal) : List Char :=
  let ds := Nat.toDigits 10 d.digits
  let lead := ds.length - 1 + d.exponent
  let zeros (n : Int) := List.replicate n.toNat '0'
  if range.first ≤ lead ∧ lead < range.last then
    if 0 ≤ d.exponent then ds ++ zeros d.exponent ++ ['.', '0']
    else if 0 ≤ lead then
      let whole := (lead + 1).toNat
      ds.take whole ++ '.' :: ds.drop whole
    else '0' :: '.' :: zeros (-lead - 1) ++ ds
  else
    let rest := if ds.length = 1 then [] else '.' :: ds.tail
    ds.take 1 ++ rest ++ 'e' :: (if lead < 0 then '-' else '+') :: Nat.toDigits 10 lead.natAbs

end Decimal

def Binary64.toText? (x : Binary64) : Option String :=
  if !x.isFinite then none
  else
    let magnitude := if x.isZero then ['0', '.', '0'] else (Decimal.shortest x).chars Decimal.plain
    some (String.ofList (if x.negative then '-' :: magnitude else magnitude))

end LiveQuery
