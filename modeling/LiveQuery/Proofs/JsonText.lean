import LiveQuery.JsonReader
import LiveQuery.Proofs.JsonScan
import LiveQuery.Proofs.ShortestDecimal

/-! The JSON text of a list of values against the reader of JSON texts. Each value is one token,
since a comma or a bracket follows it. -/

namespace LiveQuery

namespace JsonLiteral

end JsonLiteral

/-- The numeral of an integer. -/
def JsonNumeral.ofInt (n : Int) : JsonNumeral := ⟨n < 0, Nat.toDigits 10 n.natAbs, [], none⟩

namespace JsonNumeral

/-- What a numeral says, its sign aside. -/
def magnitude (n : JsonNumeral) : ℚ :=
  natural (n.whole ++ n.places) * 10 ^ (n.exponent.getD 0 - n.places.length)

end JsonNumeral

namespace Significant

variable {ds : List Char} {k : Nat} {negative : Bool}

end Significant

end LiveQuery
