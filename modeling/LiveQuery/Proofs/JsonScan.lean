import LiveQuery.JsonToken
import LiveQuery.JsonValue
import Mathlib.Data.List.TakeWhile

/-! Texts that are one token, whatever follows them. A number ends where its text does only before
what no number goes on with. -/

namespace LiveQuery

namespace JsonToken

variable {c : Char} {cs ds rest : List Char} {t : JsonToken}

end JsonToken

namespace JsonToken

variable {n : JsonNumeral} {c : Char} {cs ds rest : List Char} {t : JsonToken} {e : Option Int}

end JsonToken

end LiveQuery
