import LiveQuery.JsonReader

/-! Settings of a query context, and their JSON form. -/

namespace LiveQuery

structure Config where
  /-- The integer identity of every polled table. -/
  idColumn : String := "id"
  /-- Milliseconds between two polls. -/
  pollInterval : UInt64 := 1000
  /-- Whether a watched result is delivered at once. -/
  deliverImmediately : Bool := true
deriving DecidableEq

namespace Config

def text? : JsonLiteral → Option String
  | .text codes => JsonLiteral.string? codes
  | _ => none

def boolean? : JsonLiteral → Option Bool
  | .boolean b => some b
  | _ => none

/-- A whole numeral of 64 unsigned bits; `-0` is none. -/
def word? : JsonLiteral → Option UInt64
  | .number n => if n.negative then none else n.word?.map UInt64.ofNat
  | _ => none

structure Given where
  idColumn : Option String := none
  pollInterval : Option UInt64 := none
  deliverImmediately : Option Bool := none

def Given.config (g : Given) : Config where
  idColumn := g.idColumn.getD "id"
  pollInterval := g.pollInterval.getD 1000
  deliverImmediately := g.deliverImmediately.getD true

/-- Takes a member: a known key once and with its type, an unknown key with anything. -/
def Given.member? (g : Given) : List Nat × JsonLiteral → Option Given
  | (key, v) => do
    match ← JsonLiteral.string? key with
    | "id_column" =>
      if g.idColumn.isSome then none else some { g with idColumn := some (← text? v) }
    | "poll_interval_ms" =>
      if g.pollInterval.isSome then none else some { g with pollInterval := some (← word? v) }
    | "deliver_immediately" =>
      if g.deliverImmediately.isSome then none
      else some { g with deliverImmediately := some (← boolean? v) }
    | _ => some g

/-- An object of settings, or an array of them in order; what is missing has its
default. -/
def ofLiteral? : JsonLiteral → Option Config
  | .object members => (members.foldlM Given.member? {}).map Given.config
  | .array [] => some {}
  | .array [a] => do some { idColumn := ← text? a }
  | .array [a, b] => do some { idColumn := ← text? a, pollInterval := ← word? b }
  | .array [a, b, c] => do
    some { idColumn := ← text? a, pollInterval := ← word? b, deliverImmediately := ← boolean? c }
  | _ => none

def read? (s : String) : Option Config := (JsonLiteral.read? s).bind ofLiteral?

end Config

end LiveQuery
