import LiveQuery.Json
import LiveQuery.Keyed
import LiveQuery.JsonToken

/-! Reading JSON texts. A token at a time is shifted onto a stack of open containers,
which gives the document as written; a strict reading of that decides which numbers,
strings and depths are acceptable. -/

namespace LiveQuery

/-- A document as written: repeated keys, numbers of any size and lone surrogates
included. -/
inductive JsonLiteral
  | null
  | boolean (b : Bool)
  | number (n : JsonNumeral)
  | text (codes : List Nat)
  | array (items : List JsonLiteral)
  | object (members : List (List Nat × JsonLiteral))

/-- An open container with its completed parts, the latest first. -/
inductive JsonFrame
  | array (items : List JsonLiteral)
  | object (members : List (List Nat × JsonLiteral))
  | member (members : List (List Nat × JsonLiteral)) (key : List Nat)

inductive JsonReader
  | value (frames : List JsonFrame)
  | firstItem (frames : List JsonFrame)
  | firstKey (frames : List JsonFrame)
  | key (members : List (List Nat × JsonLiteral)) (frames : List JsonFrame)
  | colon (members : List (List Nat × JsonLiteral)) (key : List Nat) (frames : List JsonFrame)
  | after (v : JsonLiteral) (frames : List JsonFrame)

namespace JsonReader

def begin? (frames : List JsonFrame) : JsonToken → Option JsonReader
  | .null => some (after .null frames)
  | .boolean b => some (after (.boolean b) frames)
  | .number n => some (after (.number n) frames)
  | .text codes => some (after (.text codes) frames)
  | .openArray => some (firstItem frames)
  | .openObject => some (firstKey frames)
  | _ => none

def step? : JsonReader → JsonToken → Option JsonReader
  | firstItem frames, .closeArray => some (after (.array []) frames)
  | firstItem frames, t => begin? (.array [] :: frames) t
  | firstKey frames, .closeObject => some (after (.object []) frames)
  | firstKey frames, .text k => some (colon [] k frames)
  | key members frames, .text k => some (colon members k frames)
  | colon members k frames, .colon => some (value (.member members k :: frames))
  | value frames, t => begin? frames t
  | after v (.array items :: frames), .comma => some (value (.array (v :: items) :: frames))
  | after v (.array items :: frames), .closeArray => some (after (.array (v :: items).reverse) frames)
  | after v (.member members k :: frames), .comma => some (key ((k, v) :: members) frames)
  | after v (.member members k :: frames), .closeObject =>
    some (after (.object ((k, v) :: members).reverse) frames)
  | _, _ => none

end JsonReader

namespace JsonLiteral

def read? (s : String) : Option JsonLiteral := do
  let tokens ← JsonToken.all? s.toList
  match ← tokens.foldlM JsonReader.step? (.value []) with
  | .after v [] => some v
  | _ => none

/-- Joins surrogate pairs; a lone surrogate is no character. -/
def chars? : List Nat → Option (List Char)
  | [] => some []
  | c :: d :: rest =>
    if 0xD800 ≤ c ∧ c < 0xDC00 then
      if 0xDC00 ≤ d ∧ d < 0xE000 then
        (chars? rest).map (Char.ofNat (0x10000 + (c - 0xD800) * 0x400 + (d - 0xDC00)) :: ·)
      else none
    else if 0xDC00 ≤ c ∧ c < 0xE000 then none
    else (chars? (d :: rest)).map (Char.ofNat c :: ·)
  | [c] => if 0xD800 ≤ c ∧ c < 0xE000 then none else some [Char.ofNat c]

def string? (codes : List Nat) : Option String := (chars? codes).map String.ofList

def ofNumeral? (n : JsonNumeral) : Option Json :=
  match n.integer? with
  | some i => some (.integer i)
  | none => n.real?.map .real

/-- Members under their first places with their last values. -/
def gather (members : List (String × Json)) : List (String × Json) :=
  members.foldl (fun done (k, v) => Keyed.put k v done) []

mutual

/-- The document, if at most `depth` containers are nested in it. -/
def toJson? (depth : Nat) : JsonLiteral → Option Json
  | null => some .null
  | boolean b => some (.boolean b)
  | number n => ofNumeral? n
  | text codes => (string? codes).map .text
  | array items => if depth = 0 then none else (items? (depth - 1) items).map .array
  | object members =>
    if depth = 0 then none else (members? (depth - 1) members).map (.object ∘ gather)

def items? (depth : Nat) : List JsonLiteral → Option (List Json)
  | [] => some []
  | v :: rest => do
    let v ← toJson? depth v
    let rest ← items? depth rest
    some (v :: rest)

def members? (depth : Nat) : List (List Nat × JsonLiteral) → Option (List (String × Json))
  | [] => some []
  | (k, v) :: rest => do
    let k ← string? k
    let v ← toJson? depth v
    let rest ← members? depth rest
    some ((k, v) :: rest)

end

end JsonLiteral

/-- Reads a document of at most 127 nested containers. -/
def Json.read? (s : String) : Option Json :=
  (JsonLiteral.read? s).bind (JsonLiteral.toJson? 127)

end LiveQuery
