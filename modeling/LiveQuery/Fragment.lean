import LiveQuery.Value

/-! SQL in pieces: text, and values bound at the place where they are meant. The text
sent shows a `?` for each bound value, and the values follow in the same order. -/

namespace LiveQuery

inductive Piece
  | sql (s : String)
  | bound (v : Value)

abbrev Fragment := List Piece

/-- A text with placeholders and the values for them. -/
structure Statement where
  sql : String
  params : List Value
deriving DecidableEq

namespace Piece

def text : Piece → String
  | sql s => s
  | bound _ => "?"

def value? : Piece → Option Value
  | sql _ => none
  | bound v => some v

end Piece

namespace Fragment

instance : Coe String Fragment := ⟨fun s => [.sql s]⟩

def text (f : Fragment) : String := String.join (f.map Piece.text)

def params (f : Fragment) : List Value := f.filterMap Piece.value?

def statement (f : Fragment) : Statement := ⟨f.text, f.params⟩

def joined (separator : String) : List Fragment → Fragment
  | [] => []
  | [f] => f
  | f :: g :: rest => f ++ .sql separator :: joined separator (g :: rest)

end Fragment

end LiveQuery
