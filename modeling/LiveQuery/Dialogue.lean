import LiveQuery.Error
import LiveQuery.Fragment
import LiveQuery.Row

/-! What a query asks of its collaborators, as a tree of requests with one branch for
each reply. Whoever runs a query answers the requests one at a time, so anything may
happen between two of them. -/

namespace LiveQuery

inductive Request
  /-- The token that changes with every write. -/
  | revision
  | execute (s : Statement) (raw : Bool)
  /-- The rows of a relation that belong to the given parents. -/
  | related (table relation : String) (parents : List Int64)

/-- A failing collaborator replies with its message. -/
abbrev Request.Reply : Request → Type
  | revision => String
  | execute _ _ => Except String (List Row)
  | related _ _ _ => Except String (List (Int64 × List Row))

inductive Dialogue (α : Type)
  | done (a : α)
  | ask (r : Request) (next : r.Reply → Dialogue α)

namespace Dialogue

variable {α β σ : Type}

def bind : Dialogue α → (α → Dialogue β) → Dialogue β
  | done a, f => f a
  | ask r next, f => ask r fun reply => (next reply).bind f

instance : Monad Dialogue where
  pure := done
  bind := bind

def run (reply : (r : Request) → σ → r.Reply × σ) : Dialogue α → σ → α × σ
  | done a, s => (a, s)
  | ask r next, s => let (x, s) := reply r s; (next x).run reply s

def request (r : Request) : Dialogue r.Reply := ask r done

end Dialogue

abbrev Inquiry := ExceptT QueryError Dialogue

namespace Inquiry

def orFail {α : Type} (d : Dialogue (Except String α)) : Inquiry α :=
  ExceptT.mk do
    match ← d with
    | .ok a => return .ok a
    | .error message => return .error (.execution message)

def execute (s : Statement) (raw : Bool) : Inquiry (List Row) :=
  orFail (Dialogue.request (.execute s raw))

def executeFirst (s : Statement) (raw : Bool) : Inquiry (Option Row) :=
  List.head? <$> execute s raw

def related (table relation : String) (parents : List Int64) :
    Inquiry (List (Int64 × List Row)) :=
  orFail (Dialogue.request (.related table relation parents))

end Inquiry

end LiveQuery
