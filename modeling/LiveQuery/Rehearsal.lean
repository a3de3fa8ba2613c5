import LiveQuery.Snapshot

/-! A scripted store, to rehearse queries without a database. It keeps a few rows,
answers statements by their kind without looking at predicates or paging, fails when it
is told to, and logs what it was asked. -/

namespace LiveQuery

inductive StatementKind
  | fingerprint | count | incremental | select
deriving DecidableEq

namespace StatementKind

def contains (part : List Char) : List Char → Bool
  | [] => part.isEmpty
  | c :: cs => part.isPrefixOf (c :: cs) || contains part cs

/-- Recognised by the text of the statement. -/
def of (sql : String) : StatementKind :=
  let cs := sql.toList
  if "SELECT COUNT(*) AS row_count".toList.isPrefixOf cs then fingerprint
  else if "SELECT COUNT(*) AS count".toList.isPrefixOf cs then count
  else if contains (" AS " ++ watermarkColumn ++ " FROM ").toList cs then incremental
  else select

end StatementKind

inductive RevisionSource
  | counter
  /-- Every read gives the next number. -/
  | always
  /-- A text set from outside. -/
  | manual
deriving DecidableEq

/-- A number of failures in store for statements of one kind, or of any. -/
structure Failure where
  kind : Option StatementKind
  left : Nat
  message : String

inductive LogEntry
  | executed (kind : StatementKind) (s : Statement) (raw : Bool)
  | loaded (table relation : String) (parents : List Int64)

structure Rehearsal where
  idColumn : String := "id"
  rows : List Row := []
  source : Option RevisionSource := none
  counter : RevisionCounter := {}
  reads : Nat := 0
  token : String := ""
  failures : List Failure := []
  replies : List (StatementKind × List Row) := []
  /-- The groups of each relation, or the message its loading fails with. -/
  relations : List (String × Except String (List (Int64 × List Row))) := []
  log : List LogEntry := []

namespace Rehearsal

def insert (r : Row) (s : Rehearsal) : Rehearsal := { s with rows := s.rows ++ [r] }

def delete (id : Int64) (s : Rehearsal) : Rehearsal :=
  { s with rows := s.rows.filter fun r => r.id? s.idColumn ≠ some id }

def setReply (kind : StatementKind) (rows : Option (List Row)) (s : Rehearsal) : Rehearsal :=
  let others := s.replies.filter fun (k, _) => k ≠ kind
  { s with replies := (rows.toList.map fun rs => (kind, rs)) ++ others }

def fail (f : Failure) (s : Rehearsal) : Rehearsal := { s with failures := s.failures ++ [f] }

def bump (s : Rehearsal) : Rehearsal := { s with counter := s.counter.bump }

/-- Uses up one failure that applies to the kind, the first that was set. -/
def takeFailure (kind : StatementKind) : List Failure → Option (String × List Failure)
  | [] => none
  | f :: fs =>
    if 0 < f.left ∧ f.kind.all (· = kind) then some (f.message, { f with left := f.left - 1 } :: fs)
    else (takeFailure kind fs).map fun (message, fs) => (message, f :: fs)

def optional (n : Option Int64) : Value :=
  match n with
  | some n => .integer n
  | none => .null

/-- The rows past a watermark in the order of their ids, each carrying its id. -/
def past (s : Rehearsal) (watermark : Int64) : List Row :=
  let found := s.rows.filterMap fun r =>
    (r.id? s.idColumn).bind fun id => if watermark < id then some (id, r) else none
  (found.mergeSort fun a b => a.1 ≤ b.1).map fun (id, r) => r.set watermarkColumn (.integer id)

/-- The rows that answer a statement of a kind. A watermark is the last parameter, or 0
if that is no integer. -/
def answer (s : Rehearsal) (kind : StatementKind) (params : List Value) : List Row :=
  let size : Value := .integer (Int64.ofNat s.rows.length)
  match kind with
  | .fingerprint =>
    [Row.ofColumns [("row_count", size), ("max_id", optional (s.rows.filterMap (Row.id? · s.idColumn)).max?)]]
  | .count => [Row.ofColumns [("count", size)]]
  | .incremental => s.past ((params.getLast?.bind Value.integer?).getD 0)
  | .select => s.rows

def execute (statement : Statement) (raw : Bool) (s : Rehearsal) :
    Except String (List Row) × Rehearsal :=
  let kind := StatementKind.of statement.sql
  let s := { s with log := s.log ++ [.executed kind statement raw] }
  match takeFailure kind s.failures with
  | some (message, failures) => (.error message, { s with failures := failures })
  | none => (.ok ((s.replies.lookup kind).getD (s.answer kind statement.params)), s)

def revision (s : Rehearsal) : String × Rehearsal :=
  match s.source with
  | none => ("", s)
  | some .counter => (s.counter.token, s)
  | some .always => (toString (s.reads + 1), { s with reads := s.reads + 1 })
  | some .manual => (s.token, s)

/-- A relation that is not listed has no groups. -/
def load (table relation : String) (parents : List Int64) (s : Rehearsal) :
    Except String (List (Int64 × List Row)) × Rehearsal :=
  ((s.relations.lookup relation).getD (.ok []),
    { s with log := s.log ++ [.loaded table relation parents] })

def reply : (r : Request) → Rehearsal → r.Reply × Rehearsal
  | .revision, s => s.revision
  | .execute statement raw, s => s.execute statement raw
  | .related table relation parents, s => s.load table relation parents

end Rehearsal

end LiveQuery
