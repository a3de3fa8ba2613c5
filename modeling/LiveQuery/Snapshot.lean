import LiveQuery.Fetch

/-! Cheap change detection: a snapshot of a filtered set holds the revision token, the
number of rows and the greatest id. The token is read before the rows are counted, so
a write between the two shows at the next snapshot. -/

namespace LiveQuery

structure Snapshot where
  rowCount : Int64
  maxRowId : Int64
  revision : String
deriving DecidableEq

namespace Context

/-- The current revision token, empty without a source. -/
def revision (ctx : Context) : Dialogue String :=
  if ctx.hasRevisions then Dialogue.request .revision else return ""

/-- An integer of the fingerprint, zero if it is missing. -/
def reading (row : Option Row) (column : String) : Int64 :=
  ((row.bind (Row.get? · column)).bind Value.integer?).getD 0

def capture (ctx : Context) (q : Query) : Inquiry Snapshot := do
  let token ← ctx.revision
  let row ← Inquiry.executeFirst (q.fingerprint ctx.config.idColumn) true
  return ⟨reading row "row_count", reading row "max_id", token⟩

end Context

structure Detector where
  last : Option Snapshot := none
deriving DecidableEq

namespace Detector

/-- Whether `s` differs from the last snapshot; the first one always does. -/
def hasChanged (d : Detector) (s : Snapshot) : Bool := d.last ≠ some s

def record (_ : Detector) (s : Snapshot) : Detector := ⟨some s⟩

end Detector

/-- Counts the writes of this process; its token is the count in decimal. -/
structure RevisionCounter where
  value : UInt64 := 0

namespace RevisionCounter

def bump (c : RevisionCounter) : RevisionCounter := ⟨c.value + 1⟩

def token (c : RevisionCounter) : String := toString c.value.toNat

end RevisionCounter

end LiveQuery
