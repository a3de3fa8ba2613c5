import LiveQuery.Snapshot

/-! The two ways to keep a result live. A poll asks the collaborators and may leave
deliveries pending; each delivery is settled with the outcome of its callback. A
snapshot poller delivers the whole set when its snapshot has changed; an incremental
poller delivers the rows past its watermark one at a time. -/

namespace LiveQuery

inductive Delivery
  | rows (rs : List Row)
  | row (r : Row)

structure SnapshotPoller where
  query : Query
  detector : Detector := {}
  /-- Set until the state to compare with has been read, when nothing is delivered at
  the start. -/
  needsBaseline : Bool
  /-- The delivery in flight and the snapshot it was fetched for. -/
  pending : Option (Snapshot × List Row) := none

namespace SnapshotPoller

/-- Reads the state to compare with; a failure leaves it to the next poll. -/
def prime (ctx : Context) (p : SnapshotPoller) : Dialogue SnapshotPoller := do
  match ← (ctx.capture p.query).run with
  | .ok s => return { p with detector := p.detector.record s, needsBaseline := false }
  | .error _ => return p

def fetch (ctx : Context) (force : Bool) (p : SnapshotPoller) :
    Inquiry (Option (Snapshot × List Row)) := do
  let s ← ctx.capture p.query
  if force || p.detector.hasChanged s then
    return some (s, ← p.query.fetchAll ctx)
  else return none

/-- One poll. A failure changes nothing and is made good at a later poll. -/
def poll (ctx : Context) (force : Bool) (p : SnapshotPoller) : Dialogue SnapshotPoller :=
  if p.needsBaseline then p.prime ctx
  else do
    match ← (p.fetch ctx force).run with
    | .ok pending => return { p with pending := pending }
    | .error _ => return p

/-- Ends the delivery in flight. Its snapshot is recorded only if the callback has
succeeded. -/
def settle (accepted : Bool) (p : SnapshotPoller) : SnapshotPoller :=
  match p.pending with
  | none => p
  | some (s, _) =>
    { p with
      detector := if accepted then p.detector.record s else p.detector
      pending := none }

end SnapshotPoller

/-- A row on its way to the callback and the id that the watermark moves to after it. -/
structure NewRow where
  id : Option Int64
  row : Row

structure Batch where
  snapshot : Snapshot
  rows : List NewRow

structure IncrementalPoller where
  query : Query
  detector : Detector
  watermark : Int64
  pending : Option Batch := none

namespace IncrementalPoller

/-- Starts past the rows that match the query now. -/
def start (ctx : Context) (q : Query) : Inquiry IncrementalPoller := do
  let s ← ctx.capture q
  return { query := q, detector := ⟨some s⟩, watermark := s.maxRowId }

/-- Takes the watermark column out of a row. The row's id is that column's integer, or
else the one in the id column. -/
def newRow (idColumn : String) (r : Row) : NewRow :=
  let rest := r.remove watermarkColumn
  ⟨((r.get? watermarkColumn).bind Value.integer?).or (rest.id? idColumn), rest⟩

/-- The rows past the watermark, if the snapshot has changed. -/
def fetch (ctx : Context) (p : IncrementalPoller) : Inquiry (Option Batch) := do
  let s ← ctx.capture p.query
  if p.detector.hasChanged s then
    let idColumn := ctx.config.idColumn
    let rows ← Inquiry.execute (p.query.incremental idColumn p.watermark) p.query.raw
    let rows ← p.query.loadRelated ctx rows
    return some ⟨s, rows.map (newRow idColumn)⟩
  else return none

/-- Takes up what is left of a batch. With nothing left its snapshot is recorded. -/
def receive (b : Batch) (p : IncrementalPoller) : IncrementalPoller :=
  if b.rows.isEmpty then { p with detector := p.detector.record b.snapshot, pending := none }
  else { p with pending := some b }

/-- One poll. A failure changes nothing. -/
def poll (ctx : Context) (p : IncrementalPoller) : Dialogue IncrementalPoller := do
  match ← (p.fetch ctx).run with
  | .ok (some b) => return p.receive b
  | .ok none => return p
  | .error _ => return p

/-- The watermark never moves back, and a row without an id does not move it. -/
def advance (id : Option Int64) (watermark : Int64) : Int64 :=
  match id with
  | some n => max watermark n
  | none => watermark

/-- Ends the delivery of the first pending row. A failure gives up the rest of the
batch, to be found again at a later poll. -/
def settle (accepted : Bool) (p : IncrementalPoller) : IncrementalPoller :=
  match p.pending with
  | none => p
  | some ⟨_, []⟩ => { p with pending := none }
  | some ⟨s, r :: rest⟩ =>
    if accepted then { p with watermark := advance r.id p.watermark }.receive ⟨s, rest⟩
    else { p with pending := none }

end IncrementalPoller

inductive Poller
  | snapshot (p : SnapshotPoller)
  | incremental (p : IncrementalPoller)

namespace Poller

/-- What a subscription does when it first runs: a snapshot poller polls at once. -/
def start (ctx : Context) : Poller → Dialogue Poller
  | snapshot p => snapshot <$> p.poll ctx true
  | incremental p => return incremental p

def poll (ctx : Context) : Poller → Dialogue Poller
  | snapshot p => snapshot <$> p.poll ctx false
  | incremental p => incremental <$> p.poll ctx

/-- The deliveries still to be made, in order. -/
def pending : Poller → List Delivery
  | snapshot p => p.pending.toList.map fun (_, rows) => .rows rows
  | incremental p => (p.pending.toList.flatMap Batch.rows).map fun r => .row r.row

def settle (accepted : Bool) : Poller → Poller
  | snapshot p => snapshot (p.settle accepted)
  | incremental p => incremental (p.settle accepted)

def watermark? : Poller → Option Int64
  | snapshot _ => none
  | incremental p => some p.watermark

end Poller

end LiveQuery
