import LiveQuery.Main
import LiveQuery.Rehearsal
import LiveQuery.Timeline
import LiveQuery.Proofs.Ends
import LiveQuery.Proofs.Entries
import LiveQuery.Proofs.IncrementalRun
import LiveQuery.Proofs.ExactlyOnce
import LiveQuery.Proofs.Freshness
import LiveQuery.Proofs.Names
import LiveQuery.Proofs.Placeholders
import LiveQuery.Proofs.Inline
import LiveQuery.Proofs.Alignment
import LiveQuery.Proofs.Reader
import LiveQuery.Proofs.Predicate
import LiveQuery.Proofs.WhereClause
import LiveQuery.Proofs.Readability
import LiveQuery.Proofs.Rounds
import LiveQuery.Proofs.Redelivery
import LiveQuery.Proofs.Attempt
import LiveQuery.Proofs.Resolution
import LiveQuery.Proofs.Truth
import LiveQuery.Proofs.Alternatives
import LiveQuery.Proofs.JsonFilter
import LiveQuery.Proofs.Erasure
import LiveQuery.Proofs.Chain
import LiveQuery.Proofs.Dispatch
import LiveQuery.Proofs.Course
import LiveQuery.Proofs.Schedule
import LiveQuery.Proofs.VirtualClock
import LiveQuery.Proofs.Chronology
import LiveQuery.Proofs.Contribution
import LiveQuery.Proofs.EagerLoading
import LiveQuery.Proofs.RowIdentity
import LiveQuery.Proofs.Merging
import LiveQuery.Proofs.Accumulation
import LiveQuery.Proofs.Membership
import LiveQuery.Proofs.Watermark
import LiveQuery.Proofs.RowHistory
import LiveQuery.Proofs.Quotation
import LiveQuery.Proofs.Baseline
import LiveQuery.Proofs.ResultNames
