import Referral.Book
import Referral.Cascade
import Referral.Circle
import Referral.Commission
import Referral.Config
import Referral.Depth
import Referral.Drafts
import Referral.Drift
import Referral.Error
import Referral.Evaluation
import Referral.Event
import Referral.Failure
import Referral.Handler
import Referral.Id
import Referral.Intake
import Referral.Json
import Referral.Json.Binary64
import Referral.Json.Number
import Referral.Json.Printer
import Referral.Json.Reader
import Referral.Lock
import Referral.Maintenance
import Referral.Matching
import Referral.Messaging
import Referral.Money
import Referral.Notification
import Referral.OrderedMap
import Referral.Outcome
import Referral.Percentage
import Referral.Permit
import Referral.Procedure
import Referral.Rebuild
import Referral.Rows
import Referral.Rule
import Referral.Scope
import Referral.Script
import Referral.Service
import Referral.Simulation
import Referral.Stage
import Referral.Staging
import Referral.Store
import Referral.Subject
import Referral.Text.Blank
import Referral.Text.Decimal
import Referral.Time.Calendar
import Referral.Time.Day
import Referral.Time.Duration
import Referral.Time.Instant
import Referral.Totals
import Referral.Wire.Circle
import Referral.Wire.Commission
import Referral.Wire.Dispatch
import Referral.Wire.Draft
import Referral.Wire.Error
import Referral.Wire.Event
import Referral.Wire.Failure
import Referral.Wire.Key
import Referral.Wire.Lookup
import Referral.Wire.Matching
import Referral.Wire.Notification
import Referral.Wire.Operation
import Referral.Wire.Outcome
import Referral.Wire.Query
import Referral.Wire.Record
import Referral.Wire.Report
import Referral.Wire.Rows
import Referral.Wire.Rule
import Referral.Wire.Seed
import Referral.Wire.Settings
import Referral.Wire.Stage
import Referral.Wire.Value
import Referral.Wire.WorkUnit
import Referral.WorkUnit
import Referral.Proofs.OrderedMap
import Referral.Proofs.Tally
import Referral.Proofs.BookTally
import Referral.Proofs.Log
import Referral.Proofs.Interleaving
import Referral.Proofs.Batches
import Referral.Proofs.Cascade
import Referral.Proofs.Counting
import Referral.Proofs.Serving
import Referral.Proofs.StoredTotals
import Referral.Proofs.Rebuild
import Referral.Proofs.Records
import Referral.Proofs.Retrying
import Referral.Proofs.CheckedRules
import Referral.Proofs.Settlement
import Referral.Proofs.Evaluating
import Referral.Proofs.Dispatching
import Referral.Proofs.Publishing
import Referral.Proofs.Limits
import Referral.Proofs.Locks
import Referral.Proofs.Deciding
import Referral.Proofs.Sharing
import Referral.Proofs.Alone
import Referral.Proofs.Commits
import Referral.Proofs.Handling
import Referral.Proofs.Dispatched
import Referral.Proofs.Recording
import Referral.Proofs.Fleet
import Referral.Proofs.Reporting
import Referral.Proofs.Commissions
import Referral.Proofs.Permitted
import Referral.Proofs.AtOnce
import Referral.Proofs.Contending
import Referral.Proofs.Seeing
import Referral.Proofs.Concert
import Referral.Proofs.SoundLog
import Referral.Proofs.Redelivery
import Referral.Proofs.Growth
import Referral.Proofs.GrowingTotals
import Referral.Proofs.Discrepancies
import Referral.Proofs.Verification
import Referral.Proofs.Confinement
import Referral.Proofs.Renaming
import Referral.Proofs.Isolation
import Referral.Proofs.Turns
import Referral.Proofs.Delivery
import Referral.Proofs.Mutexes
import Referral.Proofs.Deadlock
import Referral.Proofs.InForce
import Referral.Proofs.Custody
import Referral.Proofs.Demotion
import Referral.Proofs.Switches
import Referral.Proofs.DayTotals
import Referral.Proofs.LockEntries
import Referral.Proofs.Seeding
import Referral.Proofs.Circles
import Referral.Proofs.Recalled
import Referral.Proofs.Upkeep
import Referral.Proofs.Shares
import Referral.Proofs.Firings
import Referral.Proofs.RetryEndings
import Referral.Proofs.Regrouping
import Referral.Proofs.Chains
import Referral.Proofs.Dates
import Referral.Proofs.Transient
import Referral.Proofs.Announcing
import Referral.Proofs.Offers
import Referral.Proofs.Messages
import Referral.Proofs.RetryMessages
import Referral.Proofs.ScopedTotals
import Referral.Proofs.Decimals
import Referral.Proofs.Reading
import Referral.Proofs.Writing
import Referral.Proofs.Comparing
import Referral.Proofs.Rounding
import Referral.Proofs.Conjunction
import Referral.Proofs.Identifiers
import Referral.Proofs.Receiving
import Referral.Proofs.Calendar
import Referral.Proofs.Instants
import Referral.Proofs.Members
import Referral.Proofs.WireForms
