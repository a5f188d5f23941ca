import Referral.Service
import Referral.Wire.Dispatch
import Referral.Wire.WorkUnit

/-!
# Reports on the wire

What the operations of the service answer.
-/

namespace Referral

/-- The wire form of the report on a committed event. -/
def PublishReport.toJson (r : PublishReport) : Json :=
  .obj [("event_id", r.event.toJson), ("receipt", r.receipt.toJson),
    ("dispatch", r.dispatch.toJson), ("commissions", .ofList Commission.toJson r.commissions),
    ("transitions", .ofList Transition.toJson r.transitions),
    ("failures", .ofList Failure.toJson r.failures),
    ("rebuild_scheduled", .bool r.rebuildScheduled)]

/-- The wire form of the answer to a published event. -/
def PublishOutcome.toJson : PublishOutcome → Json
  | committed report => .obj [("committed", report.toJson)]
  | duplicate event => .obj [("duplicate", event.toJson)]

/-- The wire form of the answer to a switch made by hand. -/
def SwitchOutcome.toJson : SwitchOutcome → Json
  | switched t => .obj [("switched", t.toJson)]
  | stayed circle => .obj [("noop", circle.toJson)]

/-- The wire form of the answer to a retry. -/
def RetryOutcome.toJson : RetryOutcome → Json
  | resolved commissions transitions =>
    .obj [("resolved", .obj [("commissions", .ofList Commission.toJson commissions),
      ("transitions", .ofList Transition.toJson transitions)])]
  | alreadyResolved => .str "already_resolved"
  | stillFailing error => .obj [("still_failing", error.toJson)]

/-- The wire form of the report of a rebuild. -/
def RebuildReport.toJson (r : RebuildReport) : Json :=
  .obj [("scope", r.scope.toJson), ("folded", .ofNat r.folded), ("replayed", .ofNat r.replayed),
    ("watermark", .ofNat r.watermark)]

/-- The wire form of the report of a comparison with the log. -/
def DriftReport.toJson (r : DriftReport) : Json :=
  .obj [("scope", r.scope.toJson), ("watermark", .ofNat r.watermark),
    ("drifted", .ofList .str r.drifted), ("repaired", .bool r.repaired),
    ("clean", .bool r.isClean), ("into_result", .ofDone r.result)]

/-- The wire form of the totals of a scope with the end of the log. -/
def BookSnapshot.toJson (s : BookSnapshot) : Json :=
  .obj [("watermark", .ofNat s.watermark), ("rows", s.book.rows.toJson)]

end Referral
