import Referral.Store
import Referral.Wire.Circle
import Referral.Wire.Commission
import Referral.Wire.Error
import Referral.Wire.Failure
import Referral.Wire.Key
import Referral.Wire.Rows

/-!
# Units of work on the wire

The context that a unit of work starts from, what is staged in it, and what a commit makes of it.
-/

namespace Referral

namespace Context

/-- The wire form, with the circle in force. -/
def toJson (c : Context) : Json :=
  .obj [("program_id", c.program.toJson), ("promoter_id", c.promoter.toJson),
    ("rules", .ofList Rule.toJson c.rules), ("circles", .ofList Circle.toJson c.circles),
    ("membership", .ofOption Membership.toJson c.membership),
    ("promoter_totals", c.totals.toJson),
    ("current_circle", .ofOption Id.toJson c.currentCircle)]

/-- Reads the fields of a request. -/
def ofJson? (j : Json) : Option Context := do
  let k ← PromoterKey.ofJson? j
  let rules ← j.optionalList "rules" Rule.ofJson?
  let circles ← j.optionalList "circles" Circle.ofJson?
  let membership ← j.optional "membership" Membership.ofJson?
  let totals ← j.withDefault "promoter_totals" .zero PromoterTotals.ofJson?
  some ⟨k.program, k.promoter, rules, circles, membership, totals⟩

end Context

/-- The wire form of a staged move. -/
def StagedTransition.toJson (t : StagedTransition) : Json :=
  .obj [("transition", t.transition.toJson), ("rule_id", .ofOption Id.toJson t.rule),
    ("event_id", .ofOption Id.toJson t.event), ("depth", .ofNat t.depth.val)]

/-- The wire form of a unit of work. -/
def WorkUnit.toJson (u : WorkUnit) : Json :=
  .obj [("events", .ofList Event.toJson u.events),
    ("commissions", .ofList Commission.toJson u.commissions),
    ("transitions", .ofList StagedTransition.toJson u.transitions),
    ("failures", .ofList Failure.toJson u.failures),
    ("resolved", .ofList Id.toJson u.resolved), ("attempted", .ofList Id.toJson u.attempted),
    ("delta", u.delta.rows.toJson), ("totals", .ofExcept PromoterTotals.toJson u.currentTotals),
    ("current_circle", .ofOption Id.toJson u.context.currentCircle), ("empty", .bool u.isEmpty)]

/-- The wire form of an entry of the log. -/
def StoredEvent.toJson (e : StoredEvent) : Json :=
  .obj [("sequence", .ofNat e.sequence), ("event", e.event.toJson),
    ("recorded_at", e.recordedAt.toJson)]

/-- The wire form of a receipt. -/
def Receipt.toJson (r : Receipt) : Json :=
  .obj [("last_sequence", .ofNat r.lastSequence), ("events", .ofNat r.events),
    ("commissions", .ofNat r.commissions), ("transitions", .ofNat r.transitions),
    ("failures", .ofNat r.failures)]

end Referral
