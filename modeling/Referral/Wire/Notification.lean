import Referral.Notification
import Referral.Wire.Circle
import Referral.Wire.Commission

/-!
# Notifications on the wire

A message says by its type whether it is about a commission or a move.
-/

namespace Referral

namespace Notification

/-- The wire form. -/
def toJson : Notification → Json
  | commissionGenerated c event correlation =>
    .obj [("type", .str "commission_generated"), ("commission", c.toJson),
      ("event_id", event.toJson), ("correlation_id", correlation.toJson)]
  | circleSwitched t => .obj [("type", .str "circle_switched"), ("transition", t.toJson)]

/-- Reads the wire form. -/
def ofJson? (j : Json) : Option Notification := do
  let t ← Tagged.of? "type" j
  match ← t.name? ["commission_generated", "circle_switched"] false with
  | "commission_generated" =>
    let f ← Fields.of? ["commission", "event_id", "correlation_id"] t.rest
    let c ← f.required "commission" (Commission.ofJson? true)
    let event ← f.required "event_id" Id.ofJson?
    let correlation ← f.required "correlation_id" Id.ofJson?
    some (commissionGenerated c event correlation)
  | _ =>
    let f ← Fields.of? ["transition"] t.rest
    (f.required "transition" Transition.ofJson?).map circleSwitched

end Notification

end Referral
