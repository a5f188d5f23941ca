import Referral.Wire.Circle
import Referral.Wire.Commission
import Referral.Wire.Error

/-!
# Outcomes on the wire

What an effect changes, and whether it emits an event.
-/

namespace Referral

/-- The wire form of what is always so of an effect. -/
def Effect.summary (e : Effect) : Json := .obj [("name", .str e.name), ("emits", .bool e.emits)]

/-- The wire form of a change of state. A move comes with the membership after it. -/
def Change.toJson : Change → Json
  | commission c => .obj [("commission", c.toJson)]
  | transition t => .obj [("switched", t.toJson), ("membership", t.membership.toJson)]
  | stay circle => .obj [("noop", circle.toJson)]

end Referral
