import Referral.Circle
import Referral.Wire.Value

/-!
# Circles on the wire

A circle, the placement of a promoter in one, and the move from one to another.
-/

namespace Referral

namespace Circle

/-- The wire form. -/
def toJson (c : Circle) : Json :=
  .obj [("circle_id", c.id.toJson), ("program_id", c.program.toJson), ("name", .str c.name),
    ("is_default", .bool c.isDefault)]

/-- Reads the wire form. -/
def ofJson? (j : Json) : Option Circle := do
  let f ← Fields.of? ["circle_id", "program_id", "name", "is_default"] j
  let id ← f.required "circle_id" Id.ofJson?
  let program ← f.required "program_id" Id.ofJson?
  let name ← f.required "name" Json.string?
  let isDefault ← f.required "is_default" Json.bool?
  some ⟨id, program, name, isDefault⟩

end Circle

namespace Membership

/-- The wire form. -/
def toJson (m : Membership) : Json :=
  .obj [("program_id", m.program.toJson), ("promoter_id", m.promoter.toJson),
    ("circle_id", m.circle.toJson), ("since", m.since.toJson)]

/-- Reads the wire form. -/
def ofJson? (j : Json) : Option Membership := do
  let f ← Fields.of? ["program_id", "promoter_id", "circle_id", "since"] j
  let program ← f.required "program_id" Id.ofJson?
  let promoter ← f.required "promoter_id" Id.ofJson?
  let circle ← f.required "circle_id" Id.ofJson?
  let since ← f.required "since" Instant.ofJson?
  some ⟨program, promoter, circle, since⟩

end Membership

namespace Transition

/-- The wire form. -/
def toJson (t : Transition) : Json :=
  .obj [("program_id", t.program.toJson), ("promoter_id", t.promoter.toJson),
    ("from", .ofOption Id.toJson t.source), ("to", t.target.toJson), ("at", t.time.toJson)]

/-- Reads the wire form. -/
def ofJson? (j : Json) : Option Transition := do
  let f ← Fields.of? ["program_id", "promoter_id", "from", "to", "at"] j
  let program ← f.required "program_id" Id.ofJson?
  let promoter ← f.required "promoter_id" Id.ofJson?
  let source ← f.optional "from" Id.ofJson?
  let target ← f.required "to" Id.ofJson?
  let time ← f.required "at" Instant.ofJson?
  some ⟨program, promoter, source, target, time⟩

end Transition

end Referral
