import Referral.Rule
import Referral.Wire.Event

/-!
# Rules on the wire

Parameters, operators and kinds are names in capitals. Specifications of commissions and effects
carry a tag that says which they are.
-/

namespace Referral

namespace Parameter

/-- All parameters. -/
def all : List Parameter := [signups, purchases, revenue, externalId, itemId]

/-- The written name. -/
def name : Parameter → String
  | signups => "NUM_OF_SIGNUPS"
  | purchases => "NUM_OF_PURCHASES"
  | revenue => "REVENUE"
  | externalId => "EXTERNAL_ID"
  | itemId => "ITEM_ID"

/-- The parameter of a written name. -/
def ofName? (s : String) : Option Parameter := all.find? (·.name = s)

end Parameter

namespace Operator

/-- All operators. -/
def all : List Operator :=
  [equals, contains, lessThan, lessOrEqual, greaterThan, greaterOrEqual]

/-- The written name. -/
def name : Operator → String
  | equals => "EQUALS"
  | contains => "CONTAINS"
  | lessThan => "LESS_THAN"
  | lessOrEqual => "LESS_THAN_OR_EQUAL_TO"
  | greaterThan => "GREATER_THAN"
  | greaterOrEqual => "GREATER_THAN_OR_EQUAL_TO"

/-- The operator of a written name. -/
def ofName? (s : String) : Option Operator := all.find? (·.name = s)

end Operator

namespace Condition

/-- The wire form. -/
def toJson (c : Condition) : Json :=
  .obj [("parameter", .str c.parameter.name), ("operator", .str c.operator.name),
    ("value", .str c.value)]

/-- Reads the wire form. -/
def ofJson? (j : Json) : Option Condition := do
  let f ← Fields.of? ["parameter", "operator", "value"] j
  let parameter ← f.required "parameter" fun j => (j.variantName? false).bind Parameter.ofName?
  let operator ← f.required "operator" fun j => (j.variantName? false).bind Operator.ofName?
  let value ← f.required "value" Json.string?
  some ⟨parameter, operator, value⟩

end Condition

namespace CommissionKind

/-- The written name. -/
def name : CommissionKind → String
  | percentage => "PERCENTAGE"
  | fixed => "FIXED"

/-- The wire form. -/
def toJson (k : CommissionKind) : Json := .str k.name

/-- Reads the wire form. -/
def ofJson? (buffered : Bool) (j : Json) : Option CommissionKind :=
  (j.variantName? buffered).bind fun s => [percentage, fixed].find? (·.name = s)

end CommissionKind

namespace CommissionSpec

/-- The wire form. -/
def toJson (s : CommissionSpec) : Json :=
  .obj [("type", s.kind.toJson), ("value",
    match s with
    | percentage share => share.toJson
    | fixed amount => amount.toJson)]

/-- Reads the wire form. -/
def ofJson? (buffered : Bool) (j : Json) : Option CommissionSpec := do
  let t ← Tagged.of? "type" j
  let f ← Fields.of? ["value"] t.rest
  match ← t.name? ["PERCENTAGE", "FIXED"] buffered with
  | "PERCENTAGE" => (f.required "value" Percentage.ofJson?).map percentage
  | _ => (f.required "value" Money.ofJson?).map fixed

end CommissionSpec

namespace Effect

/-- The wire form. -/
def toJson : Effect → Json
  | generateCommission spec =>
    .obj [("type", .str "generate_commission"), ("commission", spec.toJson)]
  | switchCircle target =>
    .obj [("type", .str "switch_circle"), ("target_circle_id", target.toJson)]

/-- Reads the wire form. -/
def ofJson? (j : Json) : Option Effect := do
  let t ← Tagged.of? "type" j
  match ← t.name? ["generate_commission", "switch_circle"] false with
  | "generate_commission" =>
    let f ← Fields.of? ["commission"] t.rest
    (f.required "commission" (CommissionSpec.ofJson? true)).map generateCommission
  | _ =>
    let f ← Fields.of? ["target_circle_id"] t.rest
    (f.required "target_circle_id" Id.ofJson?).map switchCircle

end Effect

namespace Rule

/-- The wire form. -/
def toJson (r : Rule) : Json :=
  .obj [("rule_id", r.id.toJson), ("program_id", r.program.toJson), ("name", .str r.name),
    ("trigger", r.trigger.toJson), ("circle_id", .ofOption Id.toJson r.circle),
    ("conditions", .ofList Condition.toJson r.conditions), ("effect", r.effect.toJson),
    ("active", .bool r.active)]

/-- Reads the wire form. -/
def ofJson? (j : Json) : Option Rule := do
  let f ← Fields.of? ["rule_id", "program_id", "name", "trigger", "circle_id", "conditions",
    "effect", "active"] j
  let id ← f.required "rule_id" Id.ofJson?
  let program ← f.required "program_id" Id.ofJson?
  let name ← f.required "name" Json.string?
  let trigger ← f.required "trigger" EventKind.ofJson?
  let circle ← f.optional "circle_id" Id.ofJson?
  let conditions ← f.required "conditions" (Json.listOf? Condition.ofJson?)
  let effect ← f.required "effect" Effect.ofJson?
  let active ← f.required "active" Json.bool?
  some ⟨id, program, name, trigger, circle, conditions, effect, active⟩

end Rule

end Referral
