import Referral.Wire.Error
import Referral.Wire.Rule

/-!
# Matching on the wire

The values of parameters go under the names of the parameters. The verdict on conditions says for
each whether it holds, and for all together whether they match.
-/

namespace Referral

/-- An amount given in units. -/
def Money.ofUnitsJson? (j : Json) : Option Money :=
  (j.int? (-9223372036854775808) 9223372036854775807).bind ofUnits?

namespace Observation

/-- The wire form. -/
def toJson : Observation → Json
  | count n => .obj [("count", .ofNat n.toNat)]
  | amount m => .obj [("amount", m.toJson)]
  | text s => .obj [("text", .str s)]

/-- Reads a count, an amount in units, or a text. -/
def ofJson? (j : Json) : Option Observation := do
  if let some n ← j.optional "count" Json.long? then return .count n
  if let some m ← j.optional "amount_units" Money.ofUnitsJson? then return .amount m
  (j.required "text" Json.string?).map text

end Observation

namespace Snapshot

/-- The wire form, with null for what is not known. -/
def toJson (s : Snapshot) : Json :=
  .obj (Parameter.all.map fun p => (p.name, .ofOption Observation.toJson (s p)))

/-- Reads the values that are known. -/
def ofJson? (j : Json) : Option Snapshot := do
  let members ← j.members?
  let values ← members.mapM fun (name, value) => do
    some ((← Parameter.ofName? name), (← Observation.ofJson? value))
  some fun p => (values.find? (·.1 = p)).map (·.2)

/-- What a snapshot says about conditions. -/
def verdict (s : Snapshot) (cs : List Condition) : Json :=
  let result := Json.ofResult MatchFlaw.toJson Json.bool
  let one (c : Condition) : Json :=
    .obj [("condition", .str c.display), ("result", result (c.holds s))]
  .obj [("each", .ofList one cs), ("all", result (allHold s cs)),
    ("rule_matches", .bool (conditionsMatch cs s))]

end Snapshot

end Referral
