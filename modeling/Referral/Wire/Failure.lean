import Referral.Failure
import Referral.Wire.Rule

/-!
# Failures on the wire

A failure record that does not say where it was raised counts as one of an effect.
-/

namespace Referral

namespace Origin

/-- The wire form. -/
def toJson : Origin → Json
  | effect => .obj [("origin", .str "effect")]
  | handler name => .obj [("origin", .str "handler"), ("name", .str name)]
  | cascadeLimit => .obj [("origin", .str "cascade_limit")]
  | manualSwitch => .obj [("origin", .str "manual_switch")]

/-- Reads the wire form. -/
def ofJson? (j : Json) : Option Origin := do
  let t ← Tagged.of? "origin" j
  match ← t.name? ["effect", "handler", "cascade_limit", "manual_switch"] false with
  | "effect" => if t.isBare then some effect else none
  | "handler" =>
    let f ← Fields.of? ["name"] t.rest
    (f.required "name" Json.string?).map handler
  | "cascade_limit" => if t.isBare then some cascadeLimit else none
  | _ => if t.isBare then some manualSwitch else none

end Origin

namespace Failure

/-- The wire form. -/
def toJson (f : Failure) : Json :=
  .obj [("failure_id", f.id.toJson), ("event_id", .ofOption Id.toJson f.event),
    ("program_id", f.program.toJson), ("promoter_id", f.promoter.toJson),
    ("rule_id", .ofOption Id.toJson f.rule), ("effect", .ofOption Effect.toJson f.effect),
    ("origin", f.origin.toJson), ("kind", .str f.kind), ("message", .str f.message),
    ("depth", .ofNat f.depth.val), ("recorded_at", f.recordedAt.toJson),
    ("attempts", .ofNat f.attempts.toNat), ("resolved", .bool f.resolved)]

/-- Reads the wire form. -/
def ofJson? (j : Json) : Option Failure := do
  let f ← Fields.of? ["failure_id", "event_id", "program_id", "promoter_id", "rule_id", "effect",
    "origin", "kind", "message", "depth", "recorded_at", "attempts", "resolved"] j
  let id ← f.required "failure_id" Id.ofJson?
  let event ← f.optional "event_id" Id.ofJson?
  let program ← f.required "program_id" Id.ofJson?
  let promoter ← f.required "promoter_id" Id.ofJson?
  let rule ← f.optional "rule_id" Id.ofJson?
  let effect ← f.optional "effect" Effect.ofJson?
  let origin ← f.withDefault "origin" .effect Origin.ofJson?
  let kind ← f.required "kind" Json.string?
  let message ← f.required "message" Json.string?
  let depth ← f.required "depth" Json.depth?
  let recordedAt ← f.required "recorded_at" Instant.ofJson?
  let attempts ← f.required "attempts" Json.word?
  let resolved ← f.required "resolved" Json.bool?
  some ⟨id, event, program, promoter, rule, effect, origin, kind, message, depth, recordedAt,
    attempts, resolved⟩

end Failure

end Referral
