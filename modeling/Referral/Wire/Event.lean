import Referral.Event
import Referral.Json.Reader
import Referral.Wire.Value

/-!
# Events on the wire

An event without a version has the present one, and what it does not carry may be left out.
-/

namespace Referral

namespace EventKind

/-- The kind of a written name. -/
def ofName? (s : String) : Option EventKind :=
  [signup, purchase, commissionGenerated].find? (·.name = s)

/-- The wire form. -/
def toJson (k : EventKind) : Json := .str k.name

/-- Reads the wire form. -/
def ofJson? (j : Json) : Option EventKind := (j.variantName? false).bind ofName?

end EventKind

namespace Event

/-- The names of the fields, in order. -/
def fieldNames : List String :=
  ["event_version", "event_id", "event_type", "program_id", "promoter_id", "contact_id", "link_id",
    "amount", "revenue", "external_id", "item_id", "triggered_by", "correlation_id",
    "causation_id", "occurred_at"]

/-- The wire form. -/
def toJson (e : Event) : Json :=
  .obj [("event_version", .ofNat e.version.toNat), ("event_id", e.id.toJson),
    ("event_type", e.kind.toJson), ("program_id", e.program.toJson),
    ("promoter_id", e.promoter.toJson), ("contact_id", e.contact.toJson),
    ("link_id", e.link.toJson), ("amount", .ofOption Money.toJson e.amount),
    ("revenue", .ofOption Money.toJson e.revenue), ("external_id", .ofOption .str e.externalId),
    ("item_id", .ofOption .str e.itemId),
    ("triggered_by", .ofOption EventKind.toJson e.triggeredBy),
    ("correlation_id", e.correlation.toJson), ("causation_id", .ofOption Id.toJson e.causation),
    ("occurred_at", e.occurredAt.toJson)]

/-- Reads the wire form. -/
def ofJson? (j : Json) : Option Event := do
  let f ← Fields.of? fieldNames j
  let version ← f.withDefault "event_version" currentVersion Json.word?
  let id ← f.required "event_id" Id.ofJson?
  let kind ← f.required "event_type" EventKind.ofJson?
  let program ← f.required "program_id" Id.ofJson?
  let promoter ← f.required "promoter_id" Id.ofJson?
  let contact ← f.required "contact_id" Id.ofJson?
  let link ← f.required "link_id" Id.ofJson?
  let amount ← f.withDefault "amount" none (Fields.nullable Money.ofJson?)
  let revenue ← f.withDefault "revenue" none (Fields.nullable Money.ofJson?)
  let externalId ← f.withDefault "external_id" none (Fields.nullable Json.string?)
  let itemId ← f.withDefault "item_id" none (Fields.nullable Json.string?)
  let triggeredBy ← f.withDefault "triggered_by" none (Fields.nullable EventKind.ofJson?)
  let correlation ← f.required "correlation_id" Id.ofJson?
  let causation ← f.withDefault "causation_id" none (Fields.nullable Id.ofJson?)
  let occurredAt ← f.required "occurred_at" Instant.ofJson?
  some ⟨version, id, kind, program, promoter, contact, link, amount, revenue, externalId, itemId,
    triggeredBy, correlation, causation, occurredAt⟩

/-- Reads an event from the bytes of a message. -/
def ofBytes? (bs : List UInt8) : Option Event := (Json.ofBytes? bs).bind ofJson?

end Event

end Referral
