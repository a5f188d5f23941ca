import Referral.Commission
import Referral.Wire.Rule

/-!
# Commissions on the wire

A commission carries the identifiers of all that it came from.
-/

namespace Referral

namespace Commission

/-- The wire form. -/
def toJson (c : Commission) : Json :=
  .obj [("commission_id", c.id.toJson), ("program_id", c.program.toJson),
    ("promoter_id", c.promoter.toJson), ("contact_id", c.contact.toJson),
    ("link_id", c.link.toJson), ("rule_id", c.rule.toJson), ("source_event_id", c.source.toJson),
    ("amount", c.amount.toJson), ("kind", c.kind.toJson), ("created_at", c.createdAt.toJson)]

/-- Reads the wire form. -/
def ofJson? (buffered : Bool) (j : Json) : Option Commission := do
  let f ← Fields.of? ["commission_id", "program_id", "promoter_id", "contact_id", "link_id",
    "rule_id", "source_event_id", "amount", "kind", "created_at"] j
  let id ← f.required "commission_id" Id.ofJson?
  let program ← f.required "program_id" Id.ofJson?
  let promoter ← f.required "promoter_id" Id.ofJson?
  let contact ← f.required "contact_id" Id.ofJson?
  let link ← f.required "link_id" Id.ofJson?
  let rule ← f.required "rule_id" Id.ofJson?
  let source ← f.required "source_event_id" Id.ofJson?
  let amount ← f.required "amount" Money.ofJson?
  let kind ← f.required "kind" (CommissionKind.ofJson? buffered)
  let createdAt ← f.required "created_at" Instant.ofJson?
  some ⟨id, program, promoter, contact, link, rule, source, amount, kind, createdAt⟩

end Commission

end Referral
