import Referral.Rows
import Referral.Wire.Value

/-!
# Rows on the wire

A row of running totals has null for its day.
-/

namespace Referral

namespace PromoterRow

/-- The wire form. -/
def toJson (r : PromoterRow) : Json :=
  .obj [("program_id", r.program.toJson), ("promoter_id", r.promoter.toJson),
    ("day", .ofOption Day.toJson r.day), ("totals", r.totals.toJson)]

/-- Reads the wire form. -/
def ofJson? (j : Json) : Option PromoterRow := do
  let f ← Fields.of? ["program_id", "promoter_id", "day", "totals"] j
  let program ← f.required "program_id" Id.ofJson?
  let promoter ← f.required "promoter_id" Id.ofJson?
  let day ← f.optional "day" Day.ofJson?
  let totals ← f.required "totals" PromoterTotals.ofJson?
  some ⟨program, promoter, day, totals⟩

end PromoterRow

namespace LinkRow

/-- The wire form. -/
def toJson (r : LinkRow) : Json :=
  .obj [("link_id", r.link.toJson), ("promoter_id", r.promoter.toJson),
    ("day", .ofOption Day.toJson r.day), ("totals", r.totals.toJson)]

/-- Reads the wire form. -/
def ofJson? (j : Json) : Option LinkRow := do
  let f ← Fields.of? ["link_id", "promoter_id", "day", "totals"] j
  let link ← f.required "link_id" Id.ofJson?
  let promoter ← f.required "promoter_id" Id.ofJson?
  let day ← f.optional "day" Day.ofJson?
  let totals ← f.required "totals" LinkTotals.ofJson?
  some ⟨link, promoter, day, totals⟩

end LinkRow

namespace Rows

/-- The wire form. -/
def toJson (r : Rows) : Json :=
  .obj [("promoters", .ofList PromoterRow.toJson r.promoters),
    ("promoter_days", .ofList PromoterRow.toJson r.promoterDays),
    ("links", .ofList LinkRow.toJson r.links), ("link_days", .ofList LinkRow.toJson r.linkDays)]

/-- Reads the wire form. -/
def ofJson? (j : Json) : Option Rows := do
  let f ← Fields.of? ["promoters", "promoter_days", "links", "link_days"] j
  let promoters ← f.required "promoters" (Json.listOf? PromoterRow.ofJson?)
  let promoterDays ← f.required "promoter_days" (Json.listOf? PromoterRow.ofJson?)
  let links ← f.required "links" (Json.listOf? LinkRow.ofJson?)
  let linkDays ← f.required "link_days" (Json.listOf? LinkRow.ofJson?)
  some ⟨promoters, promoterDays, links, linkDays⟩

end Rows

end Referral
