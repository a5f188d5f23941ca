import Referral.Lock
import Referral.Wire.Lookup
import Referral.Wire.Value

/-!
# Keys and scopes on the wire

A promoter is named with its program; a link goes by its identifier alone where it is locked, and
with its program and promoter where it has totals.
-/

namespace Referral

namespace PromoterKey

/-- The wire form. -/
def toJson (k : PromoterKey) : Json :=
  .obj [("program_id", k.program.toJson), ("promoter_id", k.promoter.toJson)]

/-- Reads the fields of a request. -/
def ofJson? (j : Json) : Option PromoterKey := do
  let program ← j.required "program_id" Id.ofJson?
  let promoter ← j.required "promoter_id" Id.ofJson?
  some ⟨program, promoter⟩

/-- Reads the wire form. -/
def ofRecord? (j : Json) : Option PromoterKey := do
  let f ← Fields.of? ["program_id", "promoter_id"] j
  let program ← f.required "program_id" Id.ofJson?
  let promoter ← f.required "promoter_id" Id.ofJson?
  some ⟨program, promoter⟩

end PromoterKey

namespace LinkKey

/-- Reads the fields of a request. -/
def ofJson? (j : Json) : Option LinkKey := do
  let k ← PromoterKey.ofJson? j
  let link ← j.required "link_id" Id.ofJson?
  some ⟨k.program, k.promoter, link⟩

/-- Reads the wire form. -/
def ofRecord? (j : Json) : Option LinkKey := do
  let f ← Fields.of? ["program_id", "promoter_id", "link_id"] j
  let program ← f.required "program_id" Id.ofJson?
  let promoter ← f.required "promoter_id" Id.ofJson?
  let link ← f.required "link_id" Id.ofJson?
  some ⟨program, promoter, link⟩

end LinkKey

namespace LockKey

/-- The wire form. -/
def toJson : LockKey → Json
  | promoter k => k.toJson
  | link l => .obj [("link_id", l.toJson)]

/-- Reads the fields of a request. -/
def ofJson? (j : Json) : Option LockKey :=
  if (j.get "link_id").isNull then (PromoterKey.ofJson? j).map promoter
  else (j.required "link_id" Id.ofJson?).map link

end LockKey

namespace Scope

/-- The wire form. -/
def toJson : Scope → Json
  | all => .obj [("scope", .str "all")]
  | program p => .obj [("scope", .str "program"), ("program_id", p.toJson)]
  | promoter p m =>
    .obj [("scope", .str "promoter"), ("program_id", p.toJson), ("promoter_id", m.toJson)]
  | link l => .obj [("scope", .str "link"), ("link_id", l.toJson)]

/-- Reads the wire form. -/
def ofJson? (j : Json) : Option Scope := do
  let t ← Tagged.of? "scope" j
  match ← t.name? ["all", "program", "promoter", "link"] false with
  | "all" => if t.isBare then some all else none
  | "program" =>
    let f ← Fields.of? ["program_id"] t.rest
    (f.required "program_id" Id.ofJson?).map program
  | "promoter" =>
    let f ← Fields.of? ["program_id", "promoter_id"] t.rest
    let p ← f.required "program_id" Id.ofJson?
    let m ← f.required "promoter_id" Id.ofJson?
    some (promoter p m)
  | _ =>
    let f ← Fields.of? ["link_id"] t.rest
    (f.required "link_id" Id.ofJson?).map link

end Scope

end Referral
