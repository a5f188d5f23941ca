import Referral.Percentage
import Referral.Text.Decimal
import Referral.Time.Duration
import Referral.Time.Instant
import Referral.Totals
import Referral.Wire.Record

/-!
# Plain values on the wire

Amounts, percentages, identifiers, times and days are strings. An amount may also be given as a
number; one that is no integer is rounded to four places.
-/

namespace Referral

namespace Json

/-- A number without sign. -/
def ofNat (n : Nat) : Json := int n

/-- A value that may be null. -/
def ofOption {α : Type} (encode : α → Json) : Option α → Json
  | none => null
  | some a => encode a

/-- An array of encoded values. -/
def ofList {α : Type} (encode : α → Json) (as : List α) : Json := arr (as.map encode)

/-- A number of 32 bits. -/
def word? (j : Json) : Option UInt32 := (j.nat? 4294967295).map UInt32.ofNat

/-- A number of 64 bits. -/
def long? (j : Json) : Option UInt64 := (j.nat? 18446744073709551615).map UInt64.ofNat

/-- The characters of a string. -/
def chars? (j : Json) : Option (List Char) := j.string?.map String.toList

/-- A depth. -/
def depth? (j : Json) : Option (Fin 256) := (j.nat? 255).map (Fin.ofNat 256)

end Json

namespace Money

/-- The wire form. -/
def toJson (m : Money) : Json := .str m.display

/-- An amount given as a number that is no integer, rounded to four places. -/
def ofReal? (negative : Bool) (size : Binary64) : Option Money :=
  let n := size.tenThousandths
  if h : n ≤ 9223372036854775807 then
    some (if negative then ⟨-(n : Int), by omega, by omega⟩ else ⟨(n : Int), by omega, by omega⟩)
  else none

/-- Reads the wire form. An integer of more than 63 bits counts as one that is no integer. -/
def ofJson? : Json → Option Money
  | .str s => read? s.toList
  | .int n =>
    if 9223372036854775807 < n then (Binary64.ofNat? n.toNat).bind (ofReal? false) else ofWhole? n
  | .real negative size => ofReal? negative size
  | _ => none

end Money

namespace Percentage

/-- The wire form. -/
def toJson (p : Percentage) : Json := p.percent.toJson

/-- Reads the wire form. -/
def ofJson? (j : Json) : Option Percentage := (Money.ofJson? j).map ofPercent

end Percentage

namespace Id

/-- The wire form. -/
def toJson {e : Entity} (a : Id e) : Json := .str a.display

/-- Reads the wire form. -/
def ofJson? {e : Entity} (j : Json) : Option (Id e) := j.chars?.bind read?

end Id

namespace Instant

/-- The wire form. -/
def toJson (i : Instant) : Json := .str i.display

/-- Reads the wire form. -/
def ofJson? (j : Json) : Option Instant := j.chars?.bind read?

end Instant

namespace Day

/-- The wire form. -/
def toJson (d : Day) : Json := .str d.display

/-- Reads the wire form. -/
def ofJson? (j : Json) : Option Day := j.chars?.bind read?

end Day

namespace Duration

/-- The wire form. -/
def toJson (d : Duration) : Json :=
  .obj [("secs", .ofNat d.seconds), ("nanos", .ofNat d.subsecond)]

/-- Reads the wire form. -/
def ofJson? (j : Json) : Option Duration := do
  let f ← Fields.only? ["secs", "nanos"] j
  let seconds ← f.required "secs" Json.long?
  let nanos ← f.required "nanos" Json.word?
  ofParts? seconds.toNat nanos.toNat

end Duration

namespace PromoterTotals

/-- The wire form. -/
def toJson (t : PromoterTotals) : Json :=
  .obj [("total_signups", .ofNat t.signups.toNat), ("total_purchases", .ofNat t.purchases.toNat),
    ("total_revenue", t.revenue.toJson), ("total_commission", t.commission.toJson),
    ("commission_through_signups", t.throughSignups.toJson),
    ("commission_through_purchases", t.throughPurchases.toJson)]

/-- Reads the wire form. -/
def ofJson? (j : Json) : Option PromoterTotals := do
  let f ← Fields.of? ["total_signups", "total_purchases", "total_revenue", "total_commission",
    "commission_through_signups", "commission_through_purchases"] j
  let signups ← f.required "total_signups" Json.long?
  let purchases ← f.required "total_purchases" Json.long?
  let revenue ← f.required "total_revenue" Money.ofJson?
  let commission ← f.required "total_commission" Money.ofJson?
  let throughSignups ← f.required "commission_through_signups" Money.ofJson?
  let throughPurchases ← f.required "commission_through_purchases" Money.ofJson?
  some ⟨signups, purchases, revenue, commission, throughSignups, throughPurchases⟩

end PromoterTotals

namespace LinkTotals

/-- The wire form. -/
def toJson (t : LinkTotals) : Json :=
  .obj [("signups", .ofNat t.signups.toNat), ("purchases", .ofNat t.purchases.toNat),
    ("commission", t.commission.toJson)]

/-- Reads the wire form. -/
def ofJson? (j : Json) : Option LinkTotals := do
  let f ← Fields.of? ["signups", "purchases", "commission"] j
  let signups ← f.required "signups" Json.long?
  let purchases ← f.required "purchases" Json.long?
  let commission ← f.required "commission" Money.ofJson?
  some ⟨signups, purchases, commission⟩

end LinkTotals

end Referral
