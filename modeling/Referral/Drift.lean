import Referral.Book

/-!
# Drift

Where two books differ, key by key. A line names a key and what each book has for it.
-/

namespace Referral

/-- A key at which two books differ, with the totals that each has. -/
structure Discrepancy where
  name : String
  left : Option String
  right : Option String
deriving DecidableEq

/-- The line that reports a difference. -/
def Discrepancy.line (d : Discrepancy) : String :=
  d.name ++ ": " ++ d.left.getD "missing" ++ " != " ++ d.right.getD "missing"

/-- An amount in a report of differences, in units. -/
def Money.unitsText (m : Money) : String := "Money(" ++ toString m.units ++ ")"

/-- The totals of a promoter in a report of differences. -/
def PromoterTotals.describe (t : PromoterTotals) : String :=
  "PromoterTotals \x7b total_signups: " ++ toString t.signups.toNat ++
    ", total_purchases: " ++ toString t.purchases.toNat ++
    ", total_revenue: " ++ t.revenue.unitsText ++
    ", total_commission: " ++ t.commission.unitsText ++
    ", commission_through_signups: " ++ t.throughSignups.unitsText ++
    ", commission_through_purchases: " ++ t.throughPurchases.unitsText ++ " \x7d"

/-- The totals of a link in a report of differences. -/
def LinkTotals.describe (t : LinkTotals) : String :=
  "LinkTotals \x7b signups: " ++ toString t.signups.toNat ++
    ", purchases: " ++ toString t.purchases.toNat ++
    ", commission: " ++ t.commission.unitsText ++ " \x7d"

namespace OrderedMap

variable {κ ν : Type} [Ranked κ] [DecidableEq ν]

/-- The differences of two maps: first at the keys of the left one, then at those it lacks. -/
def differences (left right : OrderedMap κ ν) (name : κ → String) (describe : ν → String) :
    List Discrepancy :=
  (left.entries.filterMap fun (k, v) =>
    if right.get? k = some v then none
    else some ⟨name k, some (describe v), (right.get? k).map describe⟩) ++
  (right.entries.filterMap fun (k, v) =>
    if left.contains k then none else some ⟨name k, none, some (describe v)⟩)

end OrderedMap

namespace Book

/-- The differences of two books: promoters, promoter days, links, link days. -/
def differences (left right : Book) : List Discrepancy :=
  let promoter (k : PromoterKey) := "promoter " ++ k.program.display ++ "/" ++ k.promoter.display
  let link (k : LinkKey) := "link " ++ k.link.display
  left.promoters.differences right.promoters promoter PromoterTotals.describe ++
  left.promoterDays.differences right.promoterDays
    (fun k => promoter k.1 ++ " on " ++ k.2.display) PromoterTotals.describe ++
  left.links.differences right.links link LinkTotals.describe ++
  left.linkDays.differences right.linkDays
    (fun k => link k.1 ++ " on " ++ k.2.display) LinkTotals.describe

/-- The lines that report the differences of two books. -/
def driftLines (left right : Book) : List String := (left.differences right).map Discrepancy.line

end Book

/-- What a comparison of stored totals with the log found. -/
structure DriftReport where
  scope : Scope
  watermark : Nat
  drifted : List String
  repaired : Bool
deriving DecidableEq

namespace DriftReport

/-- Whether nothing drifted. -/
def isClean (r : DriftReport) : Bool := r.drifted.isEmpty

/-- The drift as an error, all lines in one. -/
def result (r : DriftReport) : Except Error Unit :=
  if r.isClean then .ok ()
  else .error (.drift r.scope.display ("; ".intercalate r.drifted))

end DriftReport

end Referral
