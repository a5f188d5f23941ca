import Referral.Event

/-!
# Totals

Running totals count facts and add up amounts. What an event adds to its promoter and to its link
depends on its kind. A sum exists only if each field stays in its range.
-/

namespace Referral

/-- A number of facts. -/
abbrev Count := UInt64

/-- The sum, if it is in range. -/
def Count.add? (a b : Count) : Option Count :=
  if a.toNat + b.toNat < 18446744073709551616 then some (a + b) else none

theorem Count.add?_eq_some {a b c : Count} :
    Count.add? a b = some c ↔ c.toNat = a.toNat + b.toNat := by
  unfold Count.add?
  have hsum : (a + b).toNat = (a.toNat + b.toNat) % 2 ^ 64 := UInt64.toNat_add a b
  have hc := c.toNat_lt
  constructor
  · intro h
    split at h
    · cases h
      omega
    · cases h
  · intro h
    rw [if_pos (by omega), Option.some.injEq]
    apply UInt64.toNat_inj.mp
    omega

/-- Values that can be added up, starting from zero. -/
class Summable (ν : Type) where
  zero : ν
  add? : ν → ν → Option ν

/-- Totals of a promoter in a program. -/
structure PromoterTotals where
  signups : Count
  purchases : Count
  revenue : Money
  commission : Money
  /-- The part of the commission that signups earned. -/
  throughSignups : Money
  /-- The part of the commission that purchases earned. -/
  throughPurchases : Money
deriving DecidableEq

namespace PromoterTotals

/-- Totals without any event. -/
def zero : PromoterTotals := ⟨0, 0, .zero, .zero, .zero, .zero⟩

/-- What an event adds to the totals of its promoter. -/
def ofEvent (e : Event) : PromoterTotals :=
  match e.kind with
  | .signup => { zero with signups := 1 }
  | .purchase => { zero with purchases := 1, revenue := e.revenue.getD .zero }
  | .commissionGenerated =>
    let amount := e.amount.getD .zero
    { zero with
      commission := amount
      throughSignups := if e.triggeredBy = some .signup then amount else .zero
      throughPurchases := if e.triggeredBy = some .purchase then amount else .zero }

/-- The sum field by field, if each is in range. -/
def add? (a b : PromoterTotals) : Option PromoterTotals := do
  let signups ← Count.add? a.signups b.signups
  let purchases ← Count.add? a.purchases b.purchases
  let revenue ← a.revenue.add? b.revenue
  let commission ← a.commission.add? b.commission
  let throughSignups ← a.throughSignups.add? b.throughSignups
  let throughPurchases ← a.throughPurchases.add? b.throughPurchases
  some ⟨signups, purchases, revenue, commission, throughSignups, throughPurchases⟩

instance : Summable PromoterTotals := ⟨zero, add?⟩

instance : Inhabited PromoterTotals := ⟨zero⟩

end PromoterTotals

/-- Totals of a link. -/
structure LinkTotals where
  signups : Count
  purchases : Count
  commission : Money
deriving DecidableEq

namespace LinkTotals

/-- Totals without any event. -/
def zero : LinkTotals := ⟨0, 0, .zero⟩

/-- What an event adds to the totals of its link. -/
def ofEvent (e : Event) : LinkTotals :=
  match e.kind with
  | .signup => { zero with signups := 1 }
  | .purchase => { zero with purchases := 1 }
  | .commissionGenerated => { zero with commission := e.amount.getD .zero }

/-- The sum field by field, if each is in range. -/
def add? (a b : LinkTotals) : Option LinkTotals := do
  let signups ← Count.add? a.signups b.signups
  let purchases ← Count.add? a.purchases b.purchases
  let commission ← a.commission.add? b.commission
  some ⟨signups, purchases, commission⟩

instance : Summable LinkTotals := ⟨zero, add?⟩

instance : Inhabited LinkTotals := ⟨zero⟩

end LinkTotals

end Referral
