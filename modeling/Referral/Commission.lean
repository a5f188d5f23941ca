import Referral.Rule

/-!
# Commissions

A commission is owed to a promoter for an event, by a rule. The event that reports it repeats its
data and says which event it follows from.
-/

namespace Referral

/-- An amount owed to a promoter. -/
structure Commission where
  id : CommissionId
  program : ProgramId
  promoter : PromoterId
  contact : ContactId
  link : LinkId
  rule : RuleId
  /-- The event that the rule was evaluated for. -/
  source : EventId
  amount : Money
  kind : CommissionKind
  createdAt : Instant
deriving DecidableEq

/-- The event that reports a commission earned by another event. -/
def Commission.event (c : Commission) (id : EventId) (parent : Event) : Event where
  version := Event.currentVersion
  id := id
  kind := .commissionGenerated
  program := c.program
  promoter := c.promoter
  contact := c.contact
  link := c.link
  amount := some c.amount
  revenue := none
  externalId := parent.externalId
  itemId := parent.itemId
  triggeredBy := some parent.kind
  correlation := parent.correlation
  causation := some parent.id
  occurredAt := c.createdAt

end Referral
