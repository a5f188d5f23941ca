import Referral.Error
import Referral.Money
import Referral.Time.Instant

/-!
# Events

An event is a fact about a referral: a signup, a purchase, or a commission that a rule generated.
Events from outside are checked before they are recorded.
-/

namespace Referral

/-- The kinds of facts. -/
inductive EventKind
  | signup
  | purchase
  | commissionGenerated
deriving DecidableEq

/-- The written name of a kind. -/
def EventKind.name : EventKind → String
  | signup => "SIGNUP"
  | purchase => "PURCHASE"
  | commissionGenerated => "COMMISSION_GENERATED"

/-- A recorded fact. -/
structure Event where
  version : UInt32
  id : EventId
  kind : EventKind
  program : ProgramId
  promoter : PromoterId
  contact : ContactId
  link : LinkId
  /-- The commission, for a generated commission. -/
  amount : Option Money
  /-- What a purchase earned. -/
  revenue : Option Money
  externalId : Option String
  itemId : Option String
  /-- For a generated commission, the kind of the event whose rule made it. -/
  triggeredBy : Option EventKind
  /-- Shared by all events that follow from one action of a producer. -/
  correlation : CorrelationId
  /-- The event that this one follows from. -/
  causation : Option EventId
  occurredAt : Instant
deriving DecidableEq

namespace Event

/-- The version of the events made here. -/
def currentVersion : UInt32 := 1

/-- The day of an event in universal time. -/
def day (e : Event) : Day := e.occurredAt.day

/-- An event of a kind, with nothing known but who took part and when. -/
def plain (kind : EventKind) (id : EventId) (correlation : CorrelationId) (program : ProgramId)
    (promoter : PromoterId) (contact : ContactId) (link : LinkId) (time : Instant) : Event where
  version := currentVersion
  id := id
  kind := kind
  program := program
  promoter := promoter
  contact := contact
  link := link
  amount := none
  revenue := none
  externalId := none
  itemId := none
  triggeredBy := none
  correlation := correlation
  causation := none
  occurredAt := time

/-- A contact signed up through a link. -/
def signup (id : EventId) (correlation : CorrelationId) (program : ProgramId)
    (promoter : PromoterId) (contact : ContactId) (link : LinkId) (time : Instant) : Event :=
  plain .signup id correlation program promoter contact link time

/-- A contact bought something through a link. -/
def purchase (id : EventId) (correlation : CorrelationId) (program : ProgramId)
    (promoter : PromoterId) (contact : ContactId) (link : LinkId) (revenue : Option Money)
    (time : Instant) : Event :=
  { plain .purchase id correlation program promoter contact link time with revenue }

/-- What is wrong with an event from outside. -/
inductive Flaw
  | nilId (field : String)
  | negative (field : String) (event : EventId)
  | tooLarge (field : String) (event : EventId)
  | incompleteCommission (event : EventId)
  | amountWithoutCommission (kind : EventKind) (event : EventId)
deriving DecidableEq

/-- The wording of a flaw. -/
def Flaw.message : Flaw → String
  | nilId field => field ++ " must not be nil"
  | negative field event => field ++ " must not be negative on event " ++ event.display
  | tooLarge field event =>
    field ++ " on event " ++ event.display ++ " exceeds " ++ Money.eventLimit.display
  | incompleteCommission event =>
    "commission event " ++ event.display ++ " needs amount and triggered_by"
  | amountWithoutCommission kind event =>
    kind.name ++ " event " ++ event.display ++ " must not carry a commission amount"

/-- The first identifier of an event without a set bit. -/
def nilField? (e : Event) : Option String :=
  if e.id.isNil then some "event_id"
  else if e.program.isNil then some "program_id"
  else if e.promoter.isNil then some "promoter_id"
  else if e.contact.isNil then some "contact_id"
  else if e.link.isNil then some "link_id"
  else none

/-- What is wrong with an amount that an event carries. -/
def amountFlaw? (e : Event) (field : String) (m : Option Money) : Option Flaw :=
  m.bind fun m =>
    if m.isNegative then some (.negative field e.id)
    else if Money.eventLimit < m then some (.tooLarge field e.id)
    else none

/-- What is wrong with the amounts for the kind of an event. -/
def kindFlaw? (e : Event) : Option Flaw :=
  match e.kind with
  | .commissionGenerated =>
    if e.amount.isNone || e.triggeredBy.isNone then some (.incompleteCommission e.id) else none
  | .signup | .purchase =>
    if e.amount.isSome then some (.amountWithoutCommission e.kind e.id) else none

/-- The first flaw of an event, if it has one. -/
def flaw? (e : Event) : Option Flaw :=
  (e.nilField?.map .nilId).or <| (e.amountFlaw? "amount" e.amount).or <|
    (e.amountFlaw? "revenue" e.revenue).or e.kindFlaw?

/-- Refuses an event with a flaw. -/
def validate (e : Event) : Except Error Unit :=
  match e.flaw? with
  | some flaw => .error (.validation flaw.message)
  | none => .ok ()

theorem validate_eq_ok {e : Event} : e.validate = .ok () ↔ e.flaw? = none := by
  unfold validate
  split <;> simp_all

end Event

end Referral
