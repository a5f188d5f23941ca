import Referral.Circle
import Referral.Commission

/-!
# Outcomes of effects

What an effect changes is found without changing anything: a commission and the event that reports
it, a move to another circle, or nothing if the promoter is already there.
-/

namespace Referral

/-- Why an effect cannot be applied. -/
inductive Refusal
  | invalidRevenue (event : EventId)
  | circleNotFound (circle : CircleId)
  | switchRejected (promoter : PromoterId)
  | cascadeLimit (depth limit : Depth)
deriving DecidableEq

namespace Refusal

/-- The wording of a refusal. -/
def message : Refusal → String
  | invalidRevenue event =>
    "event " ++ event.display ++ " carries no usable revenue for a percentage commission"
  | circleNotFound circle => "circle " ++ circle.display ++ " does not exist in the program"
  | switchRejected promoter =>
    "another circle switch is in flight for promoter " ++ promoter.display
  | cascadeLimit depth limit =>
    "cascade depth " ++ toString depth.val ++ " exceeds limit " ++ toString limit.val

/-- A refusal as a cause that ends an operation. -/
def toError : Refusal → Error
  | invalidRevenue event => .invalidRevenue event
  | circleNotFound circle => .circleNotFound circle
  | switchRejected promoter => .switchRejected promoter
  | cascadeLimit depth limit => .cascadeLimit depth limit

end Refusal

/-- A change of state. -/
inductive Change
  | commission (c : Commission)
  | transition (t : Transition)
  /-- The promoter is in the target circle already. -/
  | stay (circle : CircleId)
deriving DecidableEq

/-- What an effect leads to: a change and perhaps an event. -/
structure Outcome where
  change : Change
  emitted : Option Event
deriving DecidableEq

/-- The amount of a commission for an event. A share of the revenue is rounded to `precision`
places. -/
def CommissionSpec.amountFor (spec : CommissionSpec) (e : Event) (precision : Nat) :
    Except Refusal Money :=
  match spec with
  | fixed amount => .ok amount
  | percentage share =>
    match e.revenue.bind fun revenue => (revenue.share share).roundTo? precision with
    | some amount => .ok amount
    | none => .error (.invalidRevenue e.id)

/-- The move of a promoter to a circle of the program. -/
def switchTo (program : ProgramId) (promoter : PromoterId) (current : Option CircleId)
    (target : CircleId) (circles : List Circle) (time : Instant) : Except Refusal Change :=
  if !circles.any fun c => c.isOf program target then .error (.circleNotFound target)
  else if current = some target then .ok (.stay target)
  else .ok (.transition ⟨program, promoter, current, target, time⟩)

/-- What a rule's effect is applied to. -/
structure Scene where
  event : Event
  rule : RuleId
  current : Option CircleId
  circles : List Circle
  /-- The places to which commissions are rounded. -/
  precision : Nat

/-- The commission that a specification gives for an event. -/
def Scene.commission (s : Scene) (id : CommissionId) (spec : CommissionSpec) (amount : Money) :
    Commission where
  id := id
  program := s.event.program
  promoter := s.event.promoter
  contact := s.event.contact
  link := s.event.link
  rule := s.rule
  source := s.event.id
  amount := amount
  kind := spec.kind
  createdAt := s.event.occurredAt

/-- What an effect leads to, with the identifiers for what it makes. -/
def Effect.outcome (effect : Effect) (s : Scene) (commission : CommissionId) (event : EventId) :
    Except Refusal Outcome :=
  match effect with
  | generateCommission spec =>
    (spec.amountFor s.event s.precision).map fun amount =>
      let c := s.commission commission spec amount
      ⟨.commission c, some (c.event event s.event)⟩
  | switchCircle target =>
    (switchTo s.event.program s.event.promoter s.current target s.circles s.event.occurredAt).map
      fun change => ⟨change, none⟩

end Referral
