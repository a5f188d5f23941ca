import Referral.Event
import Referral.Percentage

/-!
# Rules

A rule of a program listens to one kind of event, may be kept to one circle, and has conditions that
must all hold and one effect. Conditions look at running totals of the promoter and at identifiers
that the event carries.
-/

namespace Referral

/-- What a condition looks at. -/
inductive Parameter
  | signups
  | purchases
  | revenue
  | externalId
  | itemId
deriving DecidableEq

namespace Parameter

/-- The name in wordings. -/
def label : Parameter → String
  | signups => "NumOfSignups"
  | purchases => "NumOfPurchases"
  | revenue => "Revenue"
  | externalId => "ExternalId"
  | itemId => "ItemId"

/-- Whether the values of a parameter are numbers. -/
def isNumeric : Parameter → Bool
  | signups | purchases | revenue => true
  | externalId | itemId => false

end Parameter

/-- How a condition compares. -/
inductive Operator
  | equals
  | contains
  | lessThan
  | lessOrEqual
  | greaterThan
  | greaterOrEqual
deriving DecidableEq

namespace Operator

/-- The sign in wordings. -/
def symbol : Operator → String
  | equals => "=="
  | contains => "contains"
  | lessThan => "<"
  | lessOrEqual => "<="
  | greaterThan => ">"
  | greaterOrEqual => ">="

/-- Whether both sides must be numbers. -/
def isNumeric : Operator → Bool
  | lessThan | lessOrEqual | greaterThan | greaterOrEqual => true
  | equals | contains => false

end Operator

/-- One comparison of a parameter with a written value. -/
structure Condition where
  parameter : Parameter
  operator : Operator
  value : String
deriving DecidableEq

/-- The wording of a condition. -/
def Condition.display (c : Condition) : String :=
  c.parameter.label ++ " " ++ c.operator.symbol ++ " " ++ c.value

/-- The two ways to set a commission. -/
inductive CommissionKind
  | percentage
  | fixed
deriving DecidableEq

/-- How the amount of a commission is found. -/
inductive CommissionSpec
  | percentage (share : Percentage)
  | fixed (amount : Money)
deriving DecidableEq

/-- The way in which a commission is set. -/
def CommissionSpec.kind : CommissionSpec → CommissionKind
  | percentage _ => .percentage
  | fixed _ => .fixed

/-- What a rule does when it matches. -/
inductive Effect
  | generateCommission (spec : CommissionSpec)
  | switchCircle (target : CircleId)
deriving DecidableEq

namespace Effect

/-- Whether an event follows from the effect. -/
def emits : Effect → Bool
  | generateCommission _ => true
  | switchCircle _ => false

/-- The short name of an effect. -/
def name : Effect → String
  | generateCommission _ => "generate_commission"
  | switchCircle _ => "switch_circle"

end Effect

/-- A rule of a program. -/
structure Rule where
  id : RuleId
  program : ProgramId
  name : String
  trigger : EventKind
  /-- The only circle whose promoters the rule is for; none if it is for all. -/
  circle : Option CircleId
  conditions : List Condition
  effect : Effect
  active : Bool
deriving DecidableEq

namespace Rule

/-- Whether commissions of the rule would feed the rule. -/
def feedsItself (r : Rule) : Bool := r.trigger = .commissionGenerated && r.effect.emits

/-- Refuses a rule that generates commissions from commissions. -/
def validate (r : Rule) : Except Error Unit :=
  if r.feedsItself then
    .error (.validation ("rule " ++ r.id.display ++
      " cannot generate commissions from COMMISSION_GENERATED events"))
  else .ok ()

/-- An active rule for all circles. -/
def make (id : RuleId) (program : ProgramId) (name : String) (trigger : EventKind)
    (conditions : List Condition) (effect : Effect) : Except Error Rule :=
  let r : Rule := ⟨id, program, name, trigger, none, conditions, effect, true⟩
  r.validate.map fun _ => r

/-- The rule kept to one circle. -/
def inCircle (r : Rule) (circle : CircleId) : Rule := { r with circle := some circle }

/-- The rule with other conditions. -/
def withConditions (r : Rule) (conditions : List Condition) : Rule := { r with conditions }

/-- The rule switched off. -/
def deactivated (r : Rule) : Rule := { r with active := false }

/-- Whether a rule is for events of a kind from a promoter in a circle. -/
def appliesTo (r : Rule) (kind : EventKind) (circle : Option CircleId) : Bool :=
  r.active && r.trigger = kind && (r.circle.isNone || r.circle = circle)

end Rule

end Referral
