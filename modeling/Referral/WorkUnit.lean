import Referral.Book
import Referral.Circle
import Referral.Commission
import Referral.Failure

/-!
# Units of work

Everything that one operation changes is staged in a unit of work, which is committed as a whole.
The context is what the unit was started from; staged moves of the promoter go on from it.
-/

namespace Referral

/-- What is known of a promoter when a unit of work starts. -/
structure Context where
  program : ProgramId
  promoter : PromoterId
  /-- The rules of the program, in the order in which they fire. -/
  rules : List Rule
  circles : List Circle
  membership : Option Membership
  /-- The stored totals of the promoter. -/
  totals : PromoterTotals
deriving DecidableEq

namespace Context

/-- The circle in force: that of the membership, else the default circle. -/
def currentCircle (c : Context) : Option CircleId :=
  (c.membership.map (·.circle)).or ((c.circles.find? (·.isDefault)).map (·.id))

/-- Whether a circle is one of the program. -/
def circleExists (c : Context) (circle : CircleId) : Bool :=
  c.circles.any fun x => x.isOf c.program circle

/-- The promoter of the context. -/
def key (c : Context) : PromoterKey := ⟨c.program, c.promoter⟩

end Context

/-- A staged move and what led to it; neither rule nor event for one made by hand. -/
structure StagedTransition where
  transition : Transition
  rule : Option RuleId
  event : Option EventId
  depth : Depth
deriving DecidableEq

/-- Changes to be committed together. -/
structure WorkUnit where
  context : Context
  events : List Event
  /-- The events whose rules were evaluated. -/
  evaluated : List EventId
  commissions : List Commission
  transitions : List StagedTransition
  failures : List Failure
  resolved : List FailureId
  attempted : List FailureId
  /-- What the staged events add to the totals. -/
  delta : Book
  /-- The permits that the unit holds. -/
  permits : List PromoterKey
deriving DecidableEq

namespace WorkUnit

/-- The unit without changes. -/
def start (c : Context) : WorkUnit := ⟨c, [], [], [], [], [], [], [], ∅, []⟩

/-- Whether an event is staged. -/
def isStaged (u : WorkUnit) (id : EventId) : Bool := u.events.any (·.id = id)

/-- Stages an event, unless one of the same identifier is. -/
def stageEvent? (u : WorkUnit) (e : Event) : Option WorkUnit :=
  if u.isStaged e.id then none else some { u with events := u.events ++ [e] }

/-- Notes that the rules for an event are evaluated, unless they were before. -/
def markEvaluated? (u : WorkUnit) (id : EventId) : Option WorkUnit :=
  if u.evaluated.contains id then none else some { u with evaluated := u.evaluated ++ [id] }

/-- Stages a commission. -/
def stageCommission (u : WorkUnit) (c : Commission) : WorkUnit :=
  { u with commissions := u.commissions ++ [c] }

/-- Stages a move, after which the promoter is in its target. -/
def stageTransition (u : WorkUnit) (t : StagedTransition) : WorkUnit :=
  { u with
    context := { u.context with membership := some t.transition.membership }
    transitions := u.transitions ++ [t] }

/-- Stages a failure record. -/
def recordFailure (u : WorkUnit) (f : Failure) : WorkUnit :=
  { u with failures := u.failures ++ [f] }

/-- Stages that a failure is resolved. -/
def resolveFailure (u : WorkUnit) (id : FailureId) : WorkUnit :=
  { u with resolved := u.resolved ++ [id] }

/-- Stages that a failure was tried once more. -/
def recordAttempt (u : WorkUnit) (id : FailureId) : WorkUnit :=
  { u with attempted := u.attempted ++ [id] }

/-- Keeps a permit with the unit. -/
def holdPermit (u : WorkUnit) (k : PromoterKey) : WorkUnit :=
  { u with permits := u.permits ++ [k] }

/-- Whether the unit holds the permit for a promoter. -/
def holdsPermit (u : WorkUnit) (k : PromoterKey) : Bool := u.permits.contains k

/-- The promoter's stored totals and what is staged, added up. -/
def currentTotals (u : WorkUnit) : Except Error PromoterTotals :=
  match u.context.totals.add? (u.delta.promoter u.context.key) with
  | some totals => .ok totals
  | none =>
    .error (.store ("promoter totals overflow for " ++ u.context.promoter.display))

/-- Whether nothing is staged that a commit would write. -/
def isEmpty (u : WorkUnit) : Bool :=
  u.events.isEmpty && u.commissions.isEmpty && u.transitions.isEmpty && u.failures.isEmpty &&
    u.resolved.isEmpty && u.attempted.isEmpty

end WorkUnit

end Referral
