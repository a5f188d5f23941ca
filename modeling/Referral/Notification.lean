import Referral.Circle
import Referral.Subject
import Referral.WorkUnit

/-!
# Notifications

After a commit, those outside are told of each commission and of each move, in this order.
-/

namespace Referral

/-- A message about something that was committed. -/
inductive Notification
  | commissionGenerated (commission : Commission) (event : EventId) (correlation : CorrelationId)
  | circleSwitched (transition : Transition)
deriving DecidableEq

namespace Notification

/-- The program that a message is about. -/
def program : Notification → ProgramId
  | commissionGenerated c _ _ => c.program
  | circleSwitched t => t.program

/-- The topic under which a message goes out. -/
def topic : Notification → Topic
  | commissionGenerated _ _ _ => .commissionGenerated
  | circleSwitched _ => .circleSwitched

end Notification

/-- The messages about a unit of work: the commissions, each with the event that reports it, which
are staged in the same order, then the moves. -/
def WorkUnit.notifications (u : WorkUnit) : List Notification :=
  let reports := u.events.filter (·.kind = .commissionGenerated)
  ((u.commissions.zip reports).map fun (c, e) => .commissionGenerated c e.id e.correlation) ++
    u.transitions.map fun t => .circleSwitched t.transition

/-- What becomes of messages that are sent one after the other: those at positions where sending
fails are lost, and the others arrive. The first message is at the given position. -/
def deliver (fails : Nat → Bool) : Nat → List Notification → List Notification
  | _, [] => []
  | position, n :: ns =>
    if fails position then deliver fails (position + 1) ns
    else n :: deliver fails (position + 1) ns

end Referral
