import Referral.Permit
import Referral.WorkUnit

/-!
# Staging

While an event is handled, changes go to the unit of work in hand; permits are taken from the table
of all permits, and new identifiers from a supply.
-/

namespace Referral

/-- A supply of identifiers that were not used before. -/
structure IdSupply where
  next : Nat
deriving DecidableEq

namespace IdSupply

/-- The next identifier. -/
def peek {e : Entity} (s : IdSupply) : Id e := Id.ofNat s.next

/-- The supply without its first identifiers. -/
def skip (s : IdSupply) (count : Nat) : IdSupply := ⟨s.next + count⟩

end IdSupply

/-- The unit of work in hand and what its changes draw on. -/
structure Staging where
  unit : WorkUnit
  permits : Permits
  ids : IdSupply
  now : Instant

namespace Staging

/-- Changes the unit of work. -/
def mapUnit (s : Staging) (f : WorkUnit → WorkUnit) : Staging := { s with unit := f s.unit }

/-- Stages a failure record for an error. -/
def recordError (s : Staging) (event : Option EventId) (program : ProgramId)
    (promoter : PromoterId) (rule : Option RuleId) (effect : Option Effect) (origin : Origin)
    (error : Error) (depth : Depth) : Staging :=
  { s with
    unit := s.unit.recordFailure
      (Failure.ofError s.ids.peek event program promoter rule effect origin error depth s.now)
    ids := s.ids.skip 1 }

/-- Makes sure that the unit holds the permit for a promoter. -/
def ensurePermit? (s : Staging) (k : PromoterKey) : Option Staging :=
  if s.unit.holdsPermit k then some s
  else (s.permits.acquire? k).map fun permits =>
    { s with permits, unit := s.unit.holdPermit k }

/-- The failure record for a staged move that was refused. -/
def demoted (t : StagedTransition) (id : FailureId) (error : Error) (now : Instant) : Failure :=
  Failure.ofError id t.event t.transition.program t.transition.promoter t.rule
    (some (.switchCircle t.transition.target))
    (if t.event.isSome then .effect else .manualSwitch) error t.depth now

/-- Turns every staged move into a failure record. -/
def demoteTransitions (s : Staging) (error : Error) (now : Instant) : Staging :=
  s.unit.transitions.foldl
    (fun s t =>
      { s with
        unit := s.unit.recordFailure (demoted t s.ids.peek error now)
        ids := s.ids.skip 1 })
    (s.mapUnit fun u => { u with transitions := [] })

end Staging

end Referral
