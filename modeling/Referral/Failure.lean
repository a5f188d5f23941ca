import Referral.Rule

/-!
# Failures

Whatever cannot be applied is kept as a failure record: what went wrong, where it was raised, and
what is needed to try it again.
-/

namespace Referral

/-- Where a failure was raised, which decides how it is tried again. -/
inductive Origin
  | effect
  | handler (name : String)
  | cascadeLimit
  | manualSwitch
deriving DecidableEq

/-- A record of something that could not be applied. -/
structure Failure where
  id : FailureId
  /-- The event in hand; none for a switch made by hand. -/
  event : Option EventId
  program : ProgramId
  promoter : PromoterId
  rule : Option RuleId
  effect : Option Effect
  origin : Origin
  kind : String
  message : String
  depth : Depth
  recordedAt : Instant
  attempts : UInt32
  resolved : Bool
deriving DecidableEq

/-- A new record of an error, counted as one attempt. -/
def Failure.ofError (id : FailureId) (event : Option EventId) (program : ProgramId)
    (promoter : PromoterId) (rule : Option RuleId) (effect : Option Effect) (origin : Origin)
    (error : Error) (depth : Depth) (now : Instant) : Failure where
  id := id
  event := event
  program := program
  promoter := promoter
  rule := rule
  effect := effect
  origin := origin
  kind := error.kind
  message := error.message
  depth := depth
  recordedAt := now
  attempts := 1
  resolved := false

end Referral
