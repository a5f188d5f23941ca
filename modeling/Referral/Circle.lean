import Referral.Id
import Referral.Time.Instant

/-!
# Circles

A circle is a reward tier of a program. A promoter is in one circle of a program at a time, moves by
transitions that say where they start, and is in the default circle until the first move.
-/

namespace Referral

/-- A reward tier. -/
structure Circle where
  id : CircleId
  program : ProgramId
  name : String
  isDefault : Bool
deriving DecidableEq

/-- The circle a promoter was placed in. -/
structure Membership where
  program : ProgramId
  promoter : PromoterId
  circle : CircleId
  since : Instant
deriving DecidableEq

/-- A move from one circle to another. -/
structure Transition where
  program : ProgramId
  promoter : PromoterId
  /-- The circle in force when the move was decided. -/
  source : Option CircleId
  target : CircleId
  time : Instant
deriving DecidableEq

/-- The membership after a move. -/
def Transition.membership (t : Transition) : Membership :=
  ⟨t.program, t.promoter, t.target, t.time⟩

/-- Whether a circle is one of a program. -/
def Circle.isOf (c : Circle) (program : ProgramId) (id : CircleId) : Bool :=
  c.id = id && c.program = program

end Referral
