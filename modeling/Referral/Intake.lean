import Referral.Service

/-!
# Intake

What comes in from outside: circles and rules at the start, and messages with events.
-/

namespace Referral

/-- Circles and rules to begin with. -/
structure Seed where
  circles : List Circle
  rules : List Rule
deriving DecidableEq

namespace Seed

open Procedure

/-- Puts circles one after the other, up to the first that is refused. -/
def putCircles : List Circle → Procedure (Except Error Unit)
  | [] => return .ok ()
  | c :: cs => do
    match ← perform (.putCircle c) with
    | .ok () => putCircles cs
    | .error e => return .error e

/-- Puts rules one after the other, up to the first that is refused. -/
def putRules : List Rule → Procedure (Except Error Unit)
  | [] => return .ok ()
  | r :: rs => do
    match ← perform (.putRule r) with
    | .ok () => putRules rs
    | .error e => return .error e

/-- Puts the default circles, the other circles and the rules, up to the first that is refused. -/
def load (s : Seed) : Procedure (Except Error Unit) := do
  match ← putCircles (s.circles.filter (·.isDefault) ++ s.circles.filter (!·.isDefault)) with
  | .ok () => putRules s.rules
  | .error e => return .error e

end Seed

/-- Publishes the event of a message. A message without a readable event is dropped, and so is one
that names a program other than that of its subject. -/
def Service.receive (s : Service) (subject : Option ProgramId) (event : Option Event) :
    Procedure Unit :=
  match event with
  | none => return ()
  | some e =>
    if subject.any (· ≠ e.program) then return ()
    else (fun _ => ()) <$> s.publish e

end Referral
