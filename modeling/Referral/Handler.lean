import Referral.Staging

/-!
# Handlers

A handler reacts to events by staging changes and by returning events that follow. Its answer may
depend on the calls it had before.
-/

namespace Referral

/-- An event as it is passed to a handler. -/
structure Call where
  event : Event
  depth : Depth
deriving DecidableEq

/-- A subscriber to events. -/
structure Handler where
  name : String
  /-- The reaction to a call, after some earlier calls. -/
  react : List Call → Call → Staging → Except Error (List Event) × Staging

/-- A call and the position of the handler that had it. -/
structure CallRecord where
  position : Nat
  call : Call
deriving DecidableEq

/-- The calls of one handler among those of all, in order. -/
def callsOf (position : Nat) (calls : List CallRecord) : List Call :=
  (calls.filter (·.position = position)).map (·.call)

/-- Adds every event to the totals of the unit of work. -/
def aggregatesHandler : Handler where
  name := "aggregates"
  react _ c s :=
    match s.unit.delta.add c.event with
    | .ok delta => (.ok [], s.mapUnit fun u => { u with delta })
    | .error e => (.error e, s)

end Referral
