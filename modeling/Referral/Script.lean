import Referral.Handler

/-!
# Scripted handlers

A handler that reacts as a script says: to an event it gives the answer of the first reaction that
is for such events and is not used up.
-/

namespace Referral

/-- What a reaction does. -/
inductive Response
  | fail (error : Error)
  /-- Returns so many copies of the event. -/
  | echo (count : Nat)
  | emit (events : List Event)
  | nothing
deriving DecidableEq

/-- What a reaction does whose script makes no sense there: it fails, but only once it is used. -/
def Response.garbled : Response := .fail (.store "bad script")

/-- A reaction to some events, perhaps only so many times. -/
structure Reaction where
  event : Option EventId
  kind : Option EventKind
  times : Option Nat
  response : Response
deriving DecidableEq

/-- Whether a reaction is for an event. -/
def Reaction.isFor (r : Reaction) (e : Event) : Bool :=
  r.event.all (· = e.id) && r.kind.all (· = e.kind)

/-- A name and the reactions of a handler. -/
structure Script where
  name : String
  reactions : List Reaction
deriving DecidableEq

namespace Script

/-- The first reaction that is for an event and not used up, and how often each was used then. -/
def choose (e : Event) : List (Reaction × Nat) → Option Reaction × List (Reaction × Nat)
  | [] => (none, [])
  | (r, used) :: rest =>
    if r.isFor e && r.times.all (used < ·) then (some r, (r, used + 1) :: rest)
    else
      let (chosen, rest) := choose e rest
      (chosen, (r, used) :: rest)

/-- The reactions of a script with how often each was used for some calls. -/
def usesAfter (s : Script) (calls : List Call) : List (Reaction × Nat) :=
  calls.foldl (fun uses c => (choose c.event uses).2) (s.reactions.map (·, 0))

/-- Copies of an event that follow from it, with identifiers from a supply. -/
def copies (e : Event) (count : Nat) (ids : IdSupply) : List Event :=
  (List.range count).map fun i => { e with id := (ids.skip i).peek, causation := some e.id }

/-- The answer of a response to an event. -/
def respond (e : Event) (s : Staging) : Response → Except Error (List Event) × Staging
  | .fail error => (.error error, s)
  | .echo count => (.ok (copies e count s.ids), { s with ids := s.ids.skip count })
  | .emit events => (.ok events, s)
  | .nothing => (.ok [], s)

/-- The handler that a script describes. -/
def handler (s : Script) : Handler where
  name := s.name
  react past c staging :=
    match (choose c.event (s.usesAfter past)).1 with
    | some r => respond c.event staging r.response
    | none => (.ok [], staging)

end Script

end Referral
