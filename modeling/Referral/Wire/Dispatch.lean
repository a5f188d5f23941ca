import Referral.Cascade
import Referral.Script
import Referral.Wire.Error
import Referral.Wire.Event

/-!
# Dispatching on the wire

Calls of handlers, scripts of handlers, and the report of a dispatch.
-/

namespace Referral

/-- The wire form of an error of a handler. -/
def HandlerFailure.toJson (f : HandlerFailure) : Json :=
  .obj [("handler", .str f.handler), ("event_id", f.event.toJson), ("error", f.error.toJson)]

/-- The wire form of a report; it says whether the totals could be kept up. -/
def DispatchReport.toJson (r : DispatchReport) : Json :=
  .obj [("dispatched", .ofList Id.toJson r.dispatched), ("skipped", .ofList Id.toJson r.skipped),
    ("rejected", .ofList Id.toJson r.rejected), ("deepest", .ofNat r.deepest.val),
    ("handler_failures", .ofList HandlerFailure.toJson r.handlerFailures),
    ("aggregates_failed", .bool (r.failedIn aggregatesHandler.name))]

namespace Call

/-- The wire form: the event's identifier and the depth. -/
def toJson (c : Call) : Json := .arr [c.event.id.toJson, .ofNat c.depth.val]

/-- Reads the fields of a request. -/
def ofJson? (j : Json) : Option Call := do
  let e ← j.required "event" Event.ofJson?
  let depth ← j.withDefault "depth" 0 Json.depth?
  some ⟨e, depth⟩

end Call

/-- Reads what a reaction does, if that makes sense. -/
def Response.ofJson? (j : Json) : Option Response := do
  if let some error ← j.optional "fail" Error.ofJson? then return fail error
  if let some count ← j.optional "echo" Json.natural? then return echo count
  if let some events ← j.optional "emit" (Json.listOf? Event.ofJson?) then return emit events
  return nothing

/-- Reads a reaction. One that says what it is for, but not what it does, is a garbled one. -/
def Reaction.ofJson? (j : Json) : Option Reaction := do
  let event ← j.optional "event_id" Id.ofJson?
  let kind ← j.optional "event_type" EventKind.ofJson?
  let times ← j.optional "times" Json.natural?
  some ⟨event, kind, times, (Response.ofJson? j).getD .garbled⟩

/-- Reads a script. -/
def Script.ofJson? (j : Json) : Option Script := do
  let name ← j.required "name" Json.string?
  let reactions ← j.requiredList "reactions" Reaction.ofJson?
  some ⟨name, reactions⟩

end Referral
