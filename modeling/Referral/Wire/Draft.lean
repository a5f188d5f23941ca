import Referral.Service
import Referral.Wire.Dispatch
import Referral.Wire.Outcome
import Referral.Wire.Query
import Referral.Wire.Stage

/-!
# Drafts on the wire

Requests to begin a unit of work under a name, to work on it piece by piece, and to commit it.
-/

namespace Referral

/-- Work on a draft for a service, with the store at hand. -/
abbrev DraftWork := Service → Store → Staging → Json × Staging

namespace DraftWork

/-- Work that looks at the unit of work alone and may change it. -/
def ofUnit (f : WorkUnit → Json × WorkUnit) : DraftWork := fun _ _ staging =>
  let (answer, u) := f staging.unit
  (answer, { staging with unit := u })

/-- Work that only changes the unit of work. -/
def ofChange (f : WorkUnit → WorkUnit) : DraftWork := ofUnit fun u => (.null, f u)

/-- Work that only looks at the unit of work. -/
def ofLook (f : WorkUnit → Json) : DraftWork := ofUnit fun u => (f u, u)

/-- Work that changes the unit of work if it can, and says whether it did. -/
def ofTry (f : WorkUnit → Option WorkUnit) : DraftWork := ofUnit fun u =>
  match f u with
  | some u => (.bool true, u)
  | none => (.bool false, u)

/-- Work on a failure record that the store has. -/
def ofFailure (find : Store → Option FailureId) (f : WorkUnit → FailureId → WorkUnit) :
    DraftWork := fun _ store staging =>
  match find store with
  | none => (noSuchFailure, staging)
  | some id => (.null, { staging with unit := f staging.unit id })

/-- The dispatcher for drafts, which has the built-in handlers only. -/
def dispatcher (s : Service) : Dispatcher := Service.dispatcher { s with extra := [] }

/-- Dispatches an event. -/
def dispatch (c : Call) : DraftWork := fun s _ staging =>
  let cascade := (dispatcher s).dispatchAt c.depth c.event staging []
  (cascade.report.toJson, cascade.staging)

/-- Evaluates the rules for an event. -/
def evaluate (c : Call) : DraftWork := fun s _ staging =>
  let (answer, staging) := staging.evaluate s.config c.event c.depth
  (Json.ofExcept (fun (emitted, trace) =>
    .obj [("emitted", .ofList Event.toJson emitted), ("trace", trace.toJson)]) answer, staging)

/-- Passes an event to one handler. -/
def handle (c : Call) (handler : String) : DraftWork := fun s _ staging =>
  match (dispatcher s).find? handler with
  | none => (.null, staging)
  | some (_, h) =>
    let (answer, staging) := h.react [] c staging
    (Json.ofExcept (.ofList Event.toJson) answer, staging)

/-- Fires an effect. -/
def fire (c : Call) (rule : RuleId) (effect : Effect) : DraftWork := fun s _ staging =>
  let (answer, staging) := staging.fire s.config c.event rule effect c.depth
  (Json.ofResult Refusal.toJson (fun e => .obj [("emitted", .ofOption Event.toJson e)]) answer,
    staging)

/-- Takes the permit for a promoter, or says whether the unit of work holds it. -/
def permit (k : PromoterKey) : DraftWork := fun _ _ staging =>
  match staging.permits.acquire? k with
  | some permits => (.bool true, { staging with permits, unit := staging.unit.holdPermit k })
  | none => (.obj [("busy", .bool (staging.unit.holdsPermit k))], staging)

/-- Adds an event to the changes of totals. -/
def apply (e : Event) : DraftWork := ofUnit fun u =>
  match u.delta.add e with
  | .ok delta => (.str "ok", { u with delta })
  | .error error => (error.toJson, u)

/-- Stages a move; the answer is the circle in force after it. -/
def transition (t : StagedTransition) : DraftWork := ofUnit fun u =>
  let u := u.stageTransition t
  (.ofOption Id.toJson u.context.currentCircle, u)

/-- Reads work that draws on permits, identifiers or handlers. -/
def handling? (name : String) (j : Json) : Option DraftWork := do
  match name with
  | "uow_dispatch" => (Call.ofJson? j).map dispatch
  | "uow_evaluate" => (Call.ofJson? j).map evaluate
  | "uow_handle" =>
    let c ← Call.ofJson? j
    let handler ← j.withDefault "handler" "rules" Json.string?
    some (handle c handler)
  | "uow_fire" =>
    let c ← Call.ofJson? j
    let rule ← j.required "rule_id" Id.ofJson?
    let effect ← j.required "effect" Effect.ofJson?
    some (fire c rule effect)
  | "uow_permit" => (PromoterKey.ofJson? j).map permit
  | "uow_demote" =>
    let error ← j.required "error" Error.ofJson?
    let now ← j.optional "now" Instant.ofJson?
    some fun _ _ staging => (.null, staging.demoteTransitions error (now.getD staging.now))
  | _ => none

/-- Reads a staged move. -/
def transition? (j : Json) : Option DraftWork := do
  let t ← j.required "transition" Transition.ofJson?
  let rule ← j.optional "rule_id" Id.ofJson?
  let event ← j.optional "event_id" Id.ofJson?
  let depth ← j.withDefault "depth" 0 Json.depth?
  some (transition ⟨t, rule, event, depth⟩)

/-- Reads work on what is staged. -/
def staging? (name : String) (j : Json) : Option DraftWork := do
  match name with
  | "uow_stage" => (j.required "event" Event.ofJson?).map fun e => ofTry (·.stageEvent? e)
  | "uow_is_staged" =>
    (j.required "event_id" Id.ofJson?).map fun id => ofLook fun u => .bool (u.isStaged id)
  | "uow_mark" => (j.required "event_id" Id.ofJson?).map fun id => ofTry (·.markEvaluated? id)
  | "uow_apply" => (j.required "event" Event.ofJson?).map apply
  | "uow_eligible" =>
    (j.required "event" Event.ofJson?).map fun e => ofLook fun u =>
      .ofList (fun (r : Rule) => r.id.toJson) (u.context.eligibleRules e)
  | "uow_commission" =>
    (j.required "commission" (Commission.ofJson? false)).map fun c =>
      ofChange (·.stageCommission c)
  | "uow_transition" => transition? j
  | "uow_failure" =>
    (j.required "failure" Failure.ofJson?).map fun f => ofChange (·.recordFailure f)
  | "uow_resolve" => (FailureId.ofJson? j).map fun find => ofFailure find .resolveFailure
  | "uow_attempt" => (FailureId.ofJson? j).map fun find => ofFailure find .recordAttempt
  | "uow_totals" => some (ofLook fun u => Json.ofExcept PromoterTotals.toJson u.currentTotals)
  | "uow_dump" => some (ofLook WorkUnit.toJson)
  | _ => none

end DraftWork

namespace Service

open Procedure

/-- The answer where no draft has the name. -/
def noSuchDraft : Json := .obj [("error", .str "no_such_uow")]

/-- Works on a draft that there is. -/
def workOnDraft (s : Service) (request name : String) (u : WorkUnit) (j : Json) :
    Procedure Json :=
  match request with
  | "uow_drop" => (fun () => .null) <$> perform (.dropDraft name)
  | "uow_commit" => Json.ofExcept Receipt.toJson <$> perform (.commit u)
  | _ =>
    match (DraftWork.handling? request j).or (DraftWork.staging? request j) with
    | none => return .undecodable
    | some work => do
      let store ← read id
      let answer ← perform (.draft name (work s store))
      return answer.getD noSuchDraft

/-- The answer to a request about a draft. -/
def answerDraft (s : Service) (request : String) (j : Json) : Procedure Json :=
  match j.withDefault "uow" "u" Json.string? with
  | none => return .undecodable
  | some name =>
    if request = "uow_new" then
      match PromoterKey.ofJson? j with
      | none => return .undecodable
      | some k => do
        let context ← read fun store => store.context k
        perform (.startDraft name context)
        return context.toJson
    else do
      match ← perform (.draft name fun staging => (staging.unit, staging)) with
      | none => return noSuchDraft
      | some u => s.workOnDraft request name u j

end Service

end Referral
