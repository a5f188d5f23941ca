import Referral.Wire.Query
import Referral.Wire.Seed

/-!
# Operations on the wire

An operation is a named request to the service or to its store, with its fields. The service answers
with the wire form of the report.
-/

namespace Referral

/-- A request to a service. -/
inductive Operation
  | putCircle (c : Circle)
  | putRule (r : Rule)
  | assignCircle (k : PromoterKey) (circle : CircleId)
  /-- Puts the circles and rules of a file, if there is one and it can be read. -/
  | seed (contents : Option (Option Seed))
  | recordFailure (f : Failure)
  | replaceTotals (scope : Scope) (events : List Event) (asOf : Nat)
  | message (program : Option ProgramId) (event : Option Event)
  | publish (e : Event)
  /-- Publishes an event made with new identifiers. -/
  | publishNew (make : EventId → CorrelationId → Event)
  | switch (k : PromoterKey) (circle : CircleId)
  | retry (find : Store → Option FailureId)
  /-- Rebuilds totals, perhaps called off from the start. -/
  | rebuild (scope : Scope) (cancelled : Bool)
  | verify (scope : Scope)
  /-- Lets so many commits fail. -/
  | failCommits (count : Nat)
  /-- Sets how long each look at the log takes. -/
  | delayScans (millis : Nat)
  | overwriteTotals (k : PromoterKey) (totals : PromoterTotals)
  /-- Looks at the log. -/
  | scan (scope : Scope) (after limit : Nat)
  /-- Looks at the log, then at all rows and failures. -/
  | scanAll
  | query (f : Store → Json)

namespace Operation

/-- Reads a placement or a move: a promoter and a circle. -/
def placement? (j : Json) : Option (PromoterKey × CircleId) := do
  let k ← PromoterKey.ofJson? j
  let circle ← j.required "circle_id" Id.ofJson?
  some (k, circle)

/-- Reads a signup, or a purchase with its revenue. -/
def action? (isPurchase : Bool) (j : Json) : Option Operation := do
  let k ← LinkKey.ofJson? j
  let contact ← j.required "contact_id" Id.ofJson?
  let revenue ← if isPurchase then j.optional "revenue" Money.ofJson? else some none
  let time ← j.required "occurred_at" Instant.ofJson?
  some <| publishNew fun id correlation =>
    if isPurchase then
      .purchase id correlation k.program k.promoter contact k.link revenue time
    else .signup id correlation k.program k.promoter contact k.link time

/-- Reads a message. Its program is that of its subject, if it has one. -/
def message? (j : Json) : Option Operation := do
  let payload ← j.optional "payload" Json.string?
  let bytes ←
    match payload with
    | some text => some text.toUTF8.toList
    | none => j.requiredList "payload_bytes" fun b => (b.nat? 255).map UInt8.ofNat
  let subject ← j.optional "subject" Json.string?
  let hint ← j.optional "program_hint" Id.ofJson?
  let program :=
    match subject with
    | some subject => (Subjects.mk Subjects.defaultRoot).programOf? subject
    | none => hint
  some (message program (Event.ofBytes? bytes))

/-- Reads a change of how the store behaves or of what it holds. -/
def tuning? (name : String) (j : Json) : Option Operation := do
  match name with
  | "fail_commits" => (j.required "count" Json.natural?).map failCommits
  | "delay_scans" => (j.required "ms" Json.natural?).map delayScans
  | _ =>
    let k ← PromoterKey.ofJson? j
    let totals ← j.required "totals" PromoterTotals.ofJson?
    some (overwriteTotals k totals)

/-- Reads a look at the log. -/
def scan? (j : Json) : Option Operation := do
  let scope ← j.required "scope" Scope.ofJson?
  let after ← j.required "after" Json.natural?
  let limit ← j.required "limit" Json.natural?
  some (scan scope after limit)

/-- Reads the operation of a name from its fields. -/
def ofJson? (name : String) (j : Json) : Option Operation := do
  match name with
  | "put_circle" => (j.required "circle" Circle.ofJson?).map putCircle
  | "put_rule" => (j.required "rule" Rule.ofJson?).map putRule
  | "assign_circle" => (placement? j).map fun (k, circle) => assignCircle k circle
  | "seed" => (j.optional "text" Json.string?).map fun text => seed (text.map Seed.ofString?)
  | "record_failure" => (j.required "failure" Failure.ofJson?).map recordFailure
  | "replace_aggregates" =>
    let scope ← j.required "scope" Scope.ofJson?
    let events ← j.requiredList "events" Event.ofJson?
    let asOf ← j.required "as_of" Json.natural?
    some (replaceTotals scope events asOf)
  | "message" => message? j
  | "publish" => (j.required "event" Event.ofJson?).map publish
  | "signup" => action? false j
  | "purchase" => action? true j
  | "switch" => (placement? j).map fun (k, circle) => switch k circle
  | "retry" => (FailureId.ofJson? j).map retry
  | "rebuild" =>
    let scope ← j.required "scope" Scope.ofJson?
    let cancelled ← j.withDefault "cancelled" false Json.bool?
    some (rebuild scope cancelled)
  | "verify" => (j.required "scope" Scope.ofJson?).map verify
  | "fail_commits" | "delay_scans" | "overwrite_totals" => tuning? name j
  | "events" => scan? j
  | "dump" => some scanAll
  | _ => (Store.query? name j).map query

end Operation

namespace Service

open Procedure

/-- The answer to an operation, in its wire form. -/
def answer (s : Service) : Operation → Procedure Json
  | .putCircle c => .ofDone <$> perform (.putCircle c)
  | .putRule r => .ofDone <$> perform (.putRule r)
  | .assignCircle k circle => .ofDone <$> perform (.assignCircle k circle)
  | .seed none => return .obj [("error", .str "io")]
  | .seed (some none) => return .obj [("error", .str "decode")]
  | .seed (some (some contents)) => .ofDone <$> contents.load
  | .recordFailure f => do
    let u ← startUnit ⟨f.program, f.promoter⟩
    Json.ofExcept Receipt.toJson <$> perform (.commit (u.recordFailure f))
  | .replaceTotals scope events asOf =>
    match Book.ofEvents events with
    | .error error => return error.toJson
    | .ok book => Json.ofExcept Json.ofNat <$> perform (.replaceTotals scope book asOf)
  | .message program event => (fun _ => .null) <$> s.receive program event
  | .publish e => Json.ofExcept PublishOutcome.toJson <$> s.publish e
  | .publishNew make => do
    let e ← perform <| .stage fun d =>
      (make d.ids.peek (d.ids.skip 1).peek, { d with ids := d.ids.skip 2 })
    Json.ofExcept PublishOutcome.toJson <$> s.publish e
  | .switch k circle => Json.ofExcept SwitchOutcome.toJson <$> s.switchCircle k circle
  | .retry find => do
    match ← read find with
    | none => return noSuchFailure
    | some id => Json.ofExcept RetryOutcome.toJson <$> s.retry id
  | .rebuild scope cancelled =>
    Json.ofExcept RebuildReport.toJson <$> Procedure.rebuild s.config (return cancelled) scope
  | .verify scope => Json.ofExcept DriftReport.toJson <$> Procedure.verify s.config scope
  | .failCommits count =>
    (fun () => .null) <$> perform (.tune fun s => { s with failingCommits := count })
  | .delayScans millis =>
    (fun () => .null) <$> perform (.tune fun s => { s with scanDelay := millis })
  | .overwriteTotals k totals =>
    (fun () => .null) <$> perform (.tune fun s => s.overwriteTotals k totals)
  | .scan scope after limit =>
    .ofList StoredEvent.toJson <$> Procedure.scan scope after limit
  | .scanAll => do
    let log ← Procedure.scan .all 0 18446744073709551615
    read fun s => .obj [("log", .ofList StoredEvent.toJson log), ("rows", s.book.rows.toJson),
      ("failures", .ofList Failure.toJson (s.listFailures true))]
  | .query f => read f

end Service

end Referral
