import Referral.Wire.Report

/-!
# Queries on the wire

A query is a named question to the store with its fields; the answer is written at once. A failure
record may be named by its identifier or by its position among all of them.
-/

namespace Referral

/-- The identifier of a failure record that a request names, if the store has it. -/
def FailureId.ofJson? (j : Json) : Option (Store → Option FailureId) :=
  if (j.get "failure").isNull then (j.required "failure_id" Id.ofJson?).map fun id _ => some id
  else (j.required "failure" Json.natural?).map fun i s => ((s.listFailures true)[i]?).map (·.id)

/-- The answer where no failure record is at the position. -/
def noSuchFailure : Json := .obj [("error", .str "no_such_failure")]

namespace Store

/-- A query about a promoter. -/
def promoterQuery? (name : String) (k : PromoterKey) : Option (Store → Json) :=
  match name with
  | "promoter_totals" => some fun s => (s.book.promoter k).toJson
  | "promoter_daily" => some fun s => .ofList PromoterRow.toJson (s.book.promoterDaily k)
  | "commissions" => some fun s => .ofList Commission.toJson (s.commissionsOf k)
  | "membership" => some fun s => .ofOption Membership.toJson (s.memberships.get? k)
  | "context" => some fun s => (s.context k).toJson
  | _ => none

/-- A query about a scope. -/
def scopeQuery? (name : String) (scope : Scope) : Option (Store → Json) :=
  match name with
  | "rows" => some fun s => (s.snapshot scope).book.rows.toJson
  | "snapshot" => some fun s => (s.snapshot scope).toJson
  | _ => none

/-- The query of a name with its fields. -/
def query? (name : String) (j : Json) : Option (Store → Json) := do
  match name with
  | "watermark" => some fun s => .ofNat s.head
  | "link_totals" =>
    let l ← j.required "link_id" Id.ofJson?
    some fun s => .ofExcept LinkTotals.toJson (s.book.linkTotals l)
  | "link_daily" =>
    let l ← j.required "link_id" Id.ofJson?
    some fun s => .ofList LinkRow.toJson (s.book.linkDaily l)
  | "failures" =>
    let all ← j.withDefault "include_resolved" false Json.bool?
    some fun s => .ofList Failure.toJson (s.listFailures all)
  | "failure" =>
    let find ← FailureId.ofJson? j
    some fun s =>
      match find s with
      | none => noSuchFailure
      | some id => .ofOption Failure.toJson (s.failure? id)
  | "event" =>
    let id ← j.required "event_id" Id.ofJson?
    some fun s => .ofOption StoredEvent.toJson (s.event? id)
  | "has_event" =>
    let id ← j.required "event_id" Id.ofJson?
    some fun s => .bool (s.hasEvent id)
  | "circle_exists" =>
    let k ← PromoterKey.ofJson? j
    let circle ← j.required "circle_id" Id.ofJson?
    some fun s => .bool ((s.context k).circleExists circle)
  | "rows" | "snapshot" =>
    let scope ← j.required "scope" Scope.ofJson?
    scopeQuery? name scope
  | _ =>
    let k ← PromoterKey.ofJson? j
    promoterQuery? name k

end Store

end Referral
