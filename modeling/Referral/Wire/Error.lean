import Referral.Outcome
import Referral.Matching
import Referral.Wire.Lookup
import Referral.Wire.Value

/-!
# Errors on the wire

An error is written as its kind and its wording. A refusal or a flaw is written with the error that
it becomes.
-/

namespace Referral

namespace Error

/-- The wire form. -/
def toJson (e : Error) : Json := .obj [("error", .str e.kind), ("message", .str e.message)]

/-- Reads the fields that describe an error: its kind and what it is about. -/
def ofJson? (j : Json) : Option Error := do
  let kind ← j.required "kind" Json.string?
  let text ← j.withDefault "text" "" Json.string?
  match kind with
  | "type_mismatch" => some (typeMismatch text)
  | "invalid_revenue" => (j.required "id" Id.ofJson?).map invalidRevenue
  | "circle_not_found" => (j.required "id" Id.ofJson?).map circleNotFound
  | "concurrent_switch_rejected" => (j.required "id" Id.ofJson?).map switchRejected
  | "aggregate_drift" => (j.required "key" Json.string?).map (drift · text)
  | "cascade_depth_exceeded" =>
    let depth ← j.required "depth" Json.depth?
    let limit ← j.required "limit" Json.depth?
    some (cascadeLimit depth limit)
  | "duplicate_event" => (j.required "id" Id.ofJson?).map duplicateEvent
  | "validation" => some (validation text)
  | "failure_not_found" => (j.required "id" Id.ofJson?).map failureNotFound
  | "store" => some (store text)
  | "timeout" => some (timeout text)
  | "cancelled" => some (cancelled text)
  | "notification" => some (notification text)
  | "configuration" => some (configuration text)
  | "serialization" => some (serialization text)
  | _ => none

end Error

namespace Refusal

/-- The written name of a refusal. -/
def name : Refusal → String
  | invalidRevenue _ => "InvalidRevenue"
  | circleNotFound _ => "CircleNotFound"
  | switchRejected _ => "ConcurrentSwitchRejected"
  | cascadeLimit _ _ => "CascadeDepthExceeded"

/-- The wire form. -/
def toJson (r : Refusal) : Json :=
  .obj [("error", .str r.name), ("message", .str r.message), ("as", r.toError.toJson)]

end Refusal

namespace MatchFlaw

/-- The written name of a flaw. -/
def name : MatchFlaw → String
  | observation _ _ => "TypeMismatch"
  | condition _ => "InvalidConditionValue"

/-- The wire form. -/
def toJson (f : MatchFlaw) : Json :=
  .obj [("error", .str f.name), ("message", .str f.message), ("as", .str f.toError.message)]

end MatchFlaw

namespace Money.Flaw

/-- The written name of a flaw. -/
def name : Flaw → String
  | invalid => "Invalid"
  | tooPrecise => "TooPrecise"
  | outOfRange => "OutOfRange"

/-- The wire form of a flaw in a text. -/
def toJson (text : String) (f : Flaw) : Json :=
  .obj [("error", .str f.name), ("message", .str (f.message text))]

end Money.Flaw

namespace Json

/-- The wire form of the answer to what could not be read. -/
def undecodable : Json := obj [("error", str "decode")]

/-- The wire form of a result that may be an error. -/
def ofExcept {α : Type} (onOk : α → Json) (r : Except Error α) : Json :=
  ofResult Error.toJson onOk r

/-- The wire form of the result of something that gives nothing back. -/
def ofDone (r : Except Error Unit) : Json := ofExcept (fun _ => str "ok") r

end Json

end Referral
