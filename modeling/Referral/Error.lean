import Referral.Depth
import Referral.Id

/-!
# Errors

What can go wrong in an operation, with a stable short name and a wording. The wording of a cause
that a module states for itself (a flaw in an event, a refused effect) becomes the text of one of
these.
-/

namespace Referral

/-- A cause that ends an operation. -/
inductive Error
  | typeMismatch (text : String)
  | invalidRevenue (event : EventId)
  | circleNotFound (circle : CircleId)
  | switchRejected (promoter : PromoterId)
  | drift (key detail : String)
  | cascadeLimit (depth limit : Depth)
  | duplicateEvent (event : EventId)
  | validation (text : String)
  | failureNotFound (failure : FailureId)
  | store (text : String)
  | timeout (text : String)
  | cancelled (text : String)
  | notification (text : String)
  | configuration (text : String)
  | serialization (text : String)
deriving DecidableEq

namespace Error

/-- The short name that failure records carry. -/
def kind : Error → String
  | typeMismatch _ => "type_mismatch"
  | invalidRevenue _ => "invalid_revenue"
  | circleNotFound _ => "circle_not_found"
  | switchRejected _ => "concurrent_switch_rejected"
  | drift _ _ => "aggregate_drift"
  | cascadeLimit _ _ => "cascade_depth_exceeded"
  | duplicateEvent _ => "duplicate_event"
  | validation _ => "validation"
  | failureNotFound _ => "failure_not_found"
  | store _ => "store"
  | timeout _ => "timeout"
  | cancelled _ => "cancelled"
  | notification _ => "notification"
  | configuration _ => "configuration"
  | serialization _ => "serialization"

/-- The wording. -/
def message : Error → String
  | typeMismatch text => "Type mismatch: " ++ text
  | invalidRevenue event =>
    "Invalid revenue on event " ++ event.display ++
      ": percentage commission needs revenue in range"
  | circleNotFound circle => "Circle not found: " ++ circle.display
  | switchRejected promoter =>
    "Concurrent circle switch rejected for promoter " ++ promoter.display
  | drift key detail => "Aggregate drift detected for " ++ key ++ ": " ++ detail
  | cascadeLimit depth limit =>
    "Cascade depth " ++ toString depth.val ++ " exceeds limit " ++ toString limit.val
  | duplicateEvent event => "Duplicate event: " ++ event.display
  | validation text => "Validation error: " ++ text
  | failureNotFound failure => "Failed effect not found: " ++ failure.display
  | store text => "Store error: " ++ text
  | timeout text => "Operation timed out: " ++ text
  | cancelled text => "Operation cancelled: " ++ text
  | notification text => "Notification error: " ++ text
  | configuration text => "Configuration error: " ++ text
  | serialization text => "Serialization error: " ++ text

/-- Whether trying the same once more may succeed. -/
def isTransient : Error → Bool
  | store _ => true
  | timeout _ => true
  | _ => false

/-- A sum of totals that leaves its range, for the key or event of the given name. -/
def overflow (name : String) : Error := .store ("aggregate overflow for " ++ name)

end Error

end Referral
