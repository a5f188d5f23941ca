import Referral.Error
import Referral.Scope

/-!
# Rebuilds

What a rebuild of totals from the log leads to.
-/

namespace Referral

/-- What a rebuild did. -/
structure RebuildReport where
  scope : Scope
  /-- The events read from the log. -/
  folded : Nat
  /-- The later events that were added at the end. -/
  replayed : Nat
  watermark : Nat
deriving DecidableEq

/-- A report, or the reason why the stored totals were left as they were. -/
abbrev RebuildResult := Except Error RebuildReport

/-- The reason why a rebuild that was called off ended. -/
def rebuildCancelled (scope : Scope) : Error := .cancelled ("rebuild of " ++ scope.display)

/-- The reason why a rebuild that took too long ended. -/
def rebuildTimedOut (scope : Scope) : Error := .timeout ("rebuild of " ++ scope.display)

end Referral
