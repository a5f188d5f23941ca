import Referral.Intake
import Referral.Wire.Circle
import Referral.Wire.Rule

/-!
# Seeds on the wire

The circles and rules to begin with, as the contents of a file.
-/

namespace Referral

namespace Seed

/-- Reads the wire form; either list may be left out. -/
def ofJson? (j : Json) : Option Seed := do
  let f ← Fields.of? ["circles", "rules"] j
  let circles ← f.withDefault "circles" [] (Json.listOf? Circle.ofJson?)
  let rules ← f.withDefault "rules" [] (Json.listOf? Rule.ofJson?)
  some ⟨circles, rules⟩

/-- Reads the text of a file. -/
def ofString? (s : String) : Option Seed := (Json.ofString? s).bind ofJson?

end Seed

end Referral
