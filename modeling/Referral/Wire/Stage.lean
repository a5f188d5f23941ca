import Referral.Stage
import Referral.Wire.Lookup
import Referral.Wire.Value

/-!
# Stages on the wire

A trace lists each step with the counts that came with it.
-/

namespace Referral

namespace Advance

/-- The counts that come with an advance. -/
def counts : Advance → List Nat
  | loaded n | matched n => [n]
  | dispatched applied failed => [applied, failed]

/-- Reads the fields of a request. -/
def ofJson? (j : Json) : Option Advance := do
  match ← j.required "input" Json.string? with
  | "loaded" => (j.required "eligible" Json.natural?).map loaded
  | "matched" => (j.required "matched" Json.natural?).map matched
  | "dispatched" => do
    let applied ← j.required "applied" Json.natural?
    let failed ← j.required "failed" Json.natural?
    some (dispatched applied failed)
  | _ => none

end Advance

/-- The wire form of a flaw in the order of stages. -/
def StageFlaw.toJson (f : StageFlaw) : Json :=
  .obj [("error", .str "InvalidTransition"), ("message", .str f.message)]

/-- The wire form of a step. -/
def StageStep.toJson (s : StageStep) : Json :=
  .obj [("from", .str s.source.name), ("to", .str s.target.name),
    ("counts", .ofList .ofNat s.advance.counts)]

/-- The wire form of a trace. -/
def Trace.toJson (t : Trace) : Json :=
  .obj [("current", .str t.current.name), ("settled", .bool t.isSettled),
    ("history", .ofList StageStep.toJson t.history)]

end Referral
