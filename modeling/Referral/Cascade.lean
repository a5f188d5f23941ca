import Referral.Handler

/-!
# Cascades

An event is dispatched to all handlers; the events that they return are dispatched after it, one
level deeper, in the order in which they were returned. An event below the limit of depth is
rejected, and one that is staged already is skipped. All events of one level come before those of
the next, so a cascade is run level by level.
-/

namespace Referral

/-- An error of a handler. -/
structure HandlerFailure where
  handler : String
  event : EventId
  error : Error
deriving DecidableEq

/-- What a dispatch did. -/
structure DispatchReport where
  /-- The events that were staged, in order. -/
  dispatched : List EventId
  /-- The events that were staged before. -/
  skipped : List EventId
  /-- The events that were too deep. -/
  rejected : List EventId
  handlerFailures : List HandlerFailure
  deepest : Depth
deriving DecidableEq

namespace DispatchReport

/-- The report of a dispatch that has not begun. -/
def start : DispatchReport := ⟨[], [], [], [], 0⟩

/-- Whether a handler of the given name failed. -/
def failedIn (r : DispatchReport) (name : String) : Bool :=
  r.handlerFailures.any (·.handler = name)

end DispatchReport

/-- The state of a cascade: what is staged, the calls that handlers had, and the report. -/
structure Cascade where
  staging : Staging
  calls : List CallRecord
  report : DispatchReport

/-- The handlers, in the order in which they are called, and the deepest level. -/
structure Dispatcher where
  handlers : List Handler
  maxDepth : Depth

namespace Dispatcher

/-- The first handler of a name, with its position. -/
def find? (d : Dispatcher) (name : String) : Option (Nat × Handler) :=
  (d.handlers.zipIdx.find? (·.1.name = name)).map fun (h, i) => (i, h)

end Dispatcher

namespace Cascade

/-- Passes a call to one handler; its error becomes a failure record. -/
def callHandler (c : Cascade) (position : Nat) (h : Handler) (call : Call) :
    Cascade × List Event :=
  let (answer, staging) := h.react (callsOf position c.calls) call c.staging
  let calls := c.calls ++ [⟨position, call⟩]
  match answer with
  | .ok children => ({ c with staging, calls }, children)
  | .error error =>
    let e := call.event
    let staging := staging.recordError (some e.id) e.program e.promoter none none
      (.handler h.name) error call.depth
    let failures := c.report.handlerFailures ++ [⟨h.name, e.id, error⟩]
    (⟨staging, calls, { c.report with handlerFailures := failures }⟩, [])

/-- Passes a call to handlers, the first of which is at the given position. -/
def callAll (call : Call) : Nat → List Handler → Cascade → Cascade × List Event
  | _, [], c => (c, [])
  | position, h :: hs, c =>
    let (c, first) := c.callHandler position h call
    let (c, rest) := callAll call (position + 1) hs c
    (c, first ++ rest)

/-- Rejects an event that is too deep. -/
def reject (c : Cascade) (limit depth : Depth) (e : Event) : Cascade :=
  { c with
    staging := c.staging.recordError (some (e.causation.getD e.id)) e.program e.promoter none none
      .cascadeLimit (.cascadeLimit depth limit) depth
    report := { c.report with rejected := c.report.rejected ++ [e.id] } }

/-- Skips an event that is staged. -/
def skip (c : Cascade) (e : Event) : Cascade :=
  { c with report := { c.report with skipped := c.report.skipped ++ [e.id] } }

/-- Stages an event with the given unit of work. -/
def accept (c : Cascade) (unit : WorkUnit) (depth : Depth) (e : Event) : Cascade :=
  { c with
    staging := { c.staging with unit }
    report := { c.report with
      dispatched := c.report.dispatched ++ [e.id]
      deepest := if c.report.deepest < depth then depth else c.report.deepest } }

/-- Handles one event of a level; the events that follow belong to the next. -/
def handleEvent (d : Dispatcher) (depth : Depth) (c : Cascade) (e : Event) :
    Cascade × List Event :=
  if d.maxDepth < depth then (c.reject d.maxDepth depth e, [])
  else
    match c.staging.unit.stageEvent? e with
    | none => (c.skip e, [])
    | some unit => callAll ⟨e, depth⟩ 0 d.handlers (c.accept unit depth e)

/-- Handles the events of a level in order. -/
def handleLevel (d : Dispatcher) (depth : Depth) : Cascade → List Event → Cascade × List Event
  | c, [] => (c, [])
  | c, e :: es =>
    let (c, first) := c.handleEvent d depth e
    let (c, rest) := handleLevel d depth c es
    (c, first ++ rest)

/-- Handles level after level, at most `levels` of them. The events that are left over come with
the depth at which they wait. -/
def run (d : Dispatcher) : Nat → Depth → Cascade → List Event → Cascade × List Event × Depth
  | 0, depth, c, es => (c, es, depth)
  | _ + 1, depth, c, [] => (c, [], depth)
  | levels + 1, depth, c, e :: es =>
    let (c, next) := c.handleLevel d depth (e :: es)
    run d levels depth.next c next

end Cascade

namespace Dispatcher

/-- The number of levels that a cascade can have: those within the limit, and one at which all
events are rejected. Where the limit is the deepest depth there is, no event is ever rejected, and
only the handlers end the cascade. -/
def levels (d : Dispatcher) (depth : Depth) : Nat :=
  if d.maxDepth.val < 255 then d.maxDepth.val - depth.val + 2 else 18446744073709551616

/-- Dispatches an event at a depth, and all that follows from it. -/
def dispatchAt (d : Dispatcher) (depth : Depth) (e : Event) (staging : Staging)
    (calls : List CallRecord) : Cascade :=
  (Cascade.run d (d.levels depth) depth ⟨staging, calls, .start⟩ [e]).1

/-- Dispatches events one after the other, each with all that follows from it. -/
def dispatchEach (d : Dispatcher) (depth : Depth) (es : List Event) (staging : Staging)
    (calls : List CallRecord) : Staging × List CallRecord :=
  es.foldl
    (fun (staging, calls) e =>
      let c := d.dispatchAt depth e staging calls
      (c.staging, c.calls))
    (staging, calls)

end Dispatcher

end Referral
