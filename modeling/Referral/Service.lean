import Referral.Evaluation
import Referral.Maintenance

/-!
# The service

Producers publish events, operators move promoters between circles and try failures again. An event
is validated, its promoter and link are locked, and it is dispatched on a unit of work unless it is
in the log; the unit is committed with retries, and messages about it are handed over.
-/

namespace Referral

/-- The settings and the handlers after the built-in ones. -/
structure Service where
  config : Config
  extra : List Handler

/-- What a committed event led to. -/
structure PublishReport where
  event : EventId
  receipt : Receipt
  dispatch : DispatchReport
  commissions : List Commission
  transitions : List Transition
  failures : List Failure
  /-- Whether the totals of the promoter are rebuilt because they could not be kept up. -/
  rebuildScheduled : Bool
deriving DecidableEq

/-- The answer to a published event. -/
inductive PublishOutcome
  | committed (report : PublishReport)
  /-- The event was in the log. -/
  | duplicate (event : EventId)
deriving DecidableEq

/-- The answer to a switch made by hand. -/
inductive SwitchOutcome
  | switched (transition : Transition)
  /-- The promoter was in the circle already. -/
  | stayed (circle : CircleId)
deriving DecidableEq

/-- The answer to a retry. -/
inductive RetryOutcome
  | resolved (commissions : List Commission) (transitions : List Transition)
  | alreadyResolved
  | stillFailing (error : Error)
deriving DecidableEq

namespace Service

/-- The handlers: totals come first, so that rules see totals that count the event. -/
def dispatcher (s : Service) : Dispatcher where
  handlers := aggregatesHandler :: rulesHandler s.config :: s.extra
  maxDepth := s.config.maxDepth

open Procedure

/-! ## Work on a unit -/

/-- A unit of work for a promoter. -/
def startUnit (k : PromoterKey) : Procedure WorkUnit :=
  (fun c => WorkUnit.start c) <$> read fun s => s.context k

/-- Changes a unit of work with permits and identifiers at hand. -/
def stageWith {α : Type} (u : WorkUnit) (f : Staging → α × Staging) : Procedure (α × WorkUnit) :=
  perform <| .stage fun d =>
    let (a, s) := f ⟨u, d.permits, d.ids, d.now⟩
    ((a, s.unit), { d with permits := s.permits, ids := s.ids })

/-- Dispatches an event and all that follows from it. -/
def dispatch (s : Service) (u : WorkUnit) (depth : Depth) (e : Event) :
    Procedure (DispatchReport × WorkUnit) :=
  perform <| .stage fun d =>
    let c := s.dispatcher.dispatchAt depth e ⟨u, d.permits, d.ids, d.now⟩ d.calls
    ((c.report, c.staging.unit),
      { d with permits := c.staging.permits, ids := c.staging.ids, calls := c.calls })

/-- Dispatches events one after the other. -/
def dispatchEach (s : Service) (depth : Depth) : List Event → WorkUnit → Procedure WorkUnit
  | [], u => return u
  | e :: es, u => do
    let (_, u) ← s.dispatch u depth e
    dispatchEach s depth es u

/-- Passes an event to one handler. -/
def callHandler (position : Nat) (h : Handler) (u : WorkUnit) (call : Call) :
    Procedure (Except Error (List Event) × WorkUnit) :=
  perform <| .stage fun d =>
    let (answer, s) := h.react (callsOf position d.calls) call ⟨u, d.permits, d.ids, d.now⟩
    ((answer, s.unit),
      { d with permits := s.permits, ids := s.ids, calls := d.calls ++ [⟨position, call⟩] })

/-- Commits a unit, and tries again after a transient error, at most so many times. Attempts are
counted from one, and the wait before each is longer than before the last. -/
def commitRetrying (backoff : Nat → Duration) (u : WorkUnit) :
    Nat → Nat → Procedure (Except Error Receipt)
  | 0, _ => perform (.commit u)
  | retries + 1, attempt => do
    match ← perform (.commit u) with
    | .ok receipt => return .ok receipt
    | .error e =>
      if e.isTransient then
        sleep (backoff attempt).millisUp
        commitRetrying backoff u retries (attempt + 1)
      else return .error e

/-- Commits a unit with the retries of the settings. -/
def commit (s : Service) (u : WorkUnit) : Procedure (Except Error Receipt) :=
  commitRetrying s.config.backoff u s.config.commitRetries.toNat 1

/-- Commits a unit; if its moves are refused, they become failure records and the rest is
committed. -/
def commitDemoting (s : Service) (u : WorkUnit) : Procedure (Except Error Receipt × WorkUnit) := do
  match ← s.commit u with
  | .error (.switchRejected promoter) =>
    if u.transitions.isEmpty then return (.error (.switchRejected promoter), u)
    let ((), u) ← stageWith u fun staging =>
      ((), staging.demoteTransitions (.switchRejected promoter) staging.now)
    return (← s.commit u, u)
  | answer => return (answer, u)

/-- Ends the use of a unit, whose permits are given back. -/
def finish {α : Type} (u : WorkUnit) (answer : α) : Procedure α := do
  perform (.releasePermits u.permits)
  return answer

/-! ## Publishing -/

/-- Why an event is not taken from a producer. -/
def accept (e : Event) : Except Error Unit := do
  e.validate
  if e.kind = .commissionGenerated then
    throw (.validation "COMMISSION_GENERATED events are emitted by rules, not published")

/-- The report on a committed unit. -/
def reportOn (e : Event) (u : WorkUnit) (receipt : Receipt) (dispatch : DispatchReport) :
    PublishReport where
  event := e.id
  receipt := receipt
  dispatch := dispatch
  commissions := u.commissions
  transitions := u.transitions.map (·.transition)
  failures := u.failures
  rebuildScheduled := dispatch.failedIn aggregatesHandler.name

/-- Records an event whose locks are held. -/
def record (s : Service) (e : Event) : Procedure (Except Error PublishOutcome) := do
  if ← read fun store => store.hasEvent e.id then return .ok (.duplicate e.id)
  let u ← startUnit e.promoterKey
  let (dispatch, u) ← s.dispatch u 0 e
  let (answer, u) ← s.commitDemoting u
  match answer with
  | .error error =>
    finish u (if error = .duplicateEvent e.id then .ok (.duplicate e.id) else .error error)
  | .ok receipt =>
    let report := reportOn e u receipt dispatch
    if report.rebuildScheduled then
      let _ ← perform (.scheduleRebuild (.promoter e.program e.promoter))
    perform (.offer u.notifications)
    finish u (.ok (.committed report))

/-- Records an event from a producer and all that follows from it. -/
def publish (s : Service) (e : Event) : Procedure (Except Error PublishOutcome) :=
  match accept e with
  | .error error => return .error error
  | .ok () => withLocks e.lockKeys (s.record e)

/-! ## Switching by hand -/

/-- Stages a move made by hand, commits it and hands over the message. -/
def commitSwitch (s : Service) (context : Context) (k : PromoterKey) (t : Transition) :
    Procedure (Except Error SwitchOutcome) := do
  let u := ((WorkUnit.start context).holdPermit k).stageTransition ⟨t, none, none, 0⟩
  match ← s.commit u with
  | .error error => finish u (.error error)
  | .ok _ =>
    perform (.offer u.notifications)
    finish u (.ok (.switched t))

/-- Moves a promoter to a circle outside of rules. -/
def switchCircle (s : Service) (k : PromoterKey) (target : CircleId) :
    Procedure (Except Error SwitchOutcome) := do
  if !(← perform (.acquirePermit k)) then return .error (.switchRejected k.promoter)
  let context ← read fun store => store.context k
  let now ← perform .now
  match switchTo k.program k.promoter context.currentCircle target context.circles now with
  | .error refusal =>
    perform (.releasePermits [k])
    return .error refusal.toError
  | .ok (.transition t) => s.commitSwitch context k t
  | .ok (.stay circle) =>
    perform (.releasePermits [k])
    return .ok (.stayed circle)
  | .ok (.commission _) =>
    perform (.releasePermits [k])
    return .error (.validation "unexpected commission from circle switch")

/-! ## Trying again -/

/-- Counts one more attempt of a failure that failed again. -/
def stillFailing (s : Service) (f : Failure) (error : Error) :
    Procedure (Except Error RetryOutcome) := do
  let u ← startUnit ⟨f.program, f.promoter⟩
  let answer ← s.commit (u.recordAttempt f.id)
  return answer.map fun _ => .stillFailing error

/-- Marks a failure as resolved. -/
def resolveOnly (s : Service) (f : Failure) (transitions : List Transition) :
    Procedure (Except Error RetryOutcome) := do
  let u ← startUnit ⟨f.program, f.promoter⟩
  let answer ← s.commit (u.resolveFailure f.id)
  return answer.map fun _ => .resolved [] transitions

/-- The event that a failure is about. -/
def sourceEvent (f : Failure) : Procedure (Except Error Event) :=
  match f.event with
  | none => return .error (.validation ("failure " ++ f.id.display ++ " has no source event"))
  | some id => do
    match ← read fun store => store.event? id with
    | none => return .error (.validation ("source event " ++ id.display ++ " not recorded"))
    | some stored => return .ok stored.event

/-- Dispatches the events that a retry led to and commits all with the resolved record, or counts
the attempt if it failed again. The permits of the unit are kept to the end. -/
def settleRetry (s : Service) (f : Failure) (result : Except Error (List Event)) (u : WorkUnit) :
    Procedure (Except Error RetryOutcome) := do
  match result with
  | .error error =>
    let answer ← s.stillFailing f error
    finish u answer
  | .ok children =>
    let u ← s.dispatchEach f.depth.next children u
    let (answer, u) ← s.commitDemoting (u.resolveFailure f.id)
    match answer with
    | .error error => finish u (.error error)
    | .ok _ =>
      perform (.offer u.notifications)
      finish u (.ok (.resolved u.commissions (u.transitions.map (·.transition))))

/-- Fires the effect of a failure once more. -/
def retryEffect (s : Service) (f : Failure) : Procedure (Except Error RetryOutcome) :=
  match f.effect, f.rule with
  | some effect, some rule => do
    match ← sourceEvent f with
    | .error error => return .error error
    | .ok e =>
      withLocks e.lockKeys do
        let u ← startUnit e.promoterKey
        let (fired, u) ← stageWith u fun staging => staging.fire s.config e rule effect f.depth
        s.settleRetry f ((fired.mapError Refusal.toError).map Option.toList) u
  | _, _ =>
    return .error (.validation ("failure " ++ f.id.display ++ " names no rule effect to retry"))

/-- Passes the event of a failure to a handler once more. -/
def retryHandler (s : Service) (f : Failure) (name : String) :
    Procedure (Except Error RetryOutcome) :=
  match s.dispatcher.find? name with
  | none => return .error (.validation ("handler '" ++ name ++ "' is not registered"))
  | some (position, h) => do
    match ← sourceEvent f with
    | .error error => return .error error
    | .ok e =>
      withLocks e.lockKeys do
        let u ← startUnit e.promoterKey
        let (answer, u) ← callHandler position h u ⟨e, f.depth⟩
        s.settleRetry f answer u

/-- Rebuilds the totals of the promoter of a failure. -/
def retryByRebuild (s : Service) (f : Failure) : Procedure (Except Error RetryOutcome) := do
  match ← rebuildNow s.config (.promoter f.program f.promoter) with
  | .error error => s.stillFailing f error
  | .ok _ => s.resolveOnly f []

/-- Repeats a switch made by hand. -/
def retrySwitch (s : Service) (f : Failure) : Procedure (Except Error RetryOutcome) :=
  match f.effect with
  | some (.switchCircle target) => do
    match ← s.switchCircle ⟨f.program, f.promoter⟩ target with
    | .ok (.switched t) => s.resolveOnly f [t]
    | .ok (.stayed _) => s.resolveOnly f []
    | .error (.switchRejected promoter) => s.stillFailing f (.switchRejected promoter)
    | .error (.circleNotFound circle) => s.stillFailing f (.circleNotFound circle)
    | .error error => return .error error
  | _ =>
    return .error (.validation ("failure " ++ f.id.display ++ " names no circle to switch to"))

/-- Tries a failure again, in the way that its origin asks for. -/
def retry (s : Service) (id : FailureId) : Procedure (Except Error RetryOutcome) := do
  match ← read fun store => store.failure? id with
  | none => return .error (.failureNotFound id)
  | some f =>
    if f.resolved then return .ok .alreadyResolved
    match f.origin with
    | .cascadeLimit =>
      return .error (.validation ("failure " ++ id.display ++
        " was refused by the cascade limit and cannot be retried"))
    | .manualSwitch => s.retrySwitch f
    | .handler name =>
      if name = aggregatesHandler.name then s.retryByRebuild f else s.retryHandler f name
    | .effect => s.retryEffect f

end Service

end Referral
