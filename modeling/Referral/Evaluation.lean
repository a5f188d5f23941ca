import Referral.Config
import Referral.Handler
import Referral.Matching
import Referral.Outcome
import Referral.Stage

/-!
# Evaluation of rules

For an event, the rules of its program that are for its kind and for the circle in force are matched
against the current totals, and the effect of each that matches is applied, in order. An effect that
is refused becomes a failure record, and the other effects go on.
-/

namespace Referral

/-- The rules that are for an event in the circle in force. -/
def Context.eligibleRules (c : Context) (e : Event) : List Rule :=
  c.rules.filter fun r => r.program = e.program && r.appliesTo e.kind c.currentCircle

namespace Staging

/-- Stages what an effect changes. -/
def stageChange (s : Staging) (e : Event) (rule : RuleId) (depth : Depth) : Change → Staging
  | .commission c => s.mapUnit fun u => u.stageCommission c
  | .transition t => s.mapUnit fun u => u.stageTransition ⟨t, some rule, some e.id, depth⟩
  | .stay _ => s

/-- The staging with what an effect needs before it is applied: room in the cascade for an event
that follows, or the permit to switch. -/
def prepare (s : Staging) (config : Config) (e : Event) (depth : Depth) :
    Effect → Except Refusal Staging
  | .generateCommission _ =>
    if config.maxDepth < depth.next then .error (.cascadeLimit depth.next config.maxDepth)
    else .ok s
  | .switchCircle _ =>
    match s.ensurePermit? e.promoterKey with
    | some s => .ok s
    | none => .error (.switchRejected e.promoter)

/-- Applies one effect of a rule for an event and stages what it changes. A permit that was taken is
kept even if the effect is refused. -/
def fire (s : Staging) (config : Config) (e : Event) (rule : RuleId) (effect : Effect)
    (depth : Depth) : Except Refusal (Option Event) × Staging :=
  match s.prepare config e depth effect with
  | .error refusal => (.error refusal, s)
  | .ok s =>
    let scene : Scene :=
      ⟨e, rule, s.unit.context.currentCircle, s.unit.context.circles, config.precision.toNat⟩
    match effect.outcome scene s.ids.peek (s.ids.skip 1).peek with
    | .error refusal => (.error refusal, s)
    | .ok outcome =>
      let s := { s with ids := s.ids.skip (if outcome.emitted.isSome then 2 else 0) }
      (.ok outcome.emitted, s.stageChange e rule depth outcome.change)

/-- Fires rules in order. The answer holds the events that follow and the number of effects that
were refused. -/
def fireAll (config : Config) (e : Event) (depth : Depth) :
    List Rule → Staging → (List Event × Nat) × Staging
  | [], s => (([], 0), s)
  | r :: rs, s =>
    match s.fire config e r.id r.effect depth with
    | (.ok emitted, s) =>
      let ((events, failed), s) := fireAll config e depth rs s
      ((emitted.toList ++ events, failed), s)
    | (.error refusal, s) =>
      let s := s.recordError (some e.id) e.program e.promoter (some r.id) (some r.effect) .effect
        refusal.toError depth
      let ((events, failed), s) := fireAll config e depth rs s
      ((events, failed + 1), s)

/-- A flaw in the order of stages as a cause that ends an evaluation. -/
def stageError (f : StageFlaw) : Error := .validation f.message

/-- Evaluates the rules for an event: the events that follow and the trace. -/
def evaluate (s : Staging) (config : Config) (e : Event) (depth : Depth) :
    Except Error (List Event × Trace) × Staging :=
  let eligible := s.unit.context.eligibleRules e
  match (Trace.start.advance (.loaded eligible.length)).mapError stageError with
  | .error error => (.error error, s)
  | .ok trace =>
    match s.unit.currentTotals with
    | .error error => (.error error, s)
    | .ok totals =>
      let matched := eligible.filter fun r => r.isMatch (Snapshot.ofEvent totals e)
      match (trace.advance (.matched matched.length)).mapError stageError with
      | .error error => (.error error, s)
      | .ok trace =>
        let ((events, failed), s) := fireAll config e depth matched s
        match (trace.advance (.dispatched (matched.length - failed) failed)).mapError stageError with
        | .error error => (.error error, s)
        | .ok trace => (.ok (events, trace), s)

end Staging

/-- Evaluates the rules for every event, once per unit of work. -/
def rulesHandler (config : Config) : Handler where
  name := "rules"
  react _ c s :=
    match s.unit.markEvaluated? c.event.id with
    | none => (.ok [], s)
    | some unit =>
      let (answer, s) := { s with unit }.evaluate config c.event c.depth
      (answer.map (·.1), s)

end Referral
