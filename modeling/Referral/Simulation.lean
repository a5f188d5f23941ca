import Referral.Service

/-!
# Simulation

Procedures in virtual time. The procedure in the foreground goes on as far as it can, then the
rebuilds in the background do, each until it ends or waits. When none can go on, the next turn
begins; when none waits for a turn, time passes to the next moment at which one wakes up or runs
out of time.
-/

namespace Referral

/-- A rebuild in the background. -/
structure Thread : Type 1 where
  task : TaskId
  scope : Scope
  procedure : Procedure RebuildResult
  /-- The moment at which the rebuild is given up. -/
  deadline : Nat

namespace Thread

/-- Whether the time of a rebuild is over. -/
def isLate (t : Thread) (w : World) : Bool := t.deadline ≤ w.elapsed

/-- Whether a rebuild can go on, if only to be given up. -/
def canGoOn (t : Thread) (w : World) : Bool := t.procedure.canGoOn w || t.isLate w

end Thread

/-- A service with its world and the rebuilds in the background. -/
structure Simulation : Type 1 where
  service : Service
  world : World
  /-- The rebuilds that can go on, in the order in which they do. -/
  ready : List Thread
  /-- The rebuilds that wait, in the order in which they began to. -/
  waiting : List Thread

namespace Simulation

variable {α : Type}

/-- A service at its start, with nothing stored. -/
def start (service : Service) (origin : Instant) (ids : IdSupply) : Simulation :=
  ⟨service, .start origin ids, [], []⟩

/-- The milliseconds since the start. -/
def time (s : Simulation) : Nat := s.world.elapsed

/-- Starts a rebuild in the background. -/
def startRebuild (s : Simulation) (task : TaskId) (scope : Scope) : Simulation :=
  let t : Thread :=
    { task, scope
      procedure := .rebuildUntilCancelled s.service.config task scope
      deadline := s.world.deadlineAfter s.service.config.rebuildTimeout }
  { s with ready := s.ready ++ [t] }

/-- Starts the rebuilds that were asked for. -/
def startScheduled (s : Simulation) : Simulation :=
  s.world.scheduled.foldl (fun s (task, scope) => s.startRebuild task scope)
    { s with world := { s.world with scheduled := [] } }

/-- Ends a rebuild. -/
def finish (s : Simulation) (task : TaskId) (result : RebuildResult) : Simulation :=
  { s with world := { s.world with rebuilt := s.world.rebuilt ++ [(task, result)] } }

/-- Lets a rebuild go on until it ends or waits. One that waits when its time is over is given up;
one that ends at that moment is not. -/
def runThread (s : Simulation) (t : Thread) : Simulation :=
  let (procedure, world) := t.procedure.goOn s.world
  let s := { s with world }
  match procedure.answer? with
  | some result => s.finish t.task result
  | none =>
    if t.isLate world then s.finish t.task (.error (rebuildTimedOut t.scope))
    else { s with waiting := s.waiting ++ [{ t with procedure }] }

/-- Lets the rebuilds that are ready go on, one after the other. -/
def runReady (s : Simulation) : Simulation := s.ready.foldl runThread { s with ready := [] }

/-- Lets the procedure in the foreground go on, then the rebuilds that are ready. -/
def round (s : Simulation) (p : Procedure α) : Procedure α × Simulation :=
  let (p, world) := p.goOn s.world
  (p, ({ s with world }).startScheduled.runReady)

/-- Makes the rebuilds ready that can go on. -/
def wake (s : Simulation) : Simulation :=
  let (woken, waiting) := s.waiting.partition (·.canGoOn s.world)
  { s with ready := s.ready ++ woken, waiting }

/-- Begins the next turn. -/
def nextTurn (s : Simulation) : Simulation :=
  wake { s with world := { s.world with turns := s.world.turns + 1 } }

/-- Lets time pass to a moment. -/
def passTo (s : Simulation) (moment : Nat) : Simulation :=
  wake { s with world := { s.world with elapsed := moment } }

/-- Whether a rebuild waits for a turn. -/
def awaitsTurn (s : Simulation) : Bool := s.waiting.any (·.procedure.awaitsTurn)

/-- The moments at which a rebuild wakes up or runs out of time. -/
def moments (s : Simulation) : List Nat :=
  s.waiting.flatMap fun t => t.deadline :: t.procedure.moments

/-- What happens when a round is over, if anything can. -/
def afterRound? (s : Simulation) (p : Procedure α) : Option Simulation :=
  if p.canGoOn s.world then some s
  else if p.awaitsTurn || s.awaitsTurn then some s.nextTurn
  else (p.moments ++ s.moments).min?.map s.passTo

/-- Runs a procedure in the foreground for at most so many rounds. -/
def runFor : Nat → Simulation → Procedure α → Option α × Simulation
  | 0, s, _ => (none, s)
  | rounds + 1, s, p =>
    let (p, s) := s.round p
    match p.answer? with
    | some a => (some a, s)
    | none =>
      match s.afterRound? p with
      | some s => runFor rounds s p
      | none => (none, s)

/-- More rounds than any run has. -/
def horizon : Nat := 18446744073709551616

/-- Runs a procedure in the foreground to its end. -/
def run (s : Simulation) (p : Procedure α) : Option α × Simulation := runFor horizon s p

/-- Lets rebuilds have at most so many turns, without any time passing. -/
def settleFor : Nat → Simulation → Simulation
  | 0, s => s
  | turns + 1, s =>
    let s := s.runReady
    if s.awaitsTurn then settleFor turns s.nextTurn else s

/-- Lets the rebuilds in the background go on as far as they can without any time passing. -/
def settle (s : Simulation) : Simulation := settleFor horizon s

end Simulation

end Referral
