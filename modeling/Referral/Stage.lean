/-!
# Stages of an evaluation

The evaluation of an event goes through four stages in a fixed order. A trace keeps what led from
one to the next.
-/

namespace Referral

/-- Where an evaluation is. -/
inductive Stage
  | received
  | matching
  | dispatching
  | settled
deriving DecidableEq

/-- The name of a stage. -/
def Stage.name : Stage → String
  | received => "received"
  | matching => "matching"
  | dispatching => "dispatching"
  | settled => "settled"

/-- What moves an evaluation on. -/
inductive Advance
  | loaded (eligible : Nat)
  | matched (matched : Nat)
  | dispatched (applied failed : Nat)
deriving DecidableEq

/-- The stage that an advance leads to. -/
def Advance.target : Advance → Stage
  | loaded _ => .matching
  | matched _ => .dispatching
  | dispatched _ _ => .settled

/-- The stage that an advance starts from. -/
def Advance.source : Advance → Stage
  | loaded _ => .received
  | matched _ => .matching
  | dispatched _ _ => .dispatching

/-- An advance from a stage that it does not start from. -/
structure StageFlaw where
  source : Stage
  target : Stage
deriving DecidableEq

/-- The wording of a flaw. -/
def StageFlaw.message (f : StageFlaw) : String :=
  "Invalid transition from " ++ f.source.name ++ " to " ++ f.target.name

/-- The stage after an advance. -/
def Stage.advance (s : Stage) (a : Advance) : Except StageFlaw Stage :=
  if a.source = s then .ok a.target else .error ⟨s, a.target⟩

/-- A step of an evaluation. -/
structure StageStep where
  source : Stage
  target : Stage
  advance : Advance
deriving DecidableEq

/-- The stage of an evaluation and how it got there. -/
structure Trace where
  current : Stage
  history : List StageStep
deriving DecidableEq

namespace Trace

/-- The trace of an evaluation that has not begun. -/
def start : Trace := ⟨.received, []⟩

/-- The trace after an advance. -/
def advance (t : Trace) (a : Advance) : Except StageFlaw Trace :=
  (t.current.advance a).map fun stage => ⟨stage, t.history ++ [⟨t.current, stage, a⟩]⟩

/-- Whether the evaluation has ended. -/
def isSettled (t : Trace) : Bool := t.current = .settled

/-- The trace of an evaluation that has gone through all stages. -/
def ofCounts (eligible matched applied failed : Nat) : Trace where
  current := .settled
  history :=
    [⟨.received, .matching, .loaded eligible⟩, ⟨.matching, .dispatching, .matched matched⟩,
      ⟨.dispatching, .settled, .dispatched applied failed⟩]

end Trace

end Referral
