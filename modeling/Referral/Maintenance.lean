import Referral.Config
import Referral.Procedure

/-!
# Maintenance of totals

Totals can be rebuilt from the log and compared with it. The log is read in batches, so other
commits may fall between two reads; events that came after the rebuild began are added when its
result takes the place of the stored totals.
-/

namespace Referral

namespace Procedure

/-- Reads events of the log, which may take its time. -/
def scan (scope : Scope) (after limit : Nat) : Procedure (List StoredEvent) := do
  let delay ← read (·.scanDelay)
  sleep delay
  read fun s => s.events scope after limit

/-- Adds the events of the log up to a watermark to a book, batch by batch, at most so many batches,
starting after a sequence number. The answer holds the number of events as well. -/
def foldLog (cancelled : Procedure Bool) (scope : Scope) (batchSize watermark : Nat) :
    Nat → Nat → Book → Nat → Procedure (Except Error (Book × Nat))
  | 0, _, book, folded => return .ok (book, folded)
  | batches + 1, after, book, folded => do
    if ← cancelled then return .error (rebuildCancelled scope)
    let batch ← scan scope after batchSize
    let counted := batch.takeWhile fun e => e.sequence ≤ watermark
    match book.addAll (counted.map (·.event)) with
    | .error e => return .error e
    | .ok book =>
      let folded := folded + counted.length
      match batch.getLast? with
      | none => return .ok (book, folded)
      | some last =>
        if batch.length = batchSize ∧ last.sequence < watermark then
          pause
          foldLog cancelled scope batchSize watermark batches last.sequence book folded
        else return .ok (book, folded)

/-- The book of the log up to a watermark and the number of its events. Each batch but the last ends
at a later event below the watermark, so there are no more batches than the watermark says. -/
def bookOfLog (config : Config) (cancelled : Procedure Bool) (scope : Scope) (watermark : Nat) :
    Procedure (Except Error (Book × Nat)) :=
  foldLog cancelled scope config.batchSize.toNat watermark (watermark + 1) 0 ∅ 0

/-- Rebuilds the totals of a scope from the log. -/
def rebuild (config : Config) (cancelled : Procedure Bool) (scope : Scope) :
    Procedure RebuildResult := do
  let watermark ← read Store.head
  match ← bookOfLog config cancelled scope watermark with
  | .error e => return .error e
  | .ok (book, folded) =>
    if ← cancelled then return .error (rebuildCancelled scope)
    let replayed ← perform (.replaceTotals scope book watermark)
    return replayed.map fun replayed => ⟨scope, folded, replayed, watermark⟩

/-- A rebuild that nobody can call off. -/
def rebuildNow (config : Config) (scope : Scope) : Procedure RebuildResult :=
  rebuild config (return false) scope

/-- A rebuild that ends when its task is called off. -/
def rebuildUntilCancelled (config : Config) (task : TaskId) (scope : Scope) :
    Procedure RebuildResult :=
  rebuild config (perform (.isCancelled task)) scope

/-- Waits for the result of a rebuild in the background. -/
def awaitRebuild (task : TaskId) : Procedure (Option RebuildResult) := do
  perform (.awaitRebuild task)
  perform (.rebuilt? task)

/-- Runs a procedure after the rebuild of a task has had a turn. The answer says as well whether the
rebuild was still running at the end. -/
def besideRebuild {α : Type} (task : TaskId) (p : Procedure α) : Procedure (α × Bool) := do
  pause
  let a ← p
  let result ← perform (.rebuilt? task)
  return (a, result.isNone)

/-- Calls a rebuild off after some milliseconds. -/
def cancelAfter (task : TaskId) (millis : Nat) : Procedure Unit := do
  sleep millis
  perform (.cancelRebuild task)

/-- Runs a procedure if there is one. -/
def ofOption {α : Type} : Option (Procedure α) → Procedure (Option α)
  | none => return none
  | some p => some <$> p

/-- Has totals rebuilt in the background, perhaps with a procedure beside it, and waits for the
result. If a time is given, the rebuild is called off that long after the procedure. -/
def rebuildApart {α : Type} (scope : Scope) (beside : Option (Procedure α))
    (cancelTime : Option Nat) : Procedure (Option RebuildResult × Option (α × Bool)) := do
  let task ← perform (.scheduleRebuild scope)
  let meanwhile ← ofOption (beside.map (besideRebuild task))
  let _ ← ofOption (cancelTime.map (cancelAfter task))
  let result ← awaitRebuild task
  return (result, meanwhile)

/-- Compares the stored totals of a scope with the log, and replaces them if they drifted. -/
def verify (config : Config) (scope : Scope) : Procedure (Except Error DriftReport) := do
  let snapshot ← read fun s => s.snapshot scope
  match ← bookOfLog config (return false) scope snapshot.watermark with
  | .error e => return .error e
  | .ok (book, _) =>
    let rebuilt := book.restrict scope
    let drifted := snapshot.book.driftLines rebuilt
    if drifted.isEmpty then return .ok ⟨scope, snapshot.watermark, drifted, false⟩
    match ← perform (.replaceTotals scope rebuilt snapshot.watermark) with
    | .error e => return .error e
    | .ok _ => return .ok ⟨scope, snapshot.watermark, drifted, true⟩

end Procedure

end Referral
