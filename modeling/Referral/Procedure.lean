import Referral.Cascade
import Referral.Drafts
import Referral.Lock
import Referral.Notification
import Referral.Rebuild
import Referral.Store
import Referral.Time.Duration

/-!
# Procedures

An operation of the service is a procedure: a sequence of actions, each of which is done at once on
the world that all procedures share. Between two actions of one procedure others may act. A
procedure may have to wait: for a lock, for a moment, for its next turn, or for a rebuild. Two
procedures may be run beside each other as one.
-/

namespace Referral

/-- What procedures share. -/
structure World where
  store : Store
  permits : Permits
  locks : LockTable
  drafts : Drafts
  ids : IdSupply
  /-- The calls that handlers had. -/
  calls : List CallRecord
  /-- The time at the beginning. -/
  origin : Instant
  /-- The milliseconds since the beginning. -/
  elapsed : Nat
  /-- The turns that were over since the beginning. -/
  turns : Nat
  /-- The messages handed over for delivery, in order. -/
  offered : List Notification
  nextTask : TaskId
  /-- The rebuilds in the background that were asked for and have not begun. -/
  scheduled : List (TaskId × Scope)
  /-- The rebuilds that were called off. -/
  cancelled : List TaskId
  /-- The results of the rebuilds that have ended. -/
  rebuilt : List (TaskId × RebuildResult)

namespace World

/-- The world at its beginning, with nothing stored. -/
def start (origin : Instant) (ids : IdSupply) : World where
  store := .empty
  permits := .empty
  locks := .empty
  drafts := .empty
  ids := ids
  calls := []
  origin := origin
  elapsed := 0
  turns := 0
  offered := []
  nextTask := 0
  scheduled := []
  cancelled := []
  rebuilt := []

/-- The present time. -/
def now (w : World) : Instant := w.origin.after w.elapsed

/-- The longest wait in milliseconds: thirty years. -/
def longestWait : Nat := 946080000000

/-- The moment after a wait of some milliseconds, counted since the beginning. -/
def momentAfter (w : World) (millis : Nat) : Nat := w.elapsed + min millis longestWait

/-- The moment at which a limit of some length is over. A limit is kept however long it is, while a
wait is cut off. -/
def deadlineAfter (w : World) (limit : Duration) : Nat := w.elapsed + limit.millisUp

/-- The result of a rebuild, if it has ended. -/
def rebuilt? (w : World) (task : TaskId) : Option RebuildResult :=
  (w.rebuilt.find? (·.1 = task)).map (·.2)

end World

/-- What the handling of events draws on besides the unit of work. -/
structure Desk where
  permits : Permits
  ids : IdSupply
  calls : List CallRecord
  now : Instant

/-- An indivisible step, with the type of its answer. -/
inductive Action : Type → Type 1
  /-- Looks at the store. -/
  | read {α : Type} (f : Store → α) : Action α
  /-- Changes how the store behaves, or what it holds. -/
  | tune (f : Store → Store) : Action Unit
  | putRule (r : Rule) : Action (Except Error Unit)
  | putCircle (c : Circle) : Action (Except Error Unit)
  | assignCircle (k : PromoterKey) (circle : CircleId) : Action (Except Error Unit)
  | commit (u : WorkUnit) : Action (Except Error Receipt)
  | replaceTotals (scope : Scope) (rebuilt : Book) (asOf : Nat) : Action (Except Error Nat)
  /-- Works on a unit of work, with permits, identifiers and handlers at hand. -/
  | stage {α : Type} (f : Desk → α × Desk) : Action α
  /-- Begins a draft. -/
  | startDraft (name : String) (c : Context) : Action Unit
  /-- Works on a draft, if there is one of the name. -/
  | draft {α : Type} (name : String) (f : Staging → α × Staging) : Action (Option α)
  | dropDraft (name : String) : Action Unit
  /-- Takes the permit for a promoter; false if it is out. -/
  | acquirePermit (k : PromoterKey) : Action Bool
  | releasePermits (ks : List PromoterKey) : Action Unit
  /-- A name for a task that no other has. -/
  | newTask : Action TaskId
  /-- Joins the queue of a key. -/
  | reachLock (task : TaskId) (k : LockKey) : Action Unit
  /-- Waits until a task holds a key. -/
  | awaitLock (task : TaskId) (k : LockKey) : Action Unit
  | releaseLocks (task : TaskId) (ks : List LockKey) : Action Unit
  /-- Reads the clock. -/
  | now : Action Instant
  /-- The moment after a wait of some milliseconds. -/
  | momentAfter (millis : Nat) : Action Nat
  /-- Waits for a moment. -/
  | awaitMoment (moment : Nat) : Action Unit
  /-- The number of turns that were over. -/
  | turns : Action Nat
  /-- Waits until more turns than a number were over. -/
  | awaitTurn (count : Nat) : Action Unit
  | offer (ns : List Notification) : Action Unit
  /-- Asks for a rebuild in the background. -/
  | scheduleRebuild (scope : Scope) : Action TaskId
  | cancelRebuild (task : TaskId) : Action Unit
  /-- Whether a rebuild was called off. -/
  | isCancelled (task : TaskId) : Action Bool
  /-- The result of a rebuild, if it has ended. -/
  | rebuilt? (task : TaskId) : Action (Option RebuildResult)
  /-- Waits until a rebuild has ended. -/
  | awaitRebuild (task : TaskId) : Action Unit

/-- Whether an action can be done now. -/
def Action.isReady {α : Type} (w : World) : Action α → Bool
  | awaitLock task k => w.locks.holds task k
  | awaitMoment moment => moment ≤ w.elapsed
  | awaitTurn count => count < w.turns
  | awaitRebuild task => (w.rebuilt? task).isSome
  | _ => true

namespace World

/-- The desk of the world. -/
def desk (w : World) : Desk := ⟨w.permits, w.ids, w.calls, w.now⟩

/-- The world with a change of the store that may be refused. -/
def updateStore (w : World) (r : Except Error Store) : Except Error Unit × World :=
  match r with
  | .ok store => (.ok (), { w with store })
  | .error e => (.error e, w)

/-- Works on the draft of a name. -/
def onDraft {α : Type} (w : World) (name : String) (f : Staging → α × Staging) :
    Option α × World :=
  match w.drafts.find? name with
  | none => (none, w)
  | some u =>
    let (answer, s) := f ⟨u, w.drafts.permits, w.ids, w.now⟩
    (some answer, { w with
      drafts := { w.drafts with permits := s.permits }.put name s.unit
      ids := s.ids })

/-- The answer to an action and the world after it. An action that waits is done when the wait is
over. -/
def perform {α : Type} (w : World) : Action α → α × World
  | .read f => (f w.store, w)
  | .tune f => ((), { w with store := f w.store })
  | .putRule r => w.updateStore (w.store.putRule r)
  | .putCircle c => w.updateStore (w.store.putCircle c)
  | .assignCircle k circle => w.updateStore (w.store.assignCircle k circle w.now)
  | .commit u =>
    let (answer, store) := w.store.commit u w.now
    (answer, { w with store })
  | .replaceTotals scope rebuilt asOf =>
    match w.store.replaceTotals scope rebuilt asOf with
    | .ok (count, store) => (.ok count, { w with store })
    | .error e => (.error e, w)
  | .stage f =>
    let (answer, d) := f w.desk
    (answer, { w with permits := d.permits, ids := d.ids, calls := d.calls })
  | .startDraft name c => ((), { w with drafts := w.drafts.start name c })
  | .draft name f => w.onDraft name f
  | .dropDraft name => ((), { w with drafts := w.drafts.drop name })
  | .acquirePermit k =>
    match w.permits.acquire? k with
    | some permits => (true, { w with permits })
    | none => (false, w)
  | .releasePermits ks => ((), { w with permits := w.permits.releaseAll ks })
  | .newTask => (w.nextTask, { w with nextTask := w.nextTask + 1 })
  | .reachLock task k => ((), { w with locks := w.locks.reach task k })
  | .awaitLock _ _ => ((), w)
  | .releaseLocks task ks => ((), { w with locks := w.locks.release task ks })
  | .now => (w.now, w)
  | .momentAfter millis => (w.momentAfter millis, w)
  | .awaitMoment _ => ((), w)
  | .turns => (w.turns, w)
  | .awaitTurn _ => ((), w)
  | .offer ns => ((), { w with offered := w.offered ++ ns })
  | .scheduleRebuild scope =>
    (w.nextTask, { w with
      nextTask := w.nextTask + 1
      scheduled := w.scheduled ++ [(w.nextTask, scope)] })
  | .cancelRebuild task => ((), { w with cancelled := w.cancelled ++ [task] })
  | .isCancelled task => (w.cancelled.contains task, w)
  | .rebuilt? task => (w.rebuilt? task, w)
  | .awaitRebuild _ => ((), w)

end World

/-- A sequence of actions that ends with an answer; each action may depend on the answers to those
before. A part of it may be two procedures beside each other, of which the first goes first. -/
inductive Procedure : Type → Type 1
  | done {α : Type} (a : α) : Procedure α
  | act {α β : Type} (action : Action β) (next : β → Procedure α) : Procedure α
  | both {α β γ : Type} (first : Procedure β) (second : Procedure γ)
      (next : β → γ → Procedure α) : Procedure α

namespace Procedure

variable {α β γ : Type}

instance [Inhabited α] : Inhabited (Procedure α) := ⟨done default⟩

/-- One procedure after another. -/
def andThen : Procedure α → (α → Procedure β) → Procedure β
  | done a, f => f a
  | act action next, f => act action fun b => (next b).andThen f
  | both first second next, f => both first second fun b c => (next b c).andThen f

instance : Monad Procedure where
  pure := done
  bind := andThen

/-- The procedure of one action. -/
def perform (action : Action α) : Procedure α := act action done

/-- Looks at the store. -/
def read (f : Store → α) : Procedure α := perform (.read f)

/-- Waits for some milliseconds, if there are any. -/
def sleep (millis : Nat) : Procedure Unit :=
  act (.momentAfter millis) fun moment => perform (.awaitMoment moment)

/-- Waits for the next turn. -/
def pause : Procedure Unit := act .turns fun turns => perform (.awaitTurn turns)

/-- Runs two procedures beside each other, the second of which starts a millisecond after the
first. -/
def together (first : Procedure α) (second : Procedure β) : Procedure (α × β) :=
  both first (act (.momentAfter 1) fun moment => act (.awaitMoment moment) fun () => second)
    fun a b => done (a, b)

theorem andThen_done (p : Procedure α) : p.andThen done = p := by
  induction p with
  | done a => rfl
  | act action next ih => simp only [andThen, ih]
  | both first second next _ _ ih => simp only [andThen, ih]

theorem andThen_assoc (p : Procedure α) (f : α → Procedure β) (g : β → Procedure γ) :
    (p.andThen f).andThen g = p.andThen fun a => (f a).andThen g := by
  induction p with
  | done a => rfl
  | act action next ih => simp only [andThen, ih]
  | both first second next _ _ ih => simp only [andThen, ih]

/-- The answer of a procedure that has the world for itself and does not wait, and the world after
it. -/
def runAlone : {α : Type} → Procedure α → World → α × World
  | _, done a, w => (a, w)
  | _, act action next, w =>
    let (b, w) := w.perform action
    (next b).runAlone w
  | _, both first second next, w =>
    let (b, w) := first.runAlone w
    let (c, w) := second.runAlone w
    (next b c).runAlone w

theorem runAlone_andThen (p : Procedure α) (f : α → Procedure β) (w : World) :
    (p.andThen f).runAlone w = (f (p.runAlone w).1).runAlone (p.runAlone w).2 := by
  induction p generalizing w with
  | done a => rfl
  | act action next ih => simp only [andThen, runAlone, ih]
  | both first second next _ _ ih => simp only [andThen, runAlone, ih]

/-! ## Going on -/

/-- The answer of a procedure that has ended. -/
def answer? : Procedure α → Option α
  | done a => some a
  | _ => none

/-- Whether a procedure can do an action now. -/
def canGoOn (w : World) : {α : Type} → Procedure α → Bool
  | _, done _ => false
  | _, act action _ => action.isReady w
  | _, both first second _ =>
    first.canGoOn w || second.canGoOn w || (first.answer?.isSome && second.answer?.isSome)

/-- Goes on as far as the procedure can without waiting: what is left of it, and the world then. Of
two procedures beside each other the first goes on before the second. -/
def goOn : {α : Type} → Procedure α → World → Procedure α × World
  | _, done a, w => (done a, w)
  | _, act action next, w =>
    if action.isReady w then
      let (b, w) := w.perform action
      (next b).goOn w
    else (act action next, w)
  | _, both first second next, w =>
    let (first, w) := first.goOn w
    let (second, w) := second.goOn w
    match first.answer?, second.answer? with
    | some b, some c => (next b c).goOn w
    | _, _ => (both first second next, w)

/-- The moments that a procedure waits for. -/
def moments : {α : Type} → Procedure α → List Nat
  | _, act (.awaitMoment moment) _ => [moment]
  | _, both first second _ => first.moments ++ second.moments
  | _, _ => []

/-- Whether a procedure waits for a turn. -/
def awaitsTurn : {α : Type} → Procedure α → Bool
  | _, act (.awaitTurn _) _ => true
  | _, both first second _ => first.awaitsTurn || second.awaitsTurn
  | _, _ => false

/-- A procedure that cannot go on stays as it is. -/
theorem goOn_of_not_canGoOn {p : Procedure α} {w : World} (h : p.canGoOn w = false) :
    p.goOn w = (p, w) := by
  induction p with
  | done a => rfl
  | act action next _ =>
    simp only [canGoOn] at h
    simp [goOn, h]
  | both first second next hfirst hsecond _ =>
    simp only [canGoOn, Bool.or_eq_false_iff, Bool.and_eq_false_iff] at h
    simp only [goOn, hfirst h.1.1, hsecond h.1.2]
    split
    · rename_i hb hc
      simp [hb, hc] at h
    · rfl

/-! ## Locks -/

/-- Takes keys for a task one after the other, in the order given. -/
def lockAll (task : TaskId) : List LockKey → Procedure Unit
  | [] => done ()
  | k :: ks => act (.reachLock task k) fun _ => act (.awaitLock task k) fun _ => lockAll task ks

/-- Runs a procedure while some keys are held. -/
def withLocks (ks : List LockKey) (body : Procedure α) : Procedure α := do
  let task ← perform .newTask
  lockAll task ks
  let a ← body
  perform (.releaseLocks task ks)
  return a

end Procedure

end Referral
