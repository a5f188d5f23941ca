import Referral.Drift
import Referral.Rows
import Referral.WorkUnit

/-!
# The store

The store holds the log of events with an index, the rules and circles, and what commits wrote:
commissions, memberships, failures and totals. A commit is checked as a whole before anything is
written, so it leaves either all of its changes or none.
-/

namespace Referral

/-- An event in the log. Sequence numbers start at one. -/
structure StoredEvent where
  sequence : Nat
  event : Event
  recordedAt : Instant
deriving DecidableEq

/-- What a commit wrote. -/
structure Receipt where
  lastSequence : Nat
  events : Nat
  commissions : Nat
  transitions : Nat
  failures : Nat
deriving DecidableEq

/-- The totals of a scope and the sequence number up to which they count the log. -/
structure BookSnapshot where
  book : Book
  watermark : Nat
deriving DecidableEq

/-- All that is stored. -/
structure Store where
  log : List StoredEvent
  /-- The position in the log of each event. -/
  index : OrderedMap EventId Nat
  rules : List Rule
  circles : List Circle
  memberships : OrderedMap PromoterKey Membership
  book : Book
  commissions : List Commission
  failures : List Failure
  /-- How many of the next commits fail, for trials of retries. -/
  failingCommits : Nat
  /-- How long each read of the log takes, in milliseconds. -/
  scanDelay : Nat

/-- The list with its first element that passes the test changed. -/
def modifyFirst {α : Type} (p : α → Bool) (f : α → α) : List α → List α
  | [] => []
  | a :: as => if p a then f a :: as else a :: modifyFirst p f as

namespace Store

/-- The store without anything in it. -/
def empty : Store := ⟨[], ∅, [], [], ∅, ∅, [], [], 0, 0⟩

instance : Inhabited Store := ⟨empty⟩

/-- The sequence number of the last event, zero if there is none. -/
def head (s : Store) : Nat := (s.log.getLast?.map (·.sequence)).getD 0

/-- The circle in force for a promoter: that of the membership, else the program's default. -/
def currentCircle (s : Store) (k : PromoterKey) : Option CircleId :=
  ((s.memberships.get? k).map (·.circle)).or
    ((s.circles.find? fun c => c.program = k.program && c.isDefault).map (·.id))

/-! ## Setting up -/

/-- Adds a rule, or replaces the one of the same identifier in its place. -/
def putRule (s : Store) (r : Rule) : Except Error Store :=
  r.validate.map fun _ =>
    if s.rules.any (·.id = r.id) then
      { s with rules := modifyFirst (·.id = r.id) (fun _ => r) s.rules }
    else { s with rules := s.rules ++ [r] }

/-- Adds a circle after removing those of the same identifier. A program has one default circle at
most. -/
def putCircle (s : Store) (c : Circle) : Except Error Store :=
  if c.isDefault && s.circles.any fun x => x.program = c.program && x.isDefault && x.id ≠ c.id then
    .error (.validation ("program " ++ c.program.display ++ " already has a default circle"))
  else .ok { s with circles := (s.circles.filter (·.id ≠ c.id)) ++ [c] }

/-- Places a promoter in a circle of the program. -/
def assignCircle (s : Store) (k : PromoterKey) (circle : CircleId) (now : Instant) :
    Except Error Store :=
  if s.circles.any fun c => c.isOf k.program circle then
    .ok { s with
      memberships := s.memberships.insert k ⟨k.program, k.promoter, circle, now⟩ }
  else .error (.circleNotFound circle)

/-- Overwrites the stored totals of a promoter without regard to the log. -/
def overwriteTotals (s : Store) (k : PromoterKey) (totals : PromoterTotals) : Store :=
  { s with book := { s.book with promoters := s.book.promoters.insert k totals } }

/-! ## Reading -/

/-- What a unit of work for a promoter starts from. -/
def context (s : Store) (k : PromoterKey) : Context where
  program := k.program
  promoter := k.promoter
  rules := s.rules.filter fun r => r.program = k.program && r.active
  circles := s.circles.filter (·.program = k.program)
  membership := s.memberships.get? k
  totals := s.book.promoter k

/-- Whether an event is in the log. -/
def hasEvent (s : Store) (id : EventId) : Bool := s.index.contains id

/-- The log entry of an event. -/
def event? (s : Store) (id : EventId) : Option StoredEvent :=
  (s.index.get? id).bind fun i => s.log[i]?

/-- Up to `limit` events of a scope with a sequence number above `after`, in order. -/
def events (s : Store) (scope : Scope) (after limit : Nat) : List StoredEvent :=
  ((s.log.drop after).filter fun e => scope.includes e.event).take limit

/-- The totals of a scope with the end of the log. -/
def snapshot (s : Store) (scope : Scope) : BookSnapshot := ⟨s.book.restrict scope, s.head⟩

/-- The failure record of an identifier. -/
def failure? (s : Store) (id : FailureId) : Option Failure := s.failures.find? (·.id = id)

/-- The failure records, without those that are resolved unless they are asked for. -/
def listFailures (s : Store) (includeResolved : Bool) : List Failure :=
  s.failures.filter fun f => includeResolved || !f.resolved

/-- The commissions of a promoter. -/
def commissionsOf (s : Store) (k : PromoterKey) : List Commission :=
  s.commissions.filter fun c => c.program = k.program && c.promoter = k.promoter

/-! ## Committing -/

/-- The circle that a promoter is in after some staged moves from the stored circle. -/
def circleAfter (s : Store) (k : PromoterKey) (moves : List Transition) : Option CircleId :=
  ((moves.reverse.find? fun t => t.program = k.program && t.promoter = k.promoter).map
    fun t => some t.target).getD (s.currentCircle k)

/-- The promoter of the first staged move that does not start where the promoter is, given the
moves before. -/
def staleMove? (s : Store) (before : List Transition) : List Transition → Option PromoterId
  | [] => none
  | t :: ts =>
    if s.circleAfter ⟨t.program, t.promoter⟩ before = t.source then s.staleMove? (before ++ [t]) ts
    else some t.promoter

/-- Refuses a unit of work that repeats an event of the log, moves a promoter from a circle that is
not in force, or touches a failure record that does not exist. -/
def check (s : Store) (u : WorkUnit) : Except Error Unit :=
  match u.events.find? fun e => s.hasEvent e.id with
  | some e => .error (.duplicateEvent e.id)
  | none =>
    match s.staleMove? [] (u.transitions.map (·.transition)) with
    | some promoter => .error (.switchRejected promoter)
    | none =>
      match (u.resolved ++ u.attempted).find? fun id => !s.failures.any (·.id = id) with
      | some id => .error (.failureNotFound id)
      | none => .ok ()

/-- Appends an event to the log. -/
def append (s : Store) (e : Event) (now : Instant) : Store :=
  { s with
    index := s.index.insert e.id s.log.length
    log := s.log ++ [⟨s.head + 1, e, now⟩] }

/-- Moves a promoter. -/
def move (s : Store) (t : Transition) : Store :=
  { s with memberships := s.memberships.insert ⟨t.program, t.promoter⟩ t.membership }

/-- Changes the failure record of an identifier. -/
def changeFailure (s : Store) (id : FailureId) (f : Failure → Failure) : Store :=
  { s with failures := modifyFirst (·.id = id) f s.failures }

/-- Writes a unit of work that passed all checks; `book` holds the totals with its delta. -/
def write (s : Store) (u : WorkUnit) (book : Book) (now : Instant) : Store :=
  let s := u.events.foldl (fun s e => s.append e now) { s with book }
  let s := { s with commissions := s.commissions ++ u.commissions }
  let s := (u.transitions.map (·.transition)).foldl move s
  let s := { s with failures := s.failures ++ u.failures }
  let s := u.resolved.foldl (fun s id => s.changeFailure id fun f => { f with resolved := true }) s
  u.attempted.foldl
    (fun s id => s.changeFailure id fun f => { f with attempts := f.attempts + 1 }) s

/-- The receipt for a unit of work, after it was written. -/
def receipt (s : Store) (u : WorkUnit) : Receipt :=
  ⟨s.head, u.events.length, u.commissions.length, u.transitions.length, u.failures.length⟩

/-- Commits a unit of work as a whole, or refuses it. A commit that is set to fail does so before it
is looked at. -/
def commit (s : Store) (u : WorkUnit) (now : Instant) : Except Error Receipt × Store :=
  if 0 < s.failingCommits then
    (.error (.store "injected commit failure"), { s with failingCommits := s.failingCommits - 1 })
  else
    match s.check u with
    | .error error => (.error error, s)
    | .ok () =>
      match s.book.merge u.delta with
      | .error error => (.error error, s)
      | .ok book =>
        let s := s.write u book now
        (.ok (s.receipt u), s)

/-- Replaces the totals of a scope by rebuilt ones, which count the log up to `asOf`, after adding
the later events of the scope. The answer is the number of these. -/
def replaceTotals (s : Store) (scope : Scope) (rebuilt : Book) (asOf : Nat) :
    Except Error (Nat × Store) :=
  let later := ((s.log.drop asOf).filter fun e => scope.includes e.event).map (·.event)
  (rebuilt.addAll later).map fun rebuilt =>
    (later.length, { s with book := s.book.replaceScope scope rebuilt })

end Store

end Referral
