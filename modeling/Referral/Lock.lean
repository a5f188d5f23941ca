import Referral.Scope

/-!
# Locks

Work on one promoter or one link is done by one task at a time. A key has an entry in the lock table
from the moment a task reaches for it; the first task in the queue of an entry holds the key, and
the others wait in order. A task reaches for its keys in one fixed order.
-/

namespace Referral

/-- What a lock is for. -/
inductive LockKey
  | promoter (key : PromoterKey)
  | link (link : LinkId)
deriving DecidableEq

/-- Promoters come before links. -/
instance : Ranked LockKey where
  rank
    | .promoter k => rank k
    | .link l => Ranked.ranks PromoterKey + rank l
  ranks := Ranked.ranks PromoterKey + Ranked.ranks LinkId
  rank_lt
    | .promoter k => Nat.lt_of_lt_of_le (Ranked.rank_lt k) (Nat.le_add_right _ _)
    | .link l => Nat.add_lt_add_left (Ranked.rank_lt l) _
  rank_injective
    | .promoter a, .promoter b, h => congrArg _ (Ranked.rank_injective a b h)
    | .link a, .link b, h =>
      congrArg _ (Ranked.rank_injective a b (Nat.add_left_cancel h))
    | .promoter a, .link b, h => by
      have := Ranked.rank_lt a
      simp only at h
      omega
    | .link a, .promoter b, h => by
      have := Ranked.rank_lt b
      simp only at h
      omega

/-- Keys in the fixed order, each once. -/
def sortedKeys (ks : List LockKey) : List LockKey :=
  (OrderedMap.insertAll (∅ : OrderedMap LockKey Unit) (ks.map fun k => (k, ()))).entries.map (·.1)

/-- The keys that an event needs. -/
def Event.lockKeys (e : Event) : List LockKey :=
  sortedKeys [.promoter e.promoterKey, .link e.link]

/-- A name for a task. -/
abbrev TaskId := Nat

/-- For each key with an entry, the tasks that hold it or wait for it. -/
structure LockTable where
  queues : OrderedMap LockKey (List TaskId)

namespace LockTable

/-- The table without entries. -/
def empty : LockTable := ⟨∅⟩

instance : Inhabited LockTable := ⟨empty⟩

/-- The tasks at a key, the one that holds it first. -/
def queue (t : LockTable) (k : LockKey) : List TaskId := (t.queues.get? k).getD []

/-- Whether a task holds a key. -/
def holds (t : LockTable) (task : TaskId) (k : LockKey) : Bool := (t.queue k).head? = some task

/-- The number of entries. -/
def size (t : LockTable) : Nat := t.queues.size

/-- Whether there are no entries. -/
def isEmpty (t : LockTable) : Bool := t.queues.isEmpty

/-- Puts a task at the end of the queue of a key, with a new entry if there is none. -/
def reach (t : LockTable) (task : TaskId) (k : LockKey) : LockTable :=
  ⟨t.queues.insert k (t.queue k ++ [task])⟩

/-- Takes a task out of the queue of a key. The entry stays. -/
def leave (t : LockTable) (task : TaskId) (k : LockKey) : LockTable :=
  if (t.queues.get? k).isSome then ⟨t.queues.insert k ((t.queue k).erase task)⟩ else t

/-- Removes the entries among some keys at which there is no task. -/
def sweep (t : LockTable) (ks : List LockKey) : LockTable :=
  ⟨t.queues.filter fun k => !(ks.contains k && (t.queue k).isEmpty)⟩

/-- Takes a task out of several queues. -/
def leaveAll (t : LockTable) (task : TaskId) (ks : List LockKey) : LockTable :=
  ks.foldl (fun t k => t.leave task k) t

/-- Gives back keys that were all held, and removes those that nobody waits for. -/
def release (t : LockTable) (task : TaskId) (ks : List LockKey) : LockTable :=
  (t.leaveAll task ks).sweep ks

end LockTable

/-- A task on its way to hold some keys together. -/
structure Claim where
  task : TaskId
  /-- The keys that it has reached for; it holds all but perhaps the last. -/
  reached : List LockKey
  /-- The keys still to come. -/
  ahead : List LockKey
deriving DecidableEq

namespace Claim

/-- The claim of a task that has not reached for any of its keys. -/
def start (task : TaskId) (ks : List LockKey) : Claim := ⟨task, [], sortedKeys ks⟩

/-- Whether the task holds all that it has reached for. -/
def isUnblocked (c : Claim) (t : LockTable) : Bool :=
  c.reached.getLast?.all fun k => t.holds c.task k

/-- Whether the task holds all its keys. -/
def isComplete (c : Claim) (t : LockTable) : Bool := c.ahead.isEmpty && c.isUnblocked t

/-- Reaches for the next key, if there is one and the task does not wait. -/
def advance (c : Claim) (t : LockTable) : Claim × LockTable :=
  match c.ahead with
  | [] => (c, t)
  | k :: ks =>
    if c.isUnblocked t then ({ c with reached := c.reached ++ [k], ahead := ks }, t.reach c.task k)
    else (c, t)

/-- Reaches for key after key until the task waits or holds all of them. -/
def advanceAll (c : Claim) (t : LockTable) : Claim × LockTable :=
  c.ahead.foldl (fun (c, t) _ => c.advance t) (c, t)

/-- The table after the task gave up: keys that it held are released, but no entry goes. If the
claim is complete, entries that nobody waits for go too. -/
def drop (c : Claim) (t : LockTable) : LockTable :=
  if c.isComplete t then t.release c.task c.reached else t.leaveAll c.task c.reached

end Claim

/-- Tasks that claim keys from one table. -/
structure Crowd where
  table : LockTable
  claims : List Claim

namespace Crowd

/-- No task, no entry. -/
def empty : Crowd := ⟨.empty, []⟩

/-- The claim of a task. -/
def claim? (c : Crowd) (task : TaskId) : Option Claim := c.claims.find? (·.task = task)

/-- Lets one task go on as far as it can. -/
def advance (c : Crowd) (task : TaskId) : Crowd :=
  match c.claim? task with
  | none => c
  | some claim =>
    let (claim, table) := claim.advanceAll c.table
    ⟨table, c.claims.map fun x => if x.task = task then claim else x⟩

/-- Adds a task that claims keys, and lets it go on as far as it can. -/
def enter (c : Crowd) (task : TaskId) (ks : List LockKey) : Crowd :=
  advance { c with claims := c.claims ++ [.start task ks] } task

/-- Ends a task, and lets those go on that waited for what it held, in the order of the keys. -/
def leave (c : Crowd) (task : TaskId) : Crowd :=
  match c.claim? task with
  | none => c
  | some claim =>
    let table := claim.drop c.table
    let next := claim.reached.filterMap fun k => (table.queue k).head?
    next.foldl advance ⟨table, c.claims.filter (·.task ≠ task)⟩

end Crowd

end Referral
