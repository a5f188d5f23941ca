import Mathlib.Logic.Function.Basic
import Mathlib.Logic.Relation
import Mathlib.Tactic
import Referral.Proofs.Locks

/-!
# Mutexes behind the lock table

The entry of a key is a mutex that is made when a task first looks for the key, and that is removed
when a task leaves and no other has a handle on it. Between looking for a mutex, joining its queue,
leaving the queue and giving up the handle, other tasks may act. As long as a task has a handle on
the mutex of a key, this is the one in the entry, so that all tasks at a key are in one queue; and
since tasks take their keys in one order, they never wait for each other in a circle.
-/

namespace Referral

theorem pairwise_sortedKeys (ks : List LockKey) :
    (sortedKeys ks).Pairwise fun j k => rank j < rank k :=
  List.pairwise_map.mpr (OrderedMap.sorted _)

/-- A name for a mutex. -/
abbrev MutexId := ℕ

/-- A task's handle on the mutex of a key. -/
structure Handle where
  key : LockKey
  mutex : MutexId
  /-- Whether the task is in the queue of the mutex. -/
  queued : Bool

/-- What a task does with its keys. -/
inductive Mode
  /-- It takes one after the other; some are still to come. -/
  | taking (ahead : List LockKey)
  /-- It holds them all. -/
  | holding
  /-- It gives up its handles, and then looks after the entries of some keys. -/
  | leaving (entries : List LockKey)

/-- The keys still to come. -/
@[simp] def Mode.ahead : Mode → List LockKey
  | taking ks => ks
  | holding | leaving _ => []

/-- A task that claims keys. -/
structure Locker where
  /-- Its handles, in the order in which it came to them. -/
  handles : List Handle
  mode : Mode

/-- The mutexes of all keys and the tasks that use them. -/
structure Mutexes where
  /-- The mutex in the entry of a key. -/
  current : LockKey → Option MutexId
  /-- The tasks at a mutex, its owner first. -/
  queue : MutexId → List TaskId
  /-- The number of mutexes made so far, and the next name. -/
  made : ℕ
  locker? : TaskId → Option Locker

namespace Mutexes

/-- No task and no entry. -/
def empty : Mutexes := ⟨fun _ => none, fun _ => [], 0, fun _ => none⟩

/-- The handles of a task. -/
def handles (s : Mutexes) (task : TaskId) : List Handle :=
  ((s.locker? task).map (·.handles)).getD []

/-- The tasks at a key. -/
def queueAt (s : Mutexes) (k : LockKey) : List TaskId := ((s.current k).map s.queue).getD []

/-- A task is at a mutex that it has a handle on, and all others wait for it. -/
def Owns (s : Mutexes) (task : TaskId) (x : Handle) : Prop :=
  x.queued = true ∧ (s.queue x.mutex).head? = some task

/-- A task owns the mutex of a key. -/
def Holds (s : Mutexes) (task : TaskId) (k : LockKey) : Prop :=
  ∃ x ∈ s.handles task, x.key = k ∧ s.Owns task x

/-- A task that takes keys is at the mutex of a key and does not own it yet. -/
def Waits (s : Mutexes) (task : TaskId) (k : LockKey) : Prop :=
  ∃ hs ks, s.locker? task = some ⟨hs, .taking ks⟩ ∧
    ∃ x ∈ hs, x.key = k ∧ x.queued = true ∧ ¬ s.Owns task x

/-- A task waits for a key. -/
def Blocked (s : Mutexes) (task : TaskId) : Prop := ∃ k, s.Waits task k

/-- A task waits for a key that another holds. -/
def WaitsFor (s : Mutexes) (task other : TaskId) : Prop := ∃ k, s.Waits task k ∧ s.Holds other k

/-- No task has a handle on a mutex. -/
def Idle (s : Mutexes) (m : MutexId) : Prop := ∀ task, ∀ x ∈ s.handles task, x.mutex ≠ m

/-! ## Steps -/

/-- Changes what a task does. -/
def become (s : Mutexes) (task : TaskId) (l : Locker) : Mutexes :=
  { s with locker? := Function.update s.locker? task (some l) }

/-- Makes a mutex for the entry of a key. -/
def make (s : Mutexes) (k : LockKey) : Mutexes :=
  { s with current := Function.update s.current k (some s.made), made := s.made + 1 }

/-- Removes the entry of a key. -/
def remove (s : Mutexes) (k : LockKey) : Mutexes :=
  { s with current := Function.update s.current k none }

/-- Puts a task at the end of the queue of a mutex. -/
def enqueue (s : Mutexes) (task : TaskId) (m : MutexId) : Mutexes :=
  { s with queue := Function.update s.queue m (s.queue m ++ [task]) }

/-- Takes a task out of the queue of a mutex; the next in the queue then owns it. -/
def dequeue (s : Mutexes) (task : TaskId) (m : MutexId) : Mutexes :=
  { s with queue := Function.update s.queue m ((s.queue m).erase task) }

/-- A task goes on by one step. -/
inductive Advances (task : TaskId) (s : Mutexes) : Mutexes → Prop
  /-- It begins to claim keys. -/
  | arrive (ks : List LockKey) (h : s.locker? task = none) :
      Advances task s (s.become task ⟨[], .taking (sortedKeys ks)⟩)
  /-- It gets a handle on the mutex of the next key. -/
  | find {hs : List Handle} {k : LockKey} {ks : List LockKey} {m : MutexId}
      (h : s.locker? task = some ⟨hs, .taking (k :: ks)⟩) (held : ∀ x ∈ hs, s.Owns task x)
      (entry : s.current k = some m) :
      Advances task s (s.become task ⟨hs ++ [⟨k, m, false⟩], .taking ks⟩)
  /-- It makes the mutex if there is none. -/
  | make {hs : List Handle} {k : LockKey} {ks : List LockKey}
      (h : s.locker? task = some ⟨hs, .taking (k :: ks)⟩) (held : ∀ x ∈ hs, s.Owns task x)
      (entry : s.current k = none) :
      Advances task s ((s.make k).become task ⟨hs ++ [⟨k, s.made, false⟩], .taking ks⟩)
  /-- It joins the queue. -/
  | join {hs : List Handle} {k : LockKey} {ks : List LockKey} {m : MutexId}
      (h : s.locker? task = some ⟨hs ++ [⟨k, m, false⟩], .taking ks⟩) :
      Advances task s
        ((s.enqueue task m).become task ⟨hs ++ [⟨k, m, true⟩], .taking ks⟩)
  /-- It has got the last key. -/
  | finish {hs : List Handle} (h : s.locker? task = some ⟨hs, .taking []⟩)
      (held : ∀ x ∈ hs, s.Owns task x) :
      Advances task s (s.become task ⟨hs, .holding⟩)
  /-- It gives its keys back, to look after their entries then. -/
  | drop {hs : List Handle} (h : s.locker? task = some ⟨hs, .holding⟩) :
      Advances task s (s.become task ⟨hs, .leaving (hs.map (·.key))⟩)
  /-- It leaves a queue. -/
  | unlock {before after : List Handle} {k : LockKey} {m : MutexId} {ks : List LockKey}
      (h : s.locker? task = some ⟨before ++ ⟨k, m, true⟩ :: after, .leaving ks⟩) :
      Advances task s ((s.dequeue task m).become task
        ⟨before ++ ⟨k, m, false⟩ :: after, .leaving ks⟩)
  /-- It gives up a handle. -/
  | forget {before after : List Handle} {k : LockKey} {m : MutexId} {ks : List LockKey}
      (h : s.locker? task = some ⟨before ++ ⟨k, m, false⟩ :: after, .leaving ks⟩) :
      Advances task s (s.become task ⟨before ++ after, .leaving ks⟩)
  /-- It removes an entry that no task has a handle on. -/
  | remove {k : LockKey} {ks : List LockKey} {m : MutexId}
      (h : s.locker? task = some ⟨[], .leaving (k :: ks)⟩) (entry : s.current k = some m)
      (idle : s.Idle m) :
      Advances task s ((s.remove k).become task ⟨[], .leaving ks⟩)
  /-- It lets an entry be. -/
  | keep {k : LockKey} {ks : List LockKey}
      (h : s.locker? task = some ⟨[], .leaving (k :: ks)⟩)
      (busy : ∀ m, s.current k = some m → ¬ s.Idle m) :
      Advances task s (s.become task ⟨[], .leaving ks⟩)

/-- A task goes on, or is cancelled before it holds all its keys. Then it gives up its handles and
looks after no entries. -/
inductive Step (s : Mutexes) : Mutexes → Prop
  | advance {task : TaskId} {s' : Mutexes} (h : s.Advances task s') : Step s s'
  | cancel {task : TaskId} {hs : List Handle} {ks : List LockKey}
      (h : s.locker? task = some ⟨hs, .taking ks⟩) :
      Step s (s.become task ⟨hs, .leaving []⟩)

/-- What comes of any number of steps of any tasks. -/
def Reachable (s : Mutexes) : Prop := Relation.ReflTransGen Step empty s

/-! ## What holds after every step -/

/-- All handles on the mutex of a key are on the one in its entry, and the queues are in order. -/
structure Sound (s : Mutexes) : Prop where
  made : ∀ {k m}, s.current k = some m → m < s.made
  /-- No mutex is in two entries. -/
  injective : ∀ {k k' m}, s.current k = some m → s.current k' = some m → k = k'
  current : ∀ {task}, ∀ x ∈ s.handles task, s.current x.key = some x.mutex
  /-- The tasks in a queue are those that have a handle that says so. -/
  queued : ∀ {task m}, task ∈ s.queue m ↔ ∃ x ∈ s.handles task, x.mutex = m ∧ x.queued = true
  nodup : ∀ m, (s.queue m).Nodup
  /-- Keys are taken in order. -/
  sorted : ∀ {task l}, s.locker? task = some l →
    (l.handles.map (·.key) ++ l.mode.ahead).Pairwise fun j k => rank j < rank k
  /-- A task that takes keys owns all its mutexes but perhaps the last. -/
  taken : ∀ {task hs ks}, s.locker? task = some ⟨hs, .taking ks⟩ →
    ∀ x ∈ hs.dropLast, s.Owns task x
  holding : ∀ {task hs}, s.locker? task = some ⟨hs, .holding⟩ → ∀ x ∈ hs, s.Owns task x

variable {s s' : Mutexes} {task other : TaskId} {k : LockKey} {m : MutexId}

@[simp] theorem locker?_become (s : Mutexes) (task other : TaskId) (l : Locker) :
    (s.become task l).locker? other = if other = task then some l else s.locker? other :=
  Function.update_apply ..

theorem handles_of_locker? {l : Locker} (h : s.locker? task = some l) :
    s.handles task = l.handles := by
  rw [handles, h]
  rfl

@[simp] theorem handles_become (s : Mutexes) (task other : TaskId) (l : Locker) :
    (s.become task l).handles other = if other = task then l.handles else s.handles other := by
  rw [handles, locker?_become]
  split <;> rfl

@[simp] theorem locker?_make (s : Mutexes) (k : LockKey) : (s.make k).locker? = s.locker? := rfl

@[simp] theorem locker?_enqueue (s : Mutexes) (task : TaskId) (m : MutexId) :
    (s.enqueue task m).locker? = s.locker? := rfl

@[simp] theorem locker?_dequeue (s : Mutexes) (task : TaskId) (m : MutexId) :
    (s.dequeue task m).locker? = s.locker? := rfl

@[simp] theorem current_make (s : Mutexes) (k j : LockKey) :
    (s.make k).current j = if j = k then some s.made else s.current j := Function.update_apply ..

@[simp] theorem current_remove (s : Mutexes) (k j : LockKey) :
    (s.remove k).current j = if j = k then none else s.current j := Function.update_apply ..

@[simp] theorem queue_enqueue (s : Mutexes) (task : TaskId) (m m' : MutexId) :
    (s.enqueue task m).queue m' = if m' = m then s.queue m ++ [task] else s.queue m' :=
  Function.update_apply ..

@[simp] theorem queue_dequeue (s : Mutexes) (task : TaskId) (m m' : MutexId) :
    (s.dequeue task m).queue m' = if m' = m then (s.queue m).erase task else s.queue m' :=
  Function.update_apply ..

namespace Sound

theorem current_of_locker? (h : s.Sound) {l : Locker} (hl : s.locker? task = some l) :
    ∀ x ∈ l.handles, s.current x.key = some x.mutex :=
  fun x hx => h.current x (by rwa [handles_of_locker? hl])

theorem queued_of_locker? (h : s.Sound) {l : Locker} (hl : s.locker? task = some l) (m : MutexId) :
    task ∈ s.queue m ↔ ∃ x ∈ l.handles, x.mutex = m ∧ x.queued = true := by
  rw [h.queued, handles_of_locker? hl]

/-- The keys of a task are all different. -/
theorem key_ne (h : s.Sound) {l : Locker} (hl : s.locker? task = some l)
    {before after : List Handle} {x : Handle} (hsplit : l.handles = before ++ x :: after) :
    ∀ y ∈ before ++ after, y.key ≠ x.key := by
  have hkeys := (List.pairwise_append.mp (h.sorted hl)).1
  rw [hsplit, List.map_append, List.map_cons, List.pairwise_append, List.pairwise_cons] at hkeys
  obtain ⟨-, ⟨hafter, -⟩, hbefore⟩ := hkeys
  intro y hy heq
  rcases List.mem_append.mp hy with hy | hy
  · have hlt := hbefore _ (List.mem_map_of_mem hy) _ List.mem_cons_self
    rw [heq] at hlt
    exact lt_irrefl _ hlt
  · have hlt := hafter _ (List.mem_map_of_mem hy)
    rw [heq] at hlt
    exact lt_irrefl _ hlt

/-- So are their mutexes. -/
theorem mutex_ne (h : s.Sound) {l : Locker} (hl : s.locker? task = some l)
    {before after : List Handle} {x : Handle} (hsplit : l.handles = before ++ x :: after) :
    ∀ y ∈ before ++ after, y.mutex ≠ x.mutex := by
  have hcurrent := h.current_of_locker? hl
  intro y hy heq
  have hx := hcurrent x (by rw [hsplit]; simp)
  have hy' := hcurrent y (by
    rw [hsplit]
    rcases List.mem_append.mp hy with hy | hy <;> simp [hy])
  exact h.key_ne hl hsplit y hy (h.injective (heq ▸ hy') hx)

/-- No task is at a mutex that is not made yet. -/
theorem queue_made (h : s.Sound) : s.queue s.made = [] := by
  refine List.eq_nil_iff_forall_not_mem.mpr fun task hmem => ?_
  obtain ⟨x, hx, heq, -⟩ := h.queued.mp hmem
  have hmade := h.made (h.current x hx)
  rw [heq] at hmade
  exact lt_irrefl _ hmade

theorem empty : Sound Mutexes.empty where
  made h := by cases h
  injective h := by cases h
  current x hx := by cases hx
  queued := by simp [Mutexes.empty, handles]
  nodup _ := .nil
  sorted h := by cases h
  taken h := by cases h
  holding h := by cases h

/-- A task does something else, and perhaps joins or leaves queues. -/
theorem requeue (h : s.Sound) (queue : MutexId → List TaskId) {l : Locker}
    (hothers : ∀ other ≠ task, ∀ m, other ∈ queue m ↔ other ∈ s.queue m)
    (hfirst : ∀ other ≠ task, ∀ m, (s.queue m).head? = some other →
      (queue m).head? = some other)
    (hnodup : ∀ m, (queue m).Nodup)
    (hcurrent : ∀ x ∈ l.handles, s.current x.key = some x.mutex)
    (hqueued : ∀ m, task ∈ queue m ↔ ∃ x ∈ l.handles, x.mutex = m ∧ x.queued = true)
    (hsorted : (l.handles.map (·.key) ++ l.mode.ahead).Pairwise fun j k => rank j < rank k)
    (htaken : ∀ ks, l.mode = .taking ks →
      ∀ x ∈ l.handles.dropLast, { s with queue := queue }.Owns task x)
    (hholding : l.mode = .holding → ∀ x ∈ l.handles, { s with queue := queue }.Owns task x) :
    ({ s with queue := queue }.become task l).Sound where
  made := h.made
  injective := h.injective
  current {other} x hx := by
    rw [handles_become] at hx
    split at hx
    · exact hcurrent x hx
    · exact h.current x hx
  queued {other m} := by
    rw [handles_become]
    split
    · rename_i heq
      exact heq ▸ hqueued m
    · rename_i hne
      exact (hothers other hne m).trans h.queued
  nodup := hnodup
  sorted {other l'} hl := by
    rw [locker?_become] at hl
    split at hl
    · cases hl
      exact hsorted
    · exact h.sorted hl
  taken {other hs ks} hl x hx := by
    rw [locker?_become] at hl
    split at hl
    · rename_i heq
      cases hl
      exact heq ▸ htaken ks rfl x hx
    · rename_i hne
      obtain ⟨hx', howner⟩ := h.taken hl x hx
      exact ⟨hx', hfirst other hne _ howner⟩
  holding {other hs} hl x hx := by
    rw [locker?_become] at hl
    split at hl
    · rename_i heq
      cases hl
      exact heq ▸ hholding rfl x hx
    · rename_i hne
      obtain ⟨hx', howner⟩ := h.holding hl x hx
      exact ⟨hx', hfirst other hne _ howner⟩

/-- A task does something else, but stays in the same queues. -/
theorem become (h : s.Sound) {l : Locker}
    (hcurrent : ∀ x ∈ l.handles, s.current x.key = some x.mutex)
    (hqueued : ∀ m, task ∈ s.queue m ↔ ∃ x ∈ l.handles, x.mutex = m ∧ x.queued = true)
    (hsorted : (l.handles.map (·.key) ++ l.mode.ahead).Pairwise fun j k => rank j < rank k)
    (htaken : ∀ ks, l.mode = .taking ks → ∀ x ∈ l.handles.dropLast, s.Owns task x)
    (hholding : l.mode = .holding → ∀ x ∈ l.handles, s.Owns task x) :
    (s.become task l).Sound :=
  h.requeue s.queue (fun _ _ _ => Iff.rfl) (fun _ _ _ => id) h.nodup hcurrent hqueued hsorted htaken
    hholding

/-- A task that takes no keys any more keeps all handles that are in queues. -/
theorem turn (h : s.Sound) {l l' : Locker} (hl : s.locker? task = some l)
    (hhandles : l'.handles.Sublist l.handles)
    (hkept : ∀ x ∈ l.handles, x.queued = true → x ∈ l'.handles)
    (hmode : ∀ ks, l'.mode ≠ .taking ks)
    (hholding : l'.mode = .holding → ∀ x ∈ l'.handles, s.Owns task x) :
    (s.become task l').Sound := by
  refine h.become (fun x hx => h.current_of_locker? hl x (hhandles.subset hx)) (fun m => ?_) ?_
    (fun ks heq => absurd heq (hmode ks)) hholding
  · rw [h.queued_of_locker? hl]
    constructor
    · rintro ⟨x, hx, hmutex, htrue⟩
      exact ⟨x, hkept x hx htrue, hmutex, htrue⟩
    · rintro ⟨x, hx, hmutex, htrue⟩
      exact ⟨x, hhandles.subset hx, hmutex, htrue⟩
  · have hahead : l'.mode.ahead = [] := by
      cases hl' : l'.mode with
      | taking ks => exact absurd hl' (hmode ks)
      | holding => rfl
      | leaving ks => rfl
    rw [hahead, List.append_nil]
    exact (List.pairwise_append.mp (h.sorted hl)).1.sublist (hhandles.map _)

/-- A mutex is made for a key that has none. -/
theorem make (h : s.Sound) (hentry : s.current k = none) : (s.make k).Sound where
  made {j m} hj := by
    rw [current_make] at hj
    split at hj
    · cases hj
      exact Nat.lt_succ_self _
    · exact Nat.lt_succ_of_lt (h.made hj)
  injective {i j m} hi hj := by
    rw [current_make] at hi hj
    split at hi <;> split at hj
    · simp_all
    · cases hi
      exact absurd (h.made hj) (lt_irrefl _)
    · cases hj
      exact absurd (h.made hi) (lt_irrefl _)
    · exact h.injective hi hj
  current {task} x hx := by
    have hold := h.current x hx
    have hne : x.key ≠ k := by
      rintro rfl
      rw [hentry] at hold
      cases hold
    rwa [current_make, if_neg hne]
  queued := h.queued
  nodup := h.nodup
  sorted := h.sorted
  taken := h.taken
  holding := h.holding

/-- The entry of a mutex is removed that no task has a handle on. -/
theorem remove (h : s.Sound) (hentry : s.current k = some m) (hidle : s.Idle m) :
    (s.remove k).Sound where
  made {j m'} hj := by
    rw [current_remove] at hj
    split at hj
    · cases hj
    · exact h.made hj
  injective {i j m'} hi hj := by
    rw [current_remove] at hi hj
    split at hi <;> split at hj
    · simp_all
    · cases hi
    · cases hj
    · exact h.injective hi hj
  current {task} x hx := by
    have hold := h.current x hx
    have hne : x.key ≠ k := by
      rintro rfl
      exact hidle task x hx (Option.some_inj.mp (hold.symm.trans hentry))
    rwa [current_remove, if_neg hne]
  queued := h.queued
  nodup := h.nodup
  sorted := h.sorted
  taken := h.taken
  holding := h.holding

/-- A task gets a handle on the mutex of its next key. -/
theorem find (h : s.Sound) {hs : List Handle} {ks : List LockKey}
    (hl : s.locker? task = some ⟨hs, .taking (k :: ks)⟩) (hheld : ∀ x ∈ hs, s.Owns task x)
    (hentry : s.current k = some m) :
    (s.become task ⟨hs ++ [⟨k, m, false⟩], .taking ks⟩).Sound := by
  have hcurrent := h.current_of_locker? hl
  have hqueued := h.queued_of_locker? hl
  refine h.become ?_ (fun m' => ?_) ?_ (fun _ _ => ?_) (fun hmode => by cases hmode)
  · exact List.forall_mem_append.mpr ⟨hcurrent, List.forall_mem_singleton.mpr hentry⟩
  · rw [hqueued]
    simp
  · simpa using h.sorted hl
  · simpa using hheld

/-- A task joins the queue of the mutex that it found last. -/
theorem join (h : s.Sound) {hs : List Handle} {ks : List LockKey}
    (hl : s.locker? task = some ⟨hs ++ [⟨k, m, false⟩], .taking ks⟩) :
    ((s.enqueue task m).become task ⟨hs ++ [⟨k, m, true⟩], .taking ks⟩).Sound := by
  have hcurrent := h.current_of_locker? hl
  have hqueued := h.queued_of_locker? hl
  obtain ⟨hcurrent, hlast⟩ := List.forall_mem_append.mp hcurrent
  have hothers : ∀ x ∈ hs, x.mutex ≠ m := by
    have hne := @mutex_ne _ _ h _ hl hs [] _ rfl
    rwa [List.append_nil] at hne
  have hnew : task ∉ s.queue m := by
    rw [hqueued]
    rintro ⟨x, hx, heq, htrue⟩
    rcases List.mem_append.mp hx with hx | hx
    · exact hothers x hx heq
    · rw [List.mem_singleton.mp hx] at htrue
      cases htrue
  refine h.requeue (s.enqueue task m).queue (fun other hne m' => ?_) (fun other hne m' hfirst => ?_)
    (fun m' => ?_) ?_ (fun m' => ?_) ?_ (fun _ _ => ?_) (fun hmode => by cases hmode)
  · rw [queue_enqueue]
    split
    · rename_i heq
      simp [heq, hne]
    · exact Iff.rfl
  · rw [queue_enqueue]
    split
    · rename_i heq
      rw [List.head?_append, ← heq, hfirst]
      rfl
    · exact hfirst
  · rw [queue_enqueue]
    split
    · exact (h.nodup m).append (List.nodup_singleton _) (by simpa using hnew)
    · exact h.nodup m'
  · exact List.forall_mem_append.mpr
      ⟨hcurrent, List.forall_mem_singleton.mpr (hlast ⟨k, m, false⟩ List.mem_cons_self)⟩
  · rw [queue_enqueue]
    split
    · rename_i heq
      simp [heq]
    · rename_i hne
      rw [hqueued]
      simp [Ne.symm hne]
  · simpa using h.sorted hl
  · intro x hx
    rw [List.dropLast_concat] at hx
    obtain ⟨htrue, hfirst⟩ := h.taken hl x (by rwa [List.dropLast_concat])
    refine ⟨htrue, ?_⟩
    change ((s.enqueue task m).queue x.mutex).head? = some task
    rw [queue_enqueue, if_neg (hothers x hx)]
    exact hfirst

/-- A task leaves the queue of a mutex. -/
theorem unlock (h : s.Sound) {before after : List Handle} {ks : List LockKey}
    (hl : s.locker? task = some ⟨before ++ ⟨k, m, true⟩ :: after, .leaving ks⟩) :
    ((s.dequeue task m).become task
      ⟨before ++ ⟨k, m, false⟩ :: after, .leaving ks⟩).Sound := by
  have hcurrent := h.current_of_locker? hl
  have hqueued := h.queued_of_locker? hl
  have hothers : ∀ x ∈ before ++ after, x.mutex ≠ m := h.mutex_ne hl rfl
  refine h.requeue (s.dequeue task m).queue (fun other hne m' => ?_) (fun other hne m' hfirst => ?_)
    (fun m' => ?_) ?_ (fun m' => ?_) ?_ (fun _ hmode => by cases hmode) (fun hmode => by cases hmode)
  · rw [queue_dequeue]
    split
    · rename_i heq
      rw [heq, List.mem_erase_of_ne hne]
    · exact Iff.rfl
  · rw [queue_dequeue]
    split
    · rename_i heq
      rw [heq] at hfirst
      obtain ⟨rest, hrest⟩ := List.head?_eq_some_iff.mp hfirst
      simp [hrest, hne]
    · exact hfirst
  · rw [queue_dequeue]
    split
    · exact (h.nodup m).erase _
    · exact h.nodup m'
  · simp only [List.forall_mem_append, List.forall_mem_cons] at hcurrent ⊢
    exact hcurrent
  · rw [queue_dequeue]
    split
    · rename_i heq
      have hgone : task ∉ (s.queue m).erase task := (h.nodup m).not_mem_erase
      refine iff_of_false hgone ?_
      rintro ⟨x, hx, hmutex, htrue⟩
      rcases List.mem_append.mp hx with hx | hx
      · exact hothers x (List.mem_append_left _ hx) (hmutex.trans heq)
      rcases List.mem_cons.mp hx with rfl | hx
      · cases htrue
      · exact hothers x (List.mem_append_right _ hx) (hmutex.trans heq)
    · rename_i hne
      rw [hqueued]
      simp [or_and_right, exists_or, Ne.symm hne]
  · simpa using h.sorted hl

/-- Every step keeps everything in order. -/
theorem advances (h : s.Sound) (hstep : s.Advances task s') : s'.Sound := by
  cases hstep with
  | arrive ks hnone =>
    have hout : ∀ m, task ∉ s.queue m := by
      intro m hmem
      obtain ⟨x, hx, -⟩ := h.queued.mp hmem
      rw [handles, hnone] at hx
      cases hx
    refine h.become (List.forall_mem_nil _) (fun m => iff_of_false (hout m) (by simp)) ?_
      (fun _ _ => List.forall_mem_nil _) (fun hmode => by cases hmode)
    exact pairwise_sortedKeys ks
  | find hl hheld hentry => exact h.find hl hheld hentry
  | @make hs k ks hl hheld hentry =>
    have hmade : (s.make k).current k = some s.made := by rw [current_make, if_pos rfl]
    exact (h.make hentry).find hl hheld hmade
  | join hl => exact h.join hl
  | finish hl hheld =>
    exact h.turn hl (.refl _) (fun x hx _ => hx) (by simp) fun _ => hheld
  | drop hl => exact h.turn hl (.refl _) (fun x hx _ => hx) (by simp) (by simp)
  | unlock hl => exact h.unlock hl
  | @forget before after k m ks hl =>
    refine h.turn hl (.append_left (List.sublist_cons_self _ _) _) (fun x hx htrue => ?_)
      (by simp) (by simp)
    rcases List.mem_append.mp hx with hx | hx
    · exact List.mem_append_left _ hx
    rcases List.mem_cons.mp hx with rfl | hx
    · cases htrue
    · exact List.mem_append_right _ hx
  | remove hl hentry hidle =>
    exact (h.remove hentry hidle).turn hl (.refl _) (fun x hx _ => hx) (by simp) (by simp)
  | keep hl => exact h.turn hl (.refl _) (fun x hx _ => hx) (by simp) (by simp)

theorem step (h : s.Sound) (hstep : s.Step s') : s'.Sound := by
  cases hstep with
  | advance hadvance => exact h.advances hadvance
  | cancel hl => exact h.turn hl (.refl _) (fun x hx _ => hx) (by simp) (by simp)

end Sound

/-- Everything is in order after any number of steps. -/
theorem Reachable.sound (h : Reachable s) : s.Sound := by
  induction h with
  | refl => exact .empty
  | tail _ hstep ih => exact ih.step hstep

end Mutexes

end Referral
