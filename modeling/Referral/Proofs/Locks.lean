import Mathlib.Tactic
import Referral.Lock
import Referral.Proofs.OrderedMap

/-!
# Locks and who is at them

The keys of an event are taken in one order, each once. A task that reaches for a key joins its
queue, and a task that releases its keys leaves their queues; the first in a queue stays the first
whatever the others do.
-/

namespace Referral

namespace LockTable

theorem queue_reach (t : LockTable) (task : TaskId) (k j : LockKey) :
    (t.reach task k).queue j = if j = k then t.queue k ++ [task] else t.queue j := by
  simp only [queue, reach, OrderedMap.get?_insert]
  split <;> rfl

/-- A task that reaches for several keys is the last at each of them. -/
theorem queue_reachAll (t : LockTable) (task : TaskId) {ks : List LockKey} (hks : ks.Nodup)
    (j : LockKey) :
    (ks.foldl (fun t k => t.reach task k) t).queue j =
      if j ∈ ks then t.queue j ++ [task] else t.queue j := by
  induction ks generalizing t with
  | nil => rfl
  | cons k ks ih =>
    rw [List.nodup_cons] at hks
    rw [List.foldl_cons, ih _ hks.2, queue_reach]
    by_cases hj : j = k
    · subst hj
      simp [hks.1]
    · simp [hj]

theorem queue_leave (t : LockTable) (task : TaskId) (k j : LockKey) :
    (t.leave task k).queue j = if j = k then (t.queue k).erase task else t.queue j := by
  unfold leave
  by_cases hentry : (t.queues.get? k).isSome = true
  · rw [if_pos hentry]
    simp only [queue, OrderedMap.get?_insert]
    split <;> rfl
  · rw [if_neg hentry]
    have hnone : t.queues.get? k = none := by simpa using hentry
    split
    · rename_i h
      simp [h, queue, hnone]
    · rfl

/-- Entries without a task make no difference. -/
theorem queue_sweep (t : LockTable) (ks : List LockKey) (j : LockKey) :
    (t.sweep ks).queue j = t.queue j := by
  by_cases hempty : t.queue j = []
  · simp only [queue, sweep, OrderedMap.get?_filter] at hempty ⊢
    split
    · rfl
    · exact hempty.symm
  · simp [queue, sweep] at hempty ⊢
    simp [hempty]

theorem queue_leaveAll (t : LockTable) (task : TaskId) {ks : List LockKey} (hks : ks.Nodup)
    (j : LockKey) :
    (t.leaveAll task ks).queue j = if j ∈ ks then (t.queue j).erase task else t.queue j := by
  induction ks generalizing t with
  | nil => rfl
  | cons k ks ih =>
    rw [List.nodup_cons] at hks
    have hrest : (t.leaveAll task (k :: ks)).queue j =
        ((t.leave task k).leaveAll task ks).queue j := rfl
    rw [hrest, ih _ hks.2, queue_leave]
    by_cases hj : j = k
    · subst hj
      simp [hks.1]
    · simp [hj]

/-- A task that releases its keys leaves their queues. -/
theorem queue_release (t : LockTable) (task : TaskId) {ks : List LockKey} (hks : ks.Nodup)
    (j : LockKey) :
    (t.release task ks).queue j = if j ∈ ks then (t.queue j).erase task else t.queue j := by
  rw [release, queue_sweep, queue_leaveAll t task hks]

theorem holds_iff {t : LockTable} {task : TaskId} {k : LockKey} :
    t.holds task k = true ↔ (t.queue k).head? = some task := by
  simp [holds]

/-- A key is held by one task at most. -/
theorem holds_unique {t : LockTable} {task other : TaskId} {k : LockKey}
    (h : t.holds task k = true) (h' : t.holds other k = true) : task = other := by
  rw [holds_iff] at h h'
  exact Option.some_inj.mp (h.symm.trans h')

/-- What a task holds, it holds when any task reaches for a key. -/
theorem holds_reach_of_holds {t : LockTable} {task other : TaskId} {k j : LockKey}
    (h : t.holds other j = true) : (t.reach task k).holds other j = true := by
  rw [holds_iff] at h ⊢
  rw [queue_reach]
  split
  · rename_i hj
    simp [← hj, h]
  · exact h

/-- A task comes to hold no more when another reaches for a key. -/
theorem holds_reach {t : LockTable} {task other : TaskId} (hne : other ≠ task) (k j : LockKey) :
    (t.reach task k).holds other j = t.holds other j := by
  simp only [holds, queue_reach]
  by_cases hj : j = k
  · subst hj
    cases t.queue j with
    | nil => simpa using hne.symm
    | cons first rest => simp
  · simp [hj]

/-- What a task holds, it holds when another leaves. -/
theorem holds_release {t : LockTable} {task other : TaskId} (hne : other ≠ task)
    {ks : List LockKey} (hks : ks.Nodup) {j : LockKey} (h : t.holds other j = true) :
    (t.release task ks).holds other j = true := by
  rw [holds_iff] at h ⊢
  rw [queue_release t task hks]
  split
  · cases hqueue : t.queue j with
    | nil => simp [hqueue] at h
    | cons first rest =>
      have hfirst : first = other := by simpa [hqueue] using h
      simp [hfirst, hne]
  · exact h

end LockTable

theorem nodup_sortedKeys (ks : List LockKey) : (sortedKeys ks).Nodup := by
  unfold sortedKeys
  rw [List.Nodup, List.pairwise_map]
  refine (OrderedMap.sorted _).imp fun {a b} hlt heq => ?_
  rw [heq] at hlt
  exact Nat.lt_irrefl _ hlt

theorem mem_sortedKeys {ks : List LockKey} {k : LockKey} : k ∈ sortedKeys ks ↔ k ∈ ks := by
  have hall : ∀ (ks : List LockKey) (m : OrderedMap LockKey Unit),
      (m.insertAll (ks.map fun k => (k, ()))).contains k = true ↔ k ∈ ks ∨ m.contains k = true := by
    intro ks
    induction ks with
    | nil => exact fun m => by simp [OrderedMap.insertAll]
    | cons j ks ih =>
      intro m
      have hstep := ih (m.insert j ())
      rw [OrderedMap.contains_insert, Bool.or_eq_true, decide_eq_true_eq] at hstep
      rw [List.mem_cons]
      exact hstep.trans (by tauto)
  have hkeys := hall ks ∅
  rw [OrderedMap.contains_empty, OrderedMap.contains_iff_mem] at hkeys
  simpa [sortedKeys] using hkeys

/-- The promoter of an event is one of its keys. -/
theorem Event.promoter_mem_lockKeys (e : Event) : .promoter e.promoterKey ∈ e.lockKeys :=
  mem_sortedKeys.mpr List.mem_cons_self

end Referral
