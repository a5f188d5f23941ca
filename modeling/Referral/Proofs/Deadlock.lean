import Referral.Proofs.Mutexes

/-!
# No two owners and no deadlock

All tasks at a key are in the queue of one mutex, so one of them owns it. A task waits at the last
of the keys that it has come to, so the keys at which the tasks of a chain wait, each for the next,
only rise; such a chain is no circle, and it ends at a task that does not wait. What tasks do with
mutexes is what claims do with a lock table.
-/

namespace Referral

namespace Mutexes

variable {s s' : Mutexes} {task other : TaskId} {k k' : LockKey} {m : MutexId}

/-! ## Owners -/

theorem Sound.queueAt_eq (h : s.Sound) {x : Handle} (hx : x ∈ s.handles task) :
    s.queueAt x.key = s.queue x.mutex := by
  rw [queueAt, h.current x hx]
  rfl

/-- The first in the queue at a key holds it. -/
theorem Sound.holds_iff (h : s.Sound) : s.Holds task k ↔ (s.queueAt k).head? = some task := by
  constructor
  · rintro ⟨x, hx, rfl, -, hfirst⟩
    rwa [h.queueAt_eq hx]
  · intro hfirst
    obtain ⟨m, hm⟩ : ∃ m, s.current k = some m := by
      refine Option.ne_none_iff_exists'.mp fun hnone => ?_
      rw [queueAt, hnone] at hfirst
      cases hfirst
    have hqueue : s.queueAt k = s.queue m := by
      rw [queueAt, hm]
      rfl
    rw [hqueue] at hfirst
    obtain ⟨x, hx, rfl, htrue⟩ := h.queued.mp (List.mem_of_mem_head? hfirst)
    exact ⟨x, hx, h.injective (h.current x hx) hm, htrue, hfirst⟩

/-- No two tasks hold a key. -/
theorem Sound.holds_unique (h : s.Sound) (hk : s.Holds task k) (hk' : s.Holds other k) :
    task = other := by
  rw [h.holds_iff] at hk hk'
  exact Option.some_inj.mp (hk.symm.trans hk')

/-! ## Who waits for whom -/

/-- A key that a task waits for is the last that it has come to. -/
theorem Sound.getLast?_of_waits (h : s.Sound) (hwaits : s.Waits task k) :
    ∃ l x, s.locker? task = some l ∧ l.handles.getLast? = some x ∧ x.key = k ∧ ¬ s.Owns task x := by
  obtain ⟨hs, ks, hl, x, hx, hkey, -, hnot⟩ := hwaits
  obtain ⟨last, hlast⟩ : ∃ last, hs.getLast? = some last :=
    ⟨_, List.getLast?_eq_some_getLast (List.ne_nil_of_mem hx)⟩
  refine ⟨_, x, hl, ?_, hkey, hnot⟩
  rw [← List.dropLast_append_getLast? last hlast] at hx
  rcases List.mem_append.mp hx with hx | hx
  · exact absurd (h.taken hl x hx) hnot
  · rw [hlast, List.mem_singleton.mp hx]

theorem Sound.waits_unique (h : s.Sound) (hk : s.Waits task k) (hk' : s.Waits task k') :
    k = k' := by
  obtain ⟨l, x, hl, hlast, rfl, -⟩ := h.getLast?_of_waits hk
  obtain ⟨l', x', hl', hlast', rfl, -⟩ := h.getLast?_of_waits hk'
  obtain rfl : l = l' := Option.some_inj.mp (hl.symm.trans hl')
  rw [Option.some_inj.mp (hlast.symm.trans hlast')]

/-- It comes after all keys that the task holds. -/
theorem Sound.rank_lt_of_waits (h : s.Sound) (hheld : s.Holds task k) (hwaits : s.Waits task k') :
    rank k < rank k' := by
  obtain ⟨l, x, hl, hlast, rfl, hnot⟩ := h.getLast?_of_waits hwaits
  obtain ⟨y, hy, rfl, howns⟩ := hheld
  have hkeys := (List.pairwise_append.mp (h.sorted hl)).1
  have hsplit := List.dropLast_append_getLast? x hlast
  rw [handles_of_locker? hl, ← hsplit] at hy
  rw [← hsplit, List.map_append, List.pairwise_append] at hkeys
  rcases List.mem_append.mp hy with hy | hy
  · exact hkeys.2.2 _ (List.mem_map_of_mem hy) _ List.mem_cons_self
  · rw [List.mem_singleton.mp hy] at howns
    exact absurd howns hnot

/-- A key that a task waits for is held. -/
theorem Sound.exists_holds (h : s.Sound) (hwaits : s.Waits task k) : ∃ other, s.Holds other k := by
  obtain ⟨hs, ks, hl, x, hx, rfl, htrue, -⟩ := hwaits
  replace hx : x ∈ s.handles task := by rwa [handles_of_locker? hl]
  have hmem : task ∈ s.queueAt x.key := by
    rw [h.queueAt_eq hx]
    exact h.queued.mpr ⟨x, hx, rfl, htrue⟩
  obtain ⟨other, hother⟩ : ∃ other, (s.queueAt x.key).head? = some other :=
    Option.ne_none_iff_exists'.mp fun hnone => by
      rw [List.head?_eq_none_iff.mp hnone] at hmem
      cases hmem
  exact ⟨other, h.holds_iff.mpr hother⟩

/-- A task waits for one other at most. -/
theorem Sound.waitsFor_unique (h : s.Sound) {first second : TaskId} (hfirst : s.WaitsFor task first)
    (hsecond : s.WaitsFor task second) : first = second := by
  obtain ⟨k, hwaits, hholds⟩ := hfirst
  obtain ⟨k', hwaits', hholds'⟩ := hsecond
  rw [h.waits_unique hwaits hwaits'] at hholds
  exact h.holds_unique hholds hholds'

/-- Along a chain of tasks, each of which waits for the next, the keys that they wait for rise. -/
theorem Sound.rank_lt_of_chain (h : s.Sound) (hchain : Relation.TransGen s.WaitsFor task other)
    (hwaits : s.Waits other k') : ∃ k, s.Waits task k ∧ rank k < rank k' := by
  induction hchain generalizing k' with
  | single hfirst =>
    obtain ⟨k, hk, hheld⟩ := hfirst
    exact ⟨k, hk, h.rank_lt_of_waits hheld hwaits⟩
  | tail _ hlast ih =>
    obtain ⟨j, hj, hheld⟩ := hlast
    obtain ⟨k, hk, hlt⟩ := ih hj
    exact ⟨k, hk, hlt.trans (h.rank_lt_of_waits hheld hwaits)⟩

/-- No task waits for itself, be it by way of others. -/
theorem Sound.not_chain_self (h : s.Sound) (task : TaskId) :
    ¬ Relation.TransGen s.WaitsFor task task := by
  intro hchain
  obtain ⟨next, ⟨k, hwaits, -⟩, -⟩ := Relation.TransGen.head'_iff.mp hchain
  obtain ⟨k', hwaits', hlt⟩ := h.rank_lt_of_chain hchain hwaits
  rw [h.waits_unique hwaits hwaits'] at hlt
  exact lt_irrefl _ hlt

/-- Whom a task waits for, and whom that one waits for, and so on: the chain ends at a task that
waits for no key. -/
theorem Sound.exists_chain (h : s.Sound) (hwaits : s.Waits task k) :
    ∃ last k', Relation.TransGen s.WaitsFor task last ∧ ¬ s.Blocked last ∧ s.Holds last k' ∧
      ∃ waiter, s.Waits waiter k' := by
  -- The number of keys that come after the one that is waited for falls along the chain.
  induction hn : Ranked.ranks LockKey - rank k using Nat.strong_induction_on generalizing task k with
  | _ n ih =>
    obtain ⟨other, hholds⟩ := h.exists_holds hwaits
    have hfirst : s.WaitsFor task other := ⟨k, hwaits, hholds⟩
    by_cases hblocked : s.Blocked other
    · obtain ⟨k', hwaits'⟩ := hblocked
      have hlt := h.rank_lt_of_waits hholds hwaits'
      have hbound := Ranked.rank_lt k'
      obtain ⟨last, j, hchain, hrest⟩ := ih _ (by omega) hwaits' rfl
      exact ⟨last, j, .head hfirst hchain, hrest⟩
    · exact ⟨other, k, .single hfirst, hblocked, hholds, task, hwaits⟩

/-! ## Going on -/

/-- A task that takes keys and does not wait owns all its mutexes, but perhaps one that it has just
found. -/
theorem Sound.owns_or_found (h : s.Sound) {hs : List Handle} {ks : List LockKey}
    (hl : s.locker? task = some ⟨hs, .taking ks⟩) (hfree : ¬ s.Blocked task) :
    (∀ x ∈ hs, s.Owns task x) ∨ ∃ init k m, hs = init ++ [⟨k, m, false⟩] := by
  rcases List.eq_nil_or_concat hs with rfl | ⟨init, ⟨k, m, _ | _⟩, rfl⟩
  · exact .inl (List.forall_mem_nil _)
  · exact .inr ⟨init, k, m, List.concat_eq_append⟩
  · rw [List.concat_eq_append] at hl ⊢
    have hinit := h.taken hl
    rw [List.dropLast_concat] at hinit
    refine .inl (List.forall_mem_append.mpr ⟨hinit, ?_⟩)
    rw [List.forall_mem_singleton]
    by_contra hnot
    exact hfree ⟨k, _, _, hl, _, List.mem_append_right _ List.mem_cons_self, rfl, rfl, hnot⟩

/-- A task that does not wait can go on, unless it is through. -/
theorem Sound.exists_advances (h : s.Sound) {l : Locker} (hl : s.locker? task = some l)
    (hthere : l ≠ ⟨[], .leaving []⟩) (hfree : ¬ s.Blocked task) : ∃ s', s.Advances task s' := by
  obtain ⟨hs, mode⟩ := l
  cases mode with
  | taking ks =>
    rcases h.owns_or_found hl hfree with howns | ⟨init, k, m, rfl⟩
    · cases ks with
      | nil => exact ⟨_, .finish hl howns⟩
      | cons k ks =>
        cases hentry : s.current k with
        | none => exact ⟨_, .make hl howns hentry⟩
        | some m => exact ⟨_, .find hl howns hentry⟩
    · exact ⟨_, .join hl⟩
  | holding => exact ⟨_, .drop hl⟩
  | leaving ks =>
    cases hs with
    | nil =>
      cases ks with
      | nil => exact absurd rfl hthere
      | cons k ks =>
        by_cases hidle : ∃ m, s.current k = some m ∧ s.Idle m
        · obtain ⟨m, hentry, hidle⟩ := hidle
          exact ⟨_, .remove hl hentry hidle⟩
        · exact ⟨_, .keep hl fun m hentry hm => hidle ⟨m, hentry, hm⟩⟩
    | cons x hs =>
      obtain ⟨k, m, _ | _⟩ := x
      · exact ⟨_, @Advances.forget task s [] hs k m ks hl⟩
      · exact ⟨_, @Advances.unlock task s [] hs k m ks hl⟩

/-- A task that waits for a key cannot. -/
theorem Sound.not_blocked_of_advances (h : s.Sound) (hstep : s.Advances task s') :
    ¬ s.Blocked task := by
  rintro ⟨k, hs, ks, hl, x, hx, -, htrue, hnot⟩
  cases hstep with
  | find hl' hheld _ | make hl' hheld _ | finish hl' hheld =>
    cases hl.symm.trans hl'
    exact hnot (hheld x hx)
  | @join init k' ks' m hl' =>
    cases hl.symm.trans hl'
    have hinit := h.taken hl
    rw [List.dropLast_concat] at hinit
    rcases List.mem_append.mp hx with hx | hx
    · exact hnot (hinit x hx)
    · rw [List.mem_singleton.mp hx] at htrue
      cases htrue
  | arrive _ hl' | drop hl' | unlock hl' | forget hl' | remove hl' _ _ | keep hl' _ =>
    cases hl.symm.trans hl'

/-! ## The lock table -/

end Mutexes

/-- What happens to a lock table: a claim reaches for its next key if it does not wait, a task leaves
a queue, or entries go at which there is no task. -/
inductive LockTable.Moves (t : LockTable) : LockTable → Prop
  | advance (c : Claim) : Moves t (c.advance t).2
  | leave (task : TaskId) (k : LockKey) : Moves t (t.leave task k)
  | sweep (ks : List LockKey) : Moves t (t.sweep ks)

namespace Mutexes

variable {s s' : Mutexes} {task other : TaskId} {k k' : LockKey} {m : MutexId} {t : LockTable}

/-- The queues of the table are those at the mutexes in the entries. -/
def Depicts (t : LockTable) (s : Mutexes) : Prop := ∀ k, t.queue k = s.queueAt k

theorem Depicts.holds_iff (ht : Depicts t s) (h : s.Sound) :
    t.holds task k = true ↔ s.Holds task k := by
  rw [LockTable.holds_iff, ht k, h.holds_iff]

/-- A new mutex has no tasks, like a key without an entry. -/
theorem Sound.queueAt_make (h : s.Sound) (hentry : s.current k = none) (j : LockKey) :
    (s.make k).queueAt j = s.queueAt j := by
  rw [queueAt, queueAt, current_make]
  split
  · rename_i heq
    rw [heq, hentry]
    exact h.queue_made
  · rfl

/-- Neither has one that no task has a handle on. -/
theorem Sound.queueAt_remove (h : s.Sound) (hentry : s.current k = some m) (hidle : s.Idle m)
    (j : LockKey) : (s.remove k).queueAt j = s.queueAt j := by
  have hqueue : s.queue m = [] := List.eq_nil_iff_forall_not_mem.mpr fun task hmem => by
    obtain ⟨x, hx, heq, -⟩ := h.queued.mp hmem
    exact hidle task x hx heq
  rw [queueAt, queueAt, current_remove]
  split
  · rename_i heq
    rw [heq, hentry]
    exact hqueue.symm
  · rfl

/-- A change of the queue of a mutex is seen at the key in whose entry it is. -/
theorem Sound.queueAt_update (h : s.Sound) (hentry : s.current k = some m) (tasks : List TaskId)
    (j : LockKey) : { s with queue := Function.update s.queue m tasks }.queueAt j =
      if j = k then tasks else s.queueAt j := by
  rw [queueAt, queueAt]
  split
  · rename_i heq
    rw [heq, hentry]
    exact Function.update_self ..
  · rename_i hne
    cases hj : s.current j with
    | none => rfl
    | some m' =>
      have hother : m' ≠ m := by
        rintro rfl
        exact hne (h.injective hj hentry)
      exact Function.update_of_ne hother ..

/-- Each step of a task is no move of the table or one. -/
theorem Sound.moves_of_advances (h : s.Sound) (ht : Depicts t s) (hstep : s.Advances task s') :
    ∃ t', Relation.ReflTransGen LockTable.Moves t t' ∧ Depicts t' s' := by
  cases hstep with
  | arrive _ _ | find _ _ _ | finish _ _ | drop _ | forget _ | keep _ _ => exact ⟨t, .refl, ht⟩
  | make hl hheld hentry => exact ⟨t, .refl, fun j => (ht j).trans (h.queueAt_make hentry j).symm⟩
  | @join hs k ks m hl =>
    have hentry : s.current k = some m := h.current_of_locker? hl ⟨k, m, false⟩ (by simp)
    have hqueue : s.queueAt k = s.queue m := by rw [queueAt, hentry]; rfl
    -- The claim holds all keys that it has reached, so it reaches for the one that was found.
    let c : Claim := ⟨task, hs.map (·.key), k :: ks⟩
    have hfree : c.isUnblocked t = true := by
      have hheld : ∀ j ∈ c.reached, t.holds task j = true := by
        intro j hj
        obtain ⟨x, hx, rfl⟩ := List.mem_map.mp hj
        rw [ht.holds_iff h]
        exact ⟨x, by rw [handles_of_locker? hl]; exact List.mem_append_left _ hx, rfl,
          h.taken hl x (by rwa [List.dropLast_concat])⟩
      rw [Claim.isUnblocked]
      cases hlast : c.reached.getLast? with
      | none => rfl
      | some j => exact hheld j (List.mem_of_getLast? hlast)
    have hmove : t.Moves (t.reach task k) := by
      have hadvance := LockTable.Moves.advance (t := t) c
      simp only [Claim.advance, hfree, if_true, c] at hadvance
      exact hadvance
    refine ⟨t.reach task k, .single hmove, fun j => ?_⟩
    rw [t.queue_reach, ht k, ht j, hqueue]
    exact (h.queueAt_update hentry (s.queue m ++ [task]) j).symm
  | @unlock before after k m ks hl =>
    have hentry : s.current k = some m := h.current_of_locker? hl ⟨k, m, true⟩ (by simp)
    have hqueue : s.queueAt k = s.queue m := by rw [queueAt, hentry]; rfl
    refine ⟨t.leave task k, .single (.leave task k), fun j => ?_⟩
    rw [t.queue_leave, ht k, ht j, hqueue]
    exact (h.queueAt_update hentry ((s.queue m).erase task) j).symm
  | @remove k ks m hl hentry hidle =>
    refine ⟨t.sweep [k], .single (.sweep [k]), fun j => ?_⟩
    rw [t.queue_sweep, ht j]
    exact (h.queueAt_remove hentry hidle j).symm

/-- The mutexes of a reachable state are depicted by a table that claims, leaves and sweeps lead
to. -/
theorem Reachable.exists_depicts (h : Reachable s) :
    ∃ t, Relation.ReflTransGen LockTable.Moves .empty t ∧ Depicts t s := by
  induction h with
  | refl => exact ⟨.empty, .refl, fun _ => rfl⟩
  | tail hreach hstep ih =>
    obtain ⟨t, hmoves, ht⟩ := ih
    have hsound := Reachable.sound hreach
    cases hstep with
    | advance hadvance =>
      obtain ⟨t', hmore, ht'⟩ := hsound.moves_of_advances ht hadvance
      exact ⟨t', hmoves.trans hmore, ht'⟩
    | cancel _ => exact ⟨t, hmoves, ht⟩

/-! ## All of it -/

/-- No key has two holders, and no task waits in vain. -/
structure Safe (s : Mutexes) : Prop where
  exclusive : ∀ k task other, s.Holds task k → s.Holds other k → task = other
  /-- Tasks with all their keys hold every one of them. -/
  guarded : ∀ task hs, s.locker? task = some ⟨hs, .holding⟩ → ∀ x ∈ hs, s.Holds task x.key
  /-- Exactly the tasks that wait for a key cannot go on, those that are through apart. -/
  blocked_iff : ∀ task l, s.locker? task = some l → l ≠ ⟨[], .leaving []⟩ →
    (s.Blocked task ↔ ¬ ∃ s', s.Advances task s')
  functional : ∀ task first second, s.WaitsFor task first → s.WaitsFor task second → first = second
  acyclic : ∀ task, ¬ Relation.TransGen s.WaitsFor task task
  /-- The chain from a task that waits ends at one that can go on and holds a key that is waited
  for. -/
  chains : ∀ task, s.Blocked task → ∃ last k, Relation.TransGen s.WaitsFor task last ∧
    ¬ s.Blocked last ∧ (∃ s', s.Advances last s') ∧ s.Holds last k ∧ ∃ waiter, s.Waits waiter k
  /-- What tasks hold is what a lock table says that claims lead to. -/
  table : ∃ t, Relation.ReflTransGen LockTable.Moves .empty t ∧
    ∀ task k, t.holds task k = true ↔ s.Holds task k

/-- Whatever keys tasks claim, and in whatever order they go on or are cancelled. -/
theorem safe_of_reachable (h : Reachable s) : s.Safe where
  exclusive _ _ _ := h.sound.holds_unique
  guarded task hs hl x hx :=
    ⟨x, by rwa [handles_of_locker? hl], rfl, h.sound.holding hl x hx⟩
  blocked_iff task l hl hthere := by
    constructor
    · rintro hblocked ⟨s', hstep⟩
      exact h.sound.not_blocked_of_advances hstep hblocked
    · intro hstuck
      by_contra hfree
      exact hstuck (h.sound.exists_advances hl hthere hfree)
  functional _ _ _ := h.sound.waitsFor_unique
  acyclic := h.sound.not_chain_self
  chains task := by
    rintro ⟨k, hwaits⟩
    obtain ⟨last, k', hchain, hfree, hholds, hwaiter⟩ := h.sound.exists_chain hwaits
    refine ⟨last, k', hchain, hfree, ?_, hholds, hwaiter⟩
    obtain ⟨x, hx, -⟩ := hholds
    cases hl : s.locker? last with
    | none =>
      rw [handles, hl] at hx
      cases hx
    | some l =>
      refine h.sound.exists_advances hl ?_ hfree
      rintro rfl
      rw [handles_of_locker? hl] at hx
      cases hx
  table := by
    obtain ⟨t, hmoves, ht⟩ := h.exists_depicts
    exact ⟨t, hmoves, fun _ _ => ht.holds_iff h.sound⟩

/-- One task holds the first of two keys, and another waits for it. -/
theorem contended_safe : ∃ s : Mutexes, Reachable s ∧ s.WaitsFor 1 0 ∧ s.Safe := by
  let k : LockKey := .link ⟨1⟩
  let k' : LockKey := .link ⟨2⟩
  let s₁ := empty.become 0 ⟨[], .taking (sortedKeys [k', k, k'])⟩
  let s₂ := (s₁.make k).become 0 ⟨[⟨k, 0, false⟩], .taking [k']⟩
  let s₃ := (s₂.enqueue 0 0).become 0 ⟨[⟨k, 0, true⟩], .taking [k']⟩
  let s₄ := s₃.become 1 ⟨[], .taking (sortedKeys [k, k])⟩
  let s₅ := s₄.become 1 ⟨[⟨k, 0, false⟩], .taking []⟩
  let s₆ := (s₅.enqueue 1 0).become 1 ⟨[⟨k, 0, true⟩], .taking []⟩
  have h₁ : empty.Step s₁ := .advance (.arrive _ rfl)
  have h₂ : s₁.Step s₂ := .advance (@Advances.make 0 s₁ [] k [k'] rfl (List.forall_mem_nil _) rfl)
  have h₃ : s₂.Step s₃ := .advance (@Advances.join 0 s₂ [] k [k'] 0 rfl)
  have h₄ : s₃.Step s₄ := .advance (.arrive _ rfl)
  have h₅ : s₄.Step s₅ := .advance (@Advances.find 1 s₄ [] k [] 0 rfl (List.forall_mem_nil _) rfl)
  have h₆ : s₅.Step s₆ := .advance (@Advances.join 1 s₅ [] k [] 0 rfl)
  have hreach : Reachable s₆ := (((((Relation.ReflTransGen.single h₁).tail h₂).tail h₃).tail
    h₄).tail h₅).tail h₆
  have hwaits : s₆.Waits 1 k :=
    ⟨[⟨k, 0, true⟩], [], rfl, _, List.mem_cons_self, rfl, rfl, fun howns => by cases howns.2⟩
  have hholds : s₆.Holds 0 k := ⟨⟨k, 0, true⟩, List.mem_cons_self, rfl, rfl, rfl⟩
  exact ⟨s₆, hreach, ⟨k, hwaits, hholds⟩, safe_of_reachable hreach⟩

end Mutexes

end Referral
