import Referral.Proofs.Deadlock

/-!
# Entries of the lock table

An entry is made when a task first comes to a key. A task that held all its keys looks after their
entries when it has given them up, and removes those that nobody uses. A task that is cancelled on
its way to its keys does not, so an entry may stay behind at a key that it had come to, though no
task is there any more. At all other keys there is an entry only as long as a task uses it.
-/

namespace Referral

/-- The keys whose entries a task is going to look after. -/
def Locker.tends (l : Locker) : List LockKey :=
  match l.mode with
  | .taking _ | .holding => l.handles.map (·.key)
  | .leaving ks => ks

namespace Mutexes

variable {s s' s₁ : Mutexes} {task : TaskId} {k : LockKey} {left left' : List LockKey}

/-! ## Who looks after an entry -/

/-- What tasks may do, with the keys that those came to that were cancelled. -/
inductive Runs : List LockKey → Mutexes → Prop
  | start : Runs [] empty
  | advance {left : List LockKey} {s s' : Mutexes} {task : TaskId} (h : Runs left s)
      (step : s.Advances task s') : Runs left s'
  | cancel {left : List LockKey} {s : Mutexes} {task : TaskId} {hs : List Handle}
      {ks : List LockKey} (h : Runs left s) (hl : s.locker? task = some ⟨hs, .taking ks⟩) :
      Runs (left ++ hs.map (·.key)) (s.become task ⟨hs, .leaving []⟩)

theorem Runs.reachable (h : Runs left s) : Reachable s := by
  induction h with
  | start => exact .refl
  | advance _ step ih => exact ih.tail (.advance step)
  | cancel _ hl ih => exact ih.tail (.cancel hl)

/-- Whatever tasks do is such a run. -/
theorem Reachable.exists_runs (h : Reachable s) : ∃ left, Runs left s := by
  induction h with
  | refl => exact ⟨[], .start⟩
  | tail _ hstep ih =>
    obtain ⟨left, hrun⟩ := ih
    cases hstep with
    | advance step => exact ⟨left, hrun.advance step⟩
    | cancel hl => exact ⟨_, hrun.cancel hl⟩

/-- Some task is going to look after the entry of a key. -/
def Tended (s : Mutexes) (k : LockKey) : Prop :=
  ∃ task l, s.locker? task = some l ∧ k ∈ l.tends

/-- All entries are looked after, but those that cancelled tasks left behind. -/
structure Tidy (left : List LockKey) (s : Mutexes) : Prop where
  entries : ∀ k, s.current k ≠ none → k ∈ left ∨ s.Tended k
  handles : ∀ task l, s.locker? task = some l → ∀ x ∈ l.handles, x.key ∈ left ∨ x.key ∈ l.tends

theorem tended_become {l : Locker} (hk : k ∈ l.tends) : (s.become task l).Tended k :=
  ⟨task, l, by simp, hk⟩

namespace Tidy

theorem empty : Tidy [] Mutexes.empty where
  entries _ h := (h rfl).elim
  handles _ _ h := by cases h

/-- A task does something else. What it looked after before is looked after still, and so are the
entries that are new. -/
theorem become (h : s.Tidy left) {l' : Locker} (hlocker : s₁.locker? = s.locker?)
    (hcurrent : ∀ j, s₁.current j ≠ none → s.current j ≠ none ∨ j ∈ l'.tends)
    (hleft : left ⊆ left')
    (htends : ∀ l, s.locker? task = some l → ∀ j ∈ l.tends, s₁.current j ≠ none →
      j ∈ left' ∨ (s₁.become task l').Tended j)
    (hhandles : ∀ x ∈ l'.handles, x.key ∈ left' ∨ x.key ∈ l'.tends) :
    (s₁.become task l').Tidy left' where
  entries j hj := by
    rcases hcurrent j hj with hold | hnew
    · rcases h.entries j hold with hmem | ⟨t, l, hl, hmem⟩
      · exact .inl (hleft hmem)
      by_cases ht : t = task
      · exact htends l (ht ▸ hl) j hmem hj
      · exact .inr ⟨t, l, by rwa [locker?_become, if_neg ht, hlocker], hmem⟩
    · exact .inr (tended_become hnew)
  handles t l hl x hx := by
    rw [locker?_become] at hl
    split at hl
    · cases hl
      exact hhandles x hx
    · rw [hlocker] at hl
      exact (h.handles t l hl x hx).imp_left fun hmem => hleft hmem

/-- A task whose keys stay its own looks after the same entries. -/
theorem become_of_subset (h : s.Tidy left) {l l' : Locker} (hl : s.locker? task = some l)
    (hlocker : s₁.locker? = s.locker?) (hcurrent : s₁.current = s.current)
    (htends : l.tends ⊆ l'.tends) (hhandles : ∀ x ∈ l'.handles, x.key ∈ left ∨ x.key ∈ l'.tends) :
    (s₁.become task l').Tidy left := by
  refine h.become hlocker (fun j hj => .inl (by rwa [← hcurrent])) (List.Subset.refl _) ?_ hhandles
  intro l₁ hl₁ j hj _
  obtain rfl : l = l₁ := Option.some_inj.mp (hl.symm.trans hl₁)
  exact .inr (tended_become (htends hj))

theorem advances (h : s.Tidy left) (hsound : s.Sound) (hstep : s.Advances task s') :
    s'.Tidy left := by
  cases hstep with
  | arrive ks hnone =>
    refine h.become rfl (fun _ => .inl) (List.Subset.refl _) ?_ (List.forall_mem_nil _)
    intro l hl
    rw [hnone] at hl
    cases hl
  | @find hs k ks m hl hheld hentry =>
    refine h.become_of_subset hl rfl rfl ?_ fun x hx => .inr (List.mem_map_of_mem hx)
    exact List.map_subset _ (List.subset_append_left _ _)
  | @make hs k ks hl hheld hentry =>
    refine h.become rfl (fun j hj => ?_) (List.Subset.refl _) ?_
      fun x hx => .inr (List.mem_map_of_mem hx)
    · by_cases hjk : j = k
      · exact .inr (by simp [Locker.tends, hjk])
      · exact .inl (by rwa [current_make, if_neg hjk] at hj)
    · intro l hl₁ j hj _
      obtain rfl := Option.some_inj.mp (hl.symm.trans hl₁)
      exact .inr (tended_become (List.map_subset _ (List.subset_append_left _ _) hj))
  | @join hs k ks m hl =>
    refine h.become_of_subset hl rfl rfl (by simp [Locker.tends])
      fun x hx => .inr (List.mem_map_of_mem hx)
  | finish hl | drop hl =>
    refine h.become_of_subset hl rfl rfl ?_ fun x hx => .inr (List.mem_map_of_mem hx)
    exact List.Subset.refl _
  | @unlock before after k m ks hl =>
    have hold := h.handles task _ hl
    refine h.become_of_subset hl rfl rfl (List.Subset.refl _) ?_
    simp only [List.forall_mem_append, List.forall_mem_cons] at hold ⊢
    exact hold
  | @forget before after k m ks hl =>
    refine h.become_of_subset hl rfl rfl (List.Subset.refl _) fun x hx => ?_
    refine h.handles task _ hl x ?_
    rcases List.mem_append.mp hx with hx | hx <;> simp [hx]
  | @remove k ks m hl hentry hidle =>
    refine h.become rfl (fun j hj => .inl ?_) (List.Subset.refl _) ?_ (List.forall_mem_nil _)
    · rw [current_remove] at hj
      split at hj
      · exact (hj rfl).elim
      · exact hj
    · intro l hl₁ j hj hcurrent
      obtain rfl := Option.some_inj.mp (hl.symm.trans hl₁)
      rcases List.mem_cons.mp hj with rfl | hj
      · exact (hcurrent (by simp)).elim
      · exact .inr (tended_become hj)
  | @keep k ks hl hbusy =>
    refine h.become rfl (fun _ => .inl) (List.Subset.refl _) ?_ (List.forall_mem_nil _)
    intro l hl₁ j hj hcurrent
    obtain rfl := Option.some_inj.mp (hl.symm.trans hl₁)
    rcases List.mem_cons.mp hj with rfl | hj
    · -- some other task has a handle on this mutex
      obtain ⟨m, hm⟩ := Option.ne_none_iff_exists'.mp hcurrent
      obtain ⟨other, x, hx, hmutex⟩ : ∃ other, ∃ x ∈ s.handles other, x.mutex = m := by
        by_contra hnone
        exact hbusy m hm fun other x hx heq => hnone ⟨other, x, hx, heq⟩
      have hkey : x.key = j := hsound.injective (hsound.current x hx) (hmutex ▸ hm)
      cases hother : s.locker? other with
      | none =>
        rw [Mutexes.handles, hother] at hx
        cases hx
      | some l =>
        rw [handles_of_locker? hother] at hx
        have hne : other ≠ task := by
          rintro rfl
          obtain rfl := Option.some_inj.mp (hl.symm.trans hother)
          cases hx
        rcases h.handles other l hother x hx with hmem | hmem
        · exact .inl (hkey ▸ hmem)
        · exact .inr ⟨other, l, by rw [locker?_become, if_neg hne, hother], hkey ▸ hmem⟩
    · exact .inr (tended_become hj)

end Tidy

theorem Runs.tidy (h : Runs left s) : s.Tidy left := by
  induction h with
  | start => exact .empty
  | advance hrun step ih => exact ih.advances hrun.reachable.sound step
  | cancel _ hl ih =>
    refine ih.become rfl (fun _ => .inl) (List.subset_append_left _ _) ?_
      fun x hx => .inl (List.mem_append_right _ (List.mem_map_of_mem hx))
    intro l hl₁ j hj _
    obtain rfl := Option.some_inj.mp (hl.symm.trans hl₁)
    exact .inl (List.mem_append_right _ hj)

/-! ## Tasks at rest -/

/-- Every task holds all its keys, waits for one, or is through. -/
def AtRest (s : Mutexes) : Prop :=
  ∀ task l, s.locker? task = some l → l = ⟨[], .leaving []⟩ ∨ l.mode = .holding ∨ s.Blocked task

/-- Some task holds the key or waits for it. -/
def InUse (s : Mutexes) (k : LockKey) : Prop := ∃ task, s.Holds task k ∨ s.Waits task k

/-- A task that waits looks after the keys that it holds and the one that it waits for. -/
theorem Sound.inUse_of_blocked (h : s.Sound) {l : Locker} (hl : s.locker? task = some l)
    (hblocked : s.Blocked task) (hk : k ∈ l.tends) : s.InUse k := by
  obtain ⟨k', hwaits⟩ := hblocked
  obtain ⟨l', last, hl', hlast, rfl, -⟩ := h.getLast?_of_waits hwaits
  obtain rfl : l = l' := Option.some_inj.mp (hl.symm.trans hl')
  obtain ⟨hs, ks, hlocker, -⟩ := id hwaits
  obtain rfl : l = ⟨hs, .taking ks⟩ := Option.some_inj.mp (hl.symm.trans hlocker)
  obtain ⟨x, hx, rfl⟩ := List.mem_map.mp hk
  have hsplit := List.dropLast_append_getLast? last hlast
  rw [← hsplit] at hx
  rcases List.mem_append.mp hx with hx | hx
  · refine ⟨task, .inl ⟨x, ?_, rfl, h.taken hlocker x hx⟩⟩
    rw [handles_of_locker? hlocker]
    exact List.mem_of_mem_dropLast hx
  · rw [List.mem_singleton.mp hx]
    exact ⟨task, .inr hwaits⟩

/-- When all tasks have come to rest, an entry is at a key in use, or it was left behind. -/
theorem Runs.entry_of_atRest (h : Runs left s) (hrest : s.AtRest) (hk : s.current k ≠ none) :
    k ∈ left ∨ s.InUse k := by
  have hsound := h.reachable.sound
  rcases h.tidy.entries k hk with hleft | ⟨task, l, hl, htends⟩
  · exact .inl hleft
  · refine .inr ?_
    rcases hrest task l hl with rfl | hmode | hblocked
    · cases htends
    · obtain ⟨hs, mode⟩ := l
      obtain rfl : mode = .holding := hmode
      obtain ⟨x, hx, rfl⟩ := List.mem_map.mp htends
      exact ⟨task, .inl ⟨x, by rwa [handles_of_locker? hl], rfl, hsound.holding hl x hx⟩⟩
    · exact hsound.inUse_of_blocked hl hblocked htends

/-- Any key may keep its entry for good: the task that held it leaves the entry to one that waits,
and this one is cancelled before it gets to hold the key. -/
theorem exists_entry_left_behind (k : LockKey) :
    ∃ s, Runs [k] s ∧ s.AtRest ∧ s.current k ≠ none ∧ ∀ j, ¬ s.InUse j := by
  let s₁ := empty.become 0 ⟨[], .taking (sortedKeys [k])⟩
  let s₂ := (s₁.make k).become 0 ⟨[⟨k, 0, false⟩], .taking []⟩
  let s₃ := (s₂.enqueue 0 0).become 0 ⟨[⟨k, 0, true⟩], .taking []⟩
  let s₄ := s₃.become 0 ⟨[⟨k, 0, true⟩], .holding⟩
  let s₅ := s₄.become 1 ⟨[], .taking (sortedKeys [k])⟩
  let s₆ := s₅.become 1 ⟨[⟨k, 0, false⟩], .taking []⟩
  let s₇ := (s₆.enqueue 1 0).become 1 ⟨[⟨k, 0, true⟩], .taking []⟩
  let s₈ := s₇.become 0 ⟨[⟨k, 0, true⟩], .leaving [k]⟩
  let s₉ := (s₈.dequeue 0 0).become 0 ⟨[⟨k, 0, false⟩], .leaving [k]⟩
  let s₁₀ := s₉.become 0 ⟨[], .leaving [k]⟩
  let s₁₁ := s₁₀.become 0 ⟨[], .leaving []⟩
  let s₁₂ := s₁₁.become 1 ⟨[⟨k, 0, true⟩], .leaving []⟩
  let s₁₃ := (s₁₂.dequeue 1 0).become 1 ⟨[⟨k, 0, false⟩], .leaving []⟩
  let s₁₄ := s₁₃.become 1 ⟨[], .leaving []⟩
  have hentry : s₁.current k = none := rfl
  have hmade : s₄.current k = some 0 := current_make s₁ k k ▸ if_pos rfl
  have hbusy : ¬ s₁₀.Idle 0 := fun hidle => hidle 1 ⟨k, 0, true⟩ List.mem_cons_self rfl
  have h₁ : Runs [] s₁ := .advance .start (.arrive [k] rfl)
  have h₂ : Runs [] s₂ := h₁.advance (@Advances.make 0 s₁ [] k [] rfl (List.forall_mem_nil _) hentry)
  have h₃ : Runs [] s₃ := h₂.advance (@Advances.join 0 s₂ [] k [] 0 rfl)
  have h₄ : Runs [] s₄ := h₃.advance (@Advances.finish 0 s₃ [⟨k, 0, true⟩] rfl
    (List.forall_mem_singleton.mpr ⟨rfl, rfl⟩))
  have h₅ : Runs [] s₅ := h₄.advance (@Advances.arrive 1 s₄ [k] rfl)
  have h₆ : Runs [] s₆ :=
    h₅.advance (@Advances.find 1 s₅ [] k [] 0 rfl (List.forall_mem_nil _) hmade)
  have h₇ : Runs [] s₇ := h₆.advance (@Advances.join 1 s₆ [] k [] 0 rfl)
  have h₈ : Runs [] s₈ := h₇.advance (@Advances.drop 0 s₇ [⟨k, 0, true⟩] rfl)
  have h₉ : Runs [] s₉ := h₈.advance (@Advances.unlock 0 s₈ [] [] k 0 [k] rfl)
  have h₁₀ : Runs [] s₁₀ := h₉.advance (@Advances.forget 0 s₉ [] [] k 0 [k] rfl)
  have h₁₁ : Runs [] s₁₁ := h₁₀.advance (@Advances.keep 0 s₁₀ k [] rfl fun m hm =>
    Option.some_inj.mp (hmade.symm.trans hm) ▸ hbusy)
  have h₁₂ : Runs [k] s₁₂ := @Runs.cancel [] s₁₁ 1 [⟨k, 0, true⟩] [] h₁₁ rfl
  have h₁₃ : Runs [k] s₁₃ := h₁₂.advance (@Advances.unlock 1 s₁₂ [] [] k 0 [] rfl)
  have h₁₄ : Runs [k] s₁₄ := h₁₃.advance (@Advances.forget 1 s₁₃ [] [] k 0 [] rfl)
  have hthrough : ∀ task l, s₁₄.locker? task = some l → l = ⟨[], .leaving []⟩ := by
    intro task l hl
    simp only [s₁₄, s₁₃, s₁₂, s₁₁, s₁₀, s₉, s₈, s₇, s₆, s₅, s₄, s₃, s₂, s₁, locker?_become,
      locker?_make, locker?_enqueue, locker?_dequeue] at hl
    split at hl
    · exact (Option.some_inj.mp hl).symm
    split at hl
    · exact (Option.some_inj.mp hl).symm
    · cases hl
  refine ⟨s₁₄, h₁₄, fun task l hl => .inl (hthrough task l hl), fun hnone => ?_, ?_⟩
  · cases hmade.symm.trans hnone
  · rintro j ⟨task, ⟨x, hx, -⟩ | ⟨hs, ks, hl, -⟩⟩
    · cases hl : s₁₄.locker? task with
      | none =>
        rw [handles, hl] at hx
        cases hx
      | some l =>
        rw [handles_of_locker? hl, hthrough task l hl] at hx
        cases hx
    · cases hthrough task _ hl

end Mutexes

/-! ## Claims on the lock table -/

namespace LockTable

/-- The keys that have an entry. -/
def hasEntry (t : LockTable) (k : LockKey) : Bool := t.queues.contains k

variable (t : LockTable) (task : TaskId) (ks : List LockKey) (k j : LockKey)

@[simp] theorem hasEntry_reach :
    (t.reach task k).hasEntry j = (decide (j = k) || t.hasEntry j) := by
  simp [hasEntry, reach]

@[simp] theorem hasEntry_leave : (t.leave task k).hasEntry j = t.hasEntry j := by
  unfold leave
  split
  · rename_i hentry
    by_cases hj : j = k
    · simp [hasEntry, OrderedMap.contains_eq_isSome, hj, hentry]
    · simp [hasEntry, hj]
  · rfl

@[simp] theorem hasEntry_leaveAll : (t.leaveAll task ks).hasEntry j = t.hasEntry j := by
  induction ks generalizing t with
  | nil => rfl
  | cons k ks ih => exact (ih _).trans (t.hasEntry_leave task k j)

theorem hasEntry_sweep : (t.sweep ks).hasEntry j = true ↔
    t.hasEntry j = true ∧ ¬ (j ∈ ks ∧ t.queue j = []) := by
  simp only [hasEntry, sweep, OrderedMap.contains_eq_isSome, OrderedMap.get?_filter]
  by_cases hj : j ∈ ks <;> by_cases hqueue : t.queue j = [] <;> simp [hj, hqueue]

end LockTable

namespace Crowd

variable {c : Crowd} {left : List LockKey} {task other : TaskId} {k : LockKey}

/-- Tasks that come and go, with the keys that those had reached that were cancelled before they
held all of theirs. -/
inductive Runs : List LockKey → Crowd → Prop
  | start : Runs [] empty
  | enter {left : List LockKey} {c : Crowd} (h : Runs left c) (task : TaskId)
      (ks : List LockKey) : Runs left (c.enter task ks)
  | leave {left : List LockKey} {c : Crowd} {task : TaskId} {claim : Claim} (h : Runs left c)
      (hclaim : c.claim? task = some claim) :
      Runs (if claim.isComplete c.table then left else left ++ claim.reached) (c.leave task)

/-- The tasks in the queues have claims on these keys, and an entry without a task was left
behind. -/
structure Tidy (left : List LockKey) (c : Crowd) : Prop where
  queued : ∀ k, ∀ task ∈ c.table.queue k, ∃ claim, c.claim? task = some claim ∧ k ∈ claim.reached
  nodup : ∀ k, (c.table.queue k).Nodup
  keys : ∀ task claim, c.claim? task = some claim → (claim.reached ++ claim.ahead).Nodup
  entries : ∀ k, c.table.hasEntry k = true → c.table.queue k = [] → k ∈ left

theorem task_of_claim? {claim : Claim} (h : c.claim? task = some claim) : claim.task = task := by
  simpa using List.find?_some h

/-- The crowd with another claim of a task. -/
def replace (c : Crowd) (task : TaskId) (claim : Claim) (t : LockTable) : Crowd :=
  ⟨t, c.claims.map fun x => if x.task = task then claim else x⟩

theorem claim?_replace (c : Crowd) (claim : Claim) {old : Claim} (hold : c.claim? task = some old)
    (hclaim : claim.task = task) (t : LockTable) (other : TaskId) :
    (c.replace task claim t).claim? other =
      if other = task then some claim else c.claim? other := by
  have hfind : (c.replace task claim t).claim? other =
      (c.claim? other).map fun x => if x.task = task then claim else x := by
    simp only [claim?, replace, List.find?_map, Function.comp_def]
    congr 2
    funext x
    by_cases hx : x.task = task <;> simp [hx, hclaim]
  rw [hfind]
  split
  · rename_i heq
    rw [heq, hold, Option.map_some, if_pos (task_of_claim? hold)]
  · rename_i hne
    cases hother : c.claim? other with
    | none => rfl
    | some x =>
      have hx : x.task ≠ task := fun h => hne ((task_of_claim? hother).symm.trans h)
      rw [Option.map_some, if_neg hx]

namespace Tidy

theorem empty : Tidy [] Crowd.empty where
  queued _ _ h := by cases h
  nodup _ := .nil
  keys _ _ h := by cases h
  entries _ h := by cases h

/-- Only the table and who claims what matter. -/
theorem congr (h : c.Tidy left) {c' : Crowd} (htable : c'.table = c.table)
    (hclaim : ∀ task, c'.claim? task = c.claim? task) : c'.Tidy left where
  queued k task hmem := by
    rw [hclaim]
    exact h.queued k task (htable ▸ hmem)
  nodup := htable ▸ h.nodup
  keys task claim hfound := h.keys task claim ((hclaim task).symm.trans hfound)
  entries := htable ▸ h.entries

/-- A task reaches for its next key. -/
theorem reach {old : Claim} (hold : c.claim? task = some old) {reached ks : List LockKey}
    {t : LockTable} (h : (c.replace task ⟨task, reached, k :: ks⟩ t).Tidy left) :
    (c.replace task ⟨task, reached ++ [k], ks⟩ (t.reach task k)).Tidy left := by
  have hbefore := c.claim?_replace ⟨task, reached, k :: ks⟩ hold rfl t
  have hafter := c.claim?_replace ⟨task, reached ++ [k], ks⟩ hold rfl (t.reach task k)
  have hown : (c.replace task ⟨task, reached, k :: ks⟩ t).claim? task =
      some ⟨task, reached, k :: ks⟩ := (hbefore task).trans (if_pos rfl)
  have hkeys : (reached ++ k :: ks).Nodup := h.keys task _ hown
  have hnew : task ∉ t.queue k := by
    intro hmem
    obtain ⟨claim, hclaim, hreached⟩ := h.queued k task hmem
    obtain rfl := Option.some_inj.mp (hown.symm.trans hclaim)
    exact (List.nodup_append.mp hkeys).2.2 k hreached k List.mem_cons_self rfl
  have hstays : ∀ j, ∀ other ∈ t.queue j, ∃ claim,
      (c.replace task ⟨task, reached ++ [k], ks⟩ (t.reach task k)).claim? other = some claim ∧
        j ∈ claim.reached := by
    intro j other hmem
    obtain ⟨claim, hclaim, hreached⟩ := h.queued j other hmem
    rw [hbefore] at hclaim
    rw [hafter]
    split
    · rename_i heq
      rw [if_pos heq] at hclaim
      cases hclaim
      exact ⟨_, rfl, List.mem_append_left _ hreached⟩
    · rename_i hne
      rw [if_neg hne] at hclaim
      exact ⟨claim, hclaim, hreached⟩
  refine ⟨fun j other hmem => ?_, fun j => ?_, fun other claim hclaim => ?_,
    fun j hj hempty => ?_⟩
  · change other ∈ (t.reach task k).queue j at hmem
    rw [LockTable.queue_reach] at hmem
    split at hmem
    · rename_i heq
      rcases List.mem_append.mp hmem with hmem | hmem
      · exact hstays j other (heq ▸ hmem)
      · rw [List.mem_singleton.mp hmem, heq]
        exact ⟨_, (hafter task).trans (if_pos rfl), List.mem_append_right _ List.mem_cons_self⟩
    · exact hstays j other hmem
  · change ((t.reach task k).queue j).Nodup
    rw [LockTable.queue_reach]
    split
    · exact List.Nodup.append (h.nodup k) (List.nodup_singleton _) (by simpa using hnew)
    · exact h.nodup j
  · rw [hafter] at hclaim
    split at hclaim
    · cases hclaim
      simpa using hkeys
    · rename_i hne
      exact h.keys other claim (by rw [hbefore, if_neg hne, hclaim])
  · change (t.reach task k).hasEntry j = true at hj
    change (t.reach task k).queue j = [] at hempty
    rw [LockTable.queue_reach] at hempty
    split at hempty
    · simp at hempty
    · rename_i hne
      rw [LockTable.hasEntry_reach, decide_eq_false hne, Bool.false_or] at hj
      exact h.entries j hj hempty

/-- A task goes on by one key, if there is one and it does not wait. -/
theorem advance_claim {old claim : Claim} {t : LockTable} (hold : c.claim? task = some old)
    (hclaim : claim.task = task) (h : (c.replace task claim t).Tidy left) :
    (claim.advance t).1.task = task ∧
      (c.replace task (claim.advance t).1 (claim.advance t).2).Tidy left := by
  obtain ⟨task', reached, ahead⟩ := claim
  obtain rfl : task' = task := hclaim
  cases ahead with
  | nil => exact ⟨rfl, h⟩
  | cons k ks =>
    simp only [Claim.advance]
    split
    · exact ⟨rfl, h.reach hold⟩
    · exact ⟨rfl, h⟩

theorem advance (h : c.Tidy left) (task : TaskId) : (c.advance task).Tidy left := by
  unfold Crowd.advance
  split
  · exact h
  rename_i claim hclaim
  have htask := task_of_claim? hclaim
  have hstart : (c.replace task claim c.table).Tidy left := by
    refine h.congr rfl fun other => ?_
    rw [c.claim?_replace claim hclaim htask]
    split
    · rename_i heq
      rw [heq, hclaim]
    · rfl
  -- each step of the claim keeps the table tidy
  have hsteps : ∀ (steps : List LockKey) (p : Claim × LockTable), p.1.task = task →
      (c.replace task p.1 p.2).Tidy left →
      (c.replace task (steps.foldl (fun (p : Claim × LockTable) _ => p.1.advance p.2) p).1
        (steps.foldl (fun (p : Claim × LockTable) _ => p.1.advance p.2) p).2).Tidy left := by
    intro steps
    induction steps with
    | nil => exact fun _ _ hp => hp
    | cons _ steps ih =>
      intro p hp htidy
      obtain ⟨hp', htidy'⟩ := advance_claim hclaim hp htidy
      exact ih _ hp' htidy'
  exact hsteps claim.ahead (claim, c.table) htask hstart

theorem advanceEach (h : c.Tidy left) (tasks : List TaskId) :
    (tasks.foldl Crowd.advance c).Tidy left := by
  induction tasks generalizing c with
  | nil => exact h
  | cons task tasks ih => exact ih (h.advance task)

theorem enter (h : c.Tidy left) (task : TaskId) (ks : List LockKey) :
    (c.enter task ks).Tidy left := by
  refine Tidy.advance ?_ task
  have hfound : ∀ other, Crowd.claim? { c with claims := c.claims ++ [.start task ks] } other =
      (c.claim? other).or (if task = other then some (.start task ks) else none) := by
    intro other
    simp only [claim?, List.find?_append, List.find?_singleton]
    by_cases heq : task = other <;> simp [heq, Claim.start]
  refine ⟨fun k other hmem => ?_, h.nodup, fun other claim hclaim => ?_, h.entries⟩
  · obtain ⟨claim, hclaim, hreached⟩ := h.queued k other hmem
    exact ⟨claim, by rw [hfound, hclaim]; rfl, hreached⟩
  · rw [hfound] at hclaim
    cases hother : c.claim? other with
    | some x =>
      rw [hother] at hclaim
      cases hclaim
      exact h.keys other claim hother
    | none =>
      rw [hother, Option.none_or] at hclaim
      split at hclaim
      · cases hclaim
        exact nodup_sortedKeys ks
      · cases hclaim

/-- A task that held all its keys removes the entries that it leaves empty; another leaves them
behind. -/
theorem leave (h : c.Tidy left) {claim : Claim} (hclaim : c.claim? task = some claim) :
    (c.leave task).Tidy
      (if claim.isComplete c.table then left else left ++ claim.reached) := by
  have htask := task_of_claim? hclaim
  have hkeys : claim.reached.Nodup := (List.nodup_append.mp (h.keys task claim hclaim)).1
  have hqueue : ∀ j, (claim.drop c.table).queue j =
      if j ∈ claim.reached then (c.table.queue j).erase task else c.table.queue j := by
    intro j
    unfold Claim.drop
    rw [htask]
    split
    · exact c.table.queue_release task hkeys j
    · exact c.table.queue_leaveAll task hkeys j
  have hentries : ∀ j, (claim.drop c.table).hasEntry j = true → (claim.drop c.table).queue j = [] →
      j ∈ if claim.isComplete c.table then left else left ++ claim.reached := by
    intro j hj hempty
    have hkept : j ∉ claim.reached → c.table.hasEntry j = true → j ∈ left := by
      intro hnot hentry
      rw [hqueue, if_neg hnot] at hempty
      exact h.entries j hentry hempty
    by_cases hcomplete : claim.isComplete c.table = true
    · rw [if_pos hcomplete]
      simp only [Claim.drop, hcomplete, if_true, LockTable.release] at hj hempty
      rw [LockTable.hasEntry_sweep, LockTable.hasEntry_leaveAll] at hj
      rw [LockTable.queue_sweep] at hempty
      exact hkept (fun hreached => hj.2 ⟨hreached, hempty⟩) hj.1
    · rw [if_neg hcomplete]
      simp only [Claim.drop, hcomplete, Bool.false_eq_true, if_false,
        LockTable.hasEntry_leaveAll] at hj
      by_cases hreached : j ∈ claim.reached
      · exact List.mem_append_right _ hreached
      · exact List.mem_append_left _ (hkept hreached hj)
  have hfound : ∀ other, other ≠ task →
      Crowd.claim? ⟨claim.drop c.table, c.claims.filter (·.task ≠ task)⟩ other =
        c.claim? other := by
    intro other hne
    simp only [claim?, List.find?_filter]
    congr 1
    funext x
    by_cases hx : x.task = other <;> simp [hx, hne]
  have hgone : Crowd.claim? ⟨claim.drop c.table, c.claims.filter (·.task ≠ task)⟩ task = none := by
    simp [claim?, List.find?_filter]
  have hbase : Tidy (if claim.isComplete c.table then left else left ++ claim.reached)
      ⟨claim.drop c.table, c.claims.filter (·.task ≠ task)⟩ := by
    refine ⟨fun j other hmem => ?_, fun j => ?_, fun other x hx => ?_, hentries⟩
    · change other ∈ (claim.drop c.table).queue j at hmem
      rw [hqueue] at hmem
      have hold : other ∈ c.table.queue j ∧ other ≠ task := by
        split at hmem
        · refine ⟨List.mem_of_mem_erase hmem, ?_⟩
          rintro rfl
          exact (h.nodup j).not_mem_erase hmem
        · rename_i hnot
          refine ⟨hmem, ?_⟩
          rintro rfl
          obtain ⟨x, hx, hreached⟩ := h.queued j other hmem
          obtain rfl := Option.some_inj.mp (hclaim.symm.trans hx)
          exact hnot hreached
      rw [hfound other hold.2]
      exact h.queued j other hold.1
    · change ((claim.drop c.table).queue j).Nodup
      rw [hqueue]
      split
      · exact (h.nodup j).erase _
      · exact h.nodup j
    · by_cases hne : other = task
      · rw [hne, hgone] at hx
        cases hx
      · exact h.keys other x ((hfound other hne).symm.trans hx)
  simp only [Crowd.leave, hclaim]
  exact hbase.advanceEach _

end Tidy

theorem Runs.tidy (h : Runs left c) : c.Tidy left := by
  induction h with
  | start => exact .empty
  | enter _ task ks ih => exact ih.enter task ks
  | leave _ hclaim ih => exact ih.leave hclaim

/-- Two tasks want a link, and the second one a promoter too; it is cancelled while it waits. When
the first one has given the link back there is no task left, but an entry for the promoter. -/
theorem entry_outlives_tasks :
    ¬ ∀ left c, Runs left c → c.claims = [] → c.table.isEmpty = true := by
  intro hnone
  let link : LockKey := .link ⟨1⟩
  let promoter : LockKey := .promoter ⟨⟨3⟩, ⟨4⟩⟩
  have h₂ := (Runs.start.enter 1 [link]).enter 2 [promoter, link]
  have h₃ := @Runs.leave _ _ 2 ⟨2, [promoter, link], []⟩ h₂ (by decide)
  have h₄ := @Runs.leave _ _ 1 ⟨1, [link], []⟩ h₃ (by decide)
  exact absurd (hnone _ _ h₄ (by decide)) (by decide)

end Crowd

/-- Whatever tasks do, and in whatever order: when all of them have come to rest, there is an entry
at a key only if some task holds the key or waits for it, or a task had come to it when it was
cancelled on its way. Such an entry may stay at any key. The same holds of claims on a lock table,
between any two of which all go on as far as they can. -/
theorem entries_in_use_or_left_behind (k : LockKey) :
    (∀ s, Mutexes.Reachable s → ∃ left, Mutexes.Runs left s) ∧
    (∀ left s, Mutexes.Runs left s → s.AtRest → s.current k ≠ none → k ∈ left ∨ s.InUse k) ∧
    (∃ s, Mutexes.Runs [k] s ∧ s.AtRest ∧ s.current k ≠ none ∧ ∀ j, ¬ s.InUse j) ∧
    ∀ left c, Crowd.Runs left c → c.table.hasEntry k = true →
      k ∈ left ∨ ∃ task ∈ c.table.queue k, (c.claim? task).isSome = true := by
  refine ⟨fun s => Mutexes.Reachable.exists_runs,
    fun left s hrun hrest hk => hrun.entry_of_atRest hrest hk,
    Mutexes.exists_entry_left_behind k, fun left c hrun hk => ?_⟩
  cases hqueue : c.table.queue k with
  | nil => exact .inl (hrun.tidy.entries k hk hqueue)
  | cons task tasks =>
    obtain ⟨claim, hclaim, -⟩ := hrun.tidy.queued k task (hqueue ▸ List.mem_cons_self)
    exact .inr ⟨task, List.mem_cons_self, by rw [hclaim]; rfl⟩

end Referral
