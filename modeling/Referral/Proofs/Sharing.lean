import Referral.Proofs.Deciding
import Referral.Proofs.Locks

/-!
# What tasks leave to each other

Tasks that work in one world keep out of each other's way by their locks: what is stored of a
promoter, and the permit to switch the promoter's circle, are changed by the task that holds the
lock of the promoter and by no other, and a task hands a lock on only when the permit is back.
-/

namespace Referral

namespace World

/-- No commit is set to fail, permits are out only for promoters whose lock somebody holds, and only
tasks that were named are at the locks. -/
structure Orderly (w : World) : Prop where
  commits : w.store.failingCommits = 0
  permits : ∀ k ∈ w.permits.out, w.locks.queue (.promoter k) ≠ []
  tasks : ∀ key, ∀ task ∈ w.locks.queue key, task < w.nextTask

/-- What others do as far as it matters to a task. What the task holds it keeps, with what is stored
of the promoters whose locks these are; and when it comes to hold the lock of a promoter, the
promoter's permit is not out. -/
structure Leaves (task : TaskId) (w w' : World) : Prop where
  later : w.store.Later w'.store
  orderly : w.Orderly → w'.Orderly
  origin : w'.origin = w.origin
  elapsed : w.elapsed ≤ w'.elapsed
  tasks : w.nextTask ≤ w'.nextTask
  absent : ∀ key, task ∉ w.locks.queue key → task ∉ w'.locks.queue key
  holds : ∀ key, w.locks.holds task key = true → w'.locks.holds task key = true
  context : ∀ k, w.locks.holds task (.promoter k) = true → w'.store.context k = w.store.context k
  permit : ∀ k, w.locks.holds task (.promoter k) = true →
    (k ∈ w'.permits.out ↔ k ∈ w.permits.out)
  handed : ∀ k, w.locks.holds task (.promoter k) = false →
    w'.locks.holds task (.promoter k) = true → k ∉ w'.permits.out

variable {task other : TaskId} {w w' w'' : World} {ks : List LockKey} {ps : List PromoterKey}

/-- Where the store, the locks and the permits are as they were, all is left to every task. -/
theorem leaves_of_eq (hstore : w'.store = w.store) (hlocks : w'.locks = w.locks)
    (hpermits : w'.permits = w.permits) (horigin : w'.origin = w.origin)
    (helapsed : w.elapsed ≤ w'.elapsed) (htasks : w.nextTask ≤ w'.nextTask) (task : TaskId) :
    w.Leaves task w' where
  later := hstore ▸ .refl _
  orderly h := by
    refine ⟨hstore ▸ h.commits, ?_, fun key other hother => ?_⟩
    · rw [hpermits, hlocks]
      exact h.permits
    · rw [hlocks] at hother
      exact (h.tasks key other hother).trans_le htasks
  origin := horigin
  elapsed := helapsed
  tasks := htasks
  absent key h := by rwa [hlocks]
  holds key h := by rwa [hlocks]
  context k _ := by rw [hstore]
  permit k _ := by rw [hpermits]
  handed k hnot hholds := by
    rw [hlocks, hnot] at hholds
    cases hholds

theorem Leaves.trans (h : w.Leaves task w') (h' : w'.Leaves task w'') : w.Leaves task w'' where
  later := h.later.trans h'.later
  orderly := h'.orderly ∘ h.orderly
  origin := h'.origin.trans h.origin
  elapsed := h.elapsed.trans h'.elapsed
  tasks := h.tasks.trans h'.tasks
  absent key hkey := h'.absent key (h.absent key hkey)
  holds key hkey := h'.holds key (h.holds key hkey)
  context k hk := (h'.context k (h.holds _ hk)).trans (h.context k hk)
  permit k hk := (h'.permit k (h.holds _ hk)).trans (h.permit k hk)
  handed k hnot hholds := by
    cases hbetween : w'.locks.holds task (.promoter k) with
    | false => exact h'.handed k hbetween hholds
    | true => exact fun hout => h.handed k hnot hbetween ((h'.permit k hbetween).mp hout)

theorem rely_leaves (task : TaskId) : Procedure.Rely (Leaves task) where
  refl _ := leaves_of_eq rfl rfl rfl rfl le_rfl le_rfl task
  trans _ _ _ := Leaves.trans
  later _ _ h := h.later

/-- A task leaves to all others what is theirs. -/
def Respects (task : TaskId) (w w' : World) : Prop := ∀ other, other ≠ task → w.Leaves other w'

theorem Respects.orderly (h : w.Respects task w') (hw : w.Orderly) : w'.Orderly :=
  (h (task + 1) (Nat.succ_ne_self task)).orderly hw

theorem Respects.origin (h : w.Respects task w') : w'.origin = w.origin :=
  (h (task + 1) (Nat.succ_ne_self task)).origin

theorem Respects.tasks (h : w.Respects task w') : w.nextTask ≤ w'.nextTask :=
  (h (task + 1) (Nat.succ_ne_self task)).tasks

/-! ## Steps of a task -/

/-- A task reaches for a lock. -/
theorem respects_reach (htask : task < w.nextTask) (key : LockKey) :
    w.Respects task { w with locks := w.locks.reach task key } := by
  intro other hother
  have hsame : ∀ j, (w.locks.reach task key).holds other j = w.locks.holds other j :=
    LockTable.holds_reach hother key
  refine ⟨.refl _, fun h => ⟨h.commits, fun k hk => ?_, fun j t ht => ?_⟩, rfl, le_rfl, le_rfl,
    fun j hj => ?_, fun j hj => (hsame j).trans hj, fun _ _ => rfl, fun _ _ => .rfl,
    fun k hnot hholds => ?_⟩
  · dsimp only
    rw [LockTable.queue_reach]
    split
    · simp
    · exact h.permits k hk
  · dsimp only at ht
    rw [LockTable.queue_reach] at ht
    split at ht
    · rcases List.mem_append.mp ht with ht | ht
      · exact h.tasks key t ht
      · rwa [List.mem_singleton.mp ht]
    · exact h.tasks j t ht
  · dsimp only
    rw [LockTable.queue_reach]
    split
    · rename_i hkey
      subst hkey
      simp [hj, hother]
    · exact hj
  · dsimp only at hholds
    rw [hsame, hnot] at hholds
    cases hholds

/-- A task releases locks, none of them that of a promoter whose permit is out. -/
theorem respects_release (hks : ks.Nodup) (hback : ∀ k, .promoter k ∈ ks → k ∉ w.permits.out) :
    w.Respects task { w with locks := w.locks.release task ks } := by
  intro other hother
  have hqueue := LockTable.queue_release w.locks task hks
  refine ⟨.refl _, fun h => ⟨h.commits, fun k hk => ?_, fun j t ht => ?_⟩, rfl, le_rfl, le_rfl,
    fun j hj => ?_, fun j hj => LockTable.holds_release hother hks hj, fun _ _ => rfl,
    fun _ _ => .rfl, fun k hnot hholds hout => ?_⟩
  · dsimp only
    rw [hqueue, if_neg fun hmem => hback k hmem hk]
    exact h.permits k hk
  · dsimp only at ht
    rw [hqueue] at ht
    split at ht
    · exact h.tasks j t (List.mem_of_mem_erase ht)
    · exact h.tasks j t ht
  · dsimp only
    rw [hqueue]
    split
    · exact fun hmem => hj (List.mem_of_mem_erase hmem)
    · exact hj
  · -- another comes to hold only what was released
    have hreleased : .promoter k ∈ ks := by
      by_contra hkept
      dsimp only at hholds
      rw [LockTable.holds_iff, hqueue, if_neg hkept, ← LockTable.holds_iff, hnot] at hholds
      cases hholds
    exact hback k hreleased hout

/-- A task takes permits or gives them back, for promoters whose locks it holds. -/
theorem respects_permits {permits : Permits} (ids : IdSupply) (calls : List CallRecord)
    (hpermits : ∀ k, (k ∈ permits.out ↔ k ∈ w.permits.out) ∨
      w.locks.holds task (.promoter k) = true) :
    w.Respects task { w with permits, ids, calls } := by
  intro other hother
  refine ⟨.refl _, fun h => ⟨h.commits, fun k hk => ?_, h.tasks⟩, rfl, le_rfl, le_rfl,
    fun _ hj => hj, fun _ hj => hj, fun _ _ => rfl, fun k hholds => ?_, fun k hnot hholds => ?_⟩
  · rcases hpermits k with hsame | hown
    · exact h.permits k (hsame.mp hk)
    · intro hempty
      rw [LockTable.holds_iff, hempty] at hown
      cases hown
  · refine (hpermits k).resolve_right fun hown => hother ?_
    exact LockTable.holds_unique hholds hown
  · rw [hnot] at hholds
    cases hholds

/-- A task changes what is stored of a promoter whose lock it holds. -/
theorem respects_store {store : Store} {k : PromoterKey}
    (hk : w.locks.holds task (.promoter k) = true) (hlater : w.store.Later store)
    (hcommits : w.store.failingCommits = 0 → store.failingCommits = 0)
    (hothers : ∀ j ≠ k, store.context j = w.store.context j) :
    w.Respects task { w with store } := by
  intro other hother
  refine ⟨hlater, fun h => ⟨hcommits h.commits, h.permits, h.tasks⟩, rfl, le_rfl, le_rfl,
    fun _ hj => hj, fun _ hj => hj, fun j hj => hothers j ?_, fun _ _ => .rfl,
    fun j hnot hholds => ?_⟩
  · rintro rfl
    exact hother (LockTable.holds_unique hj hk)
  · rw [hnot] at hholds
    cases hholds

/-! ## A task at work -/

/-- A task holds some locks. Of the permits for promoters whose locks these are, those that are out
are among the given ones. -/
structure Engaged (w : World) (task : TaskId) (ks : List LockKey) (ps : List PromoterKey) :
    Prop where
  orderly : w.Orderly
  holds : ∀ key ∈ ks, w.locks.holds task key = true
  permits : ∀ k, .promoter k ∈ ks → k ∈ w.permits.out → k ∈ ps

theorem Engaged.leaves (h : w.Engaged task ks ps) (hw : w.Leaves task w') :
    w'.Engaged task ks ps where
  orderly := hw.orderly h.orderly
  holds key hkey := hw.holds key (h.holds key hkey)
  permits k hk hout := h.permits k hk ((hw.permit k (h.holds _ hk)).mp hout)

end World

namespace Procedure

open World (Leaves Respects Engaged Orderly rely_leaves leaves_of_eq respects_reach
  respects_release)

variable {task : TaskId} {ks : List LockKey} {w : World} {α : Type}

/-- An action that changes neither the store nor locks or permits. -/
theorem quietly_aside {action : Action α}
    (haside : ∀ w : World, (w.perform action).2.store = w.store ∧
      (w.perform action).2.locks = w.locks ∧ (w.perform action).2.permits = w.permits ∧
      (w.perform action).2.origin = w.origin ∧ (w.perform action).2.elapsed = w.elapsed ∧
      w.nextTask ≤ (w.perform action).2.nextTask) :
    (perform action).Quietly (Leaves task) (Respects task) (fun _ w' => w.Leaves task w') w := by
  refine keeps_perform fun w' hw' _ => ?_
  obtain ⟨hstore, hlocks, hpermits, horigin, helapsed, htasks⟩ := haside w'
  have hleaves := leaves_of_eq hstore hlocks hpermits horigin helapsed.ge htasks
  exact ⟨⟨fun other _ => hleaves other, hstore⟩,
    fun w'' hw'' => (hw'.trans (hleaves task)).trans hw''⟩

theorem quietly_sleep (millis : ℕ) : (sleep millis).Quietly (Leaves task) (Respects task)
    (fun _ w' => w.Leaves task w') w := by
  have hmoment : (perform (.momentAfter millis)).Quietly (Leaves task) (Respects task)
      (fun _ w' => w.Leaves task w') w :=
    quietly_aside fun _ => ⟨rfl, rfl, rfl, rfl, rfl, le_rfl⟩
  refine Quietly.bind (rely_leaves task) hmoment fun moment w₁ h₁ => ?_
  have hwait : (perform (.awaitMoment moment)).Quietly (Leaves task) (Respects task)
      (fun _ w' => w₁.Leaves task w') w₁ :=
    quietly_aside fun _ => ⟨rfl, rfl, rfl, rfl, rfl, le_rfl⟩
  exact hwait.weaken (fun _ _ _ h => h) fun _ _ h => h₁.trans h

/-- A task that is at none of the locks takes all of them, one after the other. -/
theorem quietly_lockAll (hks : ks.Nodup) (hw : w.Orderly) (htask : task < w.nextTask)
    (habsent : ∀ key ∈ ks, task ∉ w.locks.queue key) :
    (lockAll task ks).Quietly (Leaves task) (Respects task) (fun _ w' => w'.Engaged task ks [])
      w := by
  -- some locks may be held already
  have hall : ∀ (ks had : List LockKey) {w : World}, ks.Nodup → w.Engaged task had [] →
      task < w.nextTask → (∀ key ∈ ks, task ∉ w.locks.queue key) →
      (lockAll task ks).Quietly (Leaves task) (Respects task)
        (fun _ w' => w'.Engaged task (had ++ ks) []) w := by
    intro ks
    induction ks with
    | nil =>
      intro had w _ hhad _ _ w' hw'
      rw [List.append_nil]
      exact hhad.leaves hw'
    | cons key ks ih =>
      intro had w hks hhad htask habsent w₁ h₁ _
      rw [List.nodup_cons] at hks
      rw [List.forall_mem_cons] at habsent
      have htask₁ : task < w₁.nextTask := htask.trans_le h₁.tasks
      have hreach := respects_reach htask₁ key
      let w₂ : World := { w₁ with locks := w₁.locks.reach task key }
      refine ⟨⟨hreach, rfl⟩, fun w₃ h₃ hready => ?_⟩
      have h₂₃ : w₂.Leaves task w₃ := h₃
      refine ⟨⟨fun other _ => (rely_leaves other).refl w₃, rfl⟩, ?_⟩
      have hhad₁ := hhad.leaves h₁
      have hhad₂ : w₂.Engaged task had [] :=
        ⟨hreach.orderly hhad₁.orderly,
          fun j hj => LockTable.holds_reach_of_holds (hhad₁.holds j hj), hhad₁.permits⟩
      have hhad₃ := hhad₂.leaves h₂₃
      have hback : ∀ k, .promoter k = key → k ∉ w₃.permits.out := by
        rintro k rfl
        cases hfirst : w₂.locks.holds task (.promoter k) with
        | false => exact h₂₃.handed k hfirst hready
        | true =>
          -- nobody was at the lock, so the permit was not out
          have hempty : w₁.locks.queue (.promoter k) = [] := by
            rw [LockTable.holds_iff, LockTable.queue_reach, if_pos rfl] at hfirst
            cases hqueue : w₁.locks.queue (.promoter k) with
            | nil => rfl
            | cons first rest =>
              have hother : first = task := by simpa [hqueue] using hfirst
              have hnot := h₁.absent _ habsent.1
              simp [hqueue, hother] at hnot
          exact fun hout => hhad₁.orderly.permits k ((h₂₃.permit k hfirst).mp hout) hempty
      have hnow : w₃.Engaged task (had ++ [key]) [] := by
        refine ⟨hhad₃.orderly, fun j hj => ?_, fun k hk hout => ?_⟩
        · rcases List.mem_append.mp hj with hj | hj
          · exact hhad₃.holds j hj
          · rw [List.mem_singleton.mp hj]
            exact hready
        · rcases List.mem_append.mp hk with hk | hk
          · exact hhad₃.permits k hk hout
          · exact (hback k (List.mem_singleton.mp hk) hout).elim
      have hrest := ih (had ++ [key]) hks.2 hnow (htask₁.trans_le h₂₃.tasks) fun j hj => by
        refine h₂₃.absent j ?_
        have hne : j ≠ key := fun heq => hks.1 (heq ▸ hj)
        dsimp only [w₂]
        rw [LockTable.queue_reach, if_neg hne]
        exact h₁.absent j (habsent.2 j hj)
      rw [List.append_assoc] at hrest
      exact hrest
  exact hall ks [] hks ⟨hw, List.forall_mem_nil _, fun _ h => by cases h⟩ htask habsent

/-- What is left of a procedure that takes locks once its task has a name. -/
def lockedAs (task : TaskId) (ks : List LockKey) (body : Procedure α) : Procedure α := do
  lockAll task ks
  let a ← body
  perform (.releaseLocks task ks)
  return a

/-- A procedure that takes locks begins by giving its task a name. -/
theorem withLocks_step {body p : Procedure α} {w' : World}
    (hstep : (withLocks ks body).Step w p w') :
    p = lockedAs w.nextTask ks body ∧ w' = { w with nextTask := w.nextTask + 1 } := by
  cases hstep
  exact ⟨rfl, rfl⟩

theorem withLocks_ne_done {body : Procedure α} {a : α} : withLocks ks body ≠ done a := nofun

/-- A part that decides while the locks are held. -/
theorem decides_lockedAs {body : Procedure α} {D : α → World → World → Prop} (hks : ks.Nodup)
    (hw : w.Orderly) (htask : task < w.nextTask) (habsent : ∀ key ∈ ks, task ∉ w.locks.queue key)
    (hbody : ∀ w', w'.Engaged task ks [] → body.Decides (Leaves task) (Respects task) D
      (fun _ w'' => w''.Engaged task ks []) w') :
    (lockedAs task ks body).Decides (Leaves task) (Respects task) D (fun _ _ => True) w := by
  unfold lockedAs
  refine Quietly.decides (rely_leaves task) (quietly_lockAll hks hw htask habsent) fun _ w₁ h₁ => ?_
  refine Decides.bind (rely_leaves task) (hbody w₁ h₁) fun a w₂ w₃ ha => ⟨a, ha, fun w₄ h₄ => ?_⟩
  have hrelease : (perform (.releaseLocks task ks)).Quietly (Leaves task) (Respects task)
      (fun _ _ => True) w₄ := by
    refine keeps_perform fun w₅ h₅ _ => ⟨⟨respects_release hks fun k hk hout => ?_, rfl⟩,
      fun _ _ => trivial⟩
    cases (h₄.leaves h₅).permits k hk hout
  exact Quietly.bind (rely_leaves task) hrelease
    fun _ w₆ _ => quietly_pure fun _ _ => ⟨rfl, trivial⟩

end Procedure

end Referral
