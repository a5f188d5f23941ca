import Referral.Proofs.AtOnce
import Referral.Proofs.Sharing

/-!
# Publishing among others

A task that publishes an event holds the lock of the promoter from before it loads what is stored of
the promoter until after its commit. So what it staged is at any time what it would stage now, and
what the last attempt to commit it finds is what comes of the event at one stroke.
-/

namespace Referral

namespace Service

open Procedure World

variable {s : Service} {e : Event} {task : TaskId} {dispatch : DispatchReport} {u : WorkUnit}
  {w w' : World}

/-- A task holds the locks of an event and has in hand what the dispatch of the event stages, which
is what it would stage on what is stored now. -/
structure Staged (s : Service) (e : Event) (task : TaskId) (dispatch : DispatchReport)
    (u : WorkUnit) (w : World) : Prop where
  engaged : w.Engaged task e.lockKeys u.permits
  made : ∃ (ids : IdSupply) (began : ℕ), began ≤ w.elapsed ∧
    dispatch = (s.dispatchOn w.store e ids (w.origin.after began)).report ∧
    u = (s.dispatchOn w.store e ids (w.origin.after began)).staging.unit

namespace Staged

theorem leaves (h : s.Staged e task dispatch u w) (hw : w.Leaves task w') :
    s.Staged e task dispatch u w' := by
  refine ⟨h.engaged.leaves hw, ?_⟩
  obtain ⟨ids, began, hbegan, hdispatch, hu⟩ := h.made
  have hcontext := hw.context e.promoterKey (h.engaged.holds _ e.promoter_mem_lockKeys)
  refine ⟨ids, began, hbegan.trans hw.elapsed, ?_, ?_⟩
  · rw [dispatchOn_congr hcontext, hw.origin, hdispatch]
  · rw [dispatchOn_congr hcontext, hw.origin, hu]

theorem belongs (h : s.Staged e task dispatch u w) (hbuiltIn : s.extra = []) :
    ∃ (staging : Staging) (first : ℕ), staging.unit = u ∧ staging.Belongs w.store e first [] ∧
      ∃ following, u.events = e :: following := by
  obtain ⟨ids, began, -, -, rfl⟩ := h.made
  obtain ⟨hfirst, hbelongs⟩ :=
    belongs_dispatchOn hbuiltIn w.store e ids (w.origin.after began)
  exact ⟨_, _, rfl, hbelongs, hfirst⟩

theorem permits (h : s.Staged e task dispatch u w) (hbuiltIn : s.extra = []) :
    ∀ k ∈ u.permits, .promoter k ∈ e.lockKeys := by
  obtain ⟨staging, first, rfl, hbelongs, -⟩ := h.belongs hbuiltIn
  intro k hk
  rw [hbelongs.permits k hk]
  exact e.promoter_mem_lockKeys

/-- The answer to a commit now decides what comes of the event. -/
theorem atOnce (h : s.Staged e task dispatch u w) (hbuiltIn : s.extra = [])
    (hvalid : accept e = .ok ()) {answer : Except Error Receipt} {store : Store}
    (hcommit : w.store.commit u w.now = (answer, store)) :
    s.AtOnce w.origin e w.store (answerTo e dispatch u answer) store := by
  cases hknown : w.store.hasEvent e.id with
  | true =>
    obtain ⟨-, -, -, -, following, hfollowing⟩ := h.belongs hbuiltIn
    rw [Store.commit_known h.engaged.orderly.commits hfollowing hknown] at hcommit
    obtain ⟨rfl, rfl⟩ := Prod.mk.inj hcommit
    simp only [answerTo, if_true]
    exact .known hvalid hknown
  | false =>
    obtain ⟨ids, began, hbegan, rfl, rfl⟩ := h.made
    exact .dispatched hvalid hknown ids hbegan hcommit

/-- A commit leaves to others what is theirs. -/
theorem respects_commit (h : s.Staged e task dispatch u w) (hbuiltIn : s.extra = [])
    {answer : Except Error Receipt} {store : Store}
    (hcommit : w.store.commit u w.now = (answer, store)) :
    w.Respects task { w with store } := by
  obtain ⟨staging, first, rfl, hbelongs, -⟩ := h.belongs hbuiltIn
  obtain rfl : (w.store.commit staging.unit w.now).2 = store := by rw [hcommit]
  exact respects_store (h.engaged.holds _ e.promoter_mem_lockKeys) (.commit _ _ _)
    (fun hzero => Store.failingCommits_commit hzero _ _)
    fun k hk => Store.context_commit hbelongs hk w.now

end Staged

/-! ## The commit -/

/-- The answer to the commit of what is staged, in the step between two worlds. -/
def Commits (s : Service) (e : Event) (task : TaskId) (dispatch : DispatchReport) (u : WorkUnit)
    (answer : Except Error Receipt) (w w' : World) : Prop :=
  s.Staged e task dispatch u w ∧ w.store.commit u w.now = (answer, w'.store)

theorem decides_commitRetrying (hbuiltIn : s.extra = []) (h : s.Staged e task dispatch u w)
    (backoff : ℕ → Duration) (retries attempt : ℕ) :
    (commitRetrying backoff u retries attempt).Decides (Leaves task) (Respects task)
      (s.Commits e task dispatch u) (fun _ w' => w'.Engaged task e.lockKeys u.permits) w := by
  -- an attempt decides if it is taken, and the last one also if it is refused
  have hdecided : ∀ {w₁ : World} {answer : Except Error Receipt} {store : Store},
      s.Staged e task dispatch u w₁ → w₁.store.commit u w₁.now = (answer, store) →
      ∃ a, s.Commits e task dispatch u a w₁ { w₁ with store } ∧
        (pure answer : Procedure (Except Error Receipt)).Quietly (Leaves task) (Respects task)
          (fun b w' => b = a ∧ w'.Engaged task e.lockKeys u.permits) { w₁ with store } := by
    intro w₁ answer store h₁ hcommit
    have hresp := h₁.respects_commit hbuiltIn hcommit
    have hengaged : World.Engaged { w₁ with store } task e.lockKeys u.permits :=
      ⟨hresp.orderly h₁.engaged.orderly, h₁.engaged.holds, h₁.engaged.permits⟩
    exact ⟨answer, ⟨h₁, hcommit⟩, quietly_pure fun w' hw' => ⟨rfl, hengaged.leaves hw'⟩⟩
  have hattempt : ∀ {w₁ : World}, s.Staged e task dispatch u w₁ → ∃ answer store,
      w₁.perform (.commit u) = (answer, { w₁ with store }) ∧
      w₁.store.commit u w₁.now = (answer, store) :=
    fun {w₁} _ => ⟨(w₁.store.commit u w₁.now).1, (w₁.store.commit u w₁.now).2, rfl, rfl⟩
  induction retries generalizing w attempt with
  | zero =>
    intro w₁ h₁ _
    have hstaged := h.leaves h₁
    obtain ⟨answer, store, hperform, hcommit⟩ := hattempt hstaged
    rw [hperform]
    exact ⟨hstaged.respects_commit hbuiltIn hcommit, .inr (hdecided hstaged hcommit)⟩
  | succ retries ih =>
    intro w₁ h₁ _
    have hstaged := h.leaves h₁
    obtain ⟨answer, store, hperform, hcommit⟩ := hattempt hstaged
    rw [hperform]
    refine ⟨hstaged.respects_commit hbuiltIn hcommit, ?_⟩
    cases answer with
    | ok receipt => exact .inr (hdecided hstaged hcommit)
    | error error =>
      by_cases htransient : error.isTransient = true
      · -- nothing was stored, and there will be another attempt
        have hrefused : (w₁.store.commit u w₁.now).1 = .error error := by rw [hcommit]
        rw [Store.commit_eq_of_error hstaged.engaged.orderly.commits hrefused] at hcommit
        obtain ⟨-, rfl⟩ := Prod.mk.inj hcommit
        refine .inl ⟨rfl, ?_⟩
        have hagain : (do
            sleep (backoff attempt).millisUp
            commitRetrying backoff u retries (attempt + 1)).Decides (Leaves task) (Respects task)
              (s.Commits e task dispatch u)
              (fun _ w' => w'.Engaged task e.lockKeys u.permits) w₁ :=
          Quietly.decides (rely_leaves task) (quietly_sleep _)
            fun _ w₂ h₂ => ih (hstaged.leaves h₂) (attempt + 1)
        simpa only [andThen, htransient, if_true] using hagain
      · have hlast := hdecided hstaged hcommit
        refine .inr ?_
        simpa only [andThen, htransient, Bool.false_eq_true, if_false] using hlast

theorem decides_commitDemoting (hbuiltIn : s.extra = []) (h : s.Staged e task dispatch u w) :
    (s.commitDemoting u).Decides (Leaves task) (Respects task)
      (fun a w w' => a.2 = u ∧ s.Commits e task dispatch u a.1 w w')
      (fun _ w' => w'.Engaged task e.lockKeys u.permits) w := by
  unfold commitDemoting
  have hcommit : (s.commit u).Decides (Leaves task) (Respects task) (s.Commits e task dispatch u)
      (fun _ w' => w'.Engaged task e.lockKeys u.permits) w :=
    decides_commitRetrying hbuiltIn h _ _ _
  refine Decides.bind (rely_leaves task) hcommit ?_
  rintro answer w₁ w₂ ⟨hstaged, hanswer⟩
  refine ⟨(answer, u), ⟨rfl, hstaged, hanswer⟩, fun w' hw' => ?_⟩
  split
  · rename_i promoter
    obtain ⟨staging, first, rfl, hbelongs, -⟩ := hstaged.belongs hbuiltIn
    have hne := Store.commit_ne_switchRejected hbelongs w₁.now
      promoter
    rw [hanswer] at hne
    exact (hne rfl).elim
  · exact quietly_pure fun w'' hw'' => ⟨rfl, hw'.leaves hw''⟩

/-! ## Around the commit -/

/-- The permits of a unit are given back. -/
theorem quietly_finish {α : Type} (h : w.Engaged task e.lockKeys u.permits)
    (hpermits : ∀ k ∈ u.permits, .promoter k ∈ e.lockKeys) (a : α) :
    (finish u a).Quietly (Leaves task) (Respects task)
      (fun b w' => b = a ∧ w'.Engaged task e.lockKeys []) w := by
  have hrelease : (perform (.releasePermits u.permits)).Quietly (Leaves task) (Respects task)
      (fun _ w' => w'.Engaged task e.lockKeys []) w := by
    refine keeps_perform fun w₁ h₁ _ => ?_
    have hengaged := h.leaves h₁
    let w₂ : World := { w₁ with permits := w₁.permits.releaseAll u.permits }
    have hresp : w₁.Respects task w₂ := by
      refine respects_permits w₁.ids w₁.calls fun k => ?_
      by_cases hk : k ∈ u.permits
      · exact .inr (hengaged.holds _ (hpermits k hk))
      · exact .inl (by simp [Permits.mem_releaseAll, hk])
    have hback : w₂.Engaged task e.lockKeys [] := by
      refine ⟨hresp.orderly hengaged.orderly, hengaged.holds, fun k hk hout => ?_⟩
      rw [Permits.mem_releaseAll] at hout
      exact (hout.1 (hengaged.permits k hk hout.2)).elim
    exact ⟨⟨hresp, rfl⟩, fun w' hw' => hback.leaves hw'⟩
  exact Quietly.bind (rely_leaves task) hrelease
    fun _ w₁ h₁ => quietly_pure fun w' hw' => ⟨rfl, h₁.leaves hw'⟩

theorem quietly_settle (h : w.Engaged task e.lockKeys u.permits)
    (hpermits : ∀ k ∈ u.permits, .promoter k ∈ e.lockKeys) (dispatch : DispatchReport)
    (answer : Except Error Receipt) :
    (settle e dispatch u answer).Quietly (Leaves task) (Respects task)
      (fun b w' => b = answerTo e dispatch u answer ∧ w'.Engaged task e.lockKeys []) w := by
  cases answer with
  | error error => exact quietly_finish h hpermits _
  | ok receipt =>
    have hoffer : ∀ {w : World} report, w.Engaged task e.lockKeys u.permits → (do
        perform (.offer u.notifications)
        finish u (.ok (.committed report)) :
          Procedure (Except Error PublishOutcome)).Quietly (Leaves task) (Respects task)
          (fun b w' => b = .ok (.committed report) ∧ w'.Engaged task e.lockKeys []) w := by
      intro w report h
      have hsend : (perform (.offer u.notifications)).Quietly (Leaves task) (Respects task)
          (fun _ w' => w.Leaves task w') w :=
        quietly_aside fun _ => ⟨rfl, rfl, rfl, rfl, rfl, le_rfl⟩
      exact Quietly.bind (rely_leaves task) hsend
        fun _ w₁ h₁ => quietly_finish (h.leaves h₁) hpermits _
    simp only [settle]
    split
    · have hschedule : (perform (.scheduleRebuild (.promoter e.program e.promoter))).Quietly
          (Leaves task) (Respects task) (fun _ w' => w.Leaves task w') w :=
        quietly_aside fun _ => ⟨rfl, rfl, rfl, rfl, rfl, Nat.le_succ _⟩
      exact Quietly.bind (rely_leaves task) hschedule fun _ w₁ h₁ => hoffer _ (h.leaves h₁)
    · exact hoffer _ h

/-- A dispatch stages what belongs to the event, and takes no permit but that of the promoter. -/
theorem quietly_dispatch (hbuiltIn : s.extra = []) {u : WorkUnit}
    (h : w.Engaged task e.lockKeys []) (hu : u = .start (w.store.context e.promoterKey)) :
    (s.dispatch u 0 e).Quietly (Leaves task) (Respects task)
      (fun a w' => s.Staged e task a.1 a.2 w') w := by
  subst hu
  refine keeps_perform fun w₁ h₁ _ => ?_
  have hengaged := h.leaves h₁
  have hlock := hengaged.holds _ e.promoter_mem_lockKeys
  have hfree : e.promoterKey ∉ w₁.permits.out := fun hout => by
    cases hengaged.permits _ e.promoter_mem_lockKeys hout
  have hcontext := h₁.context _ (h.holds _ e.promoter_mem_lockKeys)
  obtain ⟨hunit, hreport⟩ := dispatched_eq hbuiltIn hfree w₁.now
  have hdraws := draws_dispatched hbuiltIn w₁ e w₁.now
  have hbelongs := (belongs_dispatched hbuiltIn w₁ e w₁.now).2
  let c := s.dispatched w₁ e w₁.now
  let w₂ : World :=
    { w₁ with permits := c.staging.permits, ids := c.staging.ids, calls := c.calls }
  have hperform : w₁.perform (.stage fun d =>
      let c := s.dispatcher.dispatchAt 0 e
        ⟨.start (w.store.context e.promoterKey), d.permits, d.ids, d.now⟩ d.calls
      ((c.report, c.staging.unit),
        { d with permits := c.staging.permits, ids := c.staging.ids, calls := c.calls })) =
      ((c.report, c.staging.unit), w₂) := by
    rw [← hcontext]
    rfl
  have hresp : w₁.Respects task w₂ := by
    refine respects_permits c.staging.ids c.calls fun k => ?_
    by_cases hk : k ∈ c.staging.unit.permits
    · rw [hbelongs.permits k hk]
      exact .inr hlock
    · exact .inl ((hdraws k).trans (or_iff_left hk))
  have hstaged : s.Staged e task c.report c.staging.unit w₂ := by
    refine ⟨⟨hresp.orderly hengaged.orderly, hengaged.holds, fun k hk hout => ?_⟩, w₁.ids,
      w₁.elapsed, le_rfl, hreport, hunit⟩
    rcases (hdraws k).mp hout with hbefore | hheld
    · cases hengaged.permits k hk hbefore
    · exact hheld
  rw [hperform]
  exact ⟨⟨hresp, rfl⟩, fun w' hw' => hstaged.leaves hw'⟩

/-! ## The whole publication -/

/-- Some action between two worlds decides what comes of the event. -/
def Publishes (s : Service) (e : Event) (a : Except Error PublishOutcome) (w w' : World) : Prop :=
  s.AtOnce w.origin e w.store a w'.store

theorem decides_record (hbuiltIn : s.extra = []) (hvalid : accept e = .ok ())
    (h : w.Engaged task e.lockKeys []) :
    (s.record e).Decides (Leaves task) (Respects task) (s.Publishes e)
      (fun _ w' => w'.Engaged task e.lockKeys []) w := by
  rw [record_eq]
  intro w₁ h₁ _
  have h₁' := h.leaves h₁
  refine ⟨fun other _ => (rely_leaves other).refl w₁, ?_⟩
  by_cases hknown : w₁.store.hasEvent e.id = true
  · -- the event is in the log
    refine .inr ⟨.ok (.duplicate e.id), .known hvalid hknown, ?_⟩
    simp only [World.perform, hknown, andThen, if_true]
    exact quietly_pure fun w' hw' => ⟨rfl, h₁'.leaves hw'⟩
  have hstart : (startUnit e.promoterKey).Quietly (Leaves task) (Respects task)
      (fun u w' => u = .start (w'.store.context e.promoterKey) ∧ w'.Engaged task e.lockKeys [])
      w₁ := by
    intro w₂ h₂ _
    have h₂' := h₁'.leaves h₂
    refine ⟨⟨fun other _ => (rely_leaves other).refl w₂, rfl⟩, fun w₃ h₃ => ⟨?_, h₂'.leaves h₃⟩⟩
    rw [h₃.context _ (h₂'.holds _ e.promoter_mem_lockKeys)]
    rfl
  have hrest : (s.recordNew e).Decides (Leaves task) (Respects task) (s.Publishes e)
      (fun _ w' => w'.Engaged task e.lockKeys []) w₁ := by
    unfold recordNew
    refine Quietly.decides (rely_leaves task) hstart ?_
    rintro u w₂ ⟨hu, h₂⟩
    refine Quietly.decides (rely_leaves task) (quietly_dispatch hbuiltIn h₂ hu) ?_
    rintro ⟨dispatch, u⟩ w₃ h₃
    refine Decides.bind (rely_leaves task) (decides_commitDemoting hbuiltIn h₃) ?_
    rintro ⟨answer, u'⟩ w₄ w₅ ⟨rfl, hstaged, hcommit⟩
    exact ⟨answerTo e dispatch u' answer, hstaged.atOnce hbuiltIn hvalid hcommit,
      fun w' hw' => quietly_settle hw' (hstaged.permits hbuiltIn) dispatch answer⟩
  refine .inl ⟨rfl, ?_⟩
  simpa only [World.perform, hknown, andThen, Bool.false_eq_true, if_false] using hrest

/-- Among others that leave to it what it holds, a task that publishes an event comes to an action
that decides what comes of the event. -/
theorem decides_publish (hbuiltIn : s.extra = []) (hvalid : accept e = .ok ())
    (hw : w.Orderly) (htask : task < w.nextTask) (habsent : ∀ key, task ∉ w.locks.queue key) :
    (lockedAs task e.lockKeys (s.record e)).Decides (Leaves task) (Respects task) (s.Publishes e)
      (fun _ _ => True) w :=
  decides_lockedAs (nodup_sortedKeys _) hw htask (fun key _ => habsent key)
    fun _ h => decides_record hbuiltIn hvalid h

end Service

end Referral
