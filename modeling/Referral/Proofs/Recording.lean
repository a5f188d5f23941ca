import Referral.Proofs.Commits
import Referral.Proofs.Dispatched

/-!
# Events are recorded unless a sum is out of range

Refused effects, handlers that fail and totals that cannot be added up while an event is dispatched
become failure records, and no move of a dispatch is refused by the commit. What can still keep the
event out of the log is the sum of the stored totals and those that were staged.
-/

namespace Referral

namespace Store

variable {store store' : Store}

/-- Moves of one promoter are stale or not according to the stored circle of that promoter. -/
theorem staleMove?_congr {k : PromoterKey}
    (hcircle : store'.currentCircle k = store.currentCircle k) {before ts : List Transition}
    (hts : ∀ t ∈ ts, (⟨t.program, t.promoter⟩ : PromoterKey) = k) :
    store'.staleMove? before ts = store.staleMove? before ts := by
  induction ts generalizing before with
  | nil => rfl
  | cons t ts ih =>
    rw [List.forall_mem_cons] at hts
    have hafter : store'.circleAfter ⟨t.program, t.promoter⟩ before =
        store.circleAfter ⟨t.program, t.promoter⟩ before := by
      unfold circleAfter
      rw [hts.1, hcircle]
    rw [staleMove?, staleMove?, hafter, ih hts.2]

/-- What was staged for an event passes the checks of a store that has neither the event nor one
with a name that was given to what follows from it, and in which the promoter is where it was. -/
theorem check_of_belongs {root : Event} {first : ℕ} {staging : Staging}
    (h : staging.Belongs store root first [])
    (hcircle : store'.currentCircle root.promoterKey = store.currentCircle root.promoterKey)
    (hroot : store'.hasEvent root.id = false)
    (hfresh : ∀ n, first ≤ n → n < staging.ids.next → store'.hasEvent (Id.ofNat n) = false) :
    store'.check staging.unit = .ok () := by
  have hnew : staging.unit.events.find? (fun g => store'.hasEvent g.id) = none := by
    rw [List.find?_eq_none]
    intro g hg
    rcases h.names g (List.mem_append_left _ hg) with hid | ⟨n, hfirst, hlt, hid⟩
    · rw [hid, hroot]
      exact Bool.false_ne_true
    · rw [hid, hfresh n hfirst hlt]
      exact Bool.false_ne_true
  have hmoves : store'.staleMove? [] (staging.unit.transitions.map (·.transition)) = none :=
    (staleMove?_congr hcircle h.movers).trans h.unbroken
  simp only [check, hnew, hmoves, h.resolved, h.attempted, List.append_nil, List.find?_nil]

end Store

/-- A map that cannot be added is named by one of its keys. -/
theorem OrderedMap.addAll_eq_error {κ ν : Type} [Ranked κ] [Summable ν] {name : κ → String}
    {es : List (κ × ν)} {m : OrderedMap κ ν} {error : Error} (h : m.addAll name es = .error error) :
    ∃ text, error = Error.overflow text := by
  induction es generalizing m with
  | nil => cases h
  | cons e es ih =>
    obtain ⟨k, v⟩ := e
    rw [addAll] at h
    split at h
    · exact ih h
    · cases h
      exact ⟨_, rfl⟩

/-- A book that cannot be merged is refused for a sum out of range. -/
theorem Book.merge_eq_error {b delta : Book} {error : Error} (h : b.merge delta = .error error) :
    ∃ text, error = Error.overflow text := by
  simp only [merge, bind, Except.bind] at h
  split at h
  · rename_i hpart
    cases h
    exact OrderedMap.addAll_eq_error hpart
  split at h
  · rename_i hpart
    cases h
    exact OrderedMap.addAll_eq_error hpart
  split at h
  · rename_i hpart
    cases h
    exact OrderedMap.addAll_eq_error hpart
  split at h
  · rename_i hpart
    cases h
    exact OrderedMap.addAll_eq_error hpart
  · cases h

/-- How the commit of a unit comes out that passes the checks: it is written, or some sum is out of
range and nothing is. -/
def Store.Settles (store : Store) (u : WorkUnit) (answer : Except Error Receipt) (store' : Store) :
    Prop :=
  (∃ book receipt now, store.book.merge u.delta = .ok book ∧ answer = .ok receipt ∧
    store' = store.write u book now) ∨
  ∃ name, store.book.merge u.delta = .error (Error.overflow name) ∧
    answer = .error (Error.overflow name) ∧ store' = store

theorem Store.settles_commit {store : Store} {u : WorkUnit} (hcommits : store.failingCommits = 0)
    (hcheck : store.check u = .ok ()) (now : Instant) :
    store.Settles u (store.commit u now).1 (store.commit u now).2 := by
  rcases store.commit_cases u now with ⟨hfailing, -⟩ | ⟨-, error, hcause, h⟩ |
    ⟨-, -, book, hmerge, h⟩
  · omega
  · rcases hcause with hrefused | ⟨-, hmerge⟩
    · rw [hcheck] at hrefused
      cases hrefused
    · obtain ⟨name, rfl⟩ := Book.merge_eq_error hmerge
      rw [h]
      exact .inr ⟨name, hmerge, rfl, rfl⟩
  · rw [h]
    exact .inl ⟨book, _, now, hmerge, rfl, rfl⟩

/-- An event that a producer may publish. -/
theorem Service.accept_eq_ok {e : Event} (hkind : e.kind = .signup ∨ e.kind = .purchase)
    (hvalid : e.validate = .ok ()) : accept e = .ok () := by
  have hproducer : e.kind ≠ .commissionGenerated := by
    rcases hkind with h | h <;> simp [h]
  simp only [accept, hvalid, hproducer, if_false]
  rfl

namespace Store

variable {store : Store} {u : WorkUnit} {now : Instant}

/-- A refusal does not depend on the time. -/
theorem commit_eq_of_error {error : Error} (hzero : store.failingCommits = 0)
    (h : (store.commit u now).1 = .error error) (later : Instant) :
    store.commit u later = (.error error, store) := by
  have hnone : ¬ 0 < store.failingCommits := by omega
  unfold commit at h ⊢
  rw [if_neg hnone] at h ⊢
  cases hcheck : store.check u with
  | error cause =>
    rw [hcheck] at h
    cases h
    rfl
  | ok _ =>
    rw [hcheck] at h
    dsimp only at h ⊢
    cases hmerge : store.book.merge u.delta with
    | error cause =>
      rw [hmerge] at h
      cases h
      rfl
    | ok book =>
      rw [hmerge] at h
      cases h

/-- A refused move leaves the store as it was, and not every move starts where the promoter is. -/
theorem commit_eq_switchRejected {store' : Store} {promoter : PromoterId}
    (h : store.commit u now = (.error (.switchRejected promoter), store')) :
    store' = store ∧ store.staleMove? [] (u.transitions.map (·.transition)) ≠ none := by
  rcases store.commit_cases u now with ⟨-, hcommit⟩ | ⟨-, error, hcause, hcommit⟩ |
    ⟨-, -, book, -, hcommit⟩
  · rw [hcommit] at h
    cases h
  · rw [hcommit] at h
    cases h
    refine ⟨rfl, fun hmoves => ?_⟩
    rcases hcause with hcheck | ⟨-, hmerge⟩
    · simp only [check, hmoves] at hcheck
      split at hcheck
      · cases hcheck
      · split at hcheck <;> cases hcheck
    · obtain ⟨text, htext⟩ := Book.merge_eq_error hmerge
      cases htext
  · rw [hcommit] at h
    cases h

/-- Moves of which each starts where the promoter is are not refused. -/
theorem commit_ne_switchRejected_of_unbroken
    (hmoves : store.staleMove? [] (u.transitions.map (·.transition)) = none) (now : Instant)
    (promoter : PromoterId) : (store.commit u now).1 ≠ .error (.switchRejected promoter) :=
  fun h => (commit_eq_switchRejected (Prod.ext h rfl)).2 hmoves

/-- Nor is a unit without moves. -/
theorem commit_ne_switchRejected_of_nil (hmoves : u.transitions = []) (now : Instant)
    (promoter : PromoterId) : (store.commit u now).1 ≠ .error (.switchRejected promoter) :=
  commit_ne_switchRejected_of_unbroken (by rw [hmoves]; rfl) now promoter

/-- The moves of a dispatch are not refused. -/
theorem commit_ne_switchRejected {e : Event} {first : ℕ} {staging : Staging}
    (h : staging.Belongs store e first []) (now : Instant) (promoter : PromoterId) :
    (store.commit staging.unit now).1 ≠ .error (.switchRejected promoter) :=
  commit_ne_switchRejected_of_unbroken h.unbroken now promoter

/-- The answer to a commit of a unit at some time, perhaps with fewer commits set to fail, and the
store then. -/
def Answers (store : Store) (u : WorkUnit) (answer : Except Error Receipt) (after : Store) : Prop :=
  ∃ mid now, store.Spared mid ∧ mid.commit u now = (answer, after)

end Store

namespace Service

open Procedure World

variable {s : Service} {w : World} {u : WorkUnit} {store : Store} {e : Event}

/-- However often it is tried, a commit comes out as the store answers to it. -/
theorem ends_commitRetrying_spared (backoff : ℕ → Duration) (retries attempt : ℕ)
    (hw : store.Spared w.store) : (commitRetrying backoff u retries attempt).Ends
      (fun answer w' => store.Answers u answer w'.store) w := by
  have hcommit : ∀ {w : World}, store.Spared w.store → (perform (.commit u)).Ends
      (fun answer w' => store.Answers u answer w'.store) w := by
    intro w hw
    refine ends_perform (fun _ _ => rfl) fun w' w'' hw' hw'' => ⟨w.store, w'.now, hw, ?_⟩
    rw [hw''.store_eq]
    simp only [World.perform, hw'.store_eq]
  induction retries generalizing w attempt with
  | zero => exact hcommit hw
  | succ retries ih =>
    unfold commitRetrying
    refine (hcommit hw).bind ?_
    rintro answer w₁ ⟨mid, now, hmid, h₁⟩
    have hend : (pure answer : Procedure (Except Error Receipt)).Ends
        (fun answer w' => store.Answers u answer w'.store) w₁ :=
      ends_pure (R := fun answer after => store.Answers u answer after) ⟨mid, now, hmid, h₁⟩
    cases answer with
    | ok receipt => exact hend
    | error error =>
      have hspared : store.Spared w₁.store := hmid.refuse h₁
      dsimp only
      split
      · exact (ends_sleep _).bind fun _ w₂ h₂ => ih _ (h₂ ▸ hspared)
      · exact hend

/-- Where no commit is set to fail, it comes out as the store as it is answers to it. -/
theorem ends_commitRetrying (backoff : ℕ → Duration) (hcommits : store.failingCommits = 0)
    (retries attempt : ℕ) (hw : w.store = store) :
    (commitRetrying backoff u retries attempt).Ends
      (fun answer w' => ∃ now, store.commit u now = (answer, w'.store)) w := by
  have hspared : store.Spared w.store := hw ▸ .refl store
  refine (ends_commitRetrying_spared backoff retries attempt hspared).weaken ?_
  rintro answer w' ⟨mid, now, hmid, h⟩
  exact ⟨now, hmid.eq_of_zero hcommits ▸ h⟩

theorem ends_commitDemoting (hcommits : store.failingCommits = 0) (hw : w.store = store)
    (hmoves : ∀ now promoter, (store.commit u now).1 ≠ .error (.switchRejected promoter)) :
    (s.commitDemoting u).Ends
      (fun a w' => a.2 = u ∧ ∃ now, store.commit u now = (a.1, w'.store)) w := by
  have hcommit : (s.commit u).Ends
      (fun answer w' => ∃ now, store.commit u now = (answer, w'.store)) w :=
    ends_commitRetrying _ hcommits _ _ hw
  unfold commitDemoting
  refine hcommit.bind ?_
  rintro answer w₁ ⟨now, h₁⟩
  split
  · exact (hmoves now _ (congrArg Prod.fst h₁)).elim
  · exact ends_pure (R := fun (a : Except Error Receipt × WorkUnit) store' =>
      a.2 = u ∧ ∃ now, store.commit u now = (a.1, store')) ⟨rfl, now, h₁⟩

/-- The answer to an event that was dispatched, given the answer to the commit. -/
def answerTo (e : Event) (dispatch : DispatchReport) (u : WorkUnit) :
    Except Error Receipt → Except Error PublishOutcome
  | .error error =>
    if error = .duplicateEvent e.id then .ok (.duplicate e.id) else .error error
  | .ok receipt => .ok (.committed (reportOn e u receipt dispatch))

/-- What is left of a publication once the commit was answered. -/
def settle (e : Event) (dispatch : DispatchReport) (u : WorkUnit) :
    Except Error Receipt → Procedure (Except Error PublishOutcome)
  | .error error => finish u (answerTo e dispatch u (.error error))
  | .ok receipt => do
    let report := reportOn e u receipt dispatch
    if report.rebuildScheduled then
      let _ ← perform (.scheduleRebuild (.promoter e.program e.promoter))
    perform (.offer u.notifications)
    finish u (.ok (.committed report))

/-- The publication of an event that was not found in the log. -/
def recordNew (s : Service) (e : Event) : Procedure (Except Error PublishOutcome) := do
  let u ← startUnit e.promoterKey
  let (dispatch, u) ← s.dispatch u 0 e
  let (answer, u) ← s.commitDemoting u
  settle e dispatch u answer

theorem record_eq (s : Service) (e : Event) : s.record e = (do
    if ← Procedure.read fun store => store.hasEvent e.id then return .ok (.duplicate e.id)
    s.recordNew e) := rfl

/-- A unit of work for a promoter is started from the store as it is. -/
theorem ends_startUnit (k : PromoterKey) :
    (startUnit k).Ends (fun u w' => u = .start (w.store.context k) ∧ w.Passes w') w := by
  refine (ends_read _).bind ?_
  rintro _ w₁ ⟨rfl, h₁⟩
  exact fun w₂ h₂ => ⟨rfl, h₁.trans h₂⟩

/-- The end of the use of a unit of work changes neither the store nor the answer. -/
theorem ends_finish {α : Type} {R : α → Store → Prop} {a : α} (h : R a w.store) :
    (finish u a).Ends (fun a w' => R a w'.store) w := by
  have hrelease : (perform (.releasePermits u.permits)).Ends
      (fun _ w' => w'.store = w.store) w := ends_still (fun _ => rfl) fun _ => rfl
  exact hrelease.bind fun _ w' hw' => ends_pure (hw' ▸ h)

theorem ends_settle (e : Event) (dispatch : DispatchReport) (u : WorkUnit)
    (answer : Except Error Receipt) (w : World) : (settle e dispatch u answer).Ends
      (fun a w' => a = answerTo e dispatch u answer ∧ w'.store = w.store) w := by
  have hfinish : ∀ {w₁ : World}, w₁.store = w.store → ∀ a,
      (finish u a : Procedure (Except Error PublishOutcome)).Ends
        (fun a' w' => a' = a ∧ w'.store = w.store) w₁ := fun h₁ a =>
    ends_finish (R := fun a' store => a' = a ∧ store = w.store) ⟨rfl, h₁⟩
  cases answer with
  | error error => exact hfinish rfl _
  | ok receipt =>
    have hoffer : ∀ {w₁ : World}, w₁.store = w.store → ∀ report, (do
        perform (.offer u.notifications)
        finish u (.ok (.committed report)) : Procedure (Except Error PublishOutcome)).Ends
          (fun a w' => a = .ok (.committed report) ∧ w'.store = w.store) w₁ := by
      intro w₁ h₁ report
      have hsend : (perform (.offer u.notifications)).Ends (fun _ w' => w'.store = w₁.store) w₁ :=
        ends_still (fun _ => rfl) fun _ => rfl
      exact hsend.bind fun _ w₂ h₂ => hfinish (h₂.trans h₁) _
    simp only [settle]
    split
    · have hschedule : ∀ scope, (perform (.scheduleRebuild scope)).Ends
          (fun _ w' => w'.store = w.store) w := fun _ => ends_still (fun _ => rfl) fun _ => rfl
      exact (hschedule _).bind fun _ w₁ h₁ => hoffer h₁ _
    · exact hoffer rfl _

/-- What comes of an event while nothing else goes on: it is in the log, or the store answers to the
commit of what its dispatch stages. -/
inductive Concludes (s : Service) (w : World) (e : Event) :
    Except Error PublishOutcome → Store → Prop
  | known (h : w.store.hasEvent e.id = true) :
    Concludes s w e (.ok (.duplicate e.id)) w.store
  | dispatched (new : w.store.hasEvent e.id = false) (began ended : Instant)
    {answer : Except Error Receipt} {store' : Store}
    (commit : w.store.commit (s.dispatched w e began).staging.unit ended = (answer, store')) :
    Concludes s w e (answerTo e (s.dispatched w e began).report
      (s.dispatched w e began).staging.unit answer) store'

theorem record_concludes (hbuiltIn : s.extra = []) (hcommits : w.store.failingCommits = 0)
    {w₀ : World} (hw : w.Aside w₀) :
    (s.record e).Ends (fun answer w' => s.Concludes w e answer w'.store) w₀ := by
  have hdispatch : ∀ {w₁}, w.Aside w₁ →
      (s.dispatch (.start (w.store.context e.promoterKey)) 0 e).Ends
        (fun a w' => ∃ now,
          a = ((s.dispatched w e now).report, (s.dispatched w e now).staging.unit) ∧
          w'.store = w.store) w₁ := by
    intro w₁ h₁
    refine ends_perform (fun _ _ => rfl) fun w₂ w₃ h₂ h₃ => ?_
    have h : w.Aside w₂ := h₁.trans h₂.aside
    refine ⟨w₂.now, ?_, ?_⟩
    · cases h
      rfl
    · rw [h₃.store_eq]
      exact h.store_eq
  rw [record_eq]
  refine (ends_read _).bind ?_
  rintro known w₁ ⟨hknown, hpassed⟩
  rw [hw.store_eq] at hknown
  have h₁ : w.Aside w₁ := hw.trans hpassed.aside
  cases known with
  | true =>
    exact ends_pure (R := fun answer store' => s.Concludes w e answer store')
      (h₁.store_eq ▸ .known hknown.symm)
  | false =>
    rw [if_neg Bool.false_ne_true]
    unfold recordNew
    refine (ends_startUnit e.promoterKey).bind ?_
    rintro _ w₂ ⟨rfl, h₂⟩
    rw [h₁.store_eq]
    refine (hdispatch (h₁.trans h₂.aside)).bind ?_
    rintro a w₃ ⟨began, rfl, h₃⟩
    have hmoves := Store.commit_ne_switchRejected (belongs_dispatched hbuiltIn w e began).2
    refine (ends_commitDemoting hcommits h₃ hmoves).bind ?_
    rintro ⟨answer, u⟩ w₄ ⟨hu, ended, h₄⟩
    cases hu
    refine (ends_settle e _ _ answer w₄).weaken ?_
    rintro a w₅ ⟨rfl, h₅⟩
    rw [h₅]
    exact .dispatched hknown.symm began ended h₄

/-- The names that the dispatch of an event may give to others are not in the log. -/
def FreshFor (s : Service) (w : World) (e : Event) : Prop :=
  ∀ now n, w.ids.next ≤ n → n < (s.dispatched w e now).staging.ids.next →
    w.store.hasEvent (Id.ofNat n) = false

/-- How an event comes out that is new and was dispatched on a unit of work: it is recorded with all
that was staged, or some sum is out of range and nothing is stored. -/
structure RecordedUnlessOverflow (store : Store) (e : Event) (u : WorkUnit)
    (answer : Except Error PublishOutcome) (store' : Store) : Prop where
  staged : e ∈ u.events
  recorded : ¬ store.book.Overflows u.delta →
    (∃ report, answer = .ok (.committed report)) ∧ store'.facts = store.facts ++ u.events
  refused : store.book.Overflows u.delta →
    (∃ name, answer = .error (Error.overflow name)) ∧ store' = store

theorem Concludes.recorded_unless_overflow (hbuiltIn : s.extra = [])
    (hcommits : w.store.failingCommits = 0) (hnew : w.store.hasEvent e.id = false)
    (hfresh : s.FreshFor w e) {answer : Except Error PublishOutcome} {store' : Store}
    (h : s.Concludes w e answer store') : ∃ now, RecordedUnlessOverflow w.store e
      (s.dispatched w e now).staging.unit answer store' := by
  cases h with
  | known h =>
    rw [hnew] at h
    cases h
  | @dispatched _ began ended answer store' hcommit =>
    refine ⟨began, ?_⟩
    obtain ⟨⟨following, hfollowing⟩, hbelongs⟩ := belongs_dispatched hbuiltIn w e began
    have hstaged : e ∈ (s.dispatched w e began).staging.unit.events := by
      rw [hfollowing]
      exact List.mem_cons_self
    have hcheck := Store.check_of_belongs hbelongs rfl hnew fun n hfirst hlt =>
      hfresh began n hfirst hlt
    have hsettles := w.store.settles_commit hcommits hcheck ended
    rw [hcommit] at hsettles
    dsimp only at hsettles
    rcases hsettles with ⟨book, receipt, now, hmerge, rfl, hstore⟩ | ⟨name, hmerge, rfl, hstore⟩
    · refine ⟨hstaged, fun _ => ⟨⟨_, rfl⟩, by simp [hstore]⟩, fun hoverflow => ?_⟩
      obtain ⟨error, herror⟩ := Book.merge_eq_error_iff.mpr hoverflow
      rw [hmerge] at herror
      cases herror
    · have hknown : Error.overflow name ≠ .duplicateEvent e.id := fun h => by cases h
      simp only [answerTo, if_neg hknown]
      refine ⟨hstaged, fun hfits => ?_, fun _ => ⟨⟨name, rfl⟩, hstore⟩⟩
      exact (hfits (Book.merge_eq_error_iff.mp ⟨_, hmerge⟩)).elim

theorem ends_record (hbuiltIn : s.extra = []) (hcommits : w.store.failingCommits = 0)
    (hnew : w.store.hasEvent e.id = false) (hfresh : s.FreshFor w e) {w₀ : World}
    (hw : w.Aside w₀) : (s.record e).Ends (fun answer w' => ∃ now, RecordedUnlessOverflow w.store e
      (s.dispatched w e now).staging.unit answer w'.store) w₀ :=
  (record_concludes hbuiltIn hcommits hw).weaken fun _ _ h =>
    h.recorded_unless_overflow hbuiltIn hcommits hnew hfresh

/-- A signup or a purchase that is in order and new, published while nothing else goes on and no
commit is set to fail, always comes to an answer. Whatever its rules, their effects and the totals
do, it is recorded, with all that its dispatch staged, unless the sum of a stored total and a staged
one is out of range; then nothing is stored. -/
theorem publish_records_unless_overflow (hbuiltIn : s.extra = []) {e : Event}
    (hkind : e.kind = .signup ∨ e.kind = .purchase) (hvalid : e.validate = .ok ())
    (hnew : w.store.hasEvent e.id = false) (hcommits : w.store.failingCommits = 0)
    (hlocks : ∀ k ∈ e.lockKeys, w.locks.queue k = []) (hfresh : s.FreshFor w e) :
    (s.publish e).Ends (fun answer w' => ∃ now, RecordedUnlessOverflow w.store e
      (s.dispatched w e now).staging.unit answer w'.store) w := by
  unfold publish
  rw [accept_eq_ok hkind hvalid]
  exact ends_withLocks (R := fun answer store' => ∃ now, RecordedUnlessOverflow w.store e
    (s.dispatched w e now).staging.unit answer store') (nodup_sortedKeys _) hlocks
    fun w' hw' => ends_record hbuiltIn hcommits hnew hfresh hw'

/-- The report on an event that was committed. -/
def committed? : Except Error PublishOutcome → Option PublishReport
  | .ok (.committed report) => some report
  | _ => none

theorem eq_done_of_committed? {p : Procedure (Except Error PublishOutcome)}
    (test : PublishReport → Bool) (h : (p.answer?.bind committed?).any test = true) :
    ∃ report, p = .done (.ok (.committed report)) ∧ test report = true := by
  obtain ⟨report, hreport, htest⟩ := (Option.any_eq_true _ _).mp h
  obtain ⟨a, ha, hcommitted⟩ := Option.bind_eq_some_iff.mp hreport
  refine ⟨report, (eq_done_of_answer? ha).trans ?_, htest⟩
  unfold committed? at hcommitted
  split at hcommitted
  · cases hcommitted
    rfl
  · cases hcommitted

theorem amid_of_committed? (p : Procedure (Except Error PublishOutcome)) (w : World)
    (test : PublishReport → Bool)
    (h : ((p.goOn w).1.answer?.bind committed?).any test = true) :
    ∃ n report, p.Amid World.Passes w n (.done (.ok (.committed report))) (p.goOn w).2 ∧
      test report = true := by
  obtain ⟨report, hdone, htest⟩ := eq_done_of_committed? test h
  obtain ⟨n, hrun⟩ := amid_of_answer? (congrArg answer? hdone)
  exact ⟨n, report, hrun, htest⟩

/-- The first signup, which a rule rewards, is recorded. -/
theorem first_signup_recorded : ∃ (w w' : World) (e : Event) (n : ℕ) (report : PublishReport),
    e.kind = .signup ∧ e.validate = .ok () ∧ w.store.hasEvent e.id = false ∧
    w.store.failingCommits = 0 ∧
    ((Service.mk .default []).publish e).Amid World.Passes w n
      (.done (.ok (.committed report))) w' ∧
    e ∈ w'.store.facts := by
  let now : Instant := ⟨0, 0, by decide, by decide, by decide⟩
  let e : Event := .signup ⟨1⟩ ⟨2⟩ ⟨3⟩ ⟨4⟩ ⟨5⟩ ⟨6⟩ now
  let r : Rule := ⟨⟨7⟩, ⟨3⟩, "reward", .signup, none, [],
    .generateCommission (.fixed ⟨50000, by decide, by decide⟩), true⟩
  let s : Service := ⟨.default, []⟩
  let w : World := ((World.start now ⟨100⟩).perform (.putRule r)).2
  let w' : World := ((s.publish e).goOn w).2
  have hvalid : e.validate = .ok () := by decide +kernel
  have hends := publish_records_unless_overflow (s := s) (w := w) (e := e) rfl (.inl rfl) hvalid
    (by decide +kernel) rfl (fun _ _ => rfl) (fun _ _ _ _ => rfl)
  obtain ⟨n, report, hrun, -⟩ := amid_of_committed? (s.publish e) w (fun _ => true)
    (by decide +kernel)
  obtain ⟨time, hrecorded⟩ := (hends.amid hrun) w' (.refl w')
  have hfits : ¬ w.store.book.Overflows (s.dispatched w e time).staging.unit.delta := by
    intro hoverflow
    obtain ⟨⟨name, hname⟩, -⟩ := hrecorded.refused hoverflow
    cases hname
  refine ⟨w, w', e, n, report, rfl, hvalid, by decide +kernel, rfl, hrun, ?_⟩
  rw [(hrecorded.recorded hfits).2]
  exact List.mem_append_right _ hrecorded.staged

/-- A reward may be too large to be added to another of its promoter: then a signup is refused
after all attempts to commit it, and it is not recorded. -/
theorem publish_may_refuse_new_event : ¬ ∀ (s : Service) (origin : Instant) (ids : IdSupply)
    (t : Traffic) (e : Event) (n : ℕ) (answer : Except Error PublishOutcome) (w' : World),
    s.extra = [] → s.Reaches ⟨.start origin ids, []⟩ t → t.world.store.failingCommits = 0 →
    (e.kind = .signup ∨ e.kind = .purchase) → e.validate = .ok () →
    t.world.store.hasEvent e.id = false →
    (∀ m, t.world.ids.next ≤ m → m < w'.ids.next → t.world.store.hasEvent (Id.ofNat m) = false) →
    (∀ k ∈ e.lockKeys, t.world.locks.queue k = []) →
    (s.publish e).Amid World.Passes t.world n (.done answer) w' →
    (∃ report, answer = .ok (.committed report)) ∧ w'.store.hasEvent e.id = true := by
  intro hrecorded
  let now : Instant := ⟨0, 0, by decide, by decide, by decide⟩
  let e : Event := .signup ⟨1⟩ ⟨2⟩ ⟨3⟩ ⟨4⟩ ⟨5⟩ ⟨6⟩ now
  let e' : Event := { e with id := ⟨9⟩ }
  let r : Rule := ⟨⟨7⟩, ⟨3⟩, "reward", .signup, none, [],
    .generateCommission (.fixed ⟨9000000000000000000, by decide, by decide⟩), true⟩
  let s : Service := ⟨.default, []⟩
  let t : Traffic := ⟨((s.publish e).goOn ((World.start now ⟨100⟩).perform (.putRule r)).2).2,
    [⟨.putRule r, ((s.serve (.putRule r)).goOn (.start now ⟨100⟩)).1⟩,
      ⟨.publish e, ((s.publish e).goOn ((World.start now ⟨100⟩).perform (.putRule r)).2).1⟩]⟩
  have hreaches : s.Reaches ⟨.start now ⟨100⟩, []⟩ t :=
    (Reaches.alone s (.start now ⟨100⟩) [] (.putRule r)).trans (Reaches.alone s _ _ (.publish e))
  -- the first attempt and three more, each after a longer wait
  let last := resume (resume (resume ((s.publish e').goOn t.world) 50) 100) 200
  have hlast : ∃ n, (s.publish e').Amid World.Passes t.world n last.1 last.2 :=
    amid_resume 200 (amid_resume 100 (amid_resume 50
      (Amid.start.steps (steps_goOn (s.publish e') t.world))))
  obtain ⟨n, hn⟩ := hlast
  have hended : last.1.answer?.isSome = true := by decide +kernel
  obtain ⟨answer, hanswer⟩ := Option.isSome_iff_exists.mp hended
  rw [eq_done_of_answer? hanswer] at hn
  have hlogged := (hrecorded s now ⟨100⟩ t e' n answer last.2 rfl hreaches (by decide +kernel)
    (.inl rfl) (by decide +kernel) (by decide +kernel) (by decide +kernel) (by decide +kernel)
    hn).2
  exact absurd hlogged (by decide +kernel)

end Service

end Referral
