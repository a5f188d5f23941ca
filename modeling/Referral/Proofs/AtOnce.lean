import Referral.Proofs.Confinement
import Referral.Proofs.Permitted

/-!
# Publishing at one stroke

What comes of an event is decided by what is stored at one moment: a producer may not publish it, or
it is in the log, or the store answers to the commit of what its dispatch stages. A procedure that
has the world to itself brings about just that.
-/

namespace Referral

/-- Nobody is at a lock, and no permit is out. -/
structure World.Rests (w : World) : Prop where
  locks : ∀ key, w.locks.queue key = []
  permits : w.permits.out = []

/-! ## Commits of what a dispatch stages -/

namespace Store

variable {store : Store} {u : WorkUnit} {e : Event} {first : ℕ} {staging : Staging} {now : Instant}

/-- Without failures that are asked for, none is ever. -/
theorem failingCommits_commit (hzero : store.failingCommits = 0) (u : WorkUnit) (now : Instant) :
    (store.commit u now).2.failingCommits = 0 := by
  rcases store.commit_cases u now with ⟨hfailing, -⟩ | ⟨-, _, -, h⟩ | ⟨-, -, book, -, h⟩
  · omega
  · rw [h, hzero]
  · rw [h]
    exact (failingCommits_write store u book now).trans hzero

/-- An event that is in the log by now is found there first. -/
theorem commit_known {following : List Event} (hzero : store.failingCommits = 0)
    (hstaged : u.events = e :: following) (hknown : store.hasEvent e.id = true) :
    store.commit u now = (.error (.duplicateEvent e.id), store) := by
  have hnone : ¬ 0 < store.failingCommits := by omega
  have hfound : u.events.find? (fun g => store.hasEvent g.id) = some e := by
    simp [hstaged, hknown]
  have hcheck : store.check u = .error (.duplicateEvent e.id) := by simp only [check, hfound]
  simp only [commit, if_neg hnone, hcheck]

end Store

namespace Service

open Procedure

variable {s : Service} {w : World} {e : Event} {store : Store}

theorem belongs_dispatchOn (hbuiltIn : s.extra = []) (store : Store) (e : Event) (ids : IdSupply)
    (now : Instant) :
    (∃ following, (s.dispatchOn store e ids now).staging.unit.events = e :: following) ∧
      (s.dispatchOn store e ids now).staging.Belongs store e ids.next [] :=
  belongs_dispatched hbuiltIn { World.start now ids with store } e now

/-- What comes of an event that is published at one stroke: the answer, and what is stored then. The
clock starts at `origin`. -/
inductive AtOnce (s : Service) (origin : Instant) (e : Event) (store : Store) :
    Except Error PublishOutcome → Store → Prop
  | invalid {error : Error} (h : accept e = .error error) :
    AtOnce s origin e store (.error error) store
  | known (valid : accept e = .ok ()) (h : store.hasEvent e.id = true) :
    AtOnce s origin e store (.ok (.duplicate e.id)) store
  | dispatched (valid : accept e = .ok ()) (new : store.hasEvent e.id = false) (ids : IdSupply)
    {began ended : ℕ} (hle : began ≤ ended) {answer : Except Error Receipt} {store' : Store}
    (commit : store.commit (s.dispatchOn store e ids (origin.after began)).staging.unit
      (origin.after ended) = (answer, store')) :
    AtOnce s origin e store
      (answerTo e (s.dispatchOn store e ids (origin.after began)).report
        (s.dispatchOn store e ids (origin.after began)).staging.unit answer) store'

/-- The store is as it was, or as the commit of what the dispatch stages leaves it. -/
theorem AtOnce.store_eq {origin : Instant} {a : Except Error PublishOutcome} {store' : Store}
    (h : s.AtOnce origin e store a store') : store' = store ∨ ∃ ids began ended,
      store' = (store.commit (s.dispatchOn store e ids began).staging.unit ended).2 := by
  cases h with
  | invalid => exact .inl rfl
  | known => exact .inl rfl
  | dispatched _ _ _ _ commit => exact .inr ⟨_, _, _, (congrArg Prod.snd commit).symm⟩

theorem AtOnce.failingCommits {origin : Instant} {a : Except Error PublishOutcome} {store' : Store}
    (h : s.AtOnce origin e store a store') (hzero : store.failingCommits = 0) :
    store'.failingCommits = 0 := by
  rcases h.store_eq with rfl | ⟨ids, began, ended, rfl⟩
  · exact hzero
  · exact Store.failingCommits_commit hzero _ _

/-! ## Alone in the world -/

theorem runs_commitRetrying_refused {u : WorkUnit} {error : Error}
    (hzero : w.store.failingCommits = 0) (h : (w.store.commit u w.now).1 = .error error)
    (backoff : ℕ → Duration) (retries attempt : ℕ) :
    ∃ w', (commitRetrying backoff u retries attempt).Runs w (.error error) w' ∧ w.Passes w' := by
  induction retries generalizing w attempt with
  | zero =>
    have hcommit := runs_perform (w := w) (.commit u) rfl
    simp only [World.perform, Store.commit_eq_of_error hzero h] at hcommit
    exact ⟨w, hcommit, .refl w⟩
  | succ retries ih =>
    have hcommit := runs_perform (w := w) (.commit u) rfl
    simp only [World.perform, Store.commit_eq_of_error hzero h] at hcommit
    unfold commitRetrying
    by_cases htransient : error.isTransient = true
    · obtain ⟨w₁, hsleep, hpass⟩ := runs_sleep (backoff attempt).millisUp w
      have hagain : (w₁.store.commit u w₁.now).1 = .error error := by
        rw [hpass.store_eq, Store.commit_eq_of_error hzero h]
      obtain ⟨w', hrest, hpass'⟩ := ih (hpass.store_eq ▸ hzero) hagain (attempt + 1)
      refine ⟨w', hcommit.bind ?_, hpass.trans hpass'⟩
      simp only [htransient, if_true]
      exact hsleep.bind hrest
    · refine ⟨w, hcommit.bind ?_, .refl w⟩
      simp only [htransient]
      exact runs_pure _ w

/-- A commit comes out alone as its first attempt does. -/
theorem runs_commit {u : WorkUnit} {answer : Except Error Receipt} {store' : Store}
    (hzero : w.store.failingCommits = 0) (h : w.store.commit u w.now = (answer, store')) :
    ∃ w', (s.commit u).Runs w answer w' ∧ World.Passes { w with store := store' } w' := by
  cases answer with
  | ok receipt => exact ⟨_, runs_of_goOn (goOn_commit h), .refl _⟩
  | error error =>
    have hrefused : (w.store.commit u w.now).1 = .error error := by rw [h]
    have hsame : store' = w.store := by
      rw [Store.commit_eq_of_error hzero hrefused] at h
      exact (Prod.mk.inj h).2.symm
    rw [hsame]
    exact runs_commitRetrying_refused hzero hrefused _ _ _

theorem runs_commitDemoting {u : WorkUnit} {answer : Except Error Receipt} {store' : Store}
    (hzero : w.store.failingCommits = 0) (h : w.store.commit u w.now = (answer, store'))
    (hmoves : ∀ promoter, answer ≠ .error (.switchRejected promoter)) :
    ∃ w', (s.commitDemoting u).Runs w (answer, u) w' ∧
      World.Passes { w with store := store' } w' := by
  obtain ⟨w', hcommit, hpass⟩ := runs_commit (s := s) hzero h
  refine ⟨w', hcommit.bind ?_, hpass⟩
  split
  · rename_i promoter
    exact (hmoves promoter rfl).elim
  · exact runs_pure _ w'

theorem runs_settle (e : Event) (dispatch : DispatchReport) (u : WorkUnit)
    (answer : Except Error Receipt) (w : World) :
    ∃ w', (settle e dispatch u answer).Runs w (answerTo e dispatch u answer) w' ∧
      w'.store = w.store ∧ w'.locks = w.locks ∧ w'.permits = w.permits.releaseAll u.permits ∧
      w'.origin = w.origin := by
  cases answer with
  | error error => exact ⟨_, runs_of_goOn rfl, rfl, rfl, rfl, rfl⟩
  | ok receipt =>
    simp only [settle]
    split
    · exact ⟨_, runs_of_goOn rfl, rfl, rfl, rfl, rfl⟩
    · exact ⟨_, runs_of_goOn rfl, rfl, rfl, rfl, rfl⟩

theorem runs_record (hbuiltIn : s.extra = []) (hzero : w.store.failingCommits = 0)
    (hpermits : w.permits.out = []) (hnew : w.store.hasEvent e.id = false) {ended : ℕ}
    (hle : w.elapsed ≤ ended) {answer : Except Error Receipt} {store' : Store}
    (hcommit : w.store.commit (s.dispatchOn w.store e w.ids w.now).staging.unit
      (w.origin.after ended) = (answer, store')) :
    ∃ w', (s.record e).Runs w (answerTo e (s.dispatchOn w.store e w.ids w.now).report
        (s.dispatchOn w.store e w.ids w.now).staging.unit answer) w' ∧
      w'.store = store' ∧ w'.locks = w.locks ∧ w'.permits.out = [] ∧ w'.origin = w.origin := by
  have hfree : e.promoterKey ∉ w.permits.out := by
    rw [hpermits]
    exact List.not_mem_nil
  obtain ⟨hunit, hreport⟩ := dispatched_eq hbuiltIn hfree w.now
  rw [← hunit] at hcommit ⊢
  rw [← hreport]
  have hmoves : ∀ promoter, answer ≠ .error (.switchRejected promoter) := fun promoter => by
    have hne := Store.commit_ne_switchRejected (belongs_dispatched hbuiltIn w e w.now).2
      (w.origin.after ended) promoter
    rwa [hcommit] at hne
  let c := s.dispatched w e w.now
  let w₁ : World :=
    { w with permits := c.staging.permits, ids := c.staging.ids, calls := c.calls }
  let w₂ : World := { w₁ with elapsed := w₁.elapsed + (ended - w.elapsed), turns := w₁.turns + 0 }
  have hread : (Procedure.read fun store => store.hasEvent e.id).Runs w false w := by
    rw [← hnew]
    exact runs_of_goOn rfl
  have hstart : (startUnit e.promoterKey).Runs w (.start (w.store.context e.promoterKey)) w :=
    runs_of_goOn rfl
  have hstage : (s.dispatch (.start (w.store.context e.promoterKey)) 0 e).Runs w
      (c.report, c.staging.unit) w₁ := runs_of_goOn rfl
  have hnow : w₂.now = w.origin.after ended := by
    change w.origin.after (w.elapsed + (ended - w.elapsed)) = _
    rw [Nat.add_sub_cancel' hle]
  have hcommit₂ : w₂.store.commit c.staging.unit w₂.now = (answer, store') := by
    rw [hnow]
    exact hcommit
  have hzero₂ : w₂.store.failingCommits = 0 := hzero
  obtain ⟨w₃, hdemote, hpass⟩ := runs_commitDemoting (s := s) (w := w₂) hzero₂ hcommit₂ hmoves
  obtain ⟨w₄, hsettled, hstore, hlocks, hback, horigin⟩ :=
    runs_settle e c.report c.staging.unit answer w₃
  have hrun : (s.record e).Runs w (answerTo e c.report c.staging.unit answer) w₄ := by
    rw [record_eq]
    refine hread.bind ?_
    rw [if_neg Bool.false_ne_true]
    refine hstart.bind (hstage.bind ?_)
    exact .after (.pass _ _) (hdemote.bind hsettled)
  have hnone : w₄.permits.out = [] := by
    rw [hback, List.eq_nil_iff_forall_not_mem]
    intro k hk
    rw [Permits.mem_releaseAll, hpass.permits_eq] at hk
    rcases (draws_dispatched hbuiltIn w e w.now k).mp hk.2 with hout | hheld
    · rw [hpermits] at hout
      cases hout
    · exact hk.1 hheld
  exact ⟨w₄, hrun, hstore.trans hpass.store_eq, hlocks.trans hpass.locks_eq, hnone,
    horigin.trans hpass.origin_eq⟩

/-- A procedure that takes locks at which there is nobody. -/
theorem runs_withLocks {α : Type} {body : Procedure α} {a : α} {ks : List LockKey} {w₁ : World}
    (hks : ks.Nodup) (hfree : ∀ key ∈ ks, w.locks.queue key = [])
    (hbody : body.Runs { w with
      locks := ks.foldl (fun t k => t.reach w.nextTask k) w.locks
      nextTask := w.nextTask + 1 } a w₁) :
    (withLocks ks body).Runs w a { w₁ with locks := w₁.locks.release w.nextTask ks } := by
  have hlock := goOn_lockAll (w := { w with nextTask := w.nextTask + 1 }) w.nextTask hks hfree
  have htask : (perform .newTask).goOn w =
      (done w.nextTask, { w with nextTask := w.nextTask + 1 }) := rfl
  unfold withLocks
  exact (runs_of_goOn htask).bind ((runs_of_goOn hlock).bind
    (hbody.bind ((runs_of_goOn rfl).bind (runs_pure a _))))

/-- What comes of an event at one stroke comes of it in a world where nothing else goes on, with
identifiers and a clock to suit. All locks and permits are given back. -/
theorem AtOnce.runs (hbuiltIn : s.extra = []) {a : Except Error PublishOutcome} {store' : Store}
    (h : s.AtOnce w.origin e w.store a store') (hw : w.Rests)
    (hzero : w.store.failingCommits = 0) :
    ∃ (ids : IdSupply) (elapsed : ℕ) (w' : World),
      (s.publish e).Runs { w with ids, elapsed } a w' ∧ w'.store = store' ∧ w'.Rests ∧
      w'.origin = w.origin := by
  have hnodup : e.lockKeys.Nodup := nodup_sortedKeys _
  let task := w.nextTask
  let locks := e.lockKeys.foldl (fun t k => t.reach task k) w.locks
  -- the locks are taken, and given back at the end
  have hlocked : ∀ (ids : IdSupply) (elapsed : ℕ), accept e = .ok () →
      (∃ w₁, (s.record e).Runs { w with ids, elapsed, locks, nextTask := task + 1 } a w₁ ∧
        w₁.store = store' ∧ w₁.locks = locks ∧ w₁.permits.out = [] ∧ w₁.origin = w.origin) →
      ∃ (ids : IdSupply) (elapsed : ℕ) (w' : World),
        (s.publish e).Runs { w with ids, elapsed } a w' ∧ w'.store = store' ∧ w'.Rests ∧
        w'.origin = w.origin := by
    rintro ids elapsed hvalid ⟨w₁, hrun, hstore, hlocks, hpermits, horigin⟩
    have hpublish : (s.publish e).Runs { w with ids, elapsed } a
        { w₁ with locks := w₁.locks.release task e.lockKeys } := by
      unfold publish
      rw [hvalid]
      exact runs_withLocks hnodup (fun key _ => hw.locks key) hrun
    refine ⟨ids, elapsed, _, hpublish, hstore, ⟨fun key => ?_, hpermits⟩, horigin⟩
    dsimp only
    rw [LockTable.queue_release _ _ hnodup, hlocks, LockTable.queue_reachAll _ _ hnodup,
      hw.locks key]
    split <;> simp
  cases h with
  | invalid h =>
    refine ⟨w.ids, w.elapsed, w, ?_, rfl, hw, rfl⟩
    unfold publish
    rw [h]
    exact runs_pure _ w
  | known hvalid hknown =>
    let w₁ : World := { w with locks, nextTask := task + 1 }
    have hread : (Procedure.read fun store => store.hasEvent e.id).Runs w₁ true w₁ := by
      rw [← hknown]
      exact runs_of_goOn rfl
    have hrecord : (s.record e).Runs w₁ (.ok (.duplicate e.id)) w₁ := by
      unfold record
      refine hread.bind ?_
      rw [if_pos rfl]
      exact runs_pure _ w₁
    exact hlocked w.ids w.elapsed hvalid ⟨w₁, hrecord, rfl, rfl, hw.permits, rfl⟩
  | @dispatched hvalid hnew ids began ended hle answer store' hcommit =>
    let w₁ : World := { w with ids, elapsed := began, locks, nextTask := task + 1 }
    have hrecord := runs_record (w := w₁) hbuiltIn hzero hw.permits hnew hle hcommit
    exact hlocked ids began hvalid hrecord

end Service

end Referral
