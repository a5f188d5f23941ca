import Referral.Proofs.Interleaving

/-!
# Checked rules

Rules reach the store only through the check that refuses commissions on commissions. No request
changes the store past its own operations, whatever the settings and the handlers, so every rule
that is ever stored has passed the check.
-/

namespace Referral

/-- A rule that passed its check does not generate commissions from commissions. -/
theorem Rule.emits_eq_false {r : Rule} (h : r.validate = .ok ())
    (htrigger : r.trigger = .commissionGenerated) : r.effect.emits = false := by
  unfold validate feedsItself at h
  split at h
  · cases h
  · simp_all

/-- All rules in the store have passed their check. -/
def Store.Checked (s : Store) : Prop := ∀ r ∈ s.rules, r.validate = .ok ()

/-- Whether an action goes through the operations of the store. -/
def Action.IsRegular {α : Type} : Action α → Prop
  | .tune _ => False
  | _ => True

/-- Whether an action has nothing to do with units of work, with permits to switch, or with how the
store behaves. -/
def Action.IsAside {α : Type} : Action α → Prop
  | .tune _ | .commit _ | .stage _ | .draft _ _ | .acquirePermit _ => False
  | _ => True

/-- Whether an action looks at the world, waits, or puts rebuilt totals in their place. -/
def Action.IsUpkeep {α : Type} : Action α → Prop
  | .read _ | .momentAfter _ | .awaitMoment _ | .turns | .awaitTurn _ | .replaceTotals _ _ _ => True
  | _ => False

theorem Action.IsUpkeep.isAside {α : Type} {action : Action α} (h : action.IsUpkeep) :
    action.IsAside := by
  cases action with
  | read | momentAfter | awaitMoment | turns | awaitTurn | replaceTotals => trivial
  | _ => exact h.elim

theorem Action.IsAside.isRegular {α : Type} {action : Action α} (h : action.IsAside) :
    action.IsRegular := by
  cases action with
  | tune f => exact h.elim
  | _ => trivial

theorem Store.checked_empty : empty.Checked := fun r h => by simp [empty] at h

/-- What an action that goes through the operations of the store does to it. -/
theorem Action.IsRegular.change {α : Type} {action : Action α} (h : action.IsRegular) (w : World) :
    (w.perform action).2.store = w.store ∨ w.store.Change (w.perform action).2.store := by
  cases action with
  | tune f => exact h.elim
  | putRule r =>
    simp only [World.perform, World.updateStore]
    split
    · rename_i hput
      exact .inr (.putRule hput)
    · exact .inl rfl
  | putCircle c =>
    simp only [World.perform, World.updateStore]
    split
    · rename_i hput
      exact .inr (.putCircle hput)
    · exact .inl rfl
  | assignCircle k circle =>
    simp only [World.perform, World.updateStore]
    split
    · rename_i hassign
      exact .inr (.assignCircle hassign)
    · exact .inl rfl
  | commit u => exact .inr (.commit u w.now)
  | replaceTotals scope book asOf =>
    simp only [World.perform]
    split
    · rename_i hreplace
      exact .inr (.replaceTotals hreplace)
    · exact .inl rfl
  | draft name f =>
    simp only [World.perform, World.onDraft]
    split <;> exact .inl rfl
  | acquirePermit k =>
    simp only [World.perform]
    split <;> exact .inl rfl
  | _ => exact .inl rfl

/-- No operation of the store lets in a rule that was not checked. -/
theorem Store.Checked.change {s s' : Store} (h : s.Checked) (hchange : s.Change s') :
    s'.Checked := by
  cases hchange with
  | commit u now =>
    rcases s.commit_store u now with ⟨n, hstore⟩ | ⟨-, book, -, hstore⟩
    · rw [hstore]
      exact h
    · rw [hstore, Checked, rules_write]
      exact h
  | putRule hput =>
    obtain ⟨hvalid, rules, rfl, hrules⟩ := putRule_eq_ok hput
    intro r' hr'
    rcases hrules r' hr' with hr' | rfl
    · exact h r' hr'
    · exact hvalid
  | putCircle hput =>
    rw [putCircle_eq_ok hput]
    exact h
  | assignCircle hassign =>
    rw [(assignCircle_eq_ok hassign).2]
    exact h
  | replaceTotals hreplace =>
    obtain ⟨book, -, -, rfl⟩ := replaceTotals_eq_ok.mp hreplace
    exact h
  | overwriteTotals => exact h
  | disturb => exact h

namespace Procedure

/-- All actions of a procedure are of one kind. -/
def Only (kind : ∀ α, Action α → Prop) : {α : Type} → Procedure α → Prop
  | _, done _ => True
  | _, act action next => kind _ action ∧ ∀ b, (next b).Only kind
  | _, both first second next =>
    first.Only kind ∧ second.Only kind ∧ ∀ b c, (next b c).Only kind

/-- All actions of a procedure go through the operations of the store. -/
abbrev IsRegular {α : Type} (p : Procedure α) : Prop := p.Only fun _ action => action.IsRegular

/-- All actions of a procedure are done on the side. -/
abbrev IsAside {α : Type} (p : Procedure α) : Prop := p.Only fun _ action => action.IsAside

variable {α β : Type} {kind : ∀ α, Action α → Prop}

theorem only_pure (a : α) : (pure a : Procedure α).Only kind := trivial

theorem only_perform {action : Action α} (h : kind α action) : (perform action).Only kind :=
  ⟨h, fun _ => trivial⟩

theorem Only.bind {p : Procedure β} {f : β → Procedure α} (h : p.Only kind)
    (hf : ∀ b, (f b).Only kind) : (p >>= f).Only kind := by
  induction p with
  | done b => exact hf b
  | act action next ih => exact ⟨h.1, fun b => ih b (h.2 b) hf⟩
  | both first second next _ _ ih => exact ⟨h.1, h.2.1, fun b c => ih b c (h.2.2 b c) hf⟩

theorem IsAside.isRegular {p : Procedure α} (h : p.IsAside) : p.IsRegular := by
  induction p with
  | done a => trivial
  | act action next ih => exact ⟨h.1.isRegular, fun b => ih b (h.2 b)⟩
  | both first second next ihFirst ihSecond ihNext =>
    exact ⟨ihFirst h.1, ihSecond h.2.1, fun b c => ihNext b c (h.2.2 b c)⟩

theorem isRegular_perform {action : Action α} (h : action.IsRegular) :
    (perform action).IsRegular := only_perform h

theorem isAside_read (f : Store → α) : (read f).IsAside := only_perform trivial

theorem only_lockAll (task : TaskId) (ks : List LockKey) (hreach : ∀ k, kind _ (.reachLock task k))
    (hawait : ∀ k, kind _ (.awaitLock task k)) : (lockAll task ks).Only kind := by
  induction ks with
  | nil => trivial
  | cons k ks ih => exact ⟨hreach k, fun _ => ⟨hawait k, fun _ => ih⟩⟩

theorem isAside_lockAll (task : TaskId) (ks : List LockKey) : (lockAll task ks).IsAside :=
  only_lockAll task ks (fun _ => trivial) fun _ => trivial

/-- What is left of a regular procedure is regular, and each of its actions changes the store by one
of the operations at most. -/
theorem IsRegular.change {p q : Procedure α} {w w' : World} (hstep : p.Step w q w')
    (h : p.IsRegular) : q.IsRegular ∧ (w'.store = w.store ∨ w.store.Change w'.store) := by
  induction hstep with
  | act hready => exact ⟨h.2 _, h.1.change _⟩
  | first _ ih =>
    obtain ⟨hp, hw'⟩ := ih h.1
    exact ⟨⟨hp, h.2⟩, hw'⟩
  | second _ ih =>
    obtain ⟨hq, hw'⟩ := ih h.2.1
    exact ⟨⟨h.1, hq, h.2.2⟩, hw'⟩
  | join => exact ⟨h.2.2 _ _, .inl rfl⟩

/-- What is left of a regular procedure is regular, and its actions leave all rules checked. -/
theorem IsRegular.step {p q : Procedure α} {w w' : World} (hstep : p.Step w q w')
    (h : p.IsRegular) (hw : w.store.Checked) : q.IsRegular ∧ w'.store.Checked := by
  obtain ⟨hq, hsame | hchange⟩ := h.change hstep
  · rw [hsame]
    exact ⟨hq, hw⟩
  · exact ⟨hq, hw.change hchange⟩

theorem isRegular_withLocks (ks : List LockKey) {body : Procedure α} (h : body.IsRegular) :
    (withLocks ks body).IsRegular := by
  refine .bind (only_perform trivial) fun task => ?_
  refine (isAside_lockAll task ks).isRegular.bind fun _ => h.bind fun a => ?_
  exact .bind (only_perform trivial) fun _ => only_pure a

/-! ## Maintenance -/

section Upkeep

variable (hkind : ∀ {α : Type} {action : Action α}, action.IsUpkeep → kind α action)

include hkind

theorem only_read (f : Store → α) : (read f).Only kind := only_perform (hkind trivial)

theorem only_sleep (millis : ℕ) : (sleep millis).Only kind :=
  ⟨hkind trivial, fun _ => only_perform (hkind trivial)⟩

theorem only_foldLog {cancelled : Procedure Bool} (h : cancelled.Only kind) (scope : Scope)
    (size watermark batches after : ℕ) (book : Book) (folded : ℕ) :
    (foldLog cancelled scope size watermark batches after book folded).Only kind := by
  induction batches generalizing after book folded with
  | zero => exact only_pure _
  | succ batches ih =>
    have hpause : pause.Only kind := ⟨hkind trivial, fun _ => only_perform (hkind trivial)⟩
    have hscan : (scan scope after size).Only kind :=
      (only_read hkind _).bind fun _ => (only_sleep hkind _).bind fun _ => only_read hkind _
    unfold foldLog
    refine h.bind fun stop => ?_
    split
    · exact only_pure _
    refine hscan.bind fun batch => ?_
    dsimp only
    split
    · exact only_pure _
    split
    · exact only_pure _
    split
    · exact hpause.bind fun _ => ih _ _ _
    · exact only_pure _

theorem only_rebuild (config : Config) {cancelled : Procedure Bool} (h : cancelled.Only kind)
    (scope : Scope) : (rebuild config cancelled scope).Only kind := by
  unfold rebuild
  refine (only_read hkind _).bind fun watermark => ?_
  refine (only_foldLog hkind h _ _ _ _ _ _ _).bind fun answer => ?_
  split
  · exact only_pure _
  refine h.bind fun stop => ?_
  split
  · exact only_pure _
  · exact .bind (only_perform (hkind trivial)) fun _ => only_pure _

theorem only_verify (config : Config) (scope : Scope) : (verify config scope).Only kind := by
  unfold verify
  refine (only_read hkind _).bind fun snapshot => ?_
  refine (only_foldLog hkind (only_pure false) _ _ _ _ _ _ _).bind fun answer => ?_
  split
  · exact only_pure _
  dsimp only
  split
  · exact only_pure _
  · refine .bind (only_perform (hkind trivial)) fun answer => ?_
    split <;> exact only_pure _

end Upkeep

theorem isAside_sleep (millis : ℕ) : (sleep millis).IsAside :=
  only_sleep Action.IsUpkeep.isAside millis

theorem isAside_rebuild (config : Config) {cancelled : Procedure Bool} (h : cancelled.IsAside)
    (scope : Scope) : (rebuild config cancelled scope).IsAside :=
  only_rebuild Action.IsUpkeep.isAside config h scope

theorem isAside_verify (config : Config) (scope : Scope) : (verify config scope).IsAside :=
  only_verify Action.IsUpkeep.isAside config scope

end Procedure

namespace Service

open Procedure

variable (s : Service)

/-! ## Requests -/

theorem isAside_startUnit (k : PromoterKey) : (startUnit k).IsAside :=
  (isAside_read _).bind fun _ => only_pure _

theorem isRegular_stageWith {α : Type} (u : WorkUnit) (f : Staging → α × Staging) :
    (stageWith u f).IsRegular := isRegular_perform trivial

theorem isAside_finish {α : Type} (u : WorkUnit) (answer : α) : (finish u answer).IsAside :=
  .bind (only_perform trivial) fun _ => only_pure _

theorem isRegular_commit (u : WorkUnit) : (s.commit u).IsRegular := by
  have hretrying : ∀ retries attempt,
      (commitRetrying s.config.backoff u retries attempt).IsRegular := by
    intro retries
    induction retries with
    | zero => exact fun _ => isRegular_perform trivial
    | succ retries ih =>
      intro attempt
      unfold commitRetrying
      refine .bind (isRegular_perform trivial) fun answer => ?_
      split
      · exact only_pure _
      split
      · exact (isAside_sleep _).isRegular.bind fun _ => ih _
      · exact only_pure _
  exact hretrying _ _

theorem isRegular_commitDemoting (u : WorkUnit) : (s.commitDemoting u).IsRegular := by
  unfold commitDemoting
  refine (s.isRegular_commit u).bind fun answer => ?_
  split
  · split
    · exact only_pure _
    · refine (isRegular_stageWith u _).bind fun a => ?_
      exact (s.isRegular_commit a.2).bind fun _ => only_pure _
  · exact only_pure _

theorem isRegular_publish (e : Event) : (s.publish e).IsRegular := by
  unfold publish
  split
  · exact only_pure _
  refine isRegular_withLocks _ ?_
  unfold record
  refine (isAside_read _).isRegular.bind fun known => ?_
  split
  · exact only_pure _
  refine (isAside_startUnit _).isRegular.bind fun u => .bind (isRegular_perform trivial) fun a => ?_
  refine (s.isRegular_commitDemoting a.2).bind fun answer => ?_
  dsimp only
  split
  · exact (isAside_finish _ _).isRegular
  have hoffer : ∀ (ns : List Notification) (u : WorkUnit) (answer : Except Error PublishOutcome),
      (do
        perform (.offer ns)
        finish u answer : Procedure (Except Error PublishOutcome)).IsRegular :=
    fun _ u answer => .bind (isRegular_perform trivial) fun _ => (isAside_finish u answer).isRegular
  split
  · exact .bind (isRegular_perform trivial) fun _ => hoffer _ _ _
  · exact hoffer _ _ _

theorem isRegular_switchCircle (k : PromoterKey) (target : CircleId) :
    (s.switchCircle k target).IsRegular := by
  have hrelease : ∀ answer : Except Error SwitchOutcome, (do
      perform (.releasePermits [k])
      return answer : Procedure (Except Error SwitchOutcome)).IsRegular :=
    fun answer => .bind (isRegular_perform trivial) fun _ => only_pure answer
  unfold switchCircle
  refine .bind (isRegular_perform trivial) fun acquired => ?_
  split
  · exact only_pure _
  refine (isAside_read _).isRegular.bind fun c => .bind (isRegular_perform trivial) fun now => ?_
  split
  · exact hrelease _
  · unfold commitSwitch
    refine (s.isRegular_commit _).bind fun answer => ?_
    split
    · exact (isAside_finish _ _).isRegular
    · exact .bind (isRegular_perform trivial) fun _ => (isAside_finish _ _).isRegular
  · exact hrelease _
  · exact hrelease _

theorem isRegular_stillFailing (f : Failure) (error : Error) :
    (s.stillFailing f error).IsRegular := by
  unfold stillFailing
  exact (isAside_startUnit _).isRegular.bind fun _ =>
    (s.isRegular_commit _).bind fun _ => only_pure _

theorem isRegular_resolveOnly (f : Failure) (ts : List Transition) :
    (s.resolveOnly f ts).IsRegular := by
  unfold resolveOnly
  exact (isAside_startUnit _).isRegular.bind fun _ =>
    (s.isRegular_commit _).bind fun _ => only_pure _

theorem isAside_sourceEvent (f : Failure) : (sourceEvent f).IsAside := by
  unfold sourceEvent
  split
  · exact only_pure _
  · refine (isAside_read _).bind fun stored => ?_
    split <;> exact only_pure _

theorem isRegular_settleRetry (f : Failure) (result : Except Error (List Event)) (u : WorkUnit) :
    (s.settleRetry f result u).IsRegular := by
  unfold settleRetry
  cases result with
  | error error =>
    exact (s.isRegular_stillFailing f error).bind fun _ => (isAside_finish u _).isRegular
  | ok children =>
    have heach : ∀ (es : List Event) (u : WorkUnit),
        (s.dispatchEach f.depth.next es u).IsRegular := by
      intro es
      induction es with
      | nil => exact fun u => only_pure u
      | cons e es ih => exact fun u => .bind (isRegular_perform trivial) fun a => ih a.2
    refine (heach children u).bind fun u => (s.isRegular_commitDemoting _).bind fun answer => ?_
    dsimp only
    split
    · exact (isAside_finish _ _).isRegular
    · exact .bind (isRegular_perform trivial) fun _ => (isAside_finish _ _).isRegular

theorem isRegular_retrySwitch (f : Failure) : (s.retrySwitch f).IsRegular := by
  unfold retrySwitch
  split
  · refine (s.isRegular_switchCircle _ _).bind fun answer => ?_
    split
    · exact s.isRegular_resolveOnly f _
    · exact s.isRegular_resolveOnly f _
    · exact s.isRegular_stillFailing f _
    · exact s.isRegular_stillFailing f _
    · exact only_pure _
  · exact only_pure _

theorem isRegular_retryByRebuild (f : Failure) : (s.retryByRebuild f).IsRegular := by
  unfold retryByRebuild
  refine (isAside_rebuild _ (only_pure false) _).isRegular.bind fun answer => ?_
  split
  · exact s.isRegular_stillFailing f _
  · exact s.isRegular_resolveOnly f _

theorem isRegular_retryHandler (f : Failure) (name : String) :
    (s.retryHandler f name).IsRegular := by
  unfold retryHandler
  split
  · exact only_pure _
  refine (isAside_sourceEvent f).isRegular.bind fun source => ?_
  split
  · exact only_pure _
  refine isRegular_withLocks _ ((isAside_startUnit _).isRegular.bind fun u => ?_)
  exact .bind (isRegular_perform trivial) fun a => s.isRegular_settleRetry f _ _

theorem isRegular_retryEffect (f : Failure) : (s.retryEffect f).IsRegular := by
  unfold retryEffect
  split
  · refine (isAside_sourceEvent f).isRegular.bind fun source => ?_
    split
    · exact only_pure _
    refine isRegular_withLocks _ ((isAside_startUnit _).isRegular.bind fun u => ?_)
    exact (isRegular_stageWith u _).bind fun a => s.isRegular_settleRetry f _ _
  · exact only_pure _

theorem isRegular_retry (id : FailureId) : (s.retry id).IsRegular := by
  unfold retry
  refine (isAside_read _).isRegular.bind fun stored => ?_
  split
  · exact only_pure _
  rename_i f
  split
  · exact only_pure _
  split
  · exact only_pure _
  · exact s.isRegular_retrySwitch f
  · split
    · exact s.isRegular_retryByRebuild f
    · exact s.isRegular_retryHandler f _
  · exact s.isRegular_retryEffect f

theorem isRegular_serve (r : Request) : (s.serve r).IsRegular := by
  cases r with
  | putRule r => exact isRegular_perform trivial
  | putCircle c => exact isRegular_perform trivial
  | assignCircle k circle => exact isRegular_perform trivial
  | publish e => exact s.isRegular_publish e
  | retry failure => exact s.isRegular_retry failure
  | switchCircle k target => exact s.isRegular_switchCircle k target
  | rebuild scope => exact (isAside_rebuild _ (only_pure false) scope).isRegular
  | rebuildApart task scope =>
    have hcancelled : (perform (.isCancelled task)).IsAside := only_perform trivial
    exact (isAside_rebuild _ hcancelled scope).isRegular
  | cancelRebuild task => exact isRegular_perform trivial
  | verify scope => exact (isAside_verify _ scope).isRegular

end Service

/-! ## Runs -/

/-- The stored rules were checked, and what is left of each request goes through the operations of
the store. -/
structure Traffic.Checked (t : Traffic) : Prop where
  rules : t.world.store.Checked
  tasks : ∀ task ∈ t.tasks, task.rest.IsRegular

theorem Traffic.Checked.next {s : Service} {t t' : Traffic} (h : s.Next t t') (ht : t.Checked) :
    t'.Checked := by
  cases h with
  | arrive w tasks r =>
    refine ⟨ht.rules, fun task htask => ?_⟩
    rcases List.mem_append.mp htask with htask | htask
    · exact ht.tasks task htask
    · rw [List.mem_singleton.mp htask]
      exact s.isRegular_serve r
  | @act w w' before after r p p' step =>
    have hp : p.IsRegular := ht.tasks ⟨r, p⟩ (by simp)
    obtain ⟨hp', hw'⟩ := hp.step step ht.rules
    refine ⟨hw', fun task htask => ?_⟩
    rcases List.mem_append.mp htask with htask | htask
    · exact ht.tasks task (List.mem_append_left _ htask)
    · rcases List.mem_cons.mp htask with rfl | htask
      · exact hp'
      · exact ht.tasks task (List.mem_append_right _ (List.mem_cons_of_mem _ htask))
  | @giveUp w before after task scope p =>
    refine ⟨ht.rules, fun other hother => ?_⟩
    rcases List.mem_append.mp hother with hother | hother
    · exact ht.tasks other (List.mem_append_left _ hother)
    · exact ht.tasks other (List.mem_append_right _ (List.mem_cons_of_mem _ hother))
  | pass w tasks millis turns => exact ⟨ht.rules, ht.tasks⟩
  | disturb w tasks failingCommits scanDelay => exact ⟨ht.rules, ht.tasks⟩

/-- In every state of every interleaving of requests, all stored rules have passed their check. -/
theorem Service.checked_of_reaches {s : Service} {origin : Instant} {ids : IdSupply} {t : Traffic}
    (hrun : s.Reaches ⟨.start origin ids, []⟩ t) : t.world.store.Checked := by
  have hchecked : t.Checked := by
    induction hrun with
    | refl => exact ⟨Store.checked_empty, fun task htask => by simp at htask⟩
    | tail _ hstep ih => exact ih.next hstep
  exact hchecked.rules

end Referral
