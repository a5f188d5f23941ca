import Referral.Proofs.Accounts
import Referral.Proofs.Recording
import Referral.Proofs.Switches

/-!
# Refused switches are kept

Wherever a switch that a rule asks for is refused, when the rule is fired or when its unit of work
is committed, a record of the switch is in the store once the request has ended. A switch that is
asked for by hand leaves none.
-/

namespace Referral

open Procedure

/-- The request did what it was to do. -/
def Request.Succeeds : (r : Request) → r.Answer → Prop
  | .publish _, a => ∃ report, a = .ok (.committed report)
  | .retry _, a => ∃ outcome, a = .ok outcome
  | _, _ => False

namespace Service

open World (Spares rely_spares spares_of_store_eq spares_of_refused)

variable {s : Service} {spared : FailureId → Prop} {w w' : World} {deeds : List Deed} {α : Type}
  {a : α} {u u' : WorkUnit}

/-- All refused switches are remembered, unless a commit failed for another reason. -/
def Remembers (s : Service) (spared : FailureId → Prop) (succeeds : Prop) (deeds : List Deed)
    (w' : World) : Prop :=
  s.AccountsFor (w'.store.Remembers spared) deeds ∨ ¬ succeeds ∧ ∃ d ∈ deeds, d.Fails

namespace Remembers

variable {succeeds : Prop} {mine : List Deed} {v v' : World}

/-- A part of a course in which no switch is refused does not matter. -/
theorem after_quiet (h : s.Remembers spared succeeds deeds w') {first : List Deed}
    (hquiet : s.AccountsFor (fun _ => False) first) :
    s.Remembers spared succeeds (first ++ deeds) w' := by
  rcases h with haccounts | ⟨hanswer, d, hd, hfails⟩
  · exact .inl (hquiet.none.append haccounts)
  · exact .inr ⟨hanswer, d, List.mem_append_right _ hd, hfails⟩

/-- Locks that are held around a procedure do not matter. -/
theorem withLocks {ks : List LockKey} {body : Procedure α}
    (hbody : ∀ {v mine v'}, Spares spared w v → body.Finishes (Spares spared) v mine a v' →
      s.Remembers spared succeeds mine v')
    (h : (withLocks ks body).Finishes (Spares spared) w deeds a w') :
    s.Remembers spared succeeds deeds w' := by
  obtain ⟨v, v', mine, hmine, hv, hv', hsub, hlocks⟩ := finishes_withLocks (s := s) h
  rcases hbody hv hmine with haccounts | ⟨hanswer, d, hd, hfails⟩
  · exact .inl (hlocks _ (haccounts.mono fun _ hx => hx.later hv'))
  · exact .inr ⟨hanswer, d, hsub hd, hfails⟩

end Remembers

theorem isAside_settle (e : Event) (dispatch : DispatchReport) (u : WorkUnit)
    (answer : Except Error Receipt) : (settle e dispatch u answer).IsAside := by
  cases answer with
  | error error => exact isAside_finish u _
  | ok receipt =>
    have hoffer : (do
        perform (.offer u.notifications)
        finish u (.ok (.committed (reportOn e u receipt dispatch))) :
          Procedure (Except Error PublishOutcome)).IsAside :=
      .bind (only_perform trivial) fun _ => isAside_finish u _
    simp only [settle]
    split
    · exact .bind (only_perform trivial) fun _ => hoffer
    · exact hoffer

/-- What is refused in a dispatch and in the commit after it is remembered, once the commit was
accepted. -/
theorem finishes_record (hbuiltIn : s.extra = []) {e : Event} {a : Except Error PublishOutcome}
    (h : (s.record e).Finishes (Spares spared) w deeds a w') :
    s.Remembers spared (∃ report, a = .ok (.committed report)) deeds w' := by
  rw [record_eq] at h
  obtain ⟨known, w₁, first, rest, rfl, hfirst, hrest⟩ := Finishes.of_bind h
  refine .after_quiet ?_ (finishes_aside (isAside_read _) hfirst).1
  split at hrest
  · exact .inl (finishes_aside (only_pure _) hrest).1.none
  unfold recordNew at hrest
  obtain ⟨u, w₂, second, rest, rfl, hsecond, hrest⟩ := Finishes.of_bind hrest
  obtain ⟨⟨dispatch, u₁⟩, w₃, third, rest, rfl, hthird, hrest⟩ := Finishes.of_bind hrest
  obtain ⟨⟨answer, u₂⟩, w₄, fourth, last, rfl, hfourth, hlast⟩ := Finishes.of_bind hrest
  refine .after_quiet ?_ (finishes_aside (isAside_startUnit _) hsecond).1
  obtain ⟨hdispatch, -, -⟩ := finishes_dispatch hbuiltIn hthird
  obtain ⟨hcommit, hedits, hcommits, hnever⟩ := finishes_commitDemoting hfourth
  obtain ⟨hquiet, hw'⟩ := finishes_aside (s := s) (isAside_settle _ _ _ _) hlast
  cases answer with
  | ok receipt =>
    have hbears : ∀ x, u₂.Bears x → w'.store.Remembers spared x := fun x hx =>
      (hcommits.after hw').remembers hx
    exact .inl ((hdispatch.mono fun x hx => hbears x (hx.edits hedits)).append
      ((hcommit.mono hbears).append hquiet.none))
  | error error =>
    have hanswer := ((preserves_settle e dispatch u₂ (.error error)).along hlast).1
    obtain ⟨d, hd, hfails⟩ := hcommits.fails fun promoter herror => hnever promoter (herror ▸ rfl)
    refine .inr ⟨?_, d, by simp [hd], hfails⟩
    rintro ⟨report, rfl⟩
    exact declines_of_error e dispatch u₂ error report hanswer.symm

theorem finishes_publish (hbuiltIn : s.extra = []) {e : Event} {a : Except Error PublishOutcome}
    (h : (s.publish e).Finishes (Spares spared) w deeds a w') :
    s.Remembers spared (∃ report, a = .ok (.committed report)) deeds w' := by
  unfold publish at h
  split at h
  · exact .inl (finishes_aside (only_pure _) h).1.none
  · exact .withLocks (fun _ => finishes_record hbuiltIn) h

/-! ## Retries -/

theorem finishes_startUnit {k : PromoterKey}
    (h : (startUnit k).Finishes (Spares spared) w deeds u w') :
    (∃ c, u = .start c) ∧ s.AccountsFor (fun _ => False) deeds ∧ Spares spared w w' := by
  refine ⟨?_, finishes_aside (isAside_startUnit k) h⟩
  obtain ⟨c, w₁, first, rest, -, -, hrest⟩ := Finishes.of_bind h
  exact ⟨c, (Finishes.of_done (rely_spares spared) hrest).2.1⟩

/-- A unit that only marks records moves nobody. -/
theorem finishes_mark {k : PromoterKey} {mark : WorkUnit → WorkUnit}
    (hmark : ∀ c, (mark (.start c)).transitions = []) {a : Except Error RetryOutcome}
    {answer : Receipt → RetryOutcome}
    (h : (do
      let u ← startUnit k
      let committed ← s.commit (mark u)
      return committed.map answer : Procedure (Except Error RetryOutcome)).Finishes
        (Spares spared) w deeds a w') :
    s.AccountsFor (fun _ => False) deeds ∧ ∃ c w₁ mine committed, Spares spared w w₁ ∧
      Lands spared w₁ mine (mark (.start c)) committed w' := by
  obtain ⟨_, w₁, first, rest, rfl, hfirst, hrest⟩ := Finishes.of_bind h
  obtain ⟨committed, w₂, mine, last, rfl, hmine, hlast⟩ := Finishes.of_bind hrest
  obtain ⟨⟨c, rfl⟩, hquiet, hw₁⟩ := finishes_startUnit (s := s) hfirst
  obtain ⟨haccounts, hcommits⟩ := finishes_commit hmine
  obtain ⟨rfl, -, hw'⟩ := Finishes.of_done (rely_spares spared) hlast
  rw [WorkUnit.refused_eq_nil (hcommits.ne_switchRejected (hmark c))] at haccounts
  refine ⟨hquiet.append ((haccounts.mono fun _ hx => by cases hx).append .nil), ?_⟩
  exact ⟨c, w₁, mine, committed, hw₁, hcommits.after hw'⟩

theorem finishes_resolveOnly {f : Failure} {ts : List Transition} {a : Except Error RetryOutcome}
    (h : (s.resolveOnly f ts).Finishes (Spares spared) w deeds a w') :
    s.AccountsFor (fun _ => False) deeds := (finishes_mark (fun _ => rfl) h).1

/-- Counting an attempt leaves every record as it was but for that. -/
theorem finishes_stillFailing {f : Failure} {error : Error} {a : Except Error RetryOutcome}
    (h : (s.stillFailing f error).Finishes (Spares spared) w deeds a w') :
    s.AccountsFor (fun _ => False) deeds ∧ Spares spared w w' := by
  have hR := rely_spares spared
  obtain ⟨hquiet, c, w₁, mine, committed, hw₁, v, hv, -, -, hw'⟩ :=
    finishes_mark (s := s) (fun _ => rfl) h
  have hbuilt : ((WorkUnit.start c).recordAttempt f.id).Built := ⟨c, .single (.recordAttempt f.id)⟩
  have hcommit : Spares spared v (v.perform (.commit ((WorkUnit.start c).recordAttempt f.id))).2 :=
    .commit hbuilt (List.forall_mem_nil _) (List.forall_mem_nil _)
  exact ⟨hquiet, hR.trans _ _ _ hw₁ (hR.trans _ _ _ hv (hR.trans _ _ _ hcommit hw'))⟩

/-- What is borne by the unit of a retry that succeeded is remembered. -/
theorem finishes_settleRetry (hbuiltIn : s.extra = []) {f : Failure} {children : List Event}
    {first : List Deed} (hfirst : s.AccountsFor u.Bears first) {a : Except Error RetryOutcome}
    (h : (s.settleRetry f (.ok children) u).Finishes (Spares spared) w deeds a w') :
    s.Remembers spared (∃ outcome, a = .ok outcome) (first ++ deeds) w' := by
  have hR := rely_spares spared
  unfold settleRetry at h
  obtain ⟨u₁, w₁, second, rest, rfl, hsecond, hrest⟩ := Finishes.of_bind h
  obtain ⟨⟨answer, u₂⟩, w₂, third, last, rfl, hthird, hlast⟩ := Finishes.of_bind hrest
  obtain ⟨hdispatch, hedits, -⟩ := finishes_dispatchEach hbuiltIn hsecond
  obtain ⟨hcommit, hmore, hcommits, hnever⟩ := finishes_commitDemoting hthird
  have hmarked : u₁.Edits u₂ := .head (.resolveFailure f.id) hmore
  cases answer with
  | ok receipt =>
    have haside : (do
        perform (.offer u₂.notifications)
        finish u₂ (.ok (.resolved u₂.commissions (u₂.transitions.map (·.transition)))) :
          Procedure (Except Error RetryOutcome)).IsAside :=
      .bind (only_perform trivial) fun _ => isAside_finish u₂ _
    obtain ⟨hquiet, hw'⟩ := finishes_aside (s := s) haside hlast
    have hbears : ∀ x, u₂.Bears x → w'.store.Remembers spared x := fun x hx =>
      (hcommits.after hw').remembers hx
    refine .inl ((hfirst.mono fun x hx => hbears x (hx.edits (hedits.trans hmarked))).append ?_)
    exact (hdispatch.mono fun x hx => hbears x (hx.edits hmarked)).append
      ((hcommit.mono hbears).append hquiet.none)
  | error error =>
    have hpreserves : (finish u₂ (.error error) : Procedure (Except Error RetryOutcome)).Preserves
        World.store (· = .error error) :=
      Preserves.bind (preserves_perform fun _ => rfl) fun _ _ => rfl
    have ha : a = .error error := (hpreserves.along hlast).1
    obtain ⟨d, hd, hfails⟩ := hcommits.fails fun promoter herror => hnever promoter (herror ▸ rfl)
    refine .inr ⟨?_, d, by simp [hd], hfails⟩
    rintro ⟨outcome, houtcome⟩
    rw [ha] at houtcome
    cases houtcome

theorem finishes_settleRetry_error {f : Failure} {error : Error} {a : Except Error RetryOutcome}
    (h : (s.settleRetry f (.error error) u).Finishes (Spares spared) w deeds a w') :
    s.AccountsFor (fun _ => False) deeds ∧ Spares spared w w' := by
  unfold settleRetry at h
  obtain ⟨answer, w₁, first, rest, rfl, hfirst, hrest⟩ := Finishes.of_bind h
  obtain ⟨hquiet, hw₁⟩ := finishes_stillFailing hfirst
  obtain ⟨hquiet', hw'⟩ := finishes_aside (s := s) (isAside_finish u answer) hrest
  exact ⟨hquiet.append hquiet', (rely_spares spared).trans _ _ _ hw₁ hw'⟩

theorem finishes_sourceEvent {f : Failure} {e : Event}
    (h : (sourceEvent f).Finishes (Spares spared) w deeds (.ok e) w') :
    ∃ v, Spares spared w v ∧ v.store.IsSource f e ∧ Spares spared v w' := by
  have hR := rely_spares spared
  unfold sourceEvent at h
  split at h
  · obtain ⟨-, hnever, -⟩ := Finishes.of_done hR h
    cases hnever
  · rename_i id hid
    obtain ⟨found, w₁, first, rest, rfl, hfirst, hrest⟩ := Finishes.of_bind h
    obtain ⟨v, -, hv, hfound, hw₁⟩ := Finishes.of_perform hR hfirst
    cases found with
    | none =>
      obtain ⟨-, hnever, -⟩ := Finishes.of_done hR hrest
      cases hnever
    | some stored =>
      obtain ⟨-, he, hw'⟩ := Finishes.of_done hR hrest
      cases he
      exact ⟨v, hv, ⟨id, stored, hid, hfound.symm, rfl⟩, hR.trans _ _ _ hw₁ hw'⟩

/-- An effect is fired once more in a unit of its own. The switch it may ask for is known to be
remembered already. -/
theorem finishes_fireAgain (hbuiltIn : s.extra = []) {f : Failure} {e : Event} {effect : Effect}
    {rule : RuleId}
    (hkept : ∀ target, effect = .switchCircle target →
      w.store.Remembers spared ⟨e.promoterKey, target, rule, e.id, f.depth⟩)
    {a : Except Error RetryOutcome}
    (h : (do
      let u ← startUnit e.promoterKey
      let (fired, u) ← stageWith u fun staging => staging.fire s.config e rule effect f.depth
      s.settleRetry f ((fired.mapError Refusal.toError).map Option.toList) u :
        Procedure (Except Error RetryOutcome)).Finishes (Spares spared) w deeds a w') :
    s.Remembers spared (∃ outcome, a = .ok outcome) deeds w' := by
  have hR := rely_spares spared
  obtain ⟨u, w₁, first, rest, rfl, hfirst, hrest⟩ := Finishes.of_bind h
  obtain ⟨⟨fired, u₁⟩, w₂, second, rest, rfl, hsecond, hlast⟩ := Finishes.of_bind hrest
  obtain ⟨-, hquiet, hw₁⟩ := finishes_startUnit (s := s) hfirst
  refine .after_quiet ?_ hquiet
  have hids := fun staging : Staging => (staging.handles_fire s.config e f.depth rule effect
    (fun _ _ => True) trivial).ids_le
  obtain ⟨v, action, haction, rfl, hv, hfired, hw₂⟩ := finishes_stageWith hids hsecond
  have hwork := Work.fire (w := v) haction
  generalize (⟨u, v.permits, v.ids, v.now⟩ : Staging).fire s.config e rule effect f.depth =
    result at hfired hwork
  cases hfired
  cases hanswer : result.1 with
  | ok emitted =>
    rw [hanswer] at hwork hlast
    exact finishes_settleRetry hbuiltIn (.single hwork (List.forall_mem_nil _)) hlast
  | error refusal =>
    rw [hanswer] at hwork hlast
    obtain ⟨hquiet', hw'⟩ := finishes_settleRetry_error hlast
    refine .inl (.append (.single hwork fun x hx => ?_) hquiet'.none)
    obtain ⟨promoter, target, -, heffect, rfl⟩ :=
      Staging.refusal?_eq_some (Option.mem_toList.mp hx)
    exact (hkept target heffect).later
      (hR.trans _ _ _ hw₁ (hR.trans _ _ _ hv (hR.trans _ _ _ hw₂ hw')))

/-- A retry of an effect, of whose record the log is known to have the event. -/
theorem finishes_retryEffect (hbuiltIn : s.extra = []) {f : Failure} {w₀ : World}
    (hw₀ : w₀.Accountable) (hf : f ∈ w₀.store.failures) (hopen : f.resolved = false)
    (horigin : f.origin = .effect) (hw : Spares spared w₀ w) {a : Except Error RetryOutcome}
    (h : (s.retryEffect f).Finishes (Spares spared) w deeds a w') :
    s.Remembers spared (∃ outcome, a = .ok outcome) deeds w' := by
  have hR := rely_spares spared
  unfold retryEffect at h
  split at h
  · rename_i effect rule heffect hrule
    obtain ⟨source, w₁, first, rest, rfl, hfirst, hrest⟩ := Finishes.of_bind h
    refine .after_quiet ?_ (finishes_aside (isAside_sourceEvent f) hfirst).1
    cases source with
    | error error => exact .inl (finishes_aside (only_pure _) hrest).1.none
    | ok e =>
      obtain ⟨v, hv, hsource, hw₁⟩ := finishes_sourceEvent hfirst
      have hlogged := hR.trans _ _ _ hw hv
      obtain ⟨hevent, hkey⟩ := (hlogged.keeps hw₀).source_eq hlogged.later.facts.subset (hw₀.2 f hf)
        horigin hsource
      refine .withLocks (fun hw₂ => finishes_fireAgain hbuiltIn fun target htarget => ?_) hrest
      -- the record that is retried still stands for the switch
      have hkept : w₀.store.Remembers spared ⟨e.promoterKey, target, rule, e.id, f.depth⟩ :=
        ⟨f, hf, ⟨hkey, heffect.trans (congrArg some htarget), hrule, hevent, rfl, horigin⟩,
          fun _ => hopen⟩
      exact hkept.later (hR.trans _ _ _ hlogged (hR.trans _ _ _ hw₁ hw₂))
  · exact .inl (finishes_aside (only_pure _) h).1.none

/-- When the rules are called once more, each switch that is refused leaves a record. -/
theorem finishes_callRules {position : ℕ} {c : Call} {a : Except Error (List Event) × WorkUnit}
    (h : (callHandler position (rulesHandler s.config) u c).Finishes (Spares spared) w deeds a
      w') :
    s.AccountsFor a.2.Bears deeds ∧
      ∀ error, a.1 = .error error → s.AccountsFor (fun _ => False) deeds := by
  have hids := fun d : Desk => (Staging.handles_react ⟨u, d.permits, d.ids, d.now⟩ s.config
    (callsOf position d.calls) c).ids_le
  obtain ⟨v, rfl, -, rfl, -⟩ := finishes_stage hids h
  refine ⟨.single (.call rfl) fun x hx => Staging.bears_refusalsOn hx (callsOf position v.calls),
    fun error herror => ?_⟩
  have hnone : (⟨u, v.permits, v.ids, v.now⟩ : Staging).refusalsOn s.config c = [] :=
    Staging.refusalsOn_eq_nil (callsOf position v.calls) herror
  refine .single (.call rfl) fun x hx => ?_
  rw [hnone] at hx
  cases hx

/-- A retry of the rules for an event. -/
theorem finishes_retryHandler (hbuiltIn : s.extra = []) {f : Failure} {name : String}
    (hname : name ≠ aggregatesHandler.name) {a : Except Error RetryOutcome}
    (h : (s.retryHandler f name).Finishes (Spares spared) w deeds a w') :
    s.Remembers spared (∃ outcome, a = .ok outcome) deeds w' := by
  unfold retryHandler at h
  split at h
  · exact .inl (finishes_aside (only_pure _) h).1.none
  · rename_i position handler hfind
    cases eq_rulesHandler hbuiltIn hname hfind
    obtain ⟨source, w₁, first, rest, rfl, hfirst, hrest⟩ := Finishes.of_bind h
    refine .after_quiet ?_ (finishes_aside (isAside_sourceEvent f) hfirst).1
    cases source with
    | error error => exact .inl (finishes_aside (only_pure _) hrest).1.none
    | ok e =>
      refine .withLocks (fun {w₂ mine w'} hw₂ hmine => ?_) hrest
      obtain ⟨u, w₃, second, rest, rfl, hsecond, hrest⟩ := Finishes.of_bind hmine
      obtain ⟨⟨answer, u₁⟩, w₄, third, rest, rfl, hthird, hlast⟩ := Finishes.of_bind hrest
      obtain ⟨-, hquiet, -⟩ := finishes_startUnit (s := s) hsecond
      refine .after_quiet ?_ hquiet
      obtain ⟨hbears, hnone⟩ := finishes_callRules hthird
      cases answer with
      | ok children => exact finishes_settleRetry hbuiltIn hbears hlast
      | error error =>
        exact .inl ((hnone error rfl).append (finishes_settleRetry_error hlast).1).none

/-- A retry of totals. -/
theorem finishes_retryByRebuild {f : Failure} {a : Except Error RetryOutcome}
    (h : (s.retryByRebuild f).Finishes (Spares spared) w deeds a w') :
    s.AccountsFor (fun _ => False) deeds := by
  unfold retryByRebuild at h
  obtain ⟨answer, w₁, first, rest, rfl, hfirst, hrest⟩ := Finishes.of_bind h
  obtain ⟨hquiet, -⟩ := finishes_aside (s := s) (isAside_rebuild _ (only_pure false) _) hfirst
  cases answer with
  | error error => exact hquiet.append (finishes_stillFailing hrest).1
  | ok count => exact hquiet.append (finishes_resolveOnly hrest)

theorem finishes_retry (hbuiltIn : s.extra = []) (hw : w.Accountable) {id : FailureId}
    {a : Except Error RetryOutcome}
    (h : (s.retry id).Finishes (Spares spared) w deeds a w') :
    s.Remembers spared (∃ outcome, a = .ok outcome) deeds w' := by
  unfold retry at h
  obtain ⟨found, w₁, first, rest, rfl, hfirst, hrest⟩ := Finishes.of_bind h
  refine .after_quiet ?_ (finishes_aside (isAside_read _) hfirst).1
  obtain ⟨v, -, hsince, hfound, hw₁⟩ := Finishes.of_perform (rely_spares spared) hfirst
  have hv := hsince.keeps hw
  cases found with
  | none => exact .inl (finishes_aside (only_pure _) hrest).1.none
  | some f =>
    have hf : f ∈ v.store.failures := List.mem_of_find?_eq_some hfound.symm
    dsimp only at hrest
    split at hrest
    · exact .inl (finishes_aside (only_pure _) hrest).1.none
    · rename_i hopen
      have hopen : f.resolved = false := by simpa using hopen
      split at hrest
      · exact .inl (finishes_aside (only_pure _) hrest).1.none
      · rename_i horigin
        exact ((hv.2 f hf).origin horigin).elim
      · split at hrest
        · exact .inl (finishes_retryByRebuild hrest).none
        · rename_i hname
          exact finishes_retryHandler hbuiltIn hname hrest
      · rename_i horigin
        exact finishes_retryEffect hbuiltIn hv hf hopen horigin hw₁ hrest

/-! ## All requests -/

/-- A commit of a unit that has nothing to do with records changes none. -/
theorem preserves_failures_commit (s : Service) (hfailures : u.failures = [])
    (hresolved : u.resolved = []) (hattempted : u.attempted = []) :
    (s.commit u).Preserves (fun w => w.store.failures) fun _ => True := by
  refine s.preserves_commit_of fun w => ?_
  change (w.store.commit u w.now).2.failures = w.store.failures
  rcases w.store.commit_store u w.now with ⟨n, hstore⟩ | ⟨-, book, -, hstore⟩
  · rw [hstore]
  · rw [hstore, Store.failures_write hresolved hattempted, hfailures, List.append_nil]

/-- A switch made by hand changes no failure record, whatever its answer. -/
theorem preserves_failures_switchCircle (s : Service) (k : PromoterKey) (target : CircleId) :
    (s.switchCircle k target).Preserves (fun w => w.store.failures) fun _ => True := by
  have hacquire : (perform (.acquirePermit k)).Preserves (fun w => w.store.failures)
      fun _ => True := by
    refine preserves_perform fun w => ?_
    simp only [World.perform]
    split <;> rfl
  have hrelease : ∀ answer : Except Error SwitchOutcome, (do
      perform (.releasePermits [k])
      return answer : Procedure (Except Error SwitchOutcome)).Preserves
        (fun w => w.store.failures) fun _ => True :=
    fun _ => (preserves_perform fun _ => rfl).bind fun _ _ => trivial
  have hfinish : ∀ (u : WorkUnit) (answer : Except Error SwitchOutcome),
      (finish u answer).Preserves (fun w => w.store.failures) fun _ => True :=
    fun _ _ => (preserves_perform fun _ => rfl).bind fun _ _ => trivial
  unfold switchCircle
  refine hacquire.bind fun acquired _ => ?_
  split
  · trivial
  refine (preserves_perform fun _ => rfl).bind fun c _ => ?_
  refine (preserves_perform fun _ => rfl).bind fun now _ => ?_
  split
  · exact hrelease _
  · unfold commitSwitch
    refine (s.preserves_failures_commit rfl rfl rfl).bind fun answer _ => ?_
    split
    · exact hfinish _ _
    · exact (preserves_perform fun _ => rfl).bind fun _ _ => hfinish _ _
  · exact hrelease _
  · exact hrelease _

theorem isAside_serve {r : Request} (hpublish : ∀ e, r ≠ .publish e)
    (hretry : ∀ id, r ≠ .retry id) (hswitch : ∀ k target, r ≠ .switchCircle k target) :
    (s.serve r).IsAside := by
  cases r with
  | publish e => exact (hpublish e rfl).elim
  | retry id => exact (hretry id rfl).elim
  | switchCircle k target => exact (hswitch k target rfl).elim
  | putRule r => exact only_perform trivial
  | putCircle c => exact only_perform trivial
  | assignCircle k circle => exact only_perform trivial
  | rebuild scope => exact isAside_rebuild _ (only_pure false) scope
  | rebuildApart task scope =>
    have hcalledOff : (perform (.isCancelled task)).IsAside := only_perform trivial
    exact isAside_rebuild _ hcalledOff scope
  | cancelRebuild task => exact only_perform trivial
  | verify scope => exact isAside_verify _ scope

/-- What is remembered when any request but a switch by hand has ended. -/
theorem finishes_serve (hbuiltIn : s.extra = []) (hw : w.Accountable) {r : Request} {a : r.Answer}
    (hswitch : ∀ k target, r ≠ .switchCircle k target)
    (h : (s.serve r).Finishes (Spares spared) w deeds a w') :
    s.Remembers spared (r.Succeeds a) deeds w' := by
  by_cases hpublish : ∃ e, r = .publish e
  · obtain ⟨e, rfl⟩ := hpublish
    exact finishes_publish hbuiltIn h
  by_cases hretry : ∃ id, r = .retry id
  · obtain ⟨id, rfl⟩ := hretry
    exact finishes_retry hbuiltIn hw h
  · simp only [not_exists] at hpublish hretry
    exact .inl (finishes_aside (isAside_serve hpublish hretry hswitch) h).1.none

end Service

/-- The tasks do not include a retry of the record. -/
def Untried (tasks : List Task) (id : FailureId) : Prop := ∀ task ∈ tasks, task.request ≠ .retry id

/-- There is an unresolved record of the switch, with all that it takes to try it again, unless
the record was tried again by one of the tasks. -/
def Store.Recalls (spared : FailureId → Prop) (s : Store) (x : Switch) : Prop :=
  ∃ f ∈ s.failures, x.NamedBy f ∧ (spared f.id → f.resolved = false) ∧
    ∃ stored, s.event? x.event = some stored ∧ stored.event.promoterKey = x.promoter

theorem Store.Remembers.recalls {spared : FailureId → Prop} {w : World} (hw : w.Accountable)
    {x : Switch} (hx : w.store.Remembers spared x) : w.store.Recalls spared x := by
  obtain ⟨f, hf, hnamed, hopen⟩ := hx
  refine ⟨f, hf, hnamed, hopen, ?_⟩
  obtain ⟨e, he, hevent, hkey⟩ := (hw.2 f hf).event hnamed.origin
  have hid : x.event = e.id := Option.some.inj (hnamed.event.symm.trans hevent)
  obtain ⟨stored, hstored, rfl⟩ := List.mem_map.mp he
  obtain ⟨i, hi⟩ := List.mem_iff_getElem?.mp hstored
  have hindex : w.store.index.get? stored.event.id = some i :=
    (hw.1.index stored.event.id i).mpr (by rw [hi, Option.map_some])
  refine ⟨stored, ?_, hkey.symm.trans hnamed.promoter⟩
  rw [hid, Store.event?, hindex]
  exact hi

namespace Service

variable {s : Service}

/-- With the built-in handlers alone, take any interleaving of requests and one of them that has
ended, and a course of it amid what the others may do. Unless it is a switch by hand, every switch
that was refused in the course is recalled, if the request succeeded or no commit of it failed for
another reason. A switch by hand leaves all records as they are. -/
theorem refused_switches_recalled (hbuiltIn : s.extra = []) {w₀ : World} (hw₀ : w₀.Accountable)
    {w : World} {before after : List Task} {r : Request} {a : r.Answer}
    (hrun : s.Reaches ⟨w₀, []⟩ ⟨w, before ++ ⟨r, .done a⟩ :: after⟩) :
    (∃ t₀ deeds, s.Reaches ⟨w₀, []⟩ t₀ ∧ (s.serve r).Finishes
      (World.Spares (Untried (before ++ after))) t₀.world deeds a w) ∧
    ∀ t₀ deeds, s.Reaches ⟨w₀, []⟩ t₀ → (s.serve r).Finishes
      (World.Spares (Untried (before ++ after))) t₀.world deeds a w →
      ((∀ k target, r ≠ .switchCircle k target) →
        (r.Succeeds a ∨ ∀ d ∈ deeds, ¬ d.Fails) →
        s.AccountsFor (w.store.Recalls (Untried (before ++ after))) deeds) ∧
      ∀ k target, r = .switchCircle k target → ∀ d ∈ deeds,
        (d.world.perform d.action).2.store.failures = d.world.store.failures := by
  have hall := s.upholds_spares hbuiltIn fun _ => False
  have hany : ∀ r : Request, ∀ id, r = .retry id → ¬ False := fun _ _ _ => not_false
  have hreaches : ∀ {t}, s.Reaches ⟨w₀, []⟩ t → t.world.Accountable := fun h =>
    hall.keeps (hall.reaches hw₀ (fun r _ _ => hany r) (List.forall_mem_nil _) h).1 hw₀
  refine ⟨?_, fun t₀ deeds ht₀ hcourse => ⟨fun hswitch hfine => ?_, ?_⟩⟩
  · refine (Upholds.exists_course hall hany (s.upholds_spares hbuiltIn _) hw₀ hrun
      List.perm_middle fun task htask _ id hretry huntried => ?_).2
    exact huntried task htask hretry
  · rcases finishes_serve hbuiltIn (hreaches ht₀) hswitch hcourse with
      haccounts | ⟨hnot, d, hd, hfails⟩
    · exact haccounts.mono fun x hx => hx.recalls (hreaches hrun)
    · rcases hfine with hsucceeds | hnone
      · exact (hnot hsucceeds).elim
      · exact (hnone d hd hfails).elim
  · rintro k target rfl
    exact ((s.preserves_failures_switchCircle k target).along hcourse).2

theorem Reaches.answered {r : Request} {a : r.Answer} {w : World}
    (h : ((s.serve r).goOn w).1.answer? = some a) (tasks : List Task) :
    s.Reaches ⟨w, tasks⟩ ⟨((s.serve r).goOn w).2, tasks ++ [⟨r, .done a⟩]⟩ := by
  have halone := Service.Reaches.alone s w tasks r
  rwa [eq_done_of_answer? h] at halone

theorem mem_of_answer? {r : Request} {p : Procedure r.Answer} {a : r.Answer} {tasks : List Task}
    (h : p.answer? = some a) (hmem : ⟨r, p⟩ ∈ tasks) : (⟨r, .done a⟩ : Task) ∈ tasks := by
  rwa [← eq_done_of_answer? h]

/-- A switch by hand holds the permit of a promoter while a signup is published, whose rule asks for
a switch: it is refused, and recalled. -/
theorem refused_promotion_recalled : ∃ (s : Service) (w₀ w : World) (before after : List Task)
    (e : Event) (report : PublishReport), s.extra = [] ∧ w₀.Accountable ∧
    s.Reaches ⟨w₀, []⟩
      ⟨w, before ++ ⟨.publish e, .done (.ok (.committed report))⟩ :: after⟩ ∧
    (∃ t₀ deeds, s.Reaches ⟨w₀, []⟩ t₀ ∧ (s.publish e).Finishes
        (World.Spares (Untried (before ++ after))) t₀.world deeds (.ok (.committed report)) w ∧
      s.AccountsFor (w.store.Recalls (Untried (before ++ after))) deeds) ∧
    w.store.failures.map (fun f => (f.effect, f.origin, f.resolved)) =
      [(some (.switchCircle ⟨9⟩), .effect, false)] := by
  let now : Instant := ⟨0, 0, by decide, by decide, by decide⟩
  let s : Service := ⟨.default, []⟩
  let e : Event := .signup ⟨1⟩ ⟨2⟩ ⟨3⟩ ⟨4⟩ ⟨5⟩ ⟨6⟩ now
  let r : Rule := ⟨⟨7⟩, ⟨3⟩, "promote", .signup, none, [], .switchCircle ⟨9⟩, true⟩
  let requests : List Request := [.putRule r, .putCircle ⟨⟨8⟩, ⟨3⟩, "new", true⟩,
    .putCircle ⟨⟨9⟩, ⟨3⟩, "proven", false⟩]
  let byHand : Request := .switchCircle e.promoterKey ⟨9⟩
  let w₀ : World := .start now ⟨100⟩
  let w₁ := s.afterEach w₀ requests
  -- the switch by hand has its permit when the signup comes in
  let p := ((s.serve byHand).advance 1 w₁).1
  let w₂ := ((s.serve byHand).advance 1 w₁).2
  obtain ⟨tasks, hsetUp⟩ := s.reaches_afterEach w₀ [] requests
  have hswitch : s.Reaches ⟨w₁, tasks⟩ ⟨w₂, tasks ++ [⟨byHand, p⟩]⟩ :=
    .head (.arrive w₁ tasks byHand) (Reaches.steps (steps_advance 1 _ w₁))
  obtain ⟨report, hdone, -⟩ := eq_done_of_committed? (p := ((s.publish e).goOn w₂).1) (fun _ => true)
    (by decide +kernel)
  have hpublish := Reaches.answered (s := s) (r := .publish e) (congrArg answer? hdone)
    (tasks ++ [⟨byHand, p⟩])
  have hrun := (hsetUp.trans hswitch).trans hpublish
  have hw₀ : w₀.Accountable := ⟨Store.sound_empty, List.forall_mem_nil _⟩
  obtain ⟨⟨t₀, deeds, ht₀, hcourse⟩, hall⟩ := refused_switches_recalled (s := s) rfl hw₀ hrun
  refine ⟨s, w₀, _, _, _, e, report, rfl, hw₀, hrun, ⟨t₀, deeds, ht₀, hcourse, ?_⟩, ?_⟩
  · exact (hall t₀ deeds ht₀ hcourse).1 (fun _ _ h => by cases h) (.inl ⟨report, rfl⟩)
  · decide +kernel

/-- A switch by hand is refused when another holds the permit, or when the promoter was placed
elsewhere before its commit. No record is left of either. -/
theorem switches_by_hand_may_be_lost : ∃ (s : Service) (origin : Instant) (ids : IdSupply)
    (t : Traffic) (k : PromoterKey) (target target' : CircleId), s.extra = [] ∧
    s.Reaches ⟨.start origin ids, []⟩ t ∧ target ≠ target' ∧
    ⟨.switchCircle k target, .done (.error (.switchRejected k.promoter))⟩ ∈ t.tasks ∧
    ⟨.switchCircle k target', .done (.error (.switchRejected k.promoter))⟩ ∈ t.tasks ∧
    t.world.store.failures = [] := by
  let now : Instant := ⟨0, 0, by decide, by decide, by decide⟩
  let s : Service := ⟨.default, []⟩
  let k : PromoterKey := ⟨⟨3⟩, ⟨4⟩⟩
  let requests : List Request := [.putCircle ⟨⟨8⟩, ⟨3⟩, "new", true⟩,
    .putCircle ⟨⟨9⟩, ⟨3⟩, "proven", false⟩, .putCircle ⟨⟨10⟩, ⟨3⟩, "trusted", false⟩]
  let first := s.switchCircle k ⟨9⟩
  let second := s.switchCircle k ⟨10⟩
  let placing : Request := .assignCircle k ⟨10⟩
  let w₀ : World := .start now ⟨100⟩
  let w₁ := s.afterEach w₀ requests
  -- the first switch is about to commit when the second comes in, and the promoter is placed
  let p := (first.advance 3 w₁).1
  let w₂ := (first.advance 3 w₁).2
  let w₃ := (second.goOn w₂).2
  let w₄ := ((s.serve placing).goOn w₃).2
  have hrefused : (second.goOn w₂).1.answer? = some (.error (.switchRejected k.promoter)) := by
    decide +kernel
  have hlast : (p.goOn w₄).1.answer? = some (.error (.switchRejected k.promoter)) := by
    decide +kernel
  have hnone : (p.goOn w₄).2.store.failures = [] := by decide +kernel
  have hends := steps_goOn p w₄
  generalize p.goOn w₄ = last at hlast hnone hends
  obtain ⟨tasks, hsetUp⟩ := s.reaches_afterEach w₀ [] requests
  have hfirst : s.Reaches ⟨w₁, tasks⟩ ⟨w₂, tasks ++ [⟨.switchCircle k ⟨9⟩, p⟩]⟩ :=
    .head (.arrive w₁ tasks (.switchCircle k ⟨9⟩)) (Reaches.steps (steps_advance 3 first w₁))
  have hsecond := Service.Reaches.alone s w₂ (tasks ++ [⟨.switchCircle k ⟨9⟩, p⟩])
    (.switchCircle k ⟨10⟩)
  have hplacing := Service.Reaches.alone s w₃ (tasks ++ [⟨.switchCircle k ⟨9⟩, p⟩] ++
    [⟨.switchCircle k ⟨10⟩, (second.goOn w₂).1⟩]) placing
  have hgoesOn : s.Reaches ⟨w₄, tasks ++ ⟨.switchCircle k ⟨9⟩, p⟩ ::
      [⟨.switchCircle k ⟨10⟩, (second.goOn w₂).1⟩, ⟨placing, ((s.serve placing).goOn w₃).1⟩]⟩ _ :=
    Reaches.steps hends
  have hrun := (hsetUp.trans hfirst).trans (hsecond.trans hplacing)
  rw [List.append_assoc, List.append_assoc] at hrun
  refine ⟨s, now, ⟨100⟩, ⟨last.2, _⟩, k, ⟨9⟩, ⟨10⟩, rfl, hrun.trans hgoesOn, by decide,
    ?_, ?_, hnone⟩
  · exact mem_of_answer? hlast (by simp)
  · exact mem_of_answer? hrefused (by simp)

end Service

end Referral
