import Referral.Proofs.Amends
import Referral.Proofs.Refusals

/-!
# Accounts of what is refused

The course of a request is gone through deed by deed: each deed works on a unit of work, commits it,
or has nothing to do with it, and some switches are refused in it. For the parts that requests are
made of, the accounts say which switches these are, and that their records go with the unit of work
that is committed.
-/

namespace Referral

open Procedure

/-- The switches that are refused when a unit of work is committed with this answer. -/
def WorkUnit.refused (u : WorkUnit) : Except Error Receipt → List Switch
  | .error (.switchRejected _) => u.switches
  | _ => []

theorem WorkUnit.refused_eq_nil {u : WorkUnit} {answer : Except Error Receipt}
    (h : ∀ promoter, answer ≠ .error (.switchRejected promoter)) : u.refused answer = [] := by
  unfold refused
  split
  · exact (h _ rfl).elim
  · rfl

namespace Service

/-- What a deed of a request is, and the switches that are refused in it. -/
inductive Work (s : Service) : Deed → List Switch → Prop
  /-- An event is dispatched, and all that follows from it. -/
  | dispatch {w : World} {u : WorkUnit} {depth : Depth} {e : Event}
      {action : Action (DispatchReport × WorkUnit)}
      (h : s.dispatch u depth e = perform action) :
      Work s ⟨w, action⟩ (s.refusals depth e ⟨u, w.permits, w.ids, w.now⟩ w.calls)
  /-- The rules are called once more. -/
  | call {w : World} {u : WorkUnit} {position : ℕ} {c : Call}
      {action : Action (Except Error (List Event) × WorkUnit)}
      (h : callHandler position (rulesHandler s.config) u c = perform action) :
      Work s ⟨w, action⟩ ((⟨u, w.permits, w.ids, w.now⟩ : Staging).refusalsOn s.config c)
  /-- An effect is fired once more. -/
  | fire {w : World} {u : WorkUnit} {e : Event} {rule : RuleId} {effect : Effect} {depth : Depth}
      {action : Action (Except Refusal (Option Event) × WorkUnit)}
      (h : stageWith u (fun staging => staging.fire s.config e rule effect depth) =
        perform action) :
      Work s ⟨w, action⟩ (Staging.refusal? e rule effect depth
        ((⟨u, w.permits, w.ids, w.now⟩ : Staging).fire s.config e rule effect depth).1).toList
  /-- The moves of a unit of work become records. -/
  | demote {w : World} {u : WorkUnit} {error : Error} {action : Action (Unit × WorkUnit)}
      (h : stageWith u (fun staging => ((), staging.demoteTransitions error staging.now)) =
        perform action) :
      Work s ⟨w, action⟩ []
  | commit {w : World} {u : WorkUnit} :
      Work s ⟨w, .commit u⟩ (u.refused (w.store.commit u w.now).1)
  | aside {w : World} {α : Type} {action : Action α} (h : action.IsAside) : Work s ⟨w, action⟩ []

/-- Each deed is accounted for, and the switches that are refused in it are among those that `P`
allows. -/
def AccountsFor (s : Service) (P : Switch → Prop) (deeds : List Deed) : Prop :=
  ∀ d ∈ deeds, ∃ refused, s.Work d refused ∧ ∀ x ∈ refused, P x

namespace AccountsFor

variable {s : Service} {P P' : Switch → Prop} {deeds deeds' : List Deed}

theorem nil : s.AccountsFor P [] := List.forall_mem_nil _

theorem single {d : Deed} {refused : List Switch} (h : s.Work d refused)
    (hP : ∀ x ∈ refused, P x) : s.AccountsFor P [d] :=
  List.forall_mem_singleton.mpr ⟨refused, h, hP⟩

theorem append (h : s.AccountsFor P deeds) (h' : s.AccountsFor P deeds') :
    s.AccountsFor P (deeds ++ deeds') := List.forall_mem_append.mpr ⟨h, h'⟩

theorem mono (h : s.AccountsFor P deeds) (hP : ∀ x, P x → P' x) : s.AccountsFor P' deeds := by
  intro d hd
  obtain ⟨refused, hwork, hrefused⟩ := h d hd
  exact ⟨refused, hwork, fun x hx => hP x (hrefused x hx)⟩

/-- Where no switch is refused, all that are refused are as they should be. -/
theorem none (h : s.AccountsFor (fun _ => False) deeds) : s.AccountsFor P deeds :=
  h.mono fun _ => False.elim

end AccountsFor

end Service

/-- A unit of work is committed in vain, and not because of its moves. -/
def Deed.Fails (d : Deed) : Prop :=
  ∃ w u error, d = ⟨w, .commit u⟩ ∧ (w.store.commit u w.now).1 = .error error ∧
    ∀ promoter, error ≠ .switchRejected promoter

/-- There is a record of the switch, which is unresolved if it was spared. -/
def Store.Remembers (spared : FailureId → Prop) (s : Store) (x : Switch) : Prop :=
  ∃ f ∈ s.failures, x.NamedBy f ∧ (spared f.id → f.resolved = false)

/-! ## What others leave alone -/

namespace World

variable {spared : FailureId → Prop} {w w' : World} {u : WorkUnit} {x : Switch}

theorem rely_spares (spared : FailureId → Prop) : Rely (Spares spared) where
  refl w := ⟨(rely_follows _).refl w, .refl _⟩
  trans _ _ _ h h' :=
    ⟨(rely_follows _).trans _ _ _ h.toFollows h'.toFollows, h.amends.trans h'.amends⟩
  later _ _ h := h.later

theorem spares_of_store_eq (h : w'.store = w.store) (hids : w.ids.next ≤ w'.ids.next) :
    Spares spared w w' :=
  .of_failures_eq (h ▸ .refl _) (.alter (by rw [h]) (by rw [h])) hids (by rw [h])

/-- A commit that is refused leaves everything as it was. -/
theorem spares_of_refused {error : Error} (h : (w.store.commit u w.now).1 = .error error) :
    Spares spared w (w.perform (.commit u)).2 := by
  have hstore : (w.perform (.commit u)).2 = { w with store := (w.store.commit u w.now).2 } := rfl
  rw [hstore]
  rw [Store.commit_of_error h]
  exact .of_failures_eq (.of_log_eq rfl rfl) (.alter rfl rfl) le_rfl rfl

/-- The event that is found for the record of an effect is the one that it is about. -/
theorem Accountable.source_eq {f : Failure} {e : Event} {known : List Event}
    (hw : w.Accountable) (hknown : known ⊆ w.store.facts) (hf : f.CitedIn known)
    (horigin : f.origin = .effect) (hsource : w.store.IsSource f e) :
    f.event = some e.id ∧ (⟨f.program, f.promoter⟩ : PromoterKey) = e.promoterKey := by
  obtain ⟨id, stored, hid, hfound, rfl⟩ := hsource
  obtain ⟨hmem, hname⟩ := hw.1.located.event? hfound
  obtain ⟨e', he', hevent, hkey⟩ := hf.event horigin
  have hsame : e' = stored.event := by
    refine List.inj_on_of_nodup_map hw.1.distinct (hknown he') hmem ?_
    rw [hname]
    exact Option.some.inj (hevent.symm.trans hid)
  rw [hsame] at hevent hkey
  exact ⟨hevent, hkey⟩

end World

theorem Action.IsAside.spares {α : Type} {action : Action α} (h : action.IsAside)
    (spared : FailureId → Prop) (w : World) : World.Spares spared w (w.perform action).2 := by
  have hstill : World.Spares spared w w := (World.rely_spares spared).refl w
  cases action with
  | tune | commit | stage | draft | acquirePermit => exact h.elim
  | putRule r =>
    simp only [World.perform, World.updateStore]
    split
    · rename_i hput
      obtain ⟨-, rules, rfl, -⟩ := Store.putRule_eq_ok hput
      exact .of_failures_eq (.of_log_eq rfl rfl) (.alter rfl rfl) le_rfl rfl
    · exact hstill
  | putCircle c =>
    simp only [World.perform, World.updateStore]
    split
    · rename_i hput
      rw [Store.putCircle_eq_ok hput]
      exact .of_failures_eq (.of_log_eq rfl rfl) (.alter rfl rfl) le_rfl rfl
    · exact hstill
  | assignCircle k circle =>
    simp only [World.perform, World.updateStore]
    split
    · rename_i hassign
      rw [(Store.assignCircle_eq_ok hassign).2]
      exact .of_failures_eq (.of_log_eq rfl rfl) (.alter rfl rfl) le_rfl rfl
    · exact hstill
  | replaceTotals scope book asOf =>
    simp only [World.perform]
    split
    · rename_i hreplace
      obtain ⟨book, -, -, rfl⟩ := Store.replaceTotals_eq_ok.mp hreplace
      exact .of_failures_eq (.of_log_eq rfl rfl) (.alter rfl rfl) le_rfl rfl
    · exact hstill
  | _ => exact World.spares_of_store_eq rfl le_rfl

namespace Store.Remembers

variable {spared : FailureId → Prop} {w w' : World} {u : WorkUnit} {x : Switch}

/-- A record that is spared stays as it is but for its attempts. -/
theorem later (hx : w.store.Remembers spared x) (h : World.Spares spared w w') :
    w'.store.Remembers spared x := by
  obtain ⟨f, hf, hnamed, hopen⟩ := hx
  obtain ⟨f', hf', hstill⟩ := h.amends.records f hf
  have hsame := hstill.same
  have hid : f'.id = f.id := by rw [hsame]
  refine ⟨f', hf', ?_, fun hspared => ?_⟩
  · rw [hsame]
    exact ⟨hnamed.promoter, hnamed.effect, hnamed.rule, hnamed.event, hnamed.depth, hnamed.origin⟩
  · rw [hid] at hspared
    exact (hstill.resolved hspared).trans (hopen hspared)

/-- The records of a unit of work are kept once it was committed. -/
theorem of_commit {receipt : Receipt} (h : (w.store.commit u w.now).1 = .ok receipt)
    (hx : u.Bears x) (hlater : World.Spares spared (w.perform (.commit u)).2 w') :
    w'.store.Remembers spared x := by
  obtain ⟨f, hf, hnamed, hopen⟩ := hx
  have hkept : (w.perform (.commit u)).2.store.Remembers spared x :=
    ⟨f, Store.mem_failures_of_commit h hf, hnamed, fun _ => hopen⟩
  exact hkept.later hlater

end Store.Remembers

/-- A procedure that leaves a part of the world alone does so in each of its courses. -/
theorem Procedure.Preserves.along {α β : Type} {part : World → β} {Q : α → Prop}
    {R : World → World → Prop} {p q : Procedure α} {w w' : World} {deeds : List Deed}
    (h : p.Preserves part Q) (hcourse : p.Comes R w deeds q w') : q.Preserves part Q ∧
      ∀ d ∈ deeds, part (d.world.perform d.action).2 = part d.world := by
  induction hcourse with
  | start => exact ⟨h, List.forall_mem_nil _⟩
  | others _ _ ih => exact ih
  | own _ ready ih =>
    obtain ⟨hq, hdeeds⟩ := ih
    obtain ⟨hpart, hnext⟩ := hq _ ready
    exact ⟨hnext, List.forall_mem_append.mpr ⟨hdeeds, List.forall_mem_singleton.mpr hpart⟩⟩

/-! ## The courses of the parts -/

namespace Service

open World (Spares rely_spares spares_of_store_eq spares_of_refused)

variable {s : Service} {spared : FailureId → Prop} {w w' : World} {deeds : List Deed} {α : Type}
  {a : α} {u u' : WorkUnit}

/-- A procedure on the side refuses no switch and spares what is to be spared. -/
theorem comes_aside {p q : Procedure α} (hp : p.IsAside)
    (h : p.Comes (Spares spared) w deeds q w') :
    q.IsAside ∧ s.AccountsFor (fun _ => False) deeds ∧ Spares spared w w' := by
  have hR := rely_spares spared
  induction h with
  | start => exact ⟨hp, .nil, hR.refl w⟩
  | others _ change ih => exact ⟨ih.1, ih.2.1, hR.trans _ _ _ ih.2.2 change⟩
  | @own _ _ action next v _ _ ih =>
    obtain ⟨⟨haction, hnext⟩, haccounts, hw⟩ := ih
    exact ⟨hnext _, haccounts.append (.single (.aside haction) (List.forall_mem_nil _)),
      hR.trans _ _ _ hw (haction.spares spared v)⟩

theorem finishes_aside {p : Procedure α} (hp : p.IsAside)
    (h : p.Finishes (Spares spared) w deeds a w') :
    s.AccountsFor (fun _ => False) deeds ∧ Spares spared w w' := (comes_aside hp h).2

/-- Changes to a unit of work leave the store alone. -/
theorem finishes_stage {f : Desk → α × Desk} (hids : ∀ d, d.ids.next ≤ (f d).2.ids.next)
    (h : (perform (.stage f)).Finishes (Spares spared) w deeds a w') :
    ∃ v, deeds = [⟨v, .stage f⟩] ∧ Spares spared w v ∧ a = (f v.desk).1 ∧ Spares spared v w' := by
  have hR := rely_spares spared
  obtain ⟨v, hdeeds, hv, ha, hw'⟩ := Finishes.of_perform hR h
  have hstage : Spares spared v (v.perform (.stage f)).2 := spares_of_store_eq rfl (hids v.desk)
  exact ⟨v, hdeeds, hv, ha, hR.trans _ _ _ hstage hw'⟩

theorem finishes_stageWith {f : Staging → α × Staging}
    (hids : ∀ staging : Staging, staging.ids.next ≤ (f staging).2.ids.next) {a : α × WorkUnit}
    (h : (stageWith u f).Finishes (Spares spared) w deeds a w') :
    ∃ v action, stageWith u f = perform action ∧ deeds = [⟨v, action⟩] ∧ Spares spared w v ∧
      a = ((f ⟨u, v.permits, v.ids, v.now⟩).1, (f ⟨u, v.permits, v.ids, v.now⟩).2.unit) ∧
      Spares spared v w' := by
  obtain ⟨v, rfl, hv, rfl, hw'⟩ := finishes_stage (fun d => hids ⟨u, d.permits, d.ids, d.now⟩) h
  exact ⟨v, _, rfl, rfl, hv, rfl, hw'⟩

/-! ### Lands -/

/-- A unit of work is committed with this answer; what else is done leaves the store alone. -/
def Lands (spared : FailureId → Prop) (w : World) (deeds : List Deed) (u : WorkUnit)
    (answer : Except Error Receipt) (w' : World) : Prop :=
  ∃ v, Spares spared w v ∧ ⟨v, .commit u⟩ ∈ deeds ∧ (v.store.commit u v.now).1 = answer ∧
    Spares spared (v.perform (.commit u)).2 w'

namespace Lands

variable {answer : Except Error Receipt} {deeds' : List Deed} {w₀ : World}

theorem before (h : Lands spared w deeds u answer w') (hw : Spares spared w₀ w)
    (hdeeds : deeds ⊆ deeds') : Lands spared w₀ deeds' u answer w' := by
  obtain ⟨v, hv, hmem, hanswer, hw'⟩ := h
  exact ⟨v, (rely_spares spared).trans _ _ _ hw hv, hdeeds hmem, hanswer, hw'⟩

theorem after {w'' : World} (h : Lands spared w deeds u answer w')
    (hw : Spares spared w' w'') : Lands spared w deeds u answer w'' := by
  obtain ⟨v, hv, hmem, hanswer, hw'⟩ := h
  exact ⟨v, hv, hmem, hanswer, (rely_spares spared).trans _ _ _ hw' hw⟩

/-- The records of a unit of work that was committed are kept. -/
theorem remembers {receipt : Receipt} (h : Lands spared w deeds u (.ok receipt) w') {x : Switch}
    (hx : u.Bears x) : w'.store.Remembers spared x := by
  obtain ⟨v, -, -, hanswer, hw'⟩ := h
  exact .of_commit hanswer hx hw'

theorem fails {error : Error} (h : Lands spared w deeds u (.error error) w')
    (herror : ∀ promoter, error ≠ .switchRejected promoter) : ∃ d ∈ deeds, d.Fails := by
  obtain ⟨v, -, hmem, hanswer, -⟩ := h
  exact ⟨_, hmem, v, u, error, rfl, hanswer, herror⟩

/-- A commit that fails leaves the store alone. -/
theorem spares {error : Error} (h : Lands spared w deeds u (.error error) w') :
    Spares spared w w' := by
  obtain ⟨v, hv, -, hanswer, hw'⟩ := h
  have hR := rely_spares spared
  exact hR.trans _ _ _ hv (hR.trans _ _ _ (spares_of_refused hanswer) hw')

/-- A unit without moves is not refused for one. -/
theorem ne_switchRejected (h : Lands spared w deeds u answer w') (hu : u.transitions = [])
    (promoter : PromoterId) : answer ≠ .error (.switchRejected promoter) := by
  obtain ⟨v, -, -, rfl, -⟩ := h
  exact Store.commit_ne_switchRejected_of_nil hu _ promoter

end Lands

/-- Of the attempts to commit a unit of work, only the last may have written anything. -/
theorem finishes_commitRetrying {backoff : ℕ → Duration} {retries attempt : ℕ}
    {answer : Except Error Receipt}
    (h : (commitRetrying backoff u retries attempt).Finishes (Spares spared) w deeds answer w') :
    s.AccountsFor (· ∈ u.refused answer) deeds ∧ Lands spared w deeds u answer w' := by
  have hR := rely_spares spared
  induction retries generalizing attempt w deeds with
  | zero =>
    obtain ⟨v, rfl, hv, rfl, hw'⟩ := Finishes.of_perform hR h
    exact ⟨.single .commit fun _ hx => hx, v, hv, List.mem_cons_self, rfl, hw'⟩
  | succ retries ih =>
    unfold commitRetrying at h
    obtain ⟨b, w₁, first, rest, rfl, hfirst, hrest⟩ := Finishes.of_bind h
    obtain ⟨v, rfl, hv, rfl, hw₁⟩ := Finishes.of_perform hR hfirst
    have hcommits : Lands spared w [⟨v, .commit u⟩] u (v.store.commit u v.now).1 w₁ :=
      ⟨v, hv, List.mem_cons_self, rfl, hw₁⟩
    have hwork : s.Work ⟨v, .commit u⟩ (u.refused (v.store.commit u v.now).1) := .commit
    have hanswer : (v.perform (.commit u)).1 = (v.store.commit u v.now).1 := rfl
    rw [hanswer] at hrest
    have hlast : (done (v.store.commit u v.now).1).Finishes (Spares spared) w₁ rest answer w' →
        s.AccountsFor (· ∈ u.refused answer) ([⟨v, .commit u⟩] ++ rest) ∧
          Lands spared w ([⟨v, .commit u⟩] ++ rest) u answer w' := by
      intro hdone
      obtain ⟨rfl, rfl, hw'⟩ := Finishes.of_done hR hdone
      exact ⟨.single hwork fun _ hx => hx, hcommits.after hw'⟩
    generalize (v.store.commit u v.now).1 = answer' at *
    cases answer' with
    | ok receipt => exact hlast hrest
    | error error =>
      dsimp only at hrest
      split at hrest
      · rename_i htransient
        obtain ⟨_, w₂, wait, rest, rfl, hwait, hrest⟩ := Finishes.of_bind hrest
        obtain ⟨hquiet, hw₂⟩ := finishes_aside (s := s) (isAside_sleep _) hwait
        obtain ⟨haccounts, hlater⟩ := ih hrest
        have hother : ∀ promoter, (.error error : Except Error Receipt) ≠
            .error (.switchRejected promoter) := by
          rintro promoter ⟨⟩
          cases htransient
        rw [WorkUnit.refused_eq_nil hother] at hwork
        refine ⟨(AccountsFor.single hwork (List.forall_mem_nil _)).append
          (hquiet.none.append haccounts), hlater.before ?_ ?_⟩
        · exact hR.trans _ _ _ hcommits.spares hw₂
        · exact fun d hd => List.mem_append_right _ (List.mem_append_right _ hd)
      · exact hlast hrest

theorem finishes_commit {answer : Except Error Receipt}
    (h : (s.commit u).Finishes (Spares spared) w deeds answer w') :
    s.AccountsFor (· ∈ u.refused answer) deeds ∧ Lands spared w deeds u answer w' :=
  finishes_commitRetrying h

/-- Moves that are demoted leave records of the switches that they carried out. -/
theorem finishes_demote {promoter : PromoterId} {a : Unit × WorkUnit}
    (h : (stageWith u fun staging => ((), staging.demoteTransitions (.switchRejected promoter)
      staging.now)).Finishes (Spares spared) w deeds a w') :
    s.AccountsFor (fun _ => False) deeds ∧ Spares spared w w' ∧ u.Edits a.2 ∧ a.2.transitions = [] ∧
      ∀ x ∈ u.switches, a.2.Bears x := by
  have hedits : ∀ staging : Staging, staging.Edits _ := fun staging =>
    staging.edits_demoteTransitions (.switchRejected promoter)
  obtain ⟨v, action, hdeed, rfl, hv, rfl, hw'⟩ := finishes_stageWith (fun s => (hedits s).ids) h
  have hR := rely_spares spared
  refine ⟨.single (.demote hdeed) (List.forall_mem_nil _), hR.trans _ _ _ hv hw',
    (hedits ⟨u, v.permits, v.ids, v.now⟩).unit, ?_, fun x hx => ?_⟩
  · obtain ⟨records, ids, hframe, -⟩ :=
      (⟨u, v.permits, v.ids, v.now⟩ : Staging).demoteTransitions_frame (.switchRejected promoter)
        v.now
    dsimp only
    rw [hframe]
  · exact Staging.bears_demoteTransitions (s := ⟨u, v.permits, v.ids, v.now⟩) hx _ _

/-- A unit of work whose moves are refused is committed with records of them. -/
theorem finishes_commitDemoting {a : Except Error Receipt × WorkUnit}
    (h : (s.commitDemoting u).Finishes (Spares spared) w deeds a w') :
    s.AccountsFor a.2.Bears deeds ∧ u.Edits a.2 ∧ Lands spared w deeds a.2 a.1 w' ∧
      ∀ promoter, a.1 ≠ .error (.switchRejected promoter) := by
  have hR := rely_spares spared
  unfold commitDemoting at h
  obtain ⟨answer, w₁, first, rest, rfl, hfirst, hrest⟩ := Finishes.of_bind h
  obtain ⟨haccounts, hcommits⟩ := finishes_commit hfirst
  split at hrest
  · rename_i promoter
    have hmoves : u.transitions ≠ [] := fun hnone =>
      hcommits.ne_switchRejected hnone promoter rfl
    rw [if_neg (by simpa using hmoves)] at hrest
    obtain ⟨⟨_, u'⟩, w₂, demotion, rest, rfl, hdemotion, hrest⟩ := Finishes.of_bind hrest
    obtain ⟨answer, w₃, last, rest, rfl, hlast, hrest⟩ := Finishes.of_bind hrest
    obtain ⟨rfl, rfl, hw'⟩ := Finishes.of_done hR hrest
    obtain ⟨hquiet, hw₂, hedits, hnone, hbears⟩ := finishes_demote (s := s) hdemotion
    obtain ⟨haccounts', hcommits'⟩ := finishes_commit hlast
    have hlater : Lands spared w (first ++ (demotion ++ (last ++ []))) u' answer w' := by
      refine (hcommits'.after hw').before (hR.trans _ _ _ hcommits.spares hw₂) fun d hd => ?_
      simp [hd]
    have hnever := hlater.ne_switchRejected hnone
    rw [WorkUnit.refused_eq_nil hnever] at haccounts'
    refine ⟨?_, hedits, hlater, hnever⟩
    exact (haccounts.mono hbears).append
      (hquiet.none.append ((haccounts'.mono fun _ hx => by cases hx).append .nil))
  · rename_i hanswer
    obtain ⟨rfl, rfl, hw'⟩ := Finishes.of_done hR hrest
    rw [WorkUnit.refused_eq_nil hanswer] at haccounts
    refine ⟨(haccounts.mono fun _ hx => by cases hx).append .nil, .refl,
      (hcommits.after hw').before (hR.refl w) (List.subset_append_left _ _), hanswer⟩

/-! ### Dispatches and locks -/

/-- Each switch that is refused in a dispatch leaves a record with the unit of work. -/
theorem finishes_dispatch (hbuiltIn : s.extra = []) {depth : Depth} {e : Event}
    {a : DispatchReport × WorkUnit}
    (h : (s.dispatch u depth e).Finishes (Spares spared) w deeds a w') :
    s.AccountsFor a.2.Bears deeds ∧ u.Edits a.2 ∧ Spares spared w w' := by
  have hR := rely_spares spared
  have hedits := fun d : Desk => Dispatcher.edits_dispatchAt (fair_of_builtIn hbuiltIn).handlers
    depth e ⟨u, d.permits, d.ids, d.now⟩ d.calls
  obtain ⟨v, rfl, hv, rfl, hw'⟩ := finishes_stage (fun d => (hedits d).ids) h
  exact ⟨.single (.dispatch rfl) fun _ => bears_of_mem_refusals hbuiltIn, (hedits v.desk).unit,
    hR.trans _ _ _ hv hw'⟩

theorem finishes_dispatchEach (hbuiltIn : s.extra = []) {depth : Depth} {es : List Event}
    (h : (s.dispatchEach depth es u).Finishes (Spares spared) w deeds u' w') :
    s.AccountsFor u'.Bears deeds ∧ u.Edits u' ∧ Spares spared w w' := by
  have hR := rely_spares spared
  induction es generalizing u w deeds with
  | nil =>
    obtain ⟨rfl, rfl, hw⟩ := Finishes.of_done hR h
    exact ⟨.nil, .refl, hw⟩
  | cons e es ih =>
    unfold dispatchEach at h
    obtain ⟨a, w₁, first, rest, rfl, hfirst, hrest⟩ := Finishes.of_bind h
    obtain ⟨haccounts, hedits, hw₁⟩ := finishes_dispatch hbuiltIn hfirst
    obtain ⟨haccounts', hedits', hw'⟩ := ih hrest
    exact ⟨(haccounts.mono fun _ hx => hx.edits hedits').append haccounts', hedits.trans hedits',
      hR.trans _ _ _ hw₁ hw'⟩

/-- Taking and giving back locks is on the side. -/
theorem finishes_withLocks {ks : List LockKey} {body : Procedure α}
    (h : (withLocks ks body).Finishes (Spares spared) w deeds a w') :
    ∃ v v' mine, body.Finishes (Spares spared) v mine a v' ∧ Spares spared w v ∧
      Spares spared v' w' ∧ mine ⊆ deeds ∧ ∀ P, s.AccountsFor P mine → s.AccountsFor P deeds := by
  have hR := rely_spares spared
  unfold withLocks at h
  obtain ⟨task, w₁, first, rest, rfl, hfirst, hrest⟩ := Finishes.of_bind h
  obtain ⟨_, w₂, second, rest, rfl, hsecond, hrest⟩ := Finishes.of_bind hrest
  obtain ⟨b, w₃, mine, rest, rfl, hmine, hrest⟩ := Finishes.of_bind hrest
  obtain ⟨_, w₄, last, rest, rfl, hlast, hrest⟩ := Finishes.of_bind hrest
  obtain ⟨rfl, rfl, hw'⟩ := Finishes.of_done hR hrest
  have hnew : (perform .newTask).IsAside := only_perform trivial
  have hback : (perform (.releaseLocks task ks)).IsAside := only_perform trivial
  obtain ⟨hquiet, hw₁⟩ := finishes_aside (s := s) hnew hfirst
  obtain ⟨hquiet', hw₂⟩ := finishes_aside (s := s) (isAside_lockAll task ks) hsecond
  obtain ⟨hquiet'', hw₄⟩ := finishes_aside (s := s) hback hlast
  refine ⟨w₂, w₃, mine, hmine, hR.trans _ _ _ hw₁ hw₂, hR.trans _ _ _ hw₄ hw', fun d hd => ?_,
    fun P haccounts => ?_⟩
  · simp [hd]
  · exact hquiet.none.append (hquiet'.none.append (haccounts.append (hquiet''.none.append .nil)))

end Service

end Referral
