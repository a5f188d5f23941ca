import Referral.Proofs.Messages
import Referral.Proofs.Retrying
import Referral.Proofs.Switches

/-!
# Messages about what is tried again

A retry hands over messages as other requests do. Only when the rules are tried again for an event
may commissions and reports be out of order: the reports that the rules return are dispatched one
after the other, each with all that follows from it, and there may be other reports among this.
-/

namespace Referral

open Procedure

namespace Service

open World (Renews rely_renews)

variable {s : Service} {r : Numbers} {next : ℕ} {orderly : WorkUnit → Prop} {w w' : World}
  {deeds : List Deed} {u u' : WorkUnit}

/-! ## Marks on records -/

/-- A commit that only marks a record hands nothing over. -/
theorem tells_mark {k : PromoterKey} {mark : WorkUnit → WorkUnit} {outcome : RetryOutcome}
    {a : Except Error RetryOutcome}
    (hmark : ∀ c, (mark (.start c)).commissions = [] ∧ (mark (.start c)).transitions = [])
    (h : (do
      let u ← startUnit k
      let answer ← s.commit (mark u)
      return answer.map fun _ => outcome : Procedure (Except Error RetryOutcome)).Finishes
        (Renews r) w deeds a w') :
    Tells r next orderly deeds (some ([], [])) ∧ (a = .ok outcome ∨ ∃ error, a = .error error) := by
  obtain ⟨u, w₁, first, rest, rfl, hstart, hrest⟩ := Finishes.of_bind h
  obtain ⟨hsilent, -, c, rfl⟩ := brings_startUnit hstart
  obtain ⟨answer, w₂, second, rest, rfl, hcommit, hrest⟩ := Finishes.of_bind hrest
  obtain ⟨hcommitted, -⟩ := brings_commit hcommit
  obtain ⟨rfl, rfl, -⟩ := Finishes.of_done (rely_renews r) hrest
  obtain ⟨hcommissions, hmoves⟩ := hmark c
  have hnotes : (mark (.start c)).notifications = [] := by
    rw [WorkUnit.notifications, hcommissions, hmoves]
    rfl
  refine ⟨.before hsilent (.of_commit hcommitted ?_ (fun _ =>
    WorkUnit.isToldBy_of_no_commissions r next hcommissions) fun x hx => ?_), ?_⟩
  · rw [WorkUnit.flatMap_accepted hnotes]
    exact .nil
  · cases hx
    exact ⟨WorkUnit.flatMap_accepted hcommissions answer,
      WorkUnit.flatMap_accepted (by rw [hmoves, List.map_nil]) answer⟩
  · cases answer with
    | ok receipt => exact .inl rfl
    | error error => exact .inr ⟨error, rfl⟩

theorem tells_stillFailing {f : Failure} {error : Error} {a : Except Error RetryOutcome}
    (h : (s.stillFailing f error).Finishes (Renews r) w deeds a w') :
    Tells r next orderly deeds (some ([], [])) ∧
      (a = .ok (.stillFailing error) ∨ ∃ error, a = .error error) :=
  tells_mark (fun _ => ⟨rfl, rfl⟩) h

theorem tells_resolveOnly {f : Failure} {ts : List Transition} {a : Except Error RetryOutcome}
    (h : (s.resolveOnly f ts).Finishes (Renews r) w deeds a w') :
    Tells r next orderly deeds (some ([], [])) ∧
      (a = .ok (.resolved [] ts) ∨ ∃ error, a = .error error) :=
  tells_mark (fun _ => ⟨rfl, rfl⟩) h

/-- The totals of a promoter are rebuilt: nothing is committed but a mark on the record. -/
theorem tells_retryByRebuild {f : Failure} {a : Except Error RetryOutcome}
    (h : (s.retryByRebuild f).Finishes (Renews r) w deeds a w') :
    Tells r next orderly deeds ((Request.retry f.id).told a) := by
  obtain ⟨answer, w₁, first, rest, rfl, hrebuild, hrest⟩ := Finishes.of_bind h
  have hsilent : Brings first [] [] := brings_silent
    (only_rebuild (fun h => h.isSilent) s.config (only_pure false) _) hrebuild
  refine .before hsilent ?_
  cases answer with
  | error error =>
    obtain ⟨htells, ha⟩ := tells_stillFailing hrest
    exact htells.answered _ ha
  | ok rebuilt =>
    obtain ⟨htells, ha⟩ := tells_resolveOnly hrest
    exact htells.answered _ ha

/-- A switch by hand is made once more, and its record is marked apart from it. -/
theorem tells_retrySwitch {f : Failure} {a : Except Error RetryOutcome}
    (h : (s.retrySwitch f).Finishes (Renews r) w deeds a w') :
    Tells r next orderly deeds ((Request.retry f.id).told a) := by
  have hR := rely_renews r
  unfold retrySwitch at h
  split at h
  · rename_i target _
    obtain ⟨answer, w₁, first, rest, rfl, hswitch, hrest⟩ := Finishes.of_bind h
    have hmoved : Tells r next orderly first
        ((Request.switchCircle ⟨f.program, f.promoter⟩ target).told answer) :=
      tells_switchCircle hswitch
    split at hrest
    · obtain ⟨htells, ha⟩ := tells_resolveOnly hrest
      exact (hmoved.append htells).answered _ ha
    · obtain ⟨htells, ha⟩ := tells_resolveOnly hrest
      exact (hmoved.append htells).answered _ ha
    · obtain ⟨htells, ha⟩ := tells_stillFailing hrest
      exact (hmoved.append htells).answered _ ha
    · obtain ⟨htells, ha⟩ := tells_stillFailing hrest
      exact (hmoved.append htells).answered _ ha
    · obtain ⟨rfl, rfl, -⟩ := Finishes.of_done hR hrest
      exact (hmoved.append (.nothing .nil)).unsaid
  · obtain ⟨rfl, rfl, -⟩ := Finishes.of_done hR h
    exact (Tells.nothing .nil).unsaid

/-! ## What is redone -/

/-- The events that a retry led to, and the unit of work that they are dispatched on. Where there
are several reports, they are all of the commissions for one event, for which the rules were
tried. -/
structure Redone (s : Service) (r : Numbers) (f : Failure) (orderly : WorkUnit → Prop)
    (u : WorkUnit) (children : List Event) (next : ℕ) : Prop where
  reported : u.Reported r next [] children
  events : u.events = []
  room : ∀ g ∈ children, g.isReport = true → f.depth.next ≤ s.config.maxDepth
  few : (∀ g ∈ children, g.isReport = false) ∨ children.length ≤ 1 ∨
    (∀ g ∈ children, g.isReport = true) ∧ ∃ source ∈ u.evaluated,
      (∀ c ∈ u.commissions, c.source = source) ∧ ∀ u', orderly u' → u'.IsPlain source

theorem Redone.mono {f : Failure} {children : List Event} {next' : ℕ}
    (h : s.Redone r f orderly u children next) (hnext : next ≤ next') :
    s.Redone r f orderly u children next' :=
  ⟨h.reported.congr hnext rfl rfl, h.events, h.room, h.few⟩

theorem brings_sourceEvent {f : Failure} {answer : Except Error Event}
    (h : (sourceEvent f).Finishes (Renews r) w deeds answer w') :
    Brings deeds [] [] ∧ Renews r w w' ∧ (w.IsFresh r → ∀ e, answer = .ok e →
      f.event = some e.id ∧ r.Spent w'.ids.next e.id) := by
  have hR := rely_renews r
  unfold sourceEvent at h
  split at h
  · obtain ⟨rfl, rfl, hw'⟩ := Finishes.of_done hR h
    exact ⟨.nil, hw', fun _ _ he => by cases he⟩
  rename_i id hid
  obtain ⟨stored, w₁, first, rest, rfl, hread, hrest⟩ := Finishes.of_bind h
  obtain ⟨v, -, hv, hstored, hw₁⟩ := Finishes.of_perform hR hread
  have hsilent := brings_perform hread trivial
  cases stored with
  | none =>
    obtain ⟨rfl, rfl, hw'⟩ := Finishes.of_done hR hrest
    refine ⟨hsilent.after .nil, hR.trans _ _ _ hv (hR.trans _ _ _ hw₁ hw'), fun _ _ he => ?_⟩
    cases he
  | some stored =>
    obtain ⟨rfl, rfl, hw'⟩ := Finishes.of_done hR hrest
    refine ⟨hsilent.after .nil, hR.trans _ _ _ hv (hR.trans _ _ _ hw₁ hw'), fun hw e he => ?_⟩
    cases he
    have hfound : v.store.event? id = some stored := hstored.symm
    have hsource : v.store.IsSource f stored.event := ⟨id, stored, hid, hfound, rfl⟩
    obtain ⟨-, hname⟩ := (hv.fresh hw).located.event? hfound
    exact ⟨hname ▸ hid, ((hv.fresh hw).logged _ hsource.mem_facts).mono (hw₁.ids.trans hw'.ids)⟩

/-- An effect that is fired leads to one event at most, and this reports what was earned. -/
theorem redone_fire (s : Service) (r : Numbers) (f : Failure) (orderly : WorkUnit → Prop)
    (e : Event) (rule : RuleId) (effect : Effect) (staging : Staging)
    (hcommissions : staging.unit.commissions = []) (hevents : staging.unit.events = [])
    (hfirst : r.first ≤ staging.ids.next) :
    let fired := staging.fire s.config e rule effect f.depth
    staging.ids.next ≤ fired.2.ids.next ∧ (fired.2.ids.next ≤ r.limit → ∀ children,
      (fired.1.mapError Refusal.toError).map Option.toList = .ok children →
        s.Redone r f orderly fired.2.unit children fired.2.ids.next) := by
  have hhandles := staging.handles_fire s.config e f.depth rule effect (fun _ _ => True) trivial
  refine ⟨hhandles.ids_le, fun hnext children hchildren => ?_⟩
  obtain ⟨emitted, hemitted, rfl⟩ : ∃ emitted, (staging.fire s.config e rule effect f.depth).1 =
      .ok emitted ∧ emitted.toList = children := by
    cases hfired : (staging.fire s.config e rule effect f.depth).1 with
    | error refusal =>
      rw [hfired] at hchildren
      cases hchildren
    | ok emitted =>
      rw [hfired] at hchildren
      exact ⟨emitted, rfl, Except.ok.inj hchildren⟩
  rw [hemitted] at hhandles
  have hreported := (hhandles.reported (.start hcommissions hevents hfirst)).unit
    ⟨hnext, .inl (List.forall_mem_nil _)⟩
  refine ⟨hreported.put_off, hhandles.events_eq.trans hevents, fun g hg _ =>
    (hhandles.reports g hg).2.1, .inr (.inl ?_)⟩
  cases emitted with
  | none => exact Nat.zero_le _
  | some g => exact le_rfl

section Retries

variable (hlimit : s.config.maxDepth.val < 255) (hextra : ∀ h ∈ s.extra, h.Observes r)

include hextra

/-- A handler that is called once more returns the reports of what was earned for the event, or no
reports. -/
theorem redone_react {f : Failure} {e : Event} {h : Handler} (hmem : h ∈ s.dispatcher.handlers)
    (hname : h.name ≠ aggregatesHandler.name)
    (hplain : h = rulesHandler s.config → ∀ u, orderly u → u.IsPlain e.id) (calls : List Call)
    {c : Context} {permits : Permits} {ids : IdSupply} {now : Instant} (hfirst : r.first ≤ ids.next)
    (hcalls : ∀ c' ∈ calls, r.Spent ids.next c'.event.id) (hspent : r.Spent ids.next e.id) :
    let answer := h.react calls ⟨e, f.depth⟩ ⟨.start c, permits, ids, now⟩
    ids.next ≤ answer.2.ids.next ∧ (answer.2.ids.next ≤ r.limit → ∀ children,
      answer.1 = .ok children → s.Redone r f orderly answer.2.unit children answer.2.ids.next) := by
  let start : Staging := ⟨.start c, permits, ids, now⟩
  rcases List.mem_cons.mp hmem with rfl | hmem
  · exact (hname rfl).elim
  rcases List.mem_cons.mp hmem with rfl | hmem
  · have hhandles := start.handles_react s.config calls ⟨e, f.depth⟩
    refine ⟨hhandles.ids_le, fun hnext children hchildren => ?_⟩
    obtain ⟨hreported, hreports, ⟨hevaluated, -⟩, hevents, hsource⟩ := reported_callRules s.config
      calls ⟨e, f.depth⟩ permits now hfirst (Prod.ext hchildren rfl) hnext
    exact ⟨hreported, hevents, fun g hg _ => (hreports g hg).2, .inr (.inr
      ⟨fun g hg => (hreports g hg).1, e.id, hevaluated, hsource, hplain rfl⟩)⟩
  · have hh := hextra h hmem
    refine ⟨hh.ids_le _ _ start, fun hnext children hchildren => ?_⟩
    have hunit : (h.react calls ⟨e, f.depth⟩ start).2.unit = .start c := hh.unit _ _ _
    have hnone := hh.returned calls ⟨e, f.depth⟩ start children hchildren
    have hnew := hh.spent calls ⟨e, f.depth⟩ start children hchildren hfirst
      (List.forall_mem_cons.mpr ⟨hspent, hcalls⟩) (List.forall_mem_nil _)
    have hids := hh.ids_le calls ⟨e, f.depth⟩ start
    rw [hunit]
    refine ⟨.start rfl rfl (hfirst.trans hids) hnew hnone, rfl, fun g hg hreport => ?_, .inl hnone⟩
    rw [hnone g hg] at hreport
    cases hreport

include hlimit

/-- The order is kept while these events are dispatched. -/
theorem Redone.reported_dispatchEach {f : Failure} {children : List Event}
    (hw : w.IsFresh r) (hredone : s.Redone r f orderly u children w.ids.next)
    (h : (s.dispatchEach f.depth.next children u).Finishes (Renews r) w deeds u' w')
    (hnumbers : w'.ids.next ≤ r.limit) {v : WorkUnit}
    (hcommissions : v.commissions = u'.commissions) (hevents : v.events = u'.events)
    (hv : orderly v) : u'.Reported r w'.ids.next [] [] := by
  refine Service.reported_dispatchEach hlimit hextra hredone.room hw hredone.reported h hnumbers ?_
  rcases hredone.few with hnone | hone | ⟨hreports, source, hevaluated, hsource, hplain⟩
  · exact .inl hnone
  · exact .inr (.inl ⟨hone, hredone.events⟩)
  have hkept : ∀ e staging calls, Staging.Exhausts source u.commissions staging →
      Staging.Exhausts source u.commissions
        (s.dispatcher.dispatchAt f.depth.next e staging calls).staging :=
    fun e staging calls hs => exhausts_dispatchAt hextra hs _ e calls
  -- the rules were evaluated for the event, so no more commissions for it come of the dispatches
  obtain ⟨⟨-, more, hmore, hothers⟩, -⟩ := dispatchEach_keeps (P := fun v =>
      source ∈ v.evaluated ∧ ∃ more, v.commissions = u.commissions ++ more ∧
        ∀ c ∈ more, c.source ≠ source) hextra hkept
    ⟨hevaluated, [], (List.append_nil _).symm, List.forall_mem_nil _⟩ h
  rcases hplain v hv with hfew | ⟨hall, hplain⟩
  · -- as many reports as commissions were returned, and this is one at most
    refine .inr (.inl ⟨?_, hredone.events⟩)
    have hlength : u.commissions.length = children.length := by
      have hpaired := hredone.reported.paired.length_eq
      rwa [hredone.events, List.append_nil, List.nil_append, List.filter_eq_self.mpr hreports]
        at hpaired
    have hfilter : u.commissions.filter (·.source = source) = u.commissions :=
      List.filter_eq_self.mpr fun c hc => by simpa using hsource c hc
    rw [hcommissions, hmore, List.filter_append, hfilter, List.length_append] at hfew
    omega
  · refine .inr (.inr ⟨?_, fun g hg => hplain g (hevents ▸ hg)⟩)
    have hnone : more = [] := List.eq_nil_iff_forall_not_mem.mpr fun c hc => hothers c hc
      (hall c (hcommissions ▸ hmore ▸ List.mem_append_right _ hc))
    rw [hmore, hnone, List.append_nil]

/-- The events that a retry led to are dispatched and all is committed, or the attempt is
counted. -/
theorem tells_settleRetry {f : Failure} {result : Except Error (List Event)}
    {a : Except Error RetryOutcome} (hw : w.IsFresh r)
    (hredone : w.ids.next ≤ r.limit → ∀ children, result = .ok children →
      s.Redone r f orderly u children w.ids.next)
    (h : (s.settleRetry f result u).Finishes (Renews r) w deeds a w')
    (hnumbers : w'.ids.next ≤ r.limit) :
    Tells r w'.ids.next orderly deeds ((Request.retry f.id).told a) := by
  cases result with
  | error error =>
    obtain ⟨answer, w₁, first, rest, rfl, hmark, hrest⟩ := Finishes.of_bind h
    obtain ⟨hsilent, rfl, -⟩ := brings_finish hrest
    obtain ⟨htells, ha⟩ := tells_stillFailing hmark
    exact (htells.append (.nothing hsilent)).answered _ ha
  | ok children =>
    obtain ⟨u₁, w₁, first, rest, rfl, hdispatch, hrest⟩ := Finishes.of_bind h
    obtain ⟨⟨answer, u₂⟩, w₂, second, rest, rfl, hcommit, hrest⟩ := Finishes.of_bind hrest
    obtain ⟨hcommitted, hw₂, hcommissions, hevents⟩ := brings_commitDemoting hcommit
    obtain ⟨-, hw₁⟩ := edits_dispatchEach hextra hdispatch
    have hlast : Brings rest ((u₂.accepted answer).flatMap WorkUnit.notifications) [] ∧
        w₂.ids.next ≤ w'.ids.next ∧
        ∀ x ∈ (Request.retry f.id).told a, (u₂.accepted answer).flatMap (·.commissions) = x.1 ∧
          (u₂.accepted answer).flatMap (fun u => u.transitions.map (·.transition)) = x.2 := by
      cases answer with
      | error error =>
        obtain ⟨hsilent, rfl, hw'⟩ := brings_finish hrest
        exact ⟨hsilent, hw', fun x hx => by cases hx⟩
      | ok receipt =>
        obtain ⟨hoffer, rfl, hw'⟩ := brings_offer hrest
        rw [WorkUnit.accepted, List.flatMap_singleton]
        refine ⟨hoffer, hw', fun x hx => ?_⟩
        cases hx
        exact ⟨List.append_nil _, List.append_nil _⟩
    obtain ⟨hoffer, hw', htold⟩ := hlast
    refine .before (brings_silent (isSilent_dispatchEach _ _ _) hdispatch)
      (.of_commit hcommitted hoffer (fun hv => ?_) htold)
    have hreported := (hredone (hw₁.trans (hw₂.trans (hw'.trans hnumbers))) children
      rfl).reported_dispatchEach hlimit hextra hw hdispatch (hw₂.trans (hw'.trans hnumbers))
        hcommissions hevents hv
    exact (hreported.congr (hw₂.trans hw') hcommissions hevents).isToldBy

/-- Something is done once more for an event on a unit of work of its own. -/
theorem tells_redo {β : Type} (result : β → Except Error (List Event)) {f : Failure}
    {e : Event} {act : WorkUnit → Desk → (β × WorkUnit) × Desk} {a : Except Error RetryOutcome}
    (hfirst : r.first ≤ w.ids.next) (hw : w.IsFresh r) (hspent : r.Spent w.ids.next e.id)
    (hact : ∀ c d answer u d', act (.start c) d = ((answer, u), d') → r.first ≤ d.ids.next →
      r.Spent d.ids.next e.id → (∀ x ∈ d.calls, r.Spent d.ids.next x.call.event.id) →
      d.ids.next ≤ d'.ids.next ∧
      (∀ x ∈ d'.calls, x ∈ d.calls ∨ x.call.event = e) ∧
      (d'.ids.next ≤ r.limit → ∀ children, result answer = .ok children →
        s.Redone r f orderly u children d'.ids.next))
    (h : (withLocks e.lockKeys (do
      let u ← startUnit e.promoterKey
      let (answer, u) ← perform (.stage (act u))
      s.settleRetry f (result answer) u)).Finishes (Renews r) w deeds a w')
    (hnumbers : w'.ids.next ≤ r.limit) :
    Tells r w'.ids.next orderly deeds ((Request.retry f.id).told a) := by
  have hR := rely_renews r
  obtain ⟨v₀, v', mine, hbody, hv₀, hv', hbrings⟩ := brings_withLocks h
  obtain ⟨u, v₁, first, rest, rfl, hstart, hrest⟩ := Finishes.of_bind hbody
  obtain ⟨hsilent, hv₁, c, rfl⟩ := brings_startUnit hstart
  obtain ⟨⟨answer, u₁⟩, w₁, second, rest, rfl, hstage, hrest⟩ := Finishes.of_bind hrest
  obtain ⟨v, -, hv, hanswer, hw₁⟩ := Finishes.of_perform hR hstage
  have hbefore : Renews r w v := hR.trans _ _ _ hv₀ (hR.trans _ _ _ hv₁ hv)
  have hfresh : v.IsFresh r := hbefore.fresh hw
  obtain ⟨hids, hcalls, hredone⟩ := hact c v.desk answer u₁ (act (.start c) v.desk).2
    (Prod.ext hanswer.symm rfl) (hfirst.trans hbefore.ids) (hspent.mono hbefore.ids) hfresh.called
  have hstaged : (v.perform (.stage (act (.start c)))).2.IsFresh r := by
    refine ⟨hfresh.located, fun g hg => (hfresh.logged g hg).mono hids, fun x hx => ?_⟩
    rcases hcalls x hx with hold | hcalled
    · exact (hfresh.called x hold).mono hids
    · rw [hcalled]
      exact hspent.mono (hbefore.ids.trans hids)
  have htells := tells_settleRetry hlimit hextra (hw₁.fresh hstaged) (fun hnext children hresult =>
    (hredone (hw₁.ids.trans hnext) children hresult).mono hw₁.ids) hrest (hv'.ids.trans hnumbers)
  exact (Tells.before hsilent (.before (brings_perform hstage trivial) htells)).mono hv'.ids hbrings

/-- The effect of a record is fired once more: it leads to one event at most. -/
theorem tells_retryEffect {f : Failure} {a : Except Error RetryOutcome}
    (hfirst : r.first ≤ w.ids.next) (hw : w.IsFresh r)
    (h : (s.retryEffect f).Finishes (Renews r) w deeds a w') (hnumbers : w'.ids.next ≤ r.limit) :
    Tells r w'.ids.next orderly deeds ((Request.retry f.id).told a) := by
  have hR := rely_renews r
  unfold retryEffect at h
  split at h
  · rename_i effect rule heffect hrule
    obtain ⟨answer, w₁, first, rest, rfl, hsource, hrest⟩ := Finishes.of_bind h
    obtain ⟨hsilent, hw₁, hfound⟩ := brings_sourceEvent hsource
    refine .before hsilent ?_
    cases answer with
    | error error =>
      obtain ⟨rfl, rfl, -⟩ := Finishes.of_done hR hrest
      exact (Tells.nothing .nil).unsaid
    | ok e =>
      obtain ⟨-, hspent⟩ := hfound hw e rfl
      refine tells_redo hlimit hextra (fun fired : Except Refusal (Option Event) =>
        (fired.mapError Refusal.toError).map Option.toList) (hfirst.trans hw₁.ids)
        (hw₁.fresh hw) hspent ?_ hrest hnumbers
      rintro c d _ _ _ hact hd - -
      obtain ⟨hanswer, rfl⟩ := Prod.mk.inj hact
      obtain ⟨rfl, rfl⟩ := Prod.mk.inj hanswer
      obtain ⟨hids, hredone⟩ := redone_fire s r f orderly e rule effect
        ⟨.start c, d.permits, d.ids, d.now⟩ rfl rfl hd
      exact ⟨hids, fun x hx => .inl hx, hredone⟩
  · obtain ⟨rfl, rfl, -⟩ := Finishes.of_done hR h
    exact (Tells.nothing .nil).unsaid

/-- The event of a record is passed to a handler once more. -/
theorem tells_retryHandler {f : Failure} {name : String} {a : Except Error RetryOutcome}
    (hname : name ≠ aggregatesHandler.name)
    (hplain : name = (rulesHandler s.config).name →
      ∀ source ∈ f.event, ∀ u, orderly u → u.IsPlain source)
    (hfirst : r.first ≤ w.ids.next) (hw : w.IsFresh r)
    (h : (s.retryHandler f name).Finishes (Renews r) w deeds a w')
    (hnumbers : w'.ids.next ≤ r.limit) :
    Tells r w'.ids.next orderly deeds ((Request.retry f.id).told a) := by
  have hR := rely_renews r
  unfold retryHandler at h
  split at h
  · obtain ⟨rfl, rfl, -⟩ := Finishes.of_done hR h
    exact (Tells.nothing .nil).unsaid
  rename_i position handler hfind
  obtain ⟨hmem, rfl⟩ := Dispatcher.mem_of_find? hfind
  obtain ⟨answer, w₁, first, rest, rfl, hsource, hrest⟩ := Finishes.of_bind h
  obtain ⟨hsilent, hw₁, hfound⟩ := brings_sourceEvent hsource
  refine .before hsilent ?_
  cases answer with
  | error error =>
    obtain ⟨rfl, rfl, -⟩ := Finishes.of_done hR hrest
    exact (Tells.nothing .nil).unsaid
  | ok e =>
    obtain ⟨hevent, hspent⟩ := hfound hw e rfl
    refine tells_redo hlimit hextra id (hfirst.trans hw₁.ids) (hw₁.fresh hw) hspent ?_
      hrest hnumbers
    rintro c d _ _ _ hact hd hspent' hcalls
    obtain ⟨hanswer, rfl⟩ := Prod.mk.inj hact
    obtain ⟨rfl, rfl⟩ := Prod.mk.inj hanswer
    have hpassed : ∀ c' ∈ callsOf position d.calls, r.Spent d.ids.next c'.event.id := by
      intro c' hc'
      obtain ⟨x, hx, rfl⟩ := List.mem_map.mp hc'
      exact hcalls x (List.mem_of_mem_filter hx)
    obtain ⟨hids, hredone⟩ := redone_react (f := f) hextra hmem hname
      (fun hrules => hplain (congrArg Handler.name hrules) e.id hevent) (callsOf position d.calls)
      (c := c) hd hpassed hspent'
    refine ⟨hids, fun x hx => ?_, hredone⟩
    rcases List.mem_append.mp hx with hx | hx
    · exact .inl hx
    · rw [List.mem_singleton.mp hx]
      exact .inr rfl

/-- A record is read and tried again in the way that its origin asks for. -/
theorem tells_retry {id : FailureId} {a : Except Error RetryOutcome}
    (hfirst : r.first ≤ w.ids.next) (hw : w.IsFresh r)
    (h : (s.retry id).Finishes (Renews r) w deeds a w')
    (hnumbers : w'.ids.next ≤ r.limit) : Tells r w'.ids.next
      ((Request.retry id).Orders s.config deeds) deeds ((Request.retry id).told a) := by
  have hR := rely_renews r
  rw [retry_eq] at h
  obtain ⟨v, rest, rfl, hv, -, hrest⟩ := Finishes.of_act hR h
  let look : Action (Option Failure) := .read fun store => store.failure? id
  -- the first deed is the look at the record, which is what the condition speaks of
  have hlook : look.IsSilent := trivial
  refine .before (hlook.brings v) ?_
  have hrest : (s.afterRead id (v.store.failure? id)).Finishes (Renews r) v rest a w' := hrest
  cases hrecord : v.store.failure? id with
  | none =>
    rw [hrecord] at hrest
    obtain ⟨rfl, rfl, -⟩ := Finishes.of_done hR hrest
    exact (Tells.nothing .nil).unsaid
  | some f =>
    rw [hrecord] at hrest
    have hfirst' := hfirst.trans hv.ids
    simp only [afterRead] at hrest
    split at hrest
    · obtain ⟨rfl, rfl, -⟩ := Finishes.of_done hR hrest
      exact .nothing .nil
    split at hrest
    · obtain ⟨rfl, rfl, -⟩ := Finishes.of_done hR hrest
      exact (Tells.nothing .nil).unsaid
    · exact tells_retrySwitch hrest
    · rename_i name horigin
      split at hrest
      · exact tells_retryByRebuild hrest
      · rename_i hname
        refine tells_retryHandler hlimit hextra hname (fun hrules source hsource u horders => ?_)
          hfirst' (hv.fresh hw) hrest hnumbers
        exact horders f hrecord (hrules ▸ horigin) source hsource
    · exact tells_retryEffect hlimit hextra hfirst' (hv.fresh hw) hrest hnumbers

/-! ## All requests -/

/-- A request is served. -/
theorem tells_serve {req : Request} {a : req.Answer}
    (hspares : ∀ e, req = .publish e → r.Spares e.id)
    (hfirst : r.first ≤ w.ids.next) (hw : w.IsFresh r)
    (h : (s.serve req).Finishes (Renews r) w deeds a w') (hnumbers : w'.ids.next ≤ r.limit) :
    Tells r w'.ids.next (req.Orders s.config deeds) deeds (req.told a) := by
  have hR := rely_renews r
  have hupkeep : ∀ {α : Type} {action : Action α}, action.IsUpkeep → action.IsSilent :=
    fun h => h.isSilent
  cases req with
  | publish e =>
    change (s.publish e).Finishes (Renews r) w deeds a w' at h
    unfold publish at h
    split at h
    · obtain ⟨rfl, rfl, -⟩ := Finishes.of_done hR h
      exact .nothing .nil
    rename_i haccept
    have hother : e.isReport = false := by simpa [Event.isReport] using kind_ne_of_accept haccept
    obtain ⟨v, v', mine, hbody, hv, hv', hbrings⟩ := brings_withLocks h
    -- what is done about the locks counts for nothing
    refine Tells.mono ?_ hv'.ids hbrings
    exact tells_record hlimit hextra (hspares e rfl) hother (hfirst.trans hv.ids) (hv.fresh hw)
      hbody (hv'.ids.trans hnumbers)
  | retry id => exact tells_retry hlimit hextra hfirst hw h hnumbers
  | switchCircle k target => exact tells_switchCircle h
  | putRule | putCircle | assignCircle | cancelRebuild => exact .nothing (brings_perform h trivial)
  | rebuild scope => exact .nothing (brings_silent (only_rebuild hupkeep _ (only_pure false) _) h)
  | rebuildApart task scope =>
    have hcancelled : (perform (.isCancelled task)).IsSilent := ⟨trivial, fun _ => trivial⟩
    exact .nothing (brings_silent (only_rebuild hupkeep _ hcancelled _) h)
  | verify scope => exact .nothing (brings_silent (only_verify hupkeep _ _) h)

end Retries

end Service

/-- To hand messages over leaves the store alone. -/
theorem Deed.store_of_messages {d : Deed} (h : d.messages ≠ []) :
    (d.world.perform d.action).2.store = d.world.store := by
  obtain ⟨w, action⟩ := d
  cases action with
  | offer ns => rfl
  | _ => exact (h rfl).elim

namespace Service

open World (Renews)

variable {s : Service} {r : Numbers} {w w' : World} {deeds : List Deed}

/-- Whatever is asked, and whatever others do meanwhile: messages are handed over about the units of
work that are committed, in their order, and about nothing else. Of each unit they tell of the
commissions, each with the event that reports it, and then of the moves; only where the rules are
tried again for an event does this need more. An answer without commissions and moves comes without
messages. A message that is lost keeps no other from its way, and the store is left alone. -/
theorem commits_are_told (hlimit : s.config.maxDepth.val < 255)
    (hextra : ∀ h ∈ s.extra, h.Observes r) {req : Request} {a : req.Answer}
    (hspares : ∀ e, req = .publish e → r.Spares e.id) (hfirst : r.first ≤ w.ids.next)
    (hw : w.IsFresh r) (h : (s.serve req).Finishes (Renews r) w deeds a w')
    (hnumbers : w'.ids.next ≤ r.limit) :
    Tells r w'.ids.next (req.Orders s.config deeds) deeds (req.told a) ∧
    (req.told a = some ([], []) → deeds.flatMap Deed.messages = []) ∧
    (∀ fails position, deliver fails position (deeds.flatMap Deed.messages) =
      (((deeds.flatMap Deed.messages).zipIdx position).filter fun (_, i) => !fails i).map
        Prod.fst) ∧
    ∀ d ∈ deeds, d.messages ≠ [] → (d.world.perform d.action).2.store = d.world.store := by
  have htells := tells_serve hlimit hextra hspares hfirst hw h hnumbers
  refine ⟨htells, fun hnone => ?_, fun fails position => deliver_eq fails position _,
    fun d _ => Deed.store_of_messages⟩
  rw [hnone] at htells
  exact htells.silent

end Service

/-! ## A handler that follows reports -/

namespace Procedure

variable {α : Type}

/-- The first actions of a procedure that goes on alone. -/
def deedsAlone : ℕ → Procedure α → World → List Deed
  | n + 1, act action next, w =>
    if action.isReady w = true then
      ⟨w, action⟩ :: deedsAlone n (next (w.perform action).1) (w.perform action).2
    else []
  | _, _, _ => []

theorem comes_advance (R : World → World → Prop) (n : ℕ) (p : Procedure α) (w : World) :
    p.Comes R w (p.deedsAlone n w) (p.advance n w).1 (p.advance n w).2 := by
  induction n generalizing p w with
  | zero => exact .start
  | succ n ih =>
    cases p with
    | act action next =>
      by_cases hready : action.isReady w = true
      · simp only [advance, deedsAlone, hready, if_true]
        have hone : (act action next).Comes R w [⟨w, action⟩] (next (w.perform action).1)
            (w.perform action).2 := .own .start hready
        exact hone.trans (ih _ _)
      · simp only [advance, deedsAlone, hready]
        exact .start
    | done a => exact .start
    | both first second next => exact .start

end Procedure

namespace Service

open World (Renews)

/-- A service with a handler that buys something as soon as a commission is reported. -/
def following (purchase : Event) : Service :=
  ⟨{ Config.default with maxDepth := 3 }, [(⟨"follower",
    [⟨none, some .commissionGenerated, some 1, .emit [purchase]⟩]⟩ : Script).handler]⟩

theorem observes_following {r : Numbers} {purchase : Event} (hother : purchase.isReport = false)
    (hspares : r.Spares purchase.id) : ∀ h ∈ (following purchase).extra, h.Observes r := by
  intro h hh
  rw [List.mem_singleton.mp hh]
  refine Script.observes_handler fun x hx => ?_
  rw [List.mem_singleton.mp hx]
  exact List.forall_mem_singleton.mpr ⟨hother, hspares⟩

/-- A rule that rewards each event of a kind with an amount. -/
def rewarding (id : RuleId) (trigger : EventKind) (amount : Money) : Rule :=
  ⟨id, ⟨3⟩, "reward", trigger, none, [], .generateCommission (.fixed amount), true⟩

/-- A signup is rewarded, the handler buys something, and this is rewarded too. -/
theorem commits_are_told_of_followed_signup : ∃ (s : Service) (r : Numbers) (e : Event)
    (w w' : World) (deeds : List Deed) (a : Except Error PublishOutcome),
    s.extra ≠ [] ∧ (∀ h ∈ s.extra, h.Observes r) ∧ w.IsFresh r ∧
    (s.serve (.publish e)).Finishes (Renews r) w deeds a w' ∧
    (deeds.flatMap Deed.messages).length = 2 ∧
    Tells r w'.ids.next ((Request.publish e).Orders s.config deeds) deeds
      ((Request.publish e).told a) := by
  let now : Instant := ⟨0, 0, by decide, by decide, by decide⟩
  let r : Numbers := ⟨100, 200, by decide⟩
  let e : Event := .signup ⟨1⟩ ⟨2⟩ ⟨3⟩ ⟨4⟩ ⟨5⟩ ⟨6⟩ now
  let bought : Event := .purchase ⟨7⟩ ⟨2⟩ ⟨3⟩ ⟨4⟩ ⟨5⟩ ⟨6⟩ none now
  let s : Service := following bought
  let rules : List Rule := [rewarding ⟨8⟩ .signup ⟨20000, by decide, by decide⟩,
    rewarding ⟨9⟩ .purchase ⟨50000, by decide, by decide⟩]
  let w : World := { World.start now ⟨100⟩ with store := { Store.empty with rules } }
  let last := (s.publish e).advance 40 w
  have hanswered : last.1.answer?.isSome = true := by decide +kernel
  obtain ⟨a, ha⟩ := Option.isSome_iff_exists.mp hanswered
  have hextra : ∀ h ∈ s.extra, h.Observes r := observes_following rfl (by decide +kernel)
  have hw : w.IsFresh r :=
    ⟨fun _ _ h => (by cases h), List.forall_mem_nil _, List.forall_mem_nil _⟩
  have hrun : (s.serve (.publish e)).Finishes (Renews r) w ((s.publish e).deedsAlone 40 w) a
      last.2 := by
    have hcourse := comes_advance (Renews r) 40 (s.publish e) w
    rwa [eq_done_of_answer? ha] at hcourse
  have hspares : ∀ e', Request.publish e = .publish e' → r.Spares e'.id := by
    rintro _ ⟨⟩
    decide +kernel
  refine ⟨s, r, e, w, last.2, _, a, List.cons_ne_nil _ _, hextra, hw, hrun, by decide +kernel, ?_⟩
  exact (commits_are_told (by decide) hextra hspares le_rfl hw hrun (by decide +kernel)).1

/-- Two commissions are earned when the rules are tried again for a signup, and the handler buys
something when the first is reported: the report of the purchase is staged before that of the second
commission, and each goes out with the commission of the other. -/
theorem commits_may_be_told_wrong : ¬ ∀ (s : Service) (r : Numbers) (req : Request) (a : req.Answer)
    (w w' : World) (deeds : List Deed), s.config.maxDepth.val < 255 →
    (∀ h ∈ s.extra, h.Observes r) → (∀ e, req = .publish e → r.Spares e.id) →
    r.first ≤ w.ids.next → w.IsFresh r → (s.serve req).Finishes (Renews r) w deeds a w' →
    w'.ids.next ≤ r.limit → Tells r w'.ids.next (fun _ => True) deeds (req.told a) := by
  intro hall
  let now : Instant := ⟨0, 0, by decide, by decide, by decide⟩
  let r : Numbers := ⟨100, 200, by decide⟩
  let e : Event := .signup ⟨1⟩ ⟨2⟩ ⟨3⟩ ⟨4⟩ ⟨5⟩ ⟨6⟩ now
  let bought : Event := .purchase ⟨7⟩ ⟨2⟩ ⟨3⟩ ⟨4⟩ ⟨5⟩ ⟨6⟩ none now
  let s : Service := following bought
  let failure : Failure := .ofError ⟨10⟩ (some e.id) ⟨3⟩ ⟨4⟩ none none (.handler "rules")
    (.store "no totals") 0 now
  let logged : WorkUnit :=
    { WorkUnit.start (Store.empty.context e.promoterKey) with events := [e], failures := [failure] }
  let store : Store := (Store.empty.commit logged now).2
  let w : World := { World.start now ⟨100⟩ with
    store := { store with
      rules := [rewarding ⟨8⟩ .signup ⟨20000, by decide, by decide⟩,
        rewarding ⟨9⟩ .signup ⟨30000, by decide, by decide⟩,
        rewarding ⟨11⟩ .purchase ⟨50000, by decide, by decide⟩] } }
  let deeds := (s.retry ⟨10⟩).deedsAlone 60 w
  let last := (s.retry ⟨10⟩).advance 60 w
  have hanswered : last.1.answer?.isSome = true := by decide +kernel
  obtain ⟨a, ha⟩ := Option.isSome_iff_exists.mp hanswered
  have hlocated : store.Located :=
    (Store.Later.commit Store.empty logged now).located fun _ _ h => by cases h
  have hw : w.IsFresh r := by
    have hlogged : ∀ e ∈ store.facts, r.Spares e.id := by decide +kernel
    exact ⟨hlocated, fun g hg => (hlogged g hg).spent le_rfl, List.forall_mem_nil _⟩
  have hrun : (s.serve (.retry ⟨10⟩)).Finishes (Renews r) w deeds a last.2 := by
    have hcourse := comes_advance (Renews r) 60 (s.retry ⟨10⟩) w
    rwa [eq_done_of_answer? ha] at hcourse
  have htells := hall s r (.retry ⟨10⟩) a w last.2 deeds (by decide)
    (observes_following rfl (by decide +kernel)) (fun _ h => by cases h) le_rfl hw hrun
    (by decide +kernel)
  have hwrong : ∃ u ∈ deeds.flatMap Deed.committed, ∃ n ∈ u.notifications,
      u.Confirms n = false := by decide +kernel
  obtain ⟨u, hu, n, hn, hwrong⟩ := hwrong
  have hright := (htells.units u hu trivial).confirms hn
  rw [hwrong] at hright
  cases hright

end Service

end Referral
