import Referral.Proofs.Fleet
import Referral.Proofs.Records
import Referral.Proofs.Reporting

/-!
# Commissions in the store

In every state that services over one store reach, the stored commissions and the events in the log
that report them are the same, one by one and in the same order, however requests overlap.
-/

namespace Referral

/-- The log accounts for the stored commissions, and for those that may still come from the records
of effects that failed. -/
structure Store.Accounts (r : Numbers) (next : ℕ) (s : Store) : Prop where
  indexed : s.Indexed
  located : s.Located
  checked : s.Checked
  paired : List.Forall₂ (Paired r next) s.commissions (s.facts.filter Event.isReport)
  grounded : Grounded [] s.facts
  owes : ∀ f ∈ s.failures, f.Owes s.facts
  nodup : (s.facts.map (·.id)).Nodup
  first_le : r.first ≤ next

/-- The records of a unit of work are about what is logged with it, and old records about what was
logged before. -/
theorem Store.owes_write {s : Store} {u : WorkUnit} (hs : ∀ f ∈ s.failures, f.Owes s.facts)
    (hu : ∀ f ∈ u.failures, f.Owes (s.facts ++ u.events)) (book : Book) (now : Instant) :
    ∀ f ∈ (s.write u book now).failures, f.Owes (s.write u book now).facts := by
  intro f hf
  have howes : ∀ f' ∈ s.failures ++ u.failures, f'.Owes (s.facts ++ u.events) := by
    intro f' hf'
    rcases List.mem_append.mp hf' with hf' | hf'
    · exact (hs f' hf').mono (List.subset_append_left _ _)
    · exact hu f' hf'
  -- a record keeps its event and its effect
  have hview : (f.event, f.effect) ∈
      (s.failures ++ u.failures).map fun f' => (f'.event, f'.effect) := by
    rw [← Store.map_failures_write s u book now _ (fun _ => rfl) fun _ _ => rfl]
    exact List.mem_map_of_mem hf
  obtain ⟨f', hf', hsame⟩ := List.mem_map.mp hview
  obtain ⟨hevent, heffect⟩ := Prod.mk.inj hsame
  intro effect hf hemits
  rw [Store.facts_write, ← hevent]
  exact howes f' hf' effect (heffect.trans hf) hemits

/-- The effect of a record that would generate a commission is about a signup or a purchase, and
this is what is found in the log. -/
theorem Failure.Owes.kind {s₀ s₁ s : Store} {f : Failure} {e : Event} (h : f.Owes s₀.facts)
    (hsource : s₁.IsSource f e) (hlocated : s₁.Located) (h₀ : s₀.Later s) (h₁ : s₁.Later s)
    (hnodup : (s.facts.map (·.id)).Nodup) {effect : Effect} (heffect : f.effect = some effect)
    (hemits : effect.emits = true) : e.kind = .signup ∨ e.kind = .purchase := by
  have hlogged := h₁.facts.subset hsource.mem_facts
  obtain ⟨id, stored, hid, hfound, rfl⟩ := hsource
  obtain ⟨-, hname⟩ := hlocated.event? hfound
  obtain ⟨e, he, hevent, hkind⟩ := h effect heffect hemits
  have hknown : e ∈ s.facts := h₀.facts.subset he
  have hsame : e.id = stored.event.id := by
    rw [hname]
    exact Option.some.inj (hevent.symm.trans hid)
  rwa [List.inj_on_of_nodup_map hnodup hlogged hknown hsame.symm]

namespace Store.Accounts

variable {r : Numbers} {next : ℕ} {s s' : Store}

theorem empty (h : r.first ≤ next) : Store.empty.Accounts r next where
  indexed id := by simp [Store.hasEvent, Store.facts, Store.empty]
  located id i h := by cases h
  checked := Store.checked_empty
  paired := .nil
  grounded := trivial
  owes f hf := by cases hf
  nodup := .nil
  first_le := h

theorem mono (h : s.Accounts r next) {next' : ℕ} (hnext : next ≤ next') : s.Accounts r next' :=
  { h with
    paired := h.paired.imp fun _ _ => Paired.mono hnext
    first_le := h.first_le.trans hnext }

/-- A change of other parts of the store than its records. -/
theorem congr (h : s.Accounts r next) (hlater : s.Later s') (hlog : s'.log = s.log)
    (hcommissions : s'.commissions = s.commissions) (hfailures : s'.failures = s.failures)
    (hchecked : s'.Checked) : s'.Accounts r next := by
  have hfacts : s'.facts = s.facts := by rw [Store.facts, hlog, Store.facts]
  refine ⟨hlater.indexed h.indexed, hlater.located h.located, hchecked, ?_, ?_, ?_, ?_, h.first_le⟩
  · rw [hcommissions, hfacts]
    exact h.paired
  · exact hfacts ▸ h.grounded
  · rw [hfailures, hfacts]
    exact h.owes
  · exact hfacts ▸ h.nodup

/-- What a unit of work accounts for may be written. -/
theorem write (h : s.Accounts r next) {u : WorkUnit} (hu : u.Accounts r s.facts next [])
    (hcheck : s.check u = .ok ()) (book : Book) (now : Instant) :
    (s.write u book now).Accounts r next := by
  have hevents : u.events ++ [] = u.events := List.append_nil _
  have hlater := Store.Later.write (s := s) u book now
  refine ⟨hlater.indexed h.indexed, hlater.located h.located, ?_, ?_, ?_, ?_, ?_, h.first_le⟩
  · unfold Store.Checked
    rw [Store.rules_write]
    exact h.checked
  · have hpaired := hu.paired
    rw [hevents] at hpaired
    rw [Store.commissions_write, Store.facts_write, List.filter_append]
    exact List.rel_append h.paired hpaired
  · have hgrounded := hu.grounded
    rw [hevents] at hgrounded
    rw [Store.facts_write]
    exact grounded_append.mpr ⟨h.grounded, hgrounded⟩
  · exact Store.owes_write h.owes hu.owes book now
  · have hnodup := hu.nodup
    rw [hevents] at hnodup
    rw [Store.facts_write, List.map_append, List.nodup_append]
    refine ⟨h.nodup, hnodup, fun id hid id' hid' hsame => ?_⟩
    obtain ⟨e, he, rfl⟩ := List.mem_map.mp hid'
    have hnew : s.hasEvent e.id = false := Store.hasEvent_eq_false_of_check hcheck he
    rw [← hsame, (h.indexed id).mpr hid] at hnew
    cases hnew

end Store.Accounts

/-- Nothing is out of order as long as no number is used twice. -/
def World.Accounts (r : Numbers) (w : World) : Prop :=
  w.store.Numbered ∧ (w.ids.next ≤ r.limit → w.store.Accounts r w.ids.next)

namespace World.Accounts

variable {r : Numbers} {w : World}

theorem start (h : w.store = .empty) (hids : r.first ≤ w.ids.next) : w.Accounts r :=
  ⟨fun i e he => by simp [h, Store.empty] at he, fun _ => h ▸ .empty hids⟩

theorem congr (h : w.Accounts r) {store : Store} (hlater : w.store.Later store)
    (hlog : store.log = w.store.log) (hcommissions : store.commissions = w.store.commissions)
    (hfailures : store.failures = w.store.failures) (hchecked : w.store.Checked → store.Checked) :
    World.Accounts r { w with store } :=
  ⟨hlater.numbered h.1, fun hlimit => (h.2 hlimit).congr hlater hlog hcommissions hfailures
    (hchecked (h.2 hlimit).checked)⟩

theorem commit (h : w.Accounts r) {u : WorkUnit}
    (hu : w.ids.next ≤ r.limit → u.Accounts r w.store.facts w.ids.next []) :
    (w.perform (.commit u)).2.Accounts r := by
  refine ⟨(Store.Later.commit w.store u w.now).numbered h.1, fun hlimit => ?_⟩
  simp only [World.perform] at hlimit ⊢
  rcases w.store.commit_store u w.now with ⟨n, hstore⟩ | ⟨hcheck, book, -, hstore⟩
  · rw [hstore]
    exact (h.2 hlimit).congr (Store.Later.of_log_eq rfl rfl) rfl rfl rfl (h.2 hlimit).checked
  · rw [hstore]
    exact (h.2 hlimit).write (hu hlimit) hcheck book w.now

end World.Accounts

namespace Service

/-- A unit in hand accounts for its commissions, and the events that are still to be dispatched on
it are not too deep: they are reports, or there is only one of them. -/
def Accounts (s : Service) (r : Numbers) (w : World) (u : WorkUnit) (cs : List Call) : Prop :=
  (w.ids.next ≤ r.limit → u.Accounts r w.store.facts w.ids.next (cs.map (·.event))) ∧
    ∀ c ∈ cs, c.depth ≤ s.config.maxDepth ∧ (c.event.isReport = true ∨ cs = [c])

variable {s : Service} {r : Numbers} {w : World} {u : WorkUnit}

theorem accounts_nil (h : w.ids.next ≤ r.limit → u.Accounts r w.store.facts w.ids.next []) :
    s.Accounts r w u [] := ⟨h, List.forall_mem_nil _⟩

/-- Reports for which there is room. -/
theorem accounts_reports {es : List Event} {depth : Depth}
    (h : w.ids.next ≤ r.limit → u.Accounts r w.store.facts w.ids.next es)
    (hreports : ∀ g ∈ es, g.isReport = true ∧ depth ≤ s.config.maxDepth) :
    s.Accounts r w u (es.map (⟨·, depth⟩)) := by
  refine ⟨fun hlimit => ?_, fun c hc => ?_⟩
  · rw [List.map_map]
    exact (List.map_id es).symm ▸ h hlimit
  · obtain ⟨g, hg, rfl⟩ := List.mem_map.mp hc
    exact ⟨(hreports g hg).2, .inl (hreports g hg).1⟩

/-- What is found in the log for a record was logged, and it is a signup or a purchase if the effect
of the record would generate a commission. -/
theorem kind_of_isSource {f : Failure} {e : Event} (hw : w.store.Accounts r w.ids.next)
    (hlimit : w.ids.next ≤ r.limit) (hf : w.Once (World.Accounts r) (f ∈ ·.failures))
    (he : w.Once (World.Accounts r) (·.IsSource f e)) :
    e ∈ w.store.facts ∧ ∀ effect, f.effect = some effect → effect.emits = true →
      e.kind = .signup ∨ e.kind = .purchase := by
  obtain ⟨w₀, h₀, hfollows₀, hstored⟩ := hf
  obtain ⟨w₁, h₁, hfollows₁, hsource⟩ := he
  have howes := (h₀.2 (hfollows₀.ids.trans hlimit)).owes f hstored
  have hlocated := (h₁.2 (hfollows₁.ids.trans hlimit)).located
  exact ⟨hfollows₁.later.facts.subset hsource.mem_facts, fun _ =>
    howes.kind hsource hlocated hfollows₀.later hfollows₁.later hw.nodup⟩

/-- Reports of commissions are not taken from producers. -/
theorem kind_ne_of_accept {e : Event} (h : accept e = .ok ()) : e.kind ≠ .commissionGenerated := by
  intro hkind
  simp only [accept, hkind, if_true, bind, Except.bind] at h
  split at h <;> cases h

/-- With the built-in handlers alone, all parts of a service account for their commissions. -/
theorem maintains_accounts (hbuiltIn : s.extra = []) (r : Numbers) :
    s.Maintains (fun e => r.Spares e.id) (World.Accounts r) (s.Accounts r) where
  numbered h := h.1
  aside {w w'} hstore hids h :=
    ⟨hstore ▸ h.1, fun hlimit => hstore ▸ (h.2 (hids.trans hlimit)).mono hids⟩
  disturb _ _ h := h.congr (Store.Later.of_log_eq rfl rfl) rfl rfl rfl id
  putRule hput h := by
    obtain ⟨hvalid, rules, rfl, hrules⟩ := Store.putRule_eq_ok hput
    refine h.congr (Store.Later.putRule hput) rfl rfl rfl fun hchecked rule hrule => ?_
    rcases hrules rule hrule with hold | rfl
    · exact hchecked rule hold
    · exact hvalid
  putCircle hput h := by
    rw [Store.putCircle_eq_ok hput]
    exact h.congr (Store.Later.of_log_eq rfl rfl) rfl rfl rfl id
  assignCircle hassign h := by
    rw [(Store.assignCircle_eq_ok hassign).2]
    exact h.congr (Store.Later.of_log_eq rfl rfl) rfl rfl rfl id
  swap _ hstore h := by
    obtain ⟨book, -, -, rfl⟩ := Store.replaceTotals_eq_ok.mp hstore
    exact h.congr (Store.Later.of_log_eq rfl rfl) rfl rfl rfl id
  later hfollows _ hu :=
    ⟨fun hlimit => (hu.1 (hfollows.ids.trans hlimit)).mono hfollows.later.facts.subset hfollows.ids,
      hu.2⟩
  start k h := accounts_nil fun hlimit => .start (fun rule hrule =>
    (h.2 hlimit).checked rule (List.mem_of_mem_filter hrule)) (h.2 hlimit).first_le
  enter {w e} h haccept hspares := by
    have hreport : e.isReport = false := decide_eq_false (kind_ne_of_accept haccept)
    refine ⟨fun hlimit => .enter (fun rule hrule =>
      (h.2 hlimit).checked rule (List.mem_of_mem_filter hrule)) (h.2 hlimit).first_le hreport
      hspares, fun c hc => ?_⟩
    rw [List.mem_singleton.mp hc]
    exact ⟨Fin.zero_le _, .inr rfl⟩
  dispatch {w u c cs staging} h hu hstaging := by
    have hids := Cascade.ids_le_dispatchAt hbuiltIn c.depth c.event
      ⟨u, w.permits, w.ids, w.now⟩ w.calls
    rw [hstaging] at hids
    obtain ⟨hdepth, hshape⟩ := hu.2 c List.mem_cons_self
    refine ⟨hids, fun hlimit => ?_, fun c' hc' => ?_⟩
    · have hdone := Cascade.accounts_dispatchAt hbuiltIn hdepth
        (hshape.imp_right fun hone => by simpa using hone) ⟨u, w.permits, w.ids, w.now⟩ w.calls
        (hu.1 (hids.trans hlimit)) (by rw [hstaging]; exact hlimit)
      rwa [hstaging] at hdone
    · obtain ⟨hdepth', hshape'⟩ := hu.2 c' (List.mem_cons_of_mem _ hc')
      refine ⟨hdepth', hshape'.imp_right fun hone => ?_⟩
      rw [List.cons.injEq] at hone
      rw [hone.2] at hc'
      cases hc'
  fire {w u f e rule effect answer staging} h hf he heffect hu hfire := by
    have hhandles := Staging.handles_fire ⟨u, w.permits, w.ids, w.now⟩ s.config e f.depth rule
      effect (fun _ x => x = effect) rfl
    rw [hfire] at hhandles
    refine ⟨hhandles.ids_le, fun emitted hanswer => ?_⟩
    subst hanswer
    have hhandles : Staging.Handles s.config e f.depth (fun _ x => x = effect)
      ⟨u, w.permits, w.ids, w.now⟩ emitted.toList staging := hhandles
    refine accounts_reports (fun hlimit => ?_) fun g hg => ?_
    · have hlimit' : w.ids.next ≤ r.limit := hhandles.ids_le.trans hlimit
      obtain ⟨hlogged, hkind⟩ := kind_of_isSource (h.2 hlimit') hlimit' hf he
      have hall := hhandles.accounts (fun _ x hx hemits => hkind x (hx ▸ heffect) hemits)
        (List.mem_append_left _ hlogged) hlimit (hu.1 hlimit')
      simpa using hall
    · obtain ⟨hreport, hroom, -⟩ := hhandles.reports g hg
      exact ⟨hreport, hroom⟩
  call {w u name position h' f e calls answer staging} h he hu hname hfind hreact := by
    rw [eq_rulesHandler hbuiltIn hname hfind] at hreact
    have hhandles := (⟨u, w.permits, w.ids, w.now⟩ : Staging).handles_react s.config calls
      ⟨e, f.depth⟩
    rw [hreact] at hhandles
    refine ⟨hhandles.ids_le, fun children hanswer => ?_⟩
    subst hanswer
    have hhandles : Staging.Handles s.config e f.depth (Staging.Offers u.context.rules e)
      ⟨u, w.permits, w.ids, w.now⟩ children staging := hhandles
    refine accounts_reports (fun hlimit => ?_) fun g hg => ?_
    · have hlimit' : w.ids.next ≤ r.limit := hhandles.ids_le.trans hlimit
      have haccounts := hu.1 hlimit'
      obtain ⟨_, -, hfollows, hsource⟩ := he
      have hlogged := hfollows.later.facts.subset hsource.mem_facts
      have hall := hhandles.accounts (fun _ _ => Staging.Offers.kind haccounts.rules)
        (List.mem_append_left _ hlogged) hlimit haccounts
      simpa using hall
    · obtain ⟨hreport, hroom, -⟩ := hhandles.reports g hg
      exact ⟨hreport, hroom⟩
  demote {w u error staging} h hu hstaging := by
    obtain ⟨records, ids, hframe, hids, hrecords⟩ :=
      (⟨u, w.permits, w.ids, w.now⟩ : Staging).demoteTransitions_frame error w.now
    rw [← hstaging, hframe]
    refine ⟨hids, accounts_nil fun hlimit => ?_⟩
    exact ((hu.1 (hids.trans hlimit)).mono (List.Subset.refl _) hids).congr records rfl rfl rfl
      rfl (hrecords.owes _)
  resolve _ hu := accounts_nil fun hlimit =>
    (hu.1 hlimit).congr [] rfl rfl rfl (List.append_nil _).symm (List.forall_mem_nil _)
  attempt _ hu := accounts_nil fun hlimit =>
    (hu.1 hlimit).congr [] rfl rfl rfl (List.append_nil _).symm (List.forall_mem_nil _)
  move _ hu := accounts_nil fun hlimit =>
    (hu.1 hlimit).congr [] rfl rfl rfl (List.append_nil _).symm (List.forall_mem_nil _)
  commit hu h := h.commit hu.1

end Service

theorem Paired.exists_report {r : Numbers} {next : ℕ} {cs : List Commission} {gs : List Event}
    (h : List.Forall₂ (Paired r next) cs gs) {c : Commission} (hc : c ∈ cs) :
    ∃ g ∈ gs, Paired r next c g := by
  induction h with
  | nil => cases hc
  | @cons _ g _ _ hpaired _ ih =>
    rcases List.mem_cons.mp hc with rfl | hc
    · exact ⟨g, List.mem_cons_self, hpaired⟩
    · obtain ⟨g', hg', hpaired'⟩ := ih hc
      exact ⟨g', List.mem_cons_of_mem _ hg', hpaired'⟩

/-- Reports of different names are of different commissions. -/
theorem Paired.nodup {r : Numbers} {next : ℕ} (hlimit : next ≤ r.limit) {cs : List Commission}
    {gs : List Event} (h : List.Forall₂ (Paired r next) cs gs) (hgs : (gs.map (·.id)).Nodup) :
    (cs.map (·.id)).Nodup := by
  induction h with
  | nil => exact .nil
  | @cons c g cs gs hpaired hrest ih =>
    rw [List.map_cons, List.nodup_cons] at hgs ⊢
    refine ⟨fun hmem => hgs.1 ?_, ih hgs.2⟩
    obtain ⟨c', hc', hsame⟩ := List.mem_map.mp hmem
    obtain ⟨g', hg', hpaired'⟩ := Paired.exists_report hrest hc'
    obtain ⟨n, hfirst, hlt, hid, hreport⟩ := hpaired.numbers
    obtain ⟨n', hfirst', hlt', hid', hreport'⟩ := hpaired'.numbers
    have hnumber : n' = n := r.eq_of_ofNat_eq hfirst' hfirst (by omega) (by omega)
      (hid'.symm.trans (hsame.trans hid))
    rw [hreport, ← hnumber, ← hreport']
    exact List.mem_map_of_mem hg'

namespace Fleet

/-- In every state that services with the built-in handlers reach over one store, whatever is asked
of them and however this overlaps, the stored commissions and the events in the log that report them
agree one by one: each report repeats its commission and follows from an earlier signup or purchase
in the log. No two commissions have one name, nor have two events. -/
theorem commissions_match_reports {services : List (Service × Instant)}
    (hbuiltIn : ∀ m ∈ services, m.1.extra = []) {ids : IdSupply} {f : Fleet}
    (hrun : (start services ids).Reaches f) (hnumbers : f.ids.next ≤ ids.next + 2 ^ 128)
    (hfresh : ∀ e, f.Asks e → ∀ n, ids.next ≤ n → n < f.ids.next → e.id ≠ Id.ofNat n) :
    List.Forall₂ (fun c g => g.Reports c) f.store.commissions
      (f.store.facts.filter Event.isReport) ∧
    (f.store.commissions.map (·.id)).Nodup ∧ (f.store.facts.map (·.id)).Nodup ∧
    ∀ before g after, f.store.facts = before ++ g :: after → g.isReport = true →
      ∃ source ∈ before, source.Causes g := by
  let r : Numbers := ⟨ids.next, f.ids.next, hnumbers⟩
  have hstart : (start services ids).Holds (fun e => r.Spares e.id) (World.Accounts r) :=
    holds_start (fun m hm => ⟨_, Service.maintains_accounts (hbuiltIn m hm) r⟩)
      fun w hstore hids => .start hstore (hids ▸ le_refl _)
  have hholds := hrun.holds hstart hfresh
  let w : World :=
    { World.start ⟨0, 0, by decide, by decide, by decide⟩ f.ids with store := f.store }
  have haccounts : f.store.Accounts r f.ids.next := (hholds.shared w rfl rfl).2 (le_refl _)
  refine ⟨haccounts.paired.imp fun _ _ h => h.reports, ?_, haccounts.nodup, ?_⟩
  · exact Paired.nodup (le_refl _) haccounts.paired
      (haccounts.nodup.sublist (List.filter_sublist.map _))
  · intro before g after hfacts hreport
    have hgrounded := haccounts.grounded
    rw [hfacts] at hgrounded
    simpa using hgrounded.exists_source hreport

/-- One service sets up a rule and another rewards a signup with it. -/
theorem commission_matches_report : ∃ f : Fleet,
    (start [(⟨.default, []⟩, ⟨0, 0, by decide, by decide, by decide⟩),
      (⟨{ Config.default with maxDepth := 1 }, []⟩, ⟨9, 0, by decide, by decide, by decide⟩)]
      ⟨100⟩).Reaches f ∧
    f.store.commissions.length = 1 ∧
    List.Forall₂ (fun c g => g.Reports c) f.store.commissions
      (f.store.facts.filter Event.isReport) := by
  let e : Event := .signup ⟨1⟩ ⟨2⟩ ⟨3⟩ ⟨4⟩ ⟨5⟩ ⟨6⟩ ⟨0, 0, by decide, by decide, by decide⟩
  let rule : Rule := ⟨⟨7⟩, ⟨3⟩, "reward", .signup, none, [],
    .generateCommission (.fixed ⟨50000, by decide, by decide⟩), true⟩
  let first : Service := ⟨.default, []⟩
  let second : Service := ⟨{ Config.default with maxDepth := 1 }, []⟩
  let now : Instant := ⟨0, 0, by decide, by decide, by decide⟩
  let later : Instant := ⟨9, 0, by decide, by decide, by decide⟩
  let put := (first.serve (.putRule rule)).goOn (.start now ⟨100⟩)
  let t₁ : Traffic := ⟨put.2, [] ++ [⟨.putRule rule, put.1⟩]⟩
  let f₁ : Fleet := ⟨t₁.world.store, t₁.world.ids,
    [] ++ (first, t₁) :: [(second, ⟨.start later ⟨100⟩, []⟩)]⟩
  have h₁ : (start [(first, now), (second, later)] ⟨100⟩).Reaches f₁ :=
    Reaches.member rfl (Service.Reaches.alone first (.start now ⟨100⟩) [] (.putRule rule))
  let w₂ : World := { World.start later ⟨100⟩ with store := t₁.world.store, ids := t₁.world.ids }
  let published := (second.serve (.publish e)).goOn w₂
  let t₂ : Traffic := ⟨published.2, [] ++ [⟨.publish e, published.1⟩]⟩
  let f₂ : Fleet := ⟨t₂.world.store, t₂.world.ids, [(first, t₁)] ++ (second, t₂) :: []⟩
  have h₂ : f₁.Reaches f₂ :=
    Reaches.member rfl (Service.Reaches.alone second w₂ [] (.publish e))
  have hfresh : ∀ x, f₂.Asks x → ∀ n, 100 ≤ n → n < f₂.ids.next → x.id ≠ Id.ofNat n := by
    rintro x ⟨m, hm, task, htask, hrequest⟩
    have hx : x = e := by
      simp only [f₂, List.mem_append, List.mem_cons, List.not_mem_nil, or_false] at hm
      rcases hm with rfl | rfl
      · rw [List.mem_singleton.mp htask] at hrequest
        cases hrequest
      · rw [List.mem_singleton.mp htask] at hrequest
        exact (Request.publish.inj hrequest).symm
    rw [hx]
    decide +kernel
  have hbuiltIn : ∀ m ∈ [(first, now), (second, later)], m.1.extra = [] := by simp [first, second]
  exact ⟨f₂, h₁.trans h₂, by decide +kernel,
    (commissions_match_reports hbuiltIn (h₁.trans h₂) (by decide +kernel) hfresh).1⟩

end Fleet

end Referral
