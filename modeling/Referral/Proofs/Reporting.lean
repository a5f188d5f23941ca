import Referral.Proofs.CheckedRules
import Referral.Proofs.Dispatched

/-!
# Reports of commissions

A commission is staged when its effect is applied, and the event that reports it when the cascade
comes to it. What is staged and what still waits in the queue together hold one report for each
commission, in the same order, and each report comes after the event that the commission was earned
for. Nothing follows from a report, so a cascade comes to all of them.
-/

namespace Referral

/-- Whether an event reports a commission. -/
def Event.isReport (e : Event) : Bool := e.kind = .commissionGenerated

/-- The event repeats the data of the commission. -/
structure Event.Reports (g : Event) (c : Commission) : Prop where
  program : g.program = c.program
  promoter : g.promoter = c.promoter
  contact : g.contact = c.contact
  link : g.link = c.link
  amount : g.amount = some c.amount
  occurredAt : g.occurredAt = c.createdAt
  causation : g.causation = some c.source

/-- The event is a signup or a purchase that the other one says it follows from. -/
structure Event.Causes (source g : Event) : Prop where
  kind : source.kind = .signup ∨ source.kind = .purchase
  causation : g.causation = some source.id
  triggeredBy : g.triggeredBy = some source.kind

/-- The record of an effect that would generate a commission is about a signup or a purchase among
the events. -/
def Failure.Owes (es : List Event) (f : Failure) : Prop :=
  ∀ effect, f.effect = some effect → effect.emits = true →
    ∃ e ∈ es, f.event = some e.id ∧ (e.kind = .signup ∨ e.kind = .purchase)

/-- Each report follows from an event that comes before it or was known before all of them. -/
def Grounded : List Event → List Event → Prop
  | _, [] => True
  | known, g :: es =>
    (g.isReport = true → ∃ source ∈ known, source.Causes g) ∧ Grounded (known ++ [g]) es

theorem grounded_append {known es fs : List Event} :
    Grounded known (es ++ fs) ↔ Grounded known es ∧ Grounded (known ++ es) fs := by
  induction es generalizing known with
  | nil => simp [Grounded]
  | cons g es ih => simp [Grounded, ih, and_assoc]

theorem Grounded.mono {known known' es : List Event} (h : Grounded known es)
    (hknown : known ⊆ known') : Grounded known' es := by
  induction es generalizing known known' with
  | nil => trivial
  | cons g es ih =>
    refine ⟨fun hreport => ?_, ih h.2 (List.append_subset.mpr ⟨?_, ?_⟩)⟩
    · obtain ⟨source, hsource, hcauses⟩ := h.1 hreport
      exact ⟨source, hknown hsource, hcauses⟩
    · exact List.Subset.trans hknown (List.subset_append_left _ _)
    · exact List.subset_append_right _ _

theorem Grounded.exists_source {known before after : List Event} {g : Event}
    (h : Grounded known (before ++ g :: after)) (hreport : g.isReport = true) :
    ∃ source ∈ known ++ before, source.Causes g :=
  (grounded_append.mp h).2.1 hreport

/-- Events that are no reports need no ground. -/
theorem grounded_of_forall {known es : List Event} (h : ∀ e ∈ es, e.isReport = false) :
    Grounded known es := by
  induction es generalizing known with
  | nil => trivial
  | cons g es ih =>
    rw [List.forall_mem_cons] at h
    exact ⟨fun hreport => by simp [h.1] at hreport, ih h.2⟩

/-! ## Numbers -/

/-- The numbers that identifiers are made of in a run: each at most once. -/
structure Numbers where
  first : ℕ
  limit : ℕ
  distinct : limit ≤ first + 2 ^ 128

namespace Numbers

/-- The identifier is not one of those that are made. -/
def Spares (r : Numbers) (id : EventId) : Prop :=
  ∀ n, r.first ≤ n → n < r.limit → id ≠ Id.ofNat n

/-- The identifier was made before the number `next`. -/
def Made (r : Numbers) (next : ℕ) (id : EventId) : Prop :=
  ∃ n, r.first ≤ n ∧ n < next ∧ id = Id.ofNat n

theorem eq_of_ofNat_eq (r : Numbers) {entity : Entity} {m n : ℕ} (hm : r.first ≤ m)
    (hn : r.first ≤ n) (hm' : m < r.limit) (hn' : n < r.limit)
    (h : (Id.ofNat m : Id entity) = Id.ofNat n) : m = n := by
  have hbits : m % 2 ^ 128 = n % 2 ^ 128 := by
    have hnat := congrArg (fun id : Id entity => id.bits.toNat) h
    simpa [Id.ofNat] using hnat
  have hdistinct := r.distinct
  omega

theorem Made.mono {r : Numbers} {next next' : ℕ} {id : EventId} (h : r.Made next id)
    (hnext : next ≤ next') : r.Made next' id := by
  obtain ⟨n, hfirst, hlt, hid⟩ := h
  exact ⟨n, hfirst, hlt.trans_le hnext, hid⟩

end Numbers

/-- The commission and the event that reports it, whose number is the next after that of the
commission. -/
structure Paired (r : Numbers) (next : ℕ) (c : Commission) (g : Event) : Prop where
  reports : g.Reports c
  numbers : ∃ n, r.first ≤ n ∧ n + 1 < next ∧ c.id = Id.ofNat n ∧ g.id = Id.ofNat (n + 1)

theorem Paired.mono {r : Numbers} {next next' : ℕ} (hnext : next ≤ next') {c : Commission}
    {g : Event} (h : Paired r next c g) : Paired r next' c g := by
  obtain ⟨n, hfirst, hlt, hids⟩ := h.numbers
  exact ⟨h.reports, n, hfirst, hlt.trans_le hnext, hids⟩

/-! ## Units of work -/

/-- What is staged, with the events that are still to come, accounts for its commissions. The events
in `known` were in the log, and numbers below `next` are used up. -/
structure WorkUnit.Accounts (r : Numbers) (known : List Event) (next : ℕ) (u : WorkUnit)
    (queue : List Event) : Prop where
  rules : ∀ rule ∈ u.context.rules, rule.validate = .ok ()
  paired : List.Forall₂ (Paired r next) u.commissions ((u.events ++ queue).filter Event.isReport)
  grounded : Grounded known (u.events ++ queue)
  owes : ∀ f ∈ u.failures, f.Owes (known ++ u.events)
  names : ∀ g ∈ u.events ++ queue, r.Spares g.id ∨ r.Made next g.id
  nodup : ((u.events ++ queue).map (·.id)).Nodup
  first_le : r.first ≤ next

theorem Failure.Owes.mono {es es' : List Event} {f : Failure} (h : f.Owes es) (hes : es ⊆ es') :
    f.Owes es' := by
  intro effect heffect hemits
  obtain ⟨e, he, hevent⟩ := h effect heffect hemits
  exact ⟨e, hes he, hevent⟩

theorem Failure.owes_of_effect_eq_none {es : List Event} {f : Failure} (h : f.effect = none) :
    f.Owes es := fun effect heffect => by
  rw [h] at heffect
  cases heffect

/-- The records of moves that were refused owe nothing. -/
theorem Staging.Demotes.owes {error : Error} {now : Instant} {ts : List StagedTransition}
    {records : List Failure} (h : Staging.Demotes error now ts records) (es : List Event) :
    ∀ f ∈ records, f.Owes es := by
  intro f hf effect heffect hemits
  obtain ⟨target, htarget⟩ := h.effect f hf
  rw [heffect, Option.some.injEq] at htarget
  rw [htarget] at hemits
  cases hemits

namespace WorkUnit.Accounts

variable {r : Numbers} {known queue : List Event} {next : ℕ} {u : WorkUnit}

/-- More may be known and more numbers used up. -/
theorem mono (h : u.Accounts r known next queue) {known' : List Event} {next' : ℕ}
    (hknown : known ⊆ known') (hnext : next ≤ next') : u.Accounts r known' next' queue where
  rules := h.rules
  paired := h.paired.imp fun _ _ => Paired.mono hnext
  grounded := h.grounded.mono hknown
  owes f hf := (h.owes f hf).mono <|
    List.append_subset.mpr ⟨List.Subset.trans hknown (List.subset_append_left _ _),
      List.subset_append_right _ _⟩
  names g hg := (h.names g hg).imp_right fun hmade => hmade.mono hnext
  nodup := h.nodup
  first_le := h.first_le.trans hnext

/-- Other parts of the unit may be changed, and records added. -/
theorem congr (h : u.Accounts r known next queue) {u' : WorkUnit} (records : List Failure)
    (hrules : u'.context.rules = u.context.rules) (hcommissions : u'.commissions = u.commissions)
    (hevents : u'.events = u.events) (hfailures : u'.failures = u.failures ++ records)
    (hrecords : ∀ f ∈ records, f.Owes (known ++ u.events)) : u'.Accounts r known next queue where
  rules := hrules ▸ h.rules
  paired := by
    rw [hcommissions, hevents]
    exact h.paired
  grounded := hevents ▸ h.grounded
  owes := by
    rw [hfailures, hevents]
    intro f hf
    rcases List.mem_append.mp hf with hf | hf
    · exact h.owes f hf
    · exact hrecords f hf
  names := hevents ▸ h.names
  nodup := hevents ▸ h.nodup
  first_le := h.first_le

theorem start {c : Context} (hrules : ∀ rule ∈ c.rules, rule.validate = .ok ())
    (hfirst : r.first ≤ next) : (WorkUnit.start c).Accounts r known next [] where
  rules := hrules
  paired := .nil
  grounded := trivial
  owes := by simp [WorkUnit.start]
  names := by simp [WorkUnit.start]
  nodup := .nil
  first_le := hfirst

/-- An event from a producer, with a name of its own, is to be dispatched. -/
theorem enter {c : Context} (hrules : ∀ rule ∈ c.rules, rule.validate = .ok ())
    (hfirst : r.first ≤ next) {e : Event} (hkind : e.isReport = false) (hspares : r.Spares e.id) :
    (WorkUnit.start c).Accounts r known next [e] where
  rules := hrules
  paired := by
    have hnone : ((WorkUnit.start c).events ++ [e]).filter Event.isReport = [] := by
      simp [WorkUnit.start, hkind]
    rw [hnone]
    exact .nil
  grounded := grounded_of_forall fun g hg => by
    rw [List.mem_singleton.mp hg]
    exact hkind
  owes := by simp [WorkUnit.start]
  names g hg := by
    rw [List.mem_singleton.mp hg]
    exact .inl hspares
  nodup := by simp [WorkUnit.start]
  first_le := hfirst

/-- An event that waits at the front is staged. -/
theorem stage {e : Event} (h : u.Accounts r known next (e :: queue)) :
    { u with events := u.events ++ [e] }.Accounts r known next queue where
  rules := h.rules
  paired := by
    rw [List.append_assoc]
    exact h.paired
  grounded := by
    rw [List.append_assoc]
    exact h.grounded
  owes f hf := (h.owes f hf).mono (by simp)
  names := by
    rw [List.append_assoc]
    exact h.names
  nodup := by
    rw [List.append_assoc]
    exact h.nodup
  first_le := h.first_le

end WorkUnit.Accounts

namespace Staging

open WorkUnit (Accounts)

variable {r : Numbers} {known queue new : List Event} {config : Config} {e : Event} {depth : Depth}
  {allowed : RuleId → Effect → Prop} {s s' : Staging}

/-- A commission is earned for a signup or a purchase that came before. -/
theorem accounts_reward (h : s.unit.Accounts r known s.ids.next queue)
    (hlimit : (s.ids.skip 2).next ≤ r.limit) (he : e ∈ known ++ s.unit.events)
    (hkind : e.kind = .signup ∨ e.kind = .purchase) (rule : RuleId) (spec : CommissionSpec)
    (amount : Money) :
    (s.reward (s.earned e rule spec amount)).unit.Accounts r known (s.ids.skip 2).next
      (queue ++ [(s.earned e rule spec amount).event (s.ids.skip 1).peek e]) := by
  let g : Event := (s.earned e rule spec amount).event (s.ids.skip 1).peek e
  have hnext : (s.ids.skip 2).next = s.ids.next + 2 := rfl
  have hid : g.id = Id.ofNat (s.ids.next + 1) := rfl
  have hfirst := h.first_le
  have hold := h.mono (List.Subset.refl known) (Nat.le_add_right s.ids.next 2)
  have hpaired : Paired r (s.ids.next + 2) (s.earned e rule spec amount) g :=
    ⟨⟨rfl, rfl, rfl, rfl, rfl, rfl, rfl⟩, s.ids.next, hfirst, Nat.lt_succ_self _, rfl, hid⟩
  have hunused : ∀ f ∈ s.unit.events ++ queue, f.id ≠ g.id := by
    intro f hf hsame
    rcases h.names f hf with hspares | ⟨n, hn, hlt, hfid⟩
    · exact hspares (s.ids.next + 1) (by omega) (by omega) (hsame.trans hid)
    · have := r.eq_of_ofNat_eq hn (by omega : r.first ≤ s.ids.next + 1) (by omega) (by omega)
        (hfid.symm.trans (hsame.trans hid))
      omega
  refine { hold with paired := ?_, grounded := ?_, names := ?_, nodup := ?_ }
  · rw [← List.append_assoc, List.filter_append]
    have hone : [g].filter Event.isReport = [g] := rfl
    rw [hone]
    exact List.rel_append hold.paired (.cons hpaired .nil)
  · rw [← List.append_assoc]
    refine grounded_append.mpr ⟨h.grounded, fun _ => ⟨e, ?_, hkind, rfl, rfl⟩, trivial⟩
    rw [← List.append_assoc]
    exact List.mem_append_left _ he
  · intro f hf
    rw [← List.append_assoc] at hf
    rcases List.mem_append.mp hf with hf | hf
    · exact hold.names f hf
    · rw [List.mem_singleton.mp hf]
      exact .inr ⟨s.ids.next + 1, by omega, by omega, hid⟩
  · rw [← List.append_assoc, List.map_append, List.nodup_append]
    refine ⟨h.nodup, List.nodup_singleton _, fun id hmem id' hmem' heq => ?_⟩
    obtain ⟨f, hf, rfl⟩ := List.mem_map.mp hmem
    rw [List.map_singleton, List.mem_singleton] at hmem'
    exact hunused f hf (heq.trans hmem')

/-- What rules do keeps the account, if those that generate commissions are for signups and
purchases. -/
theorem Does.accounts (step : s.Does config e depth allowed new s')
    (hkind : ∀ rule effect, allowed rule effect → effect.emits = true →
      e.kind = .signup ∨ e.kind = .purchase)
    (he : e ∈ known ++ s.unit.events) (hlimit : s'.ids.next ≤ r.limit)
    (h : s.unit.Accounts r known s.ids.next queue) :
    s'.unit.Accounts r known s'.ids.next (queue ++ new) := by
  have hrecord : ∀ (f : Failure), f.Owes (known ++ s.unit.events) →
      (s.unit.recordFailure f).Accounts r known (s.ids.skip 1).next queue := fun f hf =>
    (h.mono (List.Subset.refl known) (Nat.le_succ _)).congr [f] rfl rfl rfl rfl
      fun f' hf' => List.mem_singleton.mp hf' ▸ hf
  cases step with
  | mark =>
    rw [List.append_nil]
    exact h.congr [] rfl rfl rfl (List.append_nil _).symm (by simp)
  | permit hpermit =>
    rw [List.append_nil]
    obtain ⟨held, permits, rfl⟩ := ensurePermit?_frame hpermit
    exact h.congr [] rfl rfl rfl (List.append_nil _).symm (by simp)
  | reward hrule =>
    exact accounts_reward h hlimit he (hkind _ _ hrule rfl) _ _ _
  | move =>
    rw [List.append_nil]
    exact h.congr [] rfl rfl rfl (List.append_nil _).symm (by simp)
  | refuse refusal hrule =>
    rw [List.append_nil]
    refine hrecord _ fun effect heffect hemits => ⟨e, he, rfl, hkind _ _ hrule ?_⟩
    rwa [Option.some.inj heffect]
  | fail =>
    rw [List.append_nil]
    exact hrecord _ (Failure.owes_of_effect_eq_none rfl)

theorem Handles.accounts (handles : s.Handles config e depth allowed new s')
    (hkind : ∀ rule effect, allowed rule effect → effect.emits = true →
      e.kind = .signup ∨ e.kind = .purchase)
    (he : e ∈ known ++ s.unit.events) (hlimit : s'.ids.next ≤ r.limit)
    (h : s.unit.Accounts r known s.ids.next queue) :
    s'.unit.Accounts r known s'.ids.next (queue ++ new) := by
  have hall := handles.keeps
    (I := fun s out => e ∈ known ++ s.unit.events ∧
      (s.ids.next ≤ r.limit → s.unit.Accounts r known s.ids.next out))
    (fun step ⟨he, h⟩ => ⟨step.events_eq ▸ he, fun hlimit =>
      step.accounts hkind he hlimit (h (step.ids_le.trans hlimit))⟩) queue ⟨he, fun _ => h⟩
  exact hall.2 hlimit

/-- All that follows from an event are reports, and there is room for them below it. -/
theorem Handles.reports (handles : s.Handles config e depth allowed new s') :
    ∀ g ∈ new, g.isReport = true ∧ depth.next ≤ config.maxDepth ∧
      ∃ rule spec, allowed rule (.generateCommission spec) := by
  have hall := handles.keeps (I := fun _ out => ∀ g ∈ out, g.isReport = true ∧
      depth.next ≤ config.maxDepth ∧ ∃ rule spec, allowed rule (.generateCommission spec))
    (fun step h g hg => by
      rcases List.mem_append.mp hg with hg | hg
      · exact h g hg
      · cases step with
        | reward hrule room =>
          rw [List.mem_singleton.mp hg]
          exact ⟨rfl, room, _, _, hrule⟩
        | _ => cases hg) [] (List.forall_mem_nil _)
  exact hall

/-- All that follows from an event that a cascade comes to are reports. -/
theorem Takes.reports (htakes : s.Takes config e depth new s') : ∀ g ∈ new, g.isReport = true := by
  cases htakes with
  | reject => exact List.forall_mem_nil _
  | skip => exact List.forall_mem_nil _
  | handle _ _ _ handles => exact fun g hg => (handles.reports g hg).1

/-- Rules that passed their check generate commissions from signups and purchases alone. -/
theorem Offers.kind {rules : List Rule} (hrules : ∀ rule ∈ rules, rule.validate = .ok ())
    {rule : RuleId} {effect : Effect} (h : Offers rules e rule effect)
    (hemits : effect.emits = true) : e.kind = .signup ∨ e.kind = .purchase := by
  obtain ⟨x, hx, htrigger, -, rfl⟩ := h
  cases hkind : e.kind with
  | signup => exact .inl rfl
  | purchase => exact .inr rfl
  | commissionGenerated =>
    rw [Rule.emits_eq_false (hrules x hx) (htrigger.trans hkind)] at hemits
    cases hemits

theorem Enters.accounts (henters : s.Enters e depth s')
    (h : s.unit.Accounts r known s.ids.next (e :: queue)) :
    s'.unit.Accounts r known s'.ids.next queue ∧ e ∈ s'.unit.events := by
  cases henters with
  | counted =>
    refine ⟨?_, List.mem_append_right _ List.mem_cons_self⟩
    exact h.stage.congr [] rfl rfl rfl (List.append_nil _).symm (by simp)
  | @uncounted error =>
    refine ⟨?_, List.mem_append_right _ List.mem_cons_self⟩
    refine (h.stage.mono (List.Subset.refl known) (Nat.le_succ _)).congr [_] rfl rfl rfl rfl
      fun f hf => ?_
    rw [List.mem_singleton.mp hf]
    exact Failure.owes_of_effect_eq_none rfl

/-- The next event of a cascade is staged, and the events that follow from it are reports. None
follow from a report. -/
theorem Takes.accounts (htakes : s.Takes config e depth new s') (hdepth : depth ≤ config.maxDepth)
    (hlimit : s'.ids.next ≤ r.limit) (h : s.unit.Accounts r known s.ids.next (e :: queue)) :
    s'.unit.Accounts r known s'.ids.next (queue ++ new) ∧
      (∀ g ∈ new, g.isReport = true ∧ depth.next ≤ config.maxDepth) ∧
      (e.isReport = true → new = []) := by
  cases htakes with
  | reject deep => exact absurd hdepth (not_le.mpr deep)
  | skip staged =>
    obtain ⟨f, hf, hsame⟩ := List.any_eq_true.mp staged
    have hnodup := h.nodup
    rw [List.map_append, List.nodup_append] at hnodup
    exact (hnodup.2.2 _ (List.mem_map_of_mem hf) _ (by simp) (of_decide_eq_true hsame)).elim
  | @handle _ s₁ _ _ _ henters hhandles =>
    obtain ⟨hentered, hstaged⟩ := henters.accounts h
    have hkind : ∀ rule effect, Offers s.unit.context.rules e rule effect → effect.emits = true →
        e.kind = .signup ∨ e.kind = .purchase := fun _ _ => Offers.kind h.rules
    have hreports := hhandles.reports
    refine ⟨hhandles.accounts hkind (List.mem_append_right _ hstaged) hlimit hentered,
      fun g hg => ⟨(hreports g hg).1, (hreports g hg).2.1⟩, fun hreport => ?_⟩
    refine List.eq_nil_iff_forall_not_mem.mpr fun g hg => ?_
    obtain ⟨-, -, rule, spec, hrule⟩ := hreports g hg
    have hreport : e.kind = .commissionGenerated := of_decide_eq_true hreport
    rcases hkind _ _ hrule rfl with h | h <;> simp [hreport] at h

end Staging

/-! ## Dispatches -/

namespace Cascade

variable {s : Service} {r : Numbers} {known queue : List Event} {depth : Depth} {c : Cascade}

theorem ids_le_handleLevel (hbuiltIn : s.extra = []) (depth : Depth) (c : Cascade)
    (es : List Event) :
    c.staging.ids.next ≤ (handleLevel s.dispatcher depth c es).1.staging.ids.next := by
  induction es generalizing c with
  | nil => exact le_refl _
  | cons e es ih => exact (takes_handleEvent hbuiltIn c depth e).ids_le.trans (ih _)

/-- Reports that wait at the front are staged, and nothing follows from them. -/
theorem accounts_handleReports (hbuiltIn : s.extra = []) (hdepth : depth ≤ s.config.maxDepth)
    {gs : List Event} (hgs : ∀ g ∈ gs, g.isReport = true)
    (h : c.staging.unit.Accounts r known c.staging.ids.next (gs ++ queue))
    (hlimit : (handleLevel s.dispatcher depth c gs).1.staging.ids.next ≤ r.limit) :
    (handleLevel s.dispatcher depth c gs).1.staging.unit.Accounts r known
        (handleLevel s.dispatcher depth c gs).1.staging.ids.next queue ∧
      (handleLevel s.dispatcher depth c gs).2 = [] := by
  induction gs generalizing c with
  | nil => exact ⟨h, rfl⟩
  | cons g gs ih =>
    rw [List.forall_mem_cons] at hgs
    let c₁ := (handleEvent s.dispatcher depth c g).1
    have hfirst : c₁.staging.ids.next ≤ r.limit :=
      (ids_le_handleLevel hbuiltIn depth c₁ gs).trans hlimit
    obtain ⟨hstaged, -, hnone⟩ :=
      (takes_handleEvent hbuiltIn c depth g).accounts hdepth hfirst h
    rw [hnone hgs.1, List.append_nil] at hstaged
    obtain ⟨hrest, hempty⟩ := ih hgs.2 hstaged hlimit
    refine ⟨hrest, ?_⟩
    rw [handleLevel]
    simp only [hnone hgs.1, List.nil_append]
    exact hempty

/-- A dispatch stages the event and the reports of all commissions that it earned, or a report
alone. -/
theorem accounts_dispatchAt (hbuiltIn : s.extra = []) (hdepth : depth ≤ s.config.maxDepth)
    {e : Event} (hshape : e.isReport = true ∨ queue = []) (staging : Staging)
    (calls : List CallRecord) (h : staging.unit.Accounts r known staging.ids.next (e :: queue))
    (hlimit : (s.dispatcher.dispatchAt depth e staging calls).staging.ids.next ≤ r.limit) :
    (s.dispatcher.dispatchAt depth e staging calls).staging.unit.Accounts r known
      (s.dispatcher.dispatchAt depth e staging calls).staging.ids.next queue := by
  obtain ⟨n, hn⟩ := s.dispatcher.levels_pos depth
  let c₀ : Cascade := ⟨staging, calls, .start⟩
  have htakes := takes_handleEvent hbuiltIn c₀ depth e
  cases hfirst : handleEvent s.dispatcher depth c₀ e with
  | mk c₁ new =>
    rw [hfirst] at htakes
    have hrun : s.dispatcher.dispatchAt depth e staging calls =
        (run s.dispatcher (n + 1) depth.next c₁ new).1 := by
      have hlevel : handleLevel s.dispatcher depth c₀ [e] = (c₁, new) := by
        simp only [handleLevel, hfirst, List.append_nil]
      rw [Dispatcher.dispatchAt, hn, run, hlevel]
    rw [hrun] at hlimit ⊢
    cases new with
    | nil =>
      obtain ⟨hstaged, -, -⟩ := htakes.accounts hdepth hlimit h
      rwa [List.append_nil] at hstaged
    | cons g gs =>
      cases hsecond : handleLevel s.dispatcher depth.next c₁ (g :: gs) with
      | mk c₂ more =>
        have hids := ids_le_handleLevel hbuiltIn depth.next c₁ (g :: gs)
        rw [hsecond] at hids
        have hrest : (run s.dispatcher (n + 1) depth.next c₁ (g :: gs)).1 =
            (run s.dispatcher n depth.next.next c₂ more).1 := by
          rw [run, hsecond]
        rw [hrest] at hlimit ⊢
        have hmore : c₂.staging.ids.next ≤
            (run s.dispatcher n depth.next.next c₂ more).1.staging.ids.next :=
          run_keeps (I := fun c _ => c₂.staging.ids.next ≤ c.staging.ids.next)
            (fun c depth e _ h => h.trans (takes_handleEvent hbuiltIn c depth e).ids_le) (le_refl _)
        obtain ⟨hstaged, hreports, hnone⟩ :=
          htakes.accounts hdepth (hids.trans (hmore.trans hlimit)) h
        obtain rfl : queue = [] := hshape.resolve_left fun hreport => by
          cases hnone hreport
        rw [List.nil_append, ← List.append_nil (g :: gs)] at hstaged
        have hlevel := accounts_handleReports hbuiltIn (hreports g List.mem_cons_self).2
          (fun g hg => (hreports g hg).1) hstaged (by rw [hsecond]; exact hmore.trans hlimit)
        rw [hsecond] at hlevel
        obtain ⟨hdone, rfl⟩ := hlevel
        cases n <;> exact hdone

end Cascade

end Referral
