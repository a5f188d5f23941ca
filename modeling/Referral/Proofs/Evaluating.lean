import Referral.Proofs.Settlement
import Referral.Service

/-!
# Evaluation and settlements

The evaluation of an event works on a unit of work with running totals, a context that moves along,
and permits. As long as all sums are in range and the permit of the promoter is at hand, what it
stages is what the settlement of the event says.
-/

namespace Referral

/-! ## The rules that fire -/

theorem conditionsMatch_iff (cs : List Condition) (s : Snapshot) :
    conditionsMatch cs s = true ↔ ∀ c ∈ cs, c.holds s = .ok true := by
  unfold conditionsMatch
  induction cs with
  | nil => simp [allHold]
  | cons c cs ih =>
    rw [allHold, List.forall_mem_cons]
    cases hc : c.holds s with
    | error flaw => simp
    | ok b =>
      cases b with
      | false => simp
      | true => simpa using ih

/-- The circle in force of a context is that of the store. -/
theorem Store.currentCircle_context (store : Store) (k : PromoterKey) :
    (store.context k).currentCircle = store.currentCircle k := by
  simp only [Context.currentCircle, context, currentCircle, List.find?_filter, Bool.decide_and,
    Bool.decide_eq_true]

/-- A circle of the program is one of the context. -/
theorem Store.any_circles_context (store : Store) (k : PromoterKey) (circle : CircleId) :
    ((store.context k).circles.any fun c => c.isOf k.program circle) =
      store.circles.any fun c => c.isOf k.program circle := by
  simp only [context, List.any_filter, Circle.isOf]
  congr 1
  funext c
  by_cases h : c.program = k.program <;> simp [h]

/-- The eligible rules of a context that match are those that the log and the circle say. -/
theorem Store.filter_eligibleRules (store : Store) {c : Context} {e : Event} {b : Book}
    {es : List Event} (hrules : c.rules = (store.context e.promoterKey).rules)
    (hb : b.Tallies .all es) :
    (c.eligibleRules e).filter
        (fun r => r.isMatch (Snapshot.ofEvent (b.promoter e.promoterKey) e)) =
      store.rulesFor es c.currentCircle e := by
  rw [Context.eligibleRules, hrules, (hb.shows _).snapshot_eq]
  simp only [context, rulesFor, List.filter_filter]
  refine List.filter_congr fun r _ => ?_
  have hmatch := conditionsMatch_iff r.conditions (.ofLog es e)
  rw [Bool.eq_iff_iff]
  simp only [Rule.isMatch, Rule.appliesTo, Event.promoterKey, Bool.and_eq_true, decide_eq_true_eq,
    Bool.or_eq_true, Option.isNone_iff_eq_none, hmatch]
  constructor
  · rintro ⟨hconditions, ⟨hprogram, ⟨hactive, htrigger⟩, hcircle⟩, -⟩
    exact ⟨hprogram, hactive, htrigger, hcircle, hconditions⟩
  · rintro ⟨hprogram, hactive, htrigger, hcircle, hconditions⟩
    exact ⟨hconditions, ⟨hprogram, ⟨hactive, htrigger⟩, hcircle⟩, decide_eq_true hprogram, hactive⟩

namespace Settlement

variable {store : Store} {config : Config} {now : Instant} {k : PromoterKey} {es : List Event}
  {s : Settlement} {staging : Staging}

/-! ## What is staged -/

/-- A unit of work for a promoter holds what a settlement says, with the events that it stages,
counts and has evaluated. The permit of the promoter is held or can be had. -/
structure Mirrors (s : Settlement) (store : Store) (now : Instant) (k : PromoterKey)
    (es : List Event) (staging : Staging) : Prop where
  context : staging.unit.context = { store.context k with
    membership := (s.moves.getLast?.map (·.membership)).or (store.memberships.get? k) }
  events : staging.unit.events = es
  evaluated : staging.unit.evaluated = es.map (·.id)
  delta : staging.unit.delta.Tallies .all es
  commissions : staging.unit.commissions = s.commissions
  transitions : staging.unit.transitions.map (·.transition) = s.moves
  failures : staging.unit.failures = s.failures
  resolved : staging.unit.resolved = []
  attempted : staging.unit.attempted = []
  ids : staging.ids = s.ids
  now : staging.now = now
  permit : staging.unit.holdsPermit k = true ∨ k ∉ staging.permits.out

namespace Mirrors

theorem currentCircle (h : s.Mirrors store now k es staging) :
    staging.unit.context.currentCircle = s.circle store k := by
  rw [h.context, circle]
  cases s.moves.getLast? with
  | none => exact store.currentCircle_context k
  | some t => rfl

/-- The permit is taken if the unit does not hold it. -/
theorem ensurePermit (h : s.Mirrors store now k es staging) :
    ∃ staging', staging.ensurePermit? k = some staging' ∧ s.Mirrors store now k es staging' := by
  unfold Staging.ensurePermit?
  by_cases hheld : staging.unit.holdsPermit k = true
  · exact ⟨staging, by rw [if_pos hheld], h⟩
  rw [if_neg hheld]
  cases hacquire : staging.permits.acquire? k with
  | none => exact (h.permit.resolve_left hheld (Permits.acquire?_eq_none.mp hacquire)).elim
  | some permits =>
    refine ⟨_, rfl, ?_⟩
    exact { h with permit := .inl (by simp [WorkUnit.holdsPermit, WorkUnit.holdPermit]) }

/-- The record of a refused effect is staged. -/
theorem refuse (h : s.Mirrors store now k es staging) (depth : Depth) (e : Event) (r : Rule)
    (refusal : Refusal) : (s.refuse now depth e r refusal).Mirrors store now k es
      (staging.recordError (some e.id) e.program e.promoter (some r.id) (some r.effect) .effect
        refusal.toError depth) :=
  { h with
    failures := by
      simp [Staging.recordError, WorkUnit.recordFailure, Settlement.refuse, h.failures, h.ids,
        h.now]
    ids := by simp [Staging.recordError, Settlement.refuse, h.ids] }

/-- A commission is staged and earned. -/
theorem reward (h : s.Mirrors store now k es staging) (scene : Scene) {r : Rule}
    (hr : scene.rule = r.id) (spec : CommissionSpec) (amount : Money) (depth : Depth) :
    (s.reward scene.event r spec amount).Mirrors store now k es
      ({ staging with ids := staging.ids.skip 2 }.stageChange scene.event r.id depth
        (.commission (scene.commission staging.ids.peek spec amount))) :=
  { h with
    commissions := by
      simp [Staging.stageChange, Staging.mapUnit, WorkUnit.stageCommission, Settlement.reward,
        Scene.commission, h.commissions, h.ids, hr]
    ids := by simp [Staging.stageChange, Staging.mapUnit, Settlement.reward, h.ids] }

/-- A move between circles is staged and made. -/
theorem move (h : s.Mirrors store now k es staging) (e : Event) (rule : RuleId) (depth : Depth)
    (t : Transition) :
    { s with moves := s.moves ++ [t] }.Mirrors store now k es
      (staging.stageChange e rule depth (.transition t)) :=
  { h with
    context := by simp [Staging.stageChange, Staging.mapUnit, WorkUnit.stageTransition, h.context]
    transitions := by
      simp [Staging.stageChange, Staging.mapUnit, WorkUnit.stageTransition, h.transitions] }

/-- What becomes of one rule: its effect is applied and at most one event follows, or it is refused
and the record of it says so. -/
theorem fire (h : s.Mirrors store now k es staging) {depth : Depth} {e : Event}
    (hk : e.promoterKey = k) {r : Rule}
    (hroom : r.effect.emits = true → depth.next ≤ config.maxDepth) :
    (∃ emitted staging', staging.fire config e r.id r.effect depth = (.ok emitted, staging') ∧
      (s.fire store config now depth e r).Mirrors store now k es staging' ∧
      (s.fire store config now depth e r).reports = s.reports ++ emitted.toList) ∨
    (∃ refusal staging', staging.fire config e r.id r.effect depth = (.error refusal, staging') ∧
      (s.fire store config now depth e r).Mirrors store now k es
        (staging'.recordError (some e.id) e.program e.promoter (some r.id) (some r.effect) .effect
          refusal.toError depth) ∧
      (s.fire store config now depth e r).reports = s.reports) := by
  subst hk
  unfold Staging.fire Settlement.fire
  cases heffect : r.effect with
  | generateCommission spec =>
    have hemits : r.effect.emits = true := by rw [heffect, Effect.emits]
    have hdepth : ¬ config.maxDepth < depth.next := not_lt.mpr (hroom hemits)
    simp only [Staging.prepare, if_neg hdepth, Effect.outcome]
    cases hamount : spec.amountFor e config.precision.toNat with
    | error refusal =>
      have hrefuse := h.refuse depth e r refusal
      rw [heffect] at hrefuse
      exact .inr ⟨refusal, staging, rfl, hrefuse, rfl⟩
    | ok amount =>
      let scene : Scene := ⟨e, r.id, staging.unit.context.currentCircle,
        staging.unit.context.circles, config.precision.toNat⟩
      refine .inl ⟨_, _, rfl, h.reward scene rfl spec amount depth, ?_⟩
      simp [Settlement.reward, Scene.commission, h.ids]
  | switchCircle target =>
    obtain ⟨staging', hpermit, h'⟩ := h.ensurePermit
    have hcurrent := h'.currentCircle
    have hcircles : (staging'.unit.context.circles.any fun c => c.isOf e.program target) =
        store.circles.any fun c => c.isOf e.program target := by
      rw [h'.context]
      exact store.any_circles_context e.promoterKey target
    simp only [Staging.prepare, hpermit, Effect.outcome, switchTo, hcurrent, hcircles]
    cases hexists : store.circles.any fun c => c.isOf e.program target with
    | false =>
      have hrefuse := h'.refuse depth e r (.circleNotFound target)
      rw [heffect] at hrefuse
      exact .inr ⟨.circleNotFound target, staging', rfl, hrefuse, rfl⟩
    | true =>
      by_cases hstay : s.circle store e.promoterKey = some target
      · simp only [hstay, Bool.not_true, if_true]
        exact .inl ⟨none, _, rfl, { h' with }, by simp⟩
      · simp only [hstay, Bool.not_true, if_true, if_false]
        exact .inl ⟨none, _, rfl, h'.move e r.id depth _, by simp⟩

/-- The rules that fire do what the settlement says, one after the other. -/
theorem fireAll (h : s.Mirrors store now k es staging) {depth : Depth} {e : Event}
    (hk : e.promoterKey = k) {rules : List Rule}
    (hroom : ∀ r ∈ rules, r.effect.emits = true → depth.next ≤ config.maxDepth) :
    ∃ events failed staging', Staging.fireAll config e depth rules staging =
        ((events, failed), staging') ∧
      (rules.foldl (Settlement.fire store config now depth e) s).Mirrors store now k es staging' ∧
      (rules.foldl (Settlement.fire store config now depth e) s).reports = s.reports ++ events := by
  induction rules generalizing s staging with
  | nil => exact ⟨[], 0, staging, rfl, h, by simp⟩
  | cons r rules ih =>
    have hrest := fun r' hr' => hroom r' (List.mem_cons_of_mem r hr')
    rcases h.fire hk (hroom r List.mem_cons_self) with
      ⟨emitted, staging₁, hfire, h₁, hreports₁⟩ | ⟨refusal, staging₁, hfire, h₁, hreports₁⟩
    · obtain ⟨events, failed, staging', hall, h', hreports⟩ := ih h₁ hrest
      refine ⟨emitted.toList ++ events, failed, staging', ?_, h', ?_⟩
      · simp only [Staging.fireAll, hfire, hall]
      · rw [List.foldl_cons, hreports, hreports₁, List.append_assoc]
    · obtain ⟨events, failed, staging', hall, h', hreports⟩ := ih h₁ hrest
      refine ⟨events, failed + 1, staging', ?_, h', ?_⟩
      · simp only [Staging.fireAll, hfire, hall]
      · rw [List.foldl_cons, hreports, hreports₁]

/-- The evaluation of an event that is staged and counted is that of the settlement. -/
theorem evaluate (h : s.Mirrors store now k es staging) {depth : Depth} {e : Event}
    (hk : e.promoterKey = k) (hbook : store.book.Tallies .all store.facts)
    (hrange : Book.InRange (store.facts ++ es))
    (hroom : ∀ r ∈ store.rules, r.trigger = e.kind → r.effect.emits = true →
      depth.next ≤ config.maxDepth) :
    ∃ events trace staging', staging.evaluate config e depth = (.ok (events, trace), staging') ∧
      (s.evaluate store config now (store.facts ++ es) depth e).Mirrors store now k es staging' ∧
      (s.evaluate store config now (store.facts ++ es) depth e).reports = s.reports ++ events := by
  subst hk
  obtain ⟨b, hb⟩ := hrange
  have htotals : staging.unit.currentTotals = .ok (b.promoter e.promoterKey) := by
    have hadd : staging.unit.context.totals.add?
          (staging.unit.delta.promoter staging.unit.context.key) =
        some (b.promoter e.promoterKey) := by
      rw [h.context]
      exact hbook.promoter_add? h.delta hb e.promoterKey
    simp only [WorkUnit.currentTotals, hadd]
  have hrules : (staging.unit.context.eligibleRules e).filter
      (fun r => r.isMatch (Snapshot.ofEvent (b.promoter e.promoterKey) e)) =
      store.rulesFor (store.facts ++ es) (s.circle store e.promoterKey) e := by
    rw [← h.currentCircle]
    exact store.filter_eligibleRules (by rw [h.context]) hb
  have hroom' : ∀ r ∈ store.rulesFor (store.facts ++ es) (s.circle store e.promoterKey) e,
      r.effect.emits = true → depth.next ≤ config.maxDepth := by
    intro r hr
    simp only [Store.rulesFor, List.mem_filter, decide_eq_true_eq] at hr
    exact hroom r hr.1 hr.2.2.2.1
  obtain ⟨events, failed, staging', hall, h', hreports⟩ := h.fireAll rfl hroom'
  let matched := (store.rulesFor (store.facts ++ es) (s.circle store e.promoterKey) e).length
  let trace := Trace.ofCounts (staging.unit.context.eligibleRules e).length matched
    (matched - failed) failed
  refine ⟨events, trace, staging', ?_, h', hreports⟩
  unfold Staging.evaluate
  simp only [htotals, hrules, hall]
  rfl

end Mirrors

end Settlement

end Referral
