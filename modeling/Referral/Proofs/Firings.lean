import Referral.Proofs.Evaluating
import Referral.Proofs.Handling

/-!
# Firings

What an evaluation does is said rule by rule. A rule that fires has one result: a commission and the
event that carries it, a move, nothing, or the record of a refusal. The circle of the promoter goes
along with the moves, while the rules that fire are settled before the first of them does. An
evaluation stages the results in the order of the rules and leaves all else as it was, but for the
permit to switch, which may be kept.
-/

namespace Referral

/-- The result of one rule that fires. -/
inductive Firing
  | earned (c : Commission) (report : Event)
  | moved (t : StagedTransition)
  | stayed
  | refused (record : Failure)
deriving DecidableEq

namespace Firing

def commission? : Firing → Option Commission
  | earned c _ => some c
  | _ => none

/-- The event that follows. -/
def report? : Firing → Option Event
  | earned _ report => some report
  | _ => none

def move? : Firing → Option StagedTransition
  | moved t => some t
  | _ => none

def record? : Firing → Option Failure
  | refused record => some record
  | _ => none

def isRefused (f : Firing) : Bool := f.record?.isSome

/-- The circle of the promoter after a firing. -/
def circleAfter (circle : Option CircleId) : Firing → Option CircleId
  | moved t => some t.transition.target
  | _ => circle

/-- The identifiers that a firing leaves. -/
def idsAfter (ids : IdSupply) : Firing → IdSupply
  | earned _ _ => ids.skip 2
  | refused _ => ids.skip 1
  | _ => ids

end Firing

/-- What rules meet when they fire for an event. -/
structure Occasion where
  config : Config
  event : Event
  depth : Depth
  circles : List Circle
  now : Instant
  /-- Whether the permit to switch is held or can be had. -/
  canSwitch : Bool

namespace Occasion

/-- The commission that a rule earns. -/
def commission (o : Occasion) (ids : IdSupply) (r : Rule) (spec : CommissionSpec)
    (amount : Money) : Commission where
  id := ids.peek
  program := o.event.program
  promoter := o.event.promoter
  contact := o.event.contact
  link := o.event.link
  rule := r.id
  source := o.event.id
  amount := amount
  kind := spec.kind
  createdAt := o.event.occurredAt

/-- The move that a rule makes. -/
def move (o : Occasion) (circle : Option CircleId) (r : Rule) (target : CircleId) :
    StagedTransition :=
  ⟨⟨o.event.program, o.event.promoter, circle, target, o.event.occurredAt⟩, some r.id,
    some o.event.id, o.depth⟩

/-- The record of a rule whose effect is refused. -/
def record (o : Occasion) (ids : IdSupply) (r : Rule) (refusal : Refusal) : Failure :=
  Failure.ofError ids.peek (some o.event.id) o.event.program o.event.promoter (some r.id)
    (some r.effect) .effect refusal.toError o.depth o.now

/-- Whether a circle is one of the program. -/
def hasCircle (o : Occasion) (target : CircleId) : Bool :=
  o.circles.any fun c => c.isOf o.event.program target

variable (o : Occasion)

/-- Why the effect of a rule is refused. -/
inductive Refuses (r : Rule) : Refusal → Prop
  | deep {spec : CommissionSpec} (heffect : r.effect = .generateCommission spec)
      (deep : o.config.maxDepth < o.depth.next) :
      Refuses r (.cascadeLimit o.depth.next o.config.maxDepth)
  | unpriced {spec : CommissionSpec} {refusal : Refusal}
      (heffect : r.effect = .generateCommission spec) (room : o.depth.next ≤ o.config.maxDepth)
      (hamount : spec.amountFor o.event o.config.precision.toNat = .error refusal) :
      Refuses r refusal
  | busy {target : CircleId} (heffect : r.effect = .switchCircle target)
      (hpermit : o.canSwitch = false) : Refuses r (.switchRejected o.event.promoter)
  | nowhere {target : CircleId} (heffect : r.effect = .switchCircle target)
      (hpermit : o.canSwitch = true) (hcircle : o.hasCircle target = false) :
      Refuses r (.circleNotFound target)

/-- The result of a rule, in the circle that the rules before it left. -/
inductive Yields (circle : Option CircleId) (ids : IdSupply) (r : Rule) : Firing → Prop
  | earned {spec : CommissionSpec} {amount : Money}
      (heffect : r.effect = .generateCommission spec) (room : o.depth.next ≤ o.config.maxDepth)
      (hamount : spec.amountFor o.event o.config.precision.toNat = .ok amount) :
      Yields circle ids r (.earned (o.commission ids r spec amount)
        ((o.commission ids r spec amount).event (ids.skip 1).peek o.event))
  | moved {target : CircleId} (heffect : r.effect = .switchCircle target)
      (hpermit : o.canSwitch = true) (hcircle : o.hasCircle target = true)
      (hmoves : circle ≠ some target) : Yields circle ids r (.moved (o.move circle r target))
  | stayed {target : CircleId} (heffect : r.effect = .switchCircle target)
      (hpermit : o.canSwitch = true) (hcircle : o.hasCircle target = true)
      (hstays : circle = some target) : Yields circle ids r .stayed
  | refused {refusal : Refusal} (hrefuses : o.Refuses r refusal) :
      Yields circle ids r (.refused (o.record ids r refusal))

/-- The results of rules that fire one after the other. -/
inductive Fires : Option CircleId → IdSupply → List Rule → List Firing → Prop
  | nil {circle : Option CircleId} {ids : IdSupply} : Fires circle ids [] []
  | cons {circle : Option CircleId} {ids : IdSupply} {r : Rule} {f : Firing} {rs : List Rule}
      {fs : List Firing} (first : o.Yields circle ids r f)
      (rest : Fires (f.circleAfter circle) (f.idsAfter ids) rs fs) :
      Fires circle ids (r :: rs) (f :: fs)

theorem Fires.length_eq {o : Occasion} {circle : Option CircleId} {ids : IdSupply}
    {rs : List Rule} {fs : List Firing} (h : o.Fires circle ids rs fs) :
    fs.length = rs.length := by
  induction h with
  | nil => rfl
  | cons _ _ ih => rw [List.length_cons, List.length_cons, ih]

end Occasion

/-! ## Staged results -/

namespace Staging

/-- Whether the permit of a promoter is held or can be had. -/
def canSwitch (s : Staging) (k : PromoterKey) : Bool :=
  s.unit.holdsPermit k || !s.permits.isOut k

/-- What rules that are evaluated for an event meet. -/
def occasion (s : Staging) (config : Config) (e : Event) (depth : Depth) : Occasion :=
  ⟨config, e, depth, s.unit.context.circles, s.now, s.canSwitch e.promoterKey⟩

/-- The staging with the permit of a promoter kept, or as it was. -/
def Permitted (k : PromoterKey) (s s' : Staging) : Prop :=
  s' = s ∨ s.ensurePermit? k = some s'

/-- The staging with the results of firings, and nothing else. -/
def after (s : Staging) (fs : List Firing) : Staging :=
  { s with
    unit := { s.unit with
      context := { s.unit.context with
        membership := ((fs.filterMap Firing.move?).getLast?.map (·.transition.membership)).or
          s.unit.context.membership }
      commissions := s.unit.commissions ++ fs.filterMap Firing.commission?
      transitions := s.unit.transitions ++ fs.filterMap Firing.move?
      failures := s.unit.failures ++ fs.filterMap Firing.record? }
    ids := fs.foldl Firing.idsAfter s.ids }

variable {s s' s'' : Staging} {k : PromoterKey} {config : Config} {e : Event} {depth : Depth}

@[simp] theorem after_nil (s : Staging) : s.after [] = s := by
  simp [after]

theorem after_earned (s : Staging) (c : Commission) (report : Event) :
    s.after [.earned c report] =
      { s with unit := s.unit.stageCommission c, ids := s.ids.skip 2 } := by
  simp [after, WorkUnit.stageCommission, Firing.commission?, Firing.move?, Firing.record?,
    Firing.idsAfter]

theorem after_moved (s : Staging) (t : StagedTransition) :
    s.after [.moved t] = s.mapUnit fun u => u.stageTransition t := by
  simp [after, mapUnit, WorkUnit.stageTransition, Firing.commission?, Firing.move?,
    Firing.record?, Firing.idsAfter]

theorem after_stayed (s : Staging) : s.after [.stayed] = s := by
  simp only [after, List.filterMap_cons, List.filterMap_nil, Firing.commission?, Firing.move?,
    Firing.record?, List.append_nil]
  rfl

theorem after_refused (s : Staging) (record : Failure) :
    s.after [.refused record] =
      { s with unit := s.unit.recordFailure record, ids := s.ids.skip 1 } := by
  simp [after, WorkUnit.recordFailure, Firing.commission?, Firing.move?, Firing.record?,
    Firing.idsAfter]

theorem after_append (s : Staging) (fs gs : List Firing) :
    s.after (fs ++ gs) = (s.after fs).after gs := by
  simp [after, Option.map_or, Option.or_assoc]

theorem currentCircle_after (s : Staging) (f : Firing) :
    (s.after [f]).unit.context.currentCircle =
      f.circleAfter s.unit.context.currentCircle := by
  cases f <;> rfl

/-! ## The permit -/

theorem isSome_ensurePermit? (s : Staging) (k : PromoterKey) :
    (s.ensurePermit? k).isSome = s.canSwitch k := by
  unfold ensurePermit? canSwitch
  by_cases hheld : s.unit.holdsPermit k = true
  · simp [hheld]
  · by_cases hout : k ∈ s.permits.out
    · simp [hheld, hout, Permits.isOut, Permits.acquire?_eq_none.mpr hout]
    · simp [hheld, hout, Permits.isOut, Permits.acquire?]

theorem holdsPermit_of_ensurePermit? (h : s.ensurePermit? k = some s') :
    s'.unit.holdsPermit k = true := by
  unfold ensurePermit? at h
  split at h
  · cases h
    assumption
  · obtain ⟨permits, -, rfl⟩ := Option.map_eq_some_iff.mp h
    simp [WorkUnit.holdPermit, WorkUnit.holdsPermit]

/-- Staged results have nothing to do with permits. -/
theorem ensurePermit?_after (s : Staging) (k : PromoterKey) (fs : List Firing) :
    (s.after fs).ensurePermit? k = (s.ensurePermit? k).map (·.after fs) := by
  unfold ensurePermit?
  change (if s.unit.holdsPermit k then _ else (s.permits.acquire? k).map _) = _
  split
  · rfl
  · cases s.permits.acquire? k <;> rfl

/-- A permit is kept once. -/
theorem Permitted.trans (h : s.Permitted k s') (h' : s'.Permitted k s'') :
    s.Permitted k s'' := by
  rcases h with rfl | h
  · exact h'
  rcases h' with rfl | h'
  · exact .inr h
  · rw [ensurePermit?, if_pos (holdsPermit_of_ensurePermit? h)] at h'
    cases h'
    exact .inr h

/-- The permit may be kept before the results are staged. -/
theorem Permitted.before {fs : List Firing} (h : (s.after fs).Permitted k s') :
    ∃ s₀, s.Permitted k s₀ ∧ s' = s₀.after fs := by
  rcases h with rfl | h
  · exact ⟨s, .inl rfl, rfl⟩
  · rw [ensurePermit?_after] at h
    obtain ⟨s₀, hs₀, rfl⟩ := Option.map_eq_some_iff.mp h
    exact ⟨s₀, .inr hs₀, rfl⟩

/-- To keep a permit changes nothing that rules look at. -/
theorem Permitted.frame (h : s.Permitted k s') :
    s'.unit.context = s.unit.context ∧ s'.ids = s.ids ∧ s'.now = s.now ∧
      s'.canSwitch k = s.canSwitch k := by
  rcases h with rfl | h
  · exact ⟨rfl, rfl, rfl, rfl⟩
  · have hswitch : s'.canSwitch k = s.canSwitch k := by
      rw [← isSome_ensurePermit? s, h, canSwitch, holdsPermit_of_ensurePermit? h]
      rfl
    obtain ⟨held, permits, rfl⟩ := ensurePermit?_frame h
    exact ⟨rfl, rfl, rfl, hswitch⟩

/-- What rules meet stays the same while others fire. -/
theorem Permitted.occasion_after (h : s.Permitted e.promoterKey s') (fs : List Firing) :
    (s'.after fs).occasion config e depth = s.occasion config e depth := by
  obtain ⟨hcontext, -, hnow, hswitch⟩ := h.frame
  change (⟨config, e, depth, s'.unit.context.circles, s'.now, s'.canSwitch e.promoterKey⟩ :
    Occasion) = _
  rw [hcontext, hnow, hswitch]
  rfl

/-! ## One rule after the other -/

/-- The record of a refused effect is the result of its rule. -/
theorem Permitted.recordError (h : s.Permitted e.promoterKey s') (config : Config) (depth : Depth)
    (r : Rule) (refusal : Refusal) :
    s'.recordError (some e.id) e.program e.promoter (some r.id) (some r.effect) .effect
        refusal.toError depth =
      s'.after [.refused ((s.occasion config e depth).record s.ids r refusal)] := by
  obtain ⟨-, hids, hnow, -⟩ := h.frame
  rw [after_refused, Staging.recordError, Occasion.record, hids, hnow]
  rfl

/-- A rule that fires yields a result, which is staged, perhaps after the permit was taken; if it is
refused, this is its record. -/
theorem fire_yields (s : Staging) (config : Config) (e : Event) (depth : Depth) (r : Rule) :
    ∃ f s₀, s.Permitted e.promoterKey s₀ ∧
      (s.occasion config e depth).Yields s.unit.context.currentCircle s.ids r f ∧
      ((f.isRefused = false ∧
          s.fire config e r.id r.effect depth = (.ok f.report?, s₀.after [f])) ∨
        ∃ refusal, f = .refused ((s.occasion config e depth).record s.ids r refusal) ∧
          s.fire config e r.id r.effect depth = (.error refusal, s₀)) := by
  cases heffect : r.effect with
  | generateCommission spec =>
    by_cases hdeep : config.maxDepth < depth.next
    · refine ⟨_, s, .inl rfl, .refused (.deep heffect hdeep), .inr ⟨_, rfl, ?_⟩⟩
      simp only [fire, prepare, if_pos hdeep]
      rfl
    have hroom : depth.next ≤ config.maxDepth := not_lt.mp hdeep
    cases hamount : spec.amountFor e config.precision.toNat with
    | error refusal =>
      refine ⟨_, s, .inl rfl, .refused (.unpriced heffect hroom hamount), .inr ⟨_, rfl, ?_⟩⟩
      simp only [fire, prepare, if_neg hdeep, Effect.outcome, hamount, Except.map]
    | ok amount =>
      refine ⟨_, s, .inl rfl, .earned heffect hroom hamount, .inl ⟨rfl, ?_⟩⟩
      simp only [fire, prepare, if_neg hdeep, Effect.outcome, hamount, Except.map, after_earned]
      rfl
  | switchCircle target =>
    have hcan := s.isSome_ensurePermit? e.promoterKey
    cases hpermit : s.ensurePermit? e.promoterKey with
    | none =>
      rw [hpermit] at hcan
      refine ⟨_, s, .inl rfl, .refused (.busy heffect hcan.symm), .inr ⟨_, rfl, ?_⟩⟩
      simp only [fire, prepare, hpermit]
      rfl
    | some s' =>
      rw [hpermit] at hcan
      have hkept : s.Permitted e.promoterKey s' := .inr hpermit
      obtain ⟨hcontext, -⟩ := hkept.frame
      have hcircles : (s.occasion config e depth).hasCircle target =
        s'.unit.context.circles.any fun c => c.isOf e.program target := by rw [hcontext]; rfl
      simp only [fire, prepare, hpermit, Effect.outcome, switchTo, ← hcircles]
      cases hcircle : (s.occasion config e depth).hasCircle target with
      | false =>
        exact ⟨_, s', hkept, .refused (.nowhere heffect hcan.symm hcircle), .inr ⟨_, rfl, rfl⟩⟩
      | true =>
        by_cases hstays : s.unit.context.currentCircle = some target
        · refine ⟨_, s', hkept, .stayed heffect hcan.symm hcircle hstays, .inl ⟨rfl, ?_⟩⟩
          simp only [hcontext, hstays, after_stayed, Bool.not_true, if_true]
          rfl
        · refine ⟨_, s', hkept, .moved heffect hcan.symm hcircle hstays, .inl ⟨rfl, ?_⟩⟩
          simp only [hcontext, hstays, after_moved, Bool.not_true, if_false]
          rfl

/-- Rules that fire one after the other yield their results, which are all that is staged. -/
theorem fireAll_fires (config : Config) (e : Event) (depth : Depth) (rs : List Rule)
    (s : Staging) :
    ∃ fs s₀, s.Permitted e.promoterKey s₀ ∧
      (s.occasion config e depth).Fires s.unit.context.currentCircle s.ids rs fs ∧
      fireAll config e depth rs s =
        ((fs.filterMap Firing.report?, fs.countP Firing.isRefused), s₀.after fs) := by
  induction rs generalizing s with
  | nil => exact ⟨[], s, .inl rfl, .nil, by simp [fireAll]⟩
  | cons r rs ih =>
    obtain ⟨f, s₁, hkept, hyields, hfire⟩ := s.fire_yields config e depth r
    have hcircle : (s₁.after [f]).unit.context.currentCircle =
        f.circleAfter s.unit.context.currentCircle := by
      rw [currentCircle_after, hkept.frame.1]
    have hids : (s₁.after [f]).ids = f.idsAfter s.ids := by
      rw [← hkept.frame.2.1]
      rfl
    obtain ⟨fs, s₂, hkept₂, hfires, hall⟩ := ih (s₁.after [f])
    rw [hkept.occasion_after, hcircle, hids] at hfires
    obtain ⟨s₀, hkept₀, rfl⟩ := hkept₂.before
    refine ⟨f :: fs, s₀, hkept.trans hkept₀, .cons hyields hfires, ?_⟩
    have hsplit : s₀.after (f :: fs) = (s₀.after [f]).after fs := after_append s₀ [f] fs
    rcases hfire with ⟨hgranted, hfire⟩ | ⟨refusal, rfl, hfire⟩
    · have hreports : f.report?.toList ++ fs.filterMap Firing.report? =
          (f :: fs).filterMap Firing.report? := by
        rw [List.filterMap_cons]
        cases f.report? <;> rfl
      simp only [fireAll, hfire, hall, hsplit, hreports, List.countP_cons, hgranted,
        Bool.false_eq_true, if_false, Nat.add_zero]
    · have hrecord := hkept.recordError config depth r refusal
      simp only [fireAll, hfire, hrecord, hall, hsplit, List.countP_cons]
      rfl

end Staging

/-! ## Evaluations -/

namespace Context

/-- The rules that are for an event in the circle in force. -/
def rulesInForce (c : Context) (e : Event) : List Rule :=
  c.rules.filter fun r =>
    decide (r.program = e.program ∧ r.active = true ∧ r.trigger = e.kind ∧
      (r.circle = none ∨ r.circle = c.currentCircle))

/-- Those of them whose conditions all hold of an event and the totals with it. -/
def rulesThatMatch (c : Context) (totals : PromoterTotals) (e : Event) : List Rule :=
  (c.rulesInForce e).filter fun r =>
    decide (∀ condition ∈ r.conditions, condition.holds (Snapshot.ofEvent totals e) = .ok true)

theorem eligibleRules_eq (c : Context) (e : Event) : c.eligibleRules e = c.rulesInForce e := by
  refine List.filter_congr fun r _ => ?_
  rw [Bool.eq_iff_iff]
  simp only [Rule.appliesTo, Bool.and_eq_true, Bool.or_eq_true, decide_eq_true_eq,
    Option.isNone_iff_eq_none, and_assoc]

theorem filter_isMatch_eligibleRules (c : Context) (totals : PromoterTotals) (e : Event) :
    (c.eligibleRules e).filter (fun r => r.isMatch (Snapshot.ofEvent totals e)) =
      c.rulesThatMatch totals e := by
  rw [eligibleRules_eq]
  refine List.filter_congr fun r _ => ?_
  rw [Bool.eq_iff_iff, decide_eq_true_eq]
  exact conditionsMatch_iff r.conditions _

end Context

/-- If the promoter's stored totals and what is staged cannot be added up, an evaluation says so and
changes nothing. Else it ends well. The rules that fire are those for the event in the circle in
force at its beginning whose conditions hold of the totals with it, each once and in their order.
Each has one result, in the circle that the ones before it left, and these results are staged in
their order and nothing else is changed, but that the permit may be kept. The answer holds the
events that follow in the order of the firings, and the trace of all stages with the numbers of
rules. -/
theorem Staging.evaluate_fires (s : Staging) (config : Config) (e : Event) (depth : Depth) :
    match s.unit.context.totals.add? (s.unit.delta.promoter s.unit.context.key) with
    | none => s.evaluate config e depth =
        (.error (.store ("promoter totals overflow for " ++ s.unit.context.promoter.display)), s)
    | some totals =>
      ∃ (fs : List Firing) (applied failed : ℕ) (s₀ : Staging),
        s.Permitted e.promoterKey s₀ ∧
        (s.occasion config e depth).Fires s.unit.context.currentCircle s.ids
          (s.unit.context.rulesThatMatch totals e) fs ∧
        s.evaluate config e depth =
          (.ok (fs.filterMap Firing.report?,
            .ofCounts (s.unit.context.rulesInForce e).length
              (s.unit.context.rulesThatMatch totals e).length applied failed), s₀.after fs) ∧
        failed = fs.countP Firing.isRefused ∧
        (s.unit.context.rulesThatMatch totals e).length = applied + failed ∧
        (s.unit.context.rulesThatMatch totals e).length ≤
          (s.unit.context.rulesInForce e).length := by
  have hevaluate := s.evaluate_eq config e depth
  unfold WorkUnit.currentTotals at hevaluate
  cases htotals : s.unit.context.totals.add? (s.unit.delta.promoter s.unit.context.key) with
  | none =>
    simp only [htotals] at hevaluate
    exact hevaluate
  | some totals =>
    obtain ⟨fs, s₀, hkept, hfires, hall⟩ :=
      fireAll_fires config e depth (s.unit.context.rulesThatMatch totals e) s
    simp only [htotals, Context.filter_isMatch_eligibleRules, hall] at hevaluate
    rw [Context.eligibleRules_eq] at hevaluate
    have hfailed : fs.countP Firing.isRefused ≤
        (s.unit.context.rulesThatMatch totals e).length :=
      hfires.length_eq ▸ List.countP_le_length
    exact ⟨fs, _, _, s₀, hkept, hfires, hevaluate, rfl, (Nat.sub_add_cancel hfailed).symm,
      List.length_filter_le _ _⟩

/-- A reward, a move to circle 8, the same again, a move to a circle that does not exist, and a
share of a revenue that a signup does not have. -/
example :
    let now : Instant := ⟨0, 0, by decide, by decide, by decide⟩
    let e : Event := .signup ⟨1⟩ ⟨2⟩ ⟨3⟩ ⟨4⟩ ⟨5⟩ ⟨6⟩ now
    let rule (effect : Effect) : Rule := ⟨⟨7⟩, ⟨3⟩, "rule", .signup, none, [], effect, true⟩
    let c : Context :=
      { program := ⟨3⟩, promoter := ⟨4⟩, circles := [⟨⟨8⟩, ⟨3⟩, "gold", false⟩],
        membership := none, totals := .zero,
        rules := [rule (.generateCommission (.fixed .zero)), rule (.switchCircle ⟨8⟩),
          rule (.switchCircle ⟨8⟩), rule (.switchCircle ⟨9⟩),
          rule (.generateCommission (.percentage .largest))] }
    let run := (⟨.start c, .empty, ⟨100⟩, now⟩ : Staging).evaluate .default e 0
    run.1.toOption.map (·.2) = some (.ofCounts 5 5 3 2) ∧
      run.2.unit.context.currentCircle = some ⟨8⟩ ∧ run.2.unit.transitions.length = 1 ∧
      run.2.unit.failures.length = 2 := by
  decide +kernel

end Referral
