import Referral.Proofs.Cascade
import Referral.Service

/-!
# What the handling of an event does

With the built-in handlers alone, an event is rejected, skipped, or staged and counted, and then its
rules do a number of things one after the other: they note that they ran, take the permit of the
promoter, earn a commission, make a move, or are refused. An invariant of staged changes is shown
for each of these, and holds of whatever a cascade stages.
-/

namespace Referral

namespace Staging

/-! ## The steps -/

/-- The commission that a rule earns for an event. -/
def earned (s : Staging) (e : Event) (rule : RuleId) (spec : CommissionSpec) (amount : Money) :
    Commission :=
  ⟨s.ids.peek, e.program, e.promoter, e.contact, e.link, rule, e.id, amount, spec.kind,
    e.occurredAt⟩

/-- The staging with a commission, whose number and that of its report are used up. -/
def reward (s : Staging) (c : Commission) : Staging :=
  { s with unit := s.unit.stageCommission c, ids := s.ids.skip 2 }

/-- The move of the promoter of an event from the circle in force. -/
def moveTo (s : Staging) (e : Event) (rule : RuleId) (depth : Depth) (target : CircleId) :
    StagedTransition :=
  ⟨⟨e.program, e.promoter, s.unit.context.currentCircle, target, e.occurredAt⟩, some rule,
    some e.id, depth⟩

/-- One thing that rules do when they are evaluated for an event, with the events that follow from
it. The effects that may be applied are those that `allowed` says. -/
inductive Does (config : Config) (e : Event) (depth : Depth) (allowed : RuleId → Effect → Prop)
    (s : Staging) : List Event → Staging → Prop
  | mark : Does config e depth allowed s []
      { s with unit := { s.unit with evaluated := s.unit.evaluated ++ [e.id] } }
  | permit {s' : Staging} (h : s.ensurePermit? e.promoterKey = some s') :
      Does config e depth allowed s [] s'
  | reward {rule : RuleId} {spec : CommissionSpec} {amount : Money}
      (hrule : allowed rule (.generateCommission spec)) (room : depth.next ≤ config.maxDepth)
      (hamount : spec.amountFor e config.precision.toNat = .ok amount) :
      Does config e depth allowed s
        [(s.earned e rule spec amount).event (s.ids.skip 1).peek e]
        (s.reward (s.earned e rule spec amount))
  | move {rule : RuleId} {target : CircleId} (hrule : allowed rule (.switchCircle target))
      (hcircle : (s.unit.context.circles.any fun c => c.isOf e.program target) = true) :
      Does config e depth allowed s []
        (s.mapUnit fun u => u.stageTransition (s.moveTo e rule depth target))
  | refuse {rule : RuleId} {effect : Effect} (refusal : Refusal) (hrule : allowed rule effect) :
      Does config e depth allowed s []
        (s.recordError (some e.id) e.program e.promoter (some rule) (some effect) .effect
          refusal.toError depth)
  | fail (error : Error) : Does config e depth allowed s []
      (s.recordError (some e.id) e.program e.promoter none none
        (.handler (rulesHandler config).name) error depth)

/-- Any number of such things, one after the other. -/
inductive Handles (config : Config) (e : Event) (depth : Depth)
    (allowed : RuleId → Effect → Prop) (s : Staging) : List Event → Staging → Prop
  | start : Handles config e depth allowed s [] s
  | more {out new : List Event} {s' s'' : Staging} (h : Handles config e depth allowed s out s')
      (step : Does config e depth allowed s' new s'') :
      Handles config e depth allowed s (out ++ new) s''

/-- An event is staged and counted, or the record says that it could not be. -/
inductive Enters (e : Event) (depth : Depth) (s : Staging) : Staging → Prop
  | counted {delta : Book} (h : s.unit.delta.add e = .ok delta) : Enters e depth s
      { s with unit := { s.unit with events := s.unit.events ++ [e], delta } }
  | uncounted {error : Error} (h : s.unit.delta.add e = .error error) : Enters e depth s
      ({ s with unit := { s.unit with events := s.unit.events ++ [e] } }.recordError
        (some e.id) e.program e.promoter none none (.handler aggregatesHandler.name) error depth)

/-- The effects of the rules for the kind of an event. -/
def Offers (rules : List Rule) (e : Event) (rule : RuleId) (effect : Effect) : Prop :=
  ∃ r ∈ rules, r.trigger = e.kind ∧ r.id = rule ∧ r.effect = effect

/-- What becomes of an event that a cascade comes to. -/
inductive Takes (config : Config) (e : Event) (depth : Depth) (s : Staging) :
    List Event → Staging → Prop
  | reject (deep : config.maxDepth < depth) : Takes config e depth s []
      (s.recordError (some (e.causation.getD e.id)) e.program e.promoter none none .cascadeLimit
        (.cascadeLimit depth config.maxDepth) depth)
  | skip (staged : s.unit.isStaged e.id = true) : Takes config e depth s [] s
  | handle {children : List Event} {s₁ s' : Staging} (room : depth ≤ config.maxDepth)
      (new : s.unit.isStaged e.id = false) (enters : s.Enters e depth s₁)
      (handles : s₁.Handles config e depth (Offers s.unit.context.rules e) children s') :
      Takes config e depth s children s'

variable {config : Config} {e : Event} {depth : Depth} {allowed : RuleId → Effect → Prop}
  {s s' s'' : Staging} {out new : List Event}

theorem Does.handles (h : s.Does config e depth allowed new s') :
    s.Handles config e depth allowed new s' := by
  have hone := Handles.more .start h
  rwa [List.nil_append] at hone

theorem Handles.trans (h : s.Handles config e depth allowed out s')
    (h' : s'.Handles config e depth allowed new s'') :
    s.Handles config e depth allowed (out ++ new) s'' := by
  induction h' with
  | start => rwa [List.append_nil]
  | more _ step ih =>
    rw [← List.append_assoc]
    exact ih.more step

/-- What each step keeps, in view of the events that followed so far, all of them keep. -/
theorem Handles.keeps {I : Staging → List Event → Prop}
    (hstep : ∀ {s s' : Staging} {out new : List Event}, s.Does config e depth allowed new s' →
      I s out → I s' (out ++ new))
    (h : s.Handles config e depth allowed new s') (out : List Event) (hs : I s out) :
    I s' (out ++ new) := by
  induction h with
  | start => rwa [List.append_nil]
  | more _ step ih =>
    rw [← List.append_assoc]
    exact hstep step ih

/-- The same for what has nothing to do with the events that follow. -/
theorem Handles.keeps' {I : Staging → Prop}
    (hstep : ∀ {s s' : Staging} {new : List Event}, s.Does config e depth allowed new s' →
      I s → I s') (h : s.Handles config e depth allowed new s') (hs : I s) : I s' :=
  h.keeps (I := fun s _ => I s) (fun step hs => hstep step hs) [] hs

theorem Enters.context_eq (h : s.Enters e depth s') : s'.unit.context = s.unit.context := by
  cases h <;> rfl

/-- A permit that is at hand leaves the rest of the staging as it was. -/
theorem ensurePermit?_frame {k : PromoterKey} (h : s.ensurePermit? k = some s') :
    ∃ held permits, s' = { s with unit := { s.unit with permits := held }, permits } := by
  unfold ensurePermit? at h
  split at h
  · cases h
    exact ⟨s.unit.permits, s.permits, rfl⟩
  · obtain ⟨permits, -, rfl⟩ := Option.map_eq_some_iff.mp h
    exact ⟨s.unit.permits ++ [k], permits, rfl⟩

/-! ## Identifiers -/

/-- Identifiers are only ever used up. -/
theorem Does.ids_le (h : s.Does config e depth allowed new s') : s.ids.next ≤ s'.ids.next := by
  cases h with
  | permit hpermit =>
    obtain ⟨held, permits, rfl⟩ := ensurePermit?_frame hpermit
    exact le_refl _
  | mark => exact le_refl _
  | move => exact le_refl _
  | reward => exact Nat.le_add_right _ _
  | refuse => exact Nat.le_succ _
  | fail => exact Nat.le_succ _

theorem Handles.ids_le (h : s.Handles config e depth allowed out s') :
    s.ids.next ≤ s'.ids.next :=
  h.keeps' (I := fun s' => s.ids.next ≤ s'.ids.next) (fun step h => h.trans step.ids_le) (le_refl _)

theorem Enters.ids_le (h : s.Enters e depth s') : s.ids.next ≤ s'.ids.next := by
  cases h with
  | counted => exact le_refl _
  | uncounted => exact Nat.le_succ _

theorem Takes.ids_le (h : s.Takes config e depth out s') : s.ids.next ≤ s'.ids.next := by
  cases h with
  | reject => exact Nat.le_succ _
  | skip => exact le_refl _
  | handle _ _ enters handles => exact enters.ids_le.trans handles.ids_le

/-- Each of some records is that of the move at its place. -/
def Demotes (error : Error) (now : Instant) (ts : List StagedTransition) (records : List Failure) :
    Prop :=
  List.Forall₂ (fun t f => ∃ id, f = demoted t id error now) ts records

section Demotes

variable {error : Error} {now : Instant} {ts : List StagedTransition} {records : List Failure}

theorem Demotes.exists_move (h : Demotes error now ts records) {f : Failure} (hf : f ∈ records) :
    ∃ t ∈ ts, ∃ id, f = demoted t id error now := by
  induction h with
  | nil => cases hf
  | @cons t f' ts records hf' _ ih =>
    rcases List.mem_cons.mp hf with rfl | hf
    · exact ⟨t, List.mem_cons_self, hf'⟩
    · obtain ⟨t', ht', hid⟩ := ih hf
      exact ⟨t', List.mem_cons_of_mem _ ht', hid⟩

theorem Demotes.exists_record (h : Demotes error now ts records) {t : StagedTransition}
    (ht : t ∈ ts) : ∃ f ∈ records, ∃ id, f = demoted t id error now := by
  induction h with
  | nil => cases ht
  | @cons t' f ts records hf _ ih =>
    rcases List.mem_cons.mp ht with rfl | ht
    · exact ⟨f, List.mem_cons_self, hf⟩
    · obtain ⟨f', hf', hid⟩ := ih ht
      exact ⟨f', List.mem_cons_of_mem _ hf', hid⟩

theorem Demotes.effect (h : Demotes error now ts records) :
    ∀ f ∈ records, ∃ target, f.effect = some (.switchCircle target) := by
  intro f hf
  obtain ⟨t, -, id, rfl⟩ := h.exists_move hf
  exact ⟨t.transition.target, rfl⟩

end Demotes

/-- Moves that are demoted leave their records and nothing else. -/
theorem demoteTransitions_frame (s : Staging) (error : Error) (now : Instant) :
    ∃ (records : List Failure) (ids : IdSupply), s.demoteTransitions error now =
      { s with
        unit := { s.unit with transitions := [], failures := s.unit.failures ++ records }, ids } ∧
      s.ids.next ≤ ids.next ∧ Demotes error now s.unit.transitions records := by
  unfold demoteTransitions
  generalize s.unit.transitions = ts
  generalize hs₀ : (s.mapUnit fun u => { u with transitions := [] }) = s₀
  have hfold : ∃ (records : List Failure) (ids : IdSupply),
      ts.foldl (fun s t => { s with
        unit := s.unit.recordFailure (demoted t s.ids.peek error now)
        ids := s.ids.skip 1 }) s₀ =
        { s₀ with unit := { s₀.unit with failures := s₀.unit.failures ++ records }, ids } ∧
      s₀.ids.next ≤ ids.next ∧ Demotes error now ts records := by
    clear hs₀
    induction ts generalizing s₀ with
    | nil => exact ⟨[], s₀.ids, by simp, le_refl _, .nil⟩
    | cons t ts ih =>
      obtain ⟨records, ids, heq, hids, hrecords⟩ := ih
        { s₀ with
          unit := s₀.unit.recordFailure (demoted t s₀.ids.peek error now)
          ids := s₀.ids.skip 1 }
      refine ⟨demoted t s₀.ids.peek error now :: records, ids, ?_, (Nat.le_succ _).trans hids,
        .cons ⟨_, rfl⟩ hrecords⟩
      rw [List.foldl_cons, heq]
      simp [WorkUnit.recordFailure]
  subst hs₀
  exact hfold

/-! ## Rules -/

/-- One effect is applied, or the answer says why it is refused. -/
theorem handles_fire (s : Staging) (config : Config) (e : Event) (depth : Depth)
    (rule : RuleId) (effect : Effect) (allowed : RuleId → Effect → Prop)
    (hrule : allowed rule effect) :
    s.Handles config e depth allowed
      ((s.fire config e rule effect depth).1.toOption.bind id).toList
      (s.fire config e rule effect depth).2 := by
  unfold fire
  cases effect with
  | generateCommission spec =>
    simp only [prepare]
    by_cases hdeep : config.maxDepth < depth.next
    · simp only [if_pos hdeep]
      exact .start
    · simp only [if_neg hdeep, Effect.outcome]
      cases hamount : spec.amountFor e config.precision.toNat with
      | error refusal => exact .start
      | ok amount => exact (Does.reward hrule (not_lt.mp hdeep) hamount).handles
  | switchCircle target =>
    simp only [prepare]
    cases hpermit : s.ensurePermit? e.promoterKey with
    | none => exact .start
    | some s' =>
      have htaken : s.Handles config e depth allowed [] s' := (Does.permit hpermit).handles
      simp only [Effect.outcome, switchTo]
      by_cases hcircle : (s'.unit.context.circles.any fun c => c.isOf e.program target) = true
      · by_cases hstays : s'.unit.context.currentCircle = some target
        · simp only [hcircle, hstays]
          exact htaken
        · simp only [hcircle, hstays]
          exact htaken.trans (Does.move hrule hcircle).handles
      · simp only [hcircle]
        exact htaken

theorem handles_fireAll {rs : List Rule} (s : Staging) (hrules : ∀ r ∈ rs, allowed r.id r.effect) :
    s.Handles config e depth allowed (fireAll config e depth rs s).1.1
      (fireAll config e depth rs s).2 := by
  induction rs generalizing s with
  | nil => exact .start
  | cons r rs ih =>
    rw [List.forall_mem_cons] at hrules
    have hfire := s.handles_fire config e depth r.id r.effect allowed hrules.1
    unfold fireAll
    split
    · rename_i emitted s' hs'
      rw [hs'] at hfire
      have hall := hfire.trans (ih s' hrules.2)
      cases emitted <;> exact hall
    · rename_i refusal s' hs'
      rw [hs'] at hfire
      exact (hfire.trans (Does.refuse refusal hrules.1).handles).trans (ih _ hrules.2)

/-- All stages of an evaluation come in their order, so only totals out of range end it early. -/
theorem evaluate_eq (s : Staging) (config : Config) (e : Event) (depth : Depth) :
    s.evaluate config e depth =
      match s.unit.currentTotals with
      | .error error => (.error error, s)
      | .ok totals =>
        let eligible := s.unit.context.eligibleRules e
        let matched := eligible.filter fun r => r.isMatch (Snapshot.ofEvent totals e)
        let ((events, failed), s') := fireAll config e depth matched s
        (.ok (events, .ofCounts eligible.length matched.length (matched.length - failed) failed),
          s') := by
  unfold evaluate
  cases s.unit.currentTotals <;> rfl

theorem offers_of_mem_eligibleRules {c : Context} {r : Rule} (h : r ∈ c.eligibleRules e) :
    Offers c.rules e r.id r.effect := by
  obtain ⟨hmem, htest⟩ := List.mem_filter.mp h
  simp only [Rule.appliesTo, Bool.and_eq_true, decide_eq_true_eq] at htest
  exact ⟨r, hmem, htest.2.1.2, rfl, rfl⟩

theorem handles_evaluate (s : Staging) :
    s.Handles config e depth (Offers s.unit.context.rules e)
      (((s.evaluate config e depth).1.toOption.map (·.1)).getD [])
      (s.evaluate config e depth).2 := by
  rw [evaluate_eq]
  cases s.unit.currentTotals with
  | error error => exact .start
  | ok totals =>
    refine s.handles_fireAll fun r hr => ?_
    exact offers_of_mem_eligibleRules (List.mem_of_mem_filter hr)

/-- The handler of rules, called by a cascade or once more by itself. -/
theorem handles_react (s : Staging) (config : Config) (calls : List Call) (c : Call) :
    s.Handles config c.event c.depth (Offers s.unit.context.rules c.event)
      (((rulesHandler config).react calls c s).1.toOption.getD [])
      ((rulesHandler config).react calls c s).2 := by
  simp only [rulesHandler, WorkUnit.markEvaluated?]
  by_cases hmarked : s.unit.evaluated.contains c.event.id = true
  · simp only [hmarked, if_true]
    exact .start
  · simp only [hmarked]
    let marked : Staging :=
      { s with unit := { s.unit with evaluated := s.unit.evaluated ++ [c.event.id] } }
    have hmark : s.Handles config c.event c.depth (Offers s.unit.context.rules c.event) [] marked :=
      Does.mark.handles
    have hevaluate := hmark.trans marked.handles_evaluate
    have hout : ((marked.evaluate config c.event c.depth).1.map (·.1)).toOption.getD [] =
        ((marked.evaluate config c.event c.depth).1.toOption.map (·.1)).getD [] := by
      cases (marked.evaluate config c.event c.depth).1 <;> rfl
    rw [← hout] at hevaluate
    exact hevaluate

end Staging

/-! ## Cascades -/

namespace Cascade

open Staging (Enters Handles Takes Offers)

variable {s : Service} {c : Cascade} {depth : Depth} {e : Event}

/-- The handler of totals, called for an event that was just staged. -/
theorem enters_callHandler {staging : Staging} {position : ℕ}
    (hstaging : c.staging =
      { staging with unit := { staging.unit with events := staging.unit.events ++ [e] } }) :
    staging.Enters e depth (c.callHandler position aggregatesHandler ⟨e, depth⟩).1.staging ∧
      (c.callHandler position aggregatesHandler ⟨e, depth⟩).2 = [] := by
  unfold callHandler
  simp only [aggregatesHandler, hstaging]
  cases hadd : staging.unit.delta.add e with
  | ok delta => exact ⟨.counted hadd, rfl⟩
  | error error => exact ⟨.uncounted hadd, rfl⟩

/-- The handler of rules, whose error becomes a record. -/
theorem handles_callHandler (config : Config) (c : Cascade) (position : ℕ) (call : Call) :
    c.staging.Handles config call.event call.depth
      (Offers c.staging.unit.context.rules call.event)
      (c.callHandler position (rulesHandler config) call).2
      (c.callHandler position (rulesHandler config) call).1.staging := by
  have hreact := c.staging.handles_react config (callsOf position c.calls) call
  unfold callHandler
  split
  rename_i answer staging hanswer
  rw [hanswer] at hreact
  cases answer with
  | ok children => exact hreact
  | error error => exact hreact.trans (Staging.Does.fail error).handles

/-- Two handlers are called one after the other. -/
theorem callAll_pair (c : Cascade) (call : Call) (h h' : Handler) :
    callAll call 0 [h, h'] c =
      (((c.callHandler 0 h call).1.callHandler 1 h' call).1,
        (c.callHandler 0 h call).2 ++ ((c.callHandler 0 h call).1.callHandler 1 h' call).2) := by
  simp only [callAll, List.append_nil]

/-- An event that a cascade comes to is rejected, skipped, or handled. -/
theorem takes_handleEvent (hbuiltIn : s.extra = []) (c : Cascade) (depth : Depth) (e : Event) :
    c.staging.Takes s.config e depth (handleEvent s.dispatcher depth c e).2
      (handleEvent s.dispatcher depth c e).1.staging := by
  unfold handleEvent
  by_cases hdeep : s.dispatcher.maxDepth < depth
  · rw [if_pos hdeep]
    exact .reject hdeep
  rw [if_neg hdeep, WorkUnit.stageEvent?]
  by_cases hstaged : c.staging.unit.isStaged e.id = true
  · rw [if_pos hstaged]
    exact .skip hstaged
  rw [if_neg hstaged]
  let unit : WorkUnit := { c.staging.unit with events := c.staging.unit.events ++ [e] }
  let counted := (c.accept unit depth e).callHandler 0 aggregatesHandler ⟨e, depth⟩
  obtain ⟨henters, hnone⟩ : c.staging.Enters e depth counted.1.staging ∧ counted.2 = [] :=
    enters_callHandler rfl
  have hrules : counted.1.staging.unit.context.rules = c.staging.unit.context.rules := by
    rw [henters.context_eq]
  have hhandles := counted.1.handles_callHandler s.config 1 ⟨e, depth⟩
  rw [hrules] at hhandles
  simp only [Service.dispatcher, hbuiltIn, callAll_pair]
  change c.staging.Takes s.config e depth (counted.2 ++ _) _
  rw [hnone, List.nil_append]
  exact .handle (not_lt.mp hdeep) (by simpa using hstaged) henters hhandles

/-- A dispatch only ever uses identifiers up. -/
theorem ids_le_dispatchAt (hbuiltIn : s.extra = []) (depth : Depth) (e : Event) (staging : Staging)
    (calls : List CallRecord) :
    staging.ids.next ≤ (s.dispatcher.dispatchAt depth e staging calls).staging.ids.next :=
  run_keeps (I := fun c _ => staging.ids.next ≤ c.staging.ids.next)
    (fun c depth e _ h => h.trans (takes_handleEvent hbuiltIn c depth e).ids_le) (le_refl _)

end Cascade

/-- A built-in handler that does not keep the totals is that of the rules. -/
theorem Service.eq_rulesHandler {s : Service} (hbuiltIn : s.extra = []) {name : String}
    {position : ℕ} {h : Handler} (hname : name ≠ aggregatesHandler.name)
    (hfind : s.dispatcher.find? name = some (position, h)) : h = rulesHandler s.config := by
  obtain ⟨hmem, hnamed⟩ := Dispatcher.mem_of_find? hfind
  rw [dispatcher, hbuiltIn] at hmem
  rcases List.mem_cons.mp hmem with rfl | hmem
  · exact (hname hnamed.symm).elim
  · exact List.mem_singleton.mp hmem

end Referral
