import Referral.Proofs.InForce
import Referral.Proofs.SoundLog

/-!
# Refused switches

A rule that asks for a switch is refused if the permit of the promoter is out. The refused switches
of a cascade are listed along the way, and each of them leaves a failure record with the unit of
work, which no later operation takes away.
-/

namespace Referral

/-- A switch that a rule asks for. -/
structure Switch where
  promoter : PromoterKey
  target : CircleId
  rule : RuleId
  event : EventId
  depth : Depth
deriving DecidableEq

/-- The failure record names the switch and all that it takes to try it again. -/
structure Switch.NamedBy (x : Switch) (f : Failure) : Prop where
  promoter : (⟨f.program, f.promoter⟩ : PromoterKey) = x.promoter
  effect : f.effect = some (.switchCircle x.target)
  rule : f.rule = some x.rule
  event : f.event = some x.event
  depth : f.depth = x.depth
  origin : f.origin = .effect

/-- A unit of work has a new record of the switch. -/
def WorkUnit.Bears (u : WorkUnit) (x : Switch) : Prop :=
  ∃ f ∈ u.failures, x.NamedBy f ∧ f.resolved = false

/-- The switch that a staged move carries out, if a rule asked for it. -/
def StagedTransition.switch? (t : StagedTransition) : Option Switch :=
  match t.rule, t.event with
  | some rule, some event =>
    some ⟨t.transition.promoterKey, t.transition.target, rule, event, t.depth⟩
  | _, _ => none

/-- The switches that rules asked for among the staged moves. -/
def WorkUnit.switches (u : WorkUnit) : List Switch := u.transitions.filterMap (·.switch?)

/-! ## What is refused -/

namespace Staging

/-- The switch that a rule asks for, if it is refused because another one is in flight. -/
def refusal? (e : Event) (rule : RuleId) (effect : Effect) (depth : Depth) :
    Except Refusal (Option Event) → Option Switch
  | .error (.switchRejected _) =>
    match effect with
    | .switchCircle target => some ⟨e.promoterKey, target, rule, e.id, depth⟩
    | .generateCommission _ => none
  | _ => none

/-- The switches that are refused while rules are fired in order. -/
def refusals (config : Config) (e : Event) (depth : Depth) : List Rule → Staging → List Switch
  | [], _ => []
  | r :: rs, s =>
    (refusal? e r.id r.effect depth (s.fire config e r.id r.effect depth).1).toList ++
      refusals config e depth rs (fireAll config e depth [r] s).2

/-- The rules that an evaluation fires. -/
def matching (s : Staging) (e : Event) : List Rule :=
  match s.unit.currentTotals with
  | .error _ => []
  | .ok totals =>
    (s.unit.context.eligibleRules e).filter fun r => r.isMatch (Snapshot.ofEvent totals e)

/-- The switches that are refused when the rules are called. -/
def refusalsOn (s : Staging) (config : Config) (c : Call) : List Switch :=
  match s.unit.markEvaluated? c.event.id with
  | none => []
  | some unit =>
    let s := { s with unit }
    refusals config c.event c.depth (s.matching c.event) s

end Staging

namespace Cascade

variable {α : Type} (see : ℕ → Call → Staging → List α)

/-- What is seen when handlers are called one after the other: at each call, what is staged then. -/
def seenInAll (call : Call) : ℕ → List Handler → Cascade → List α
  | _, [], _ => []
  | position, h :: hs, c =>
    see position call c.staging ++
      seenInAll call (position + 1) hs (c.callHandler position h call).1

/-- What is seen when an event is handled. -/
def seenInEvent (d : Dispatcher) (depth : Depth) (c : Cascade) (e : Event) : List α :=
  if d.maxDepth < depth then []
  else
    match c.staging.unit.stageEvent? e with
    | none => []
    | some unit => seenInAll see ⟨e, depth⟩ 0 d.handlers (c.accept unit depth e)

/-- What is seen when the events of a level are handled. -/
def seenInLevel (d : Dispatcher) (depth : Depth) : Cascade → List Event → List α
  | _, [] => []
  | c, e :: es =>
    seenInEvent see d depth c e ++ seenInLevel d depth (c.handleEvent d depth e).1 es

/-- What is seen in a cascade. -/
def seenInRun (d : Dispatcher) : ℕ → Depth → Cascade → List Event → List α
  | 0, _, _, _ => []
  | _ + 1, _, _, [] => []
  | levels + 1, depth, c, e :: es =>
    seenInLevel see d depth c (e :: es) ++
      seenInRun d levels depth.next (c.handleLevel d depth (e :: es)).1
        (c.handleLevel d depth (e :: es)).2

end Cascade

/-- The switches that are refused while an event is dispatched, and all that follows from it: the
rules are the second of the built-in handlers. -/
def Service.refusals (s : Service) (depth : Depth) (e : Event) (staging : Staging)
    (calls : List CallRecord) : List Switch :=
  Cascade.seenInRun
    (fun position call staging => if position = 1 then staging.refusalsOn s.config call else [])
    s.dispatcher (s.dispatcher.levels depth) depth ⟨staging, calls, .start⟩ [e]

/-! ## Records are kept -/

namespace WorkUnit

variable {u u' : WorkUnit}

theorem Edit.failures (h : u.Edit u') : u.failures <+: u'.failures := by
  cases h with
  | stageEvent h =>
    obtain ⟨-, rfl⟩ := stageEvent?_eq_some h
    exact List.prefix_refl _
  | recordFailure f => exact List.prefix_append _ _
  | demoteTransitions permits ids error now =>
    obtain ⟨records, ids', heq, -⟩ :=
      (⟨u, permits, ids, now⟩ : Staging).demoteTransitions_frame error now
    rw [heq]
    exact List.prefix_append _ _
  | _ => exact List.prefix_refl _

/-- A record that is staged stays staged. -/
theorem Edits.failures (h : u.Edits u') : u.failures <+: u'.failures := by
  induction h with
  | refl => exact List.prefix_refl _
  | tail _ hedit ih => exact ih.trans hedit.failures

theorem Bears.edits {x : Switch} (hx : u.Bears x) (h : u.Edits u') : u'.Bears x := by
  obtain ⟨f, hf, hnamed⟩ := hx
  exact ⟨f, h.failures.subset hf, hnamed⟩

end WorkUnit

/-! ## Every refused switch leaves a record -/

namespace Staging

variable {config : Config} {e : Event} {depth : Depth} {s : Staging} {x : Switch}

theorem edits_fireAll (config : Config) (e : Event) (depth : Depth) (rs : List Rule) (s : Staging) :
    s.Edits (fireAll config e depth rs s).2 := by
  have hhandles : s.Handles config e depth (fun _ _ => True) (fireAll config e depth rs s).1.1
      (fireAll config e depth rs s).2 := s.handles_fireAll fun _ _ => trivial
  exact hhandles.edits

/-- Rules are fired one by one. -/
theorem fireAll_cons (config : Config) (e : Event) (depth : Depth) (r : Rule) (rs : List Rule)
    (s : Staging) : (fireAll config e depth (r :: rs) s).2 =
      (fireAll config e depth rs (fireAll config e depth [r] s).2).2 := by
  simp only [fireAll]
  split <;> rfl

theorem refusal?_eq_some {rule : RuleId} {effect : Effect}
    {answer : Except Refusal (Option Event)} (h : refusal? e rule effect depth answer = some x) :
    ∃ promoter target, answer = .error (.switchRejected promoter) ∧
      effect = .switchCircle target ∧ x = ⟨e.promoterKey, target, rule, e.id, depth⟩ := by
  unfold refusal? at h
  split at h
  · rename_i promoter
    cases effect with
    | switchCircle target =>
      cases h
      exact ⟨promoter, target, rfl, rfl, rfl⟩
    | generateCommission spec => cases h
  · cases h

theorem bears_refusal {r : Rule}
    (h : refusal? e r.id r.effect depth (s.fire config e r.id r.effect depth).1 = some x) :
    (fireAll config e depth [r] s).2.unit.Bears x := by
  obtain ⟨promoter, target, hanswer, heffect, rfl⟩ := refusal?_eq_some h
  obtain ⟨answer, s', hfire⟩ : ∃ answer s', s.fire config e r.id r.effect depth = (answer, s') :=
    ⟨_, _, rfl⟩
  rw [hfire] at hanswer
  subst hanswer
  simp only [fireAll, hfire]
  exact ⟨_, List.mem_append_right _ List.mem_cons_self,
    ⟨rfl, congrArg some heffect, rfl, rfl, rfl, rfl⟩, rfl⟩

theorem bears_refusals {rs : List Rule} (hx : x ∈ refusals config e depth rs s) :
    (fireAll config e depth rs s).2.unit.Bears x := by
  induction rs generalizing s with
  | nil => cases hx
  | cons r rs ih =>
    rw [fireAll_cons]
    rcases List.mem_append.mp hx with hx | hx
    · exact (bears_refusal (Option.mem_toList.mp hx)).edits (edits_fireAll config e depth rs _).unit
    · exact ih hx

/-- Every switch that is refused when the rules are called leaves its record. -/
theorem bears_refusalsOn {c : Call} (hx : x ∈ s.refusalsOn config c) (calls : List Call) :
    ((rulesHandler config).react calls c s).2.unit.Bears x := by
  unfold refusalsOn at hx
  simp only [rulesHandler]
  cases hmark : s.unit.markEvaluated? c.event.id with
  | none =>
    rw [hmark] at hx
    cases hx
  | some unit =>
    rw [hmark] at hx
    dsimp only at hx ⊢
    rw [evaluate_eq]
    unfold matching at hx
    cases htotals : unit.currentTotals with
    | error error =>
      simp only [htotals] at hx
      cases hx
    | ok totals =>
      simp only [htotals] at hx ⊢
      exact bears_refusals hx

/-- Rules that cannot be evaluated are not fired, so that no switch is refused. -/
theorem refusalsOn_eq_nil {c : Call} (calls : List Call) {error : Error}
    (h : ((rulesHandler config).react calls c s).1 = .error error) :
    s.refusalsOn config c = [] := by
  unfold refusalsOn
  simp only [rulesHandler] at h
  cases hmark : s.unit.markEvaluated? c.event.id with
  | none => rfl
  | some unit =>
    rw [hmark] at h
    dsimp only at h ⊢
    rw [evaluate_eq] at h
    unfold matching
    cases htotals : unit.currentTotals with
    | error error => rfl
    | ok totals =>
      simp only [htotals] at h
      cases h

/-- Every switch among the moves that are demoted leaves its record. -/
theorem bears_demoteTransitions (hx : x ∈ s.unit.switches) (error : Error) (now : Instant) :
    (s.demoteTransitions error now).unit.Bears x := by
  obtain ⟨t, ht, hswitch⟩ := List.mem_filterMap.mp hx
  obtain ⟨records, ids, hframe, -, hrecords⟩ := s.demoteTransitions_frame error now
  obtain ⟨f, hf, id, rfl⟩ := hrecords.exists_record ht
  rw [hframe]
  refine ⟨_, List.mem_append_right _ hf, ?_, rfl⟩
  unfold StagedTransition.switch? at hswitch
  split at hswitch
  · rename_i rule event hrule hevent
    cases hswitch
    exact ⟨rfl, rfl, hrule, hevent, rfl, by simp [demoted, Failure.ofError, hevent]⟩
  · cases hswitch

end Staging

namespace Cascade

variable {α : Type} {see : ℕ → Call → Staging → List α} {d : Dispatcher} {P : α → Staging → Prop}
  {a : α}

/-- Handlers leave a mark of whatever is seen when they are called, and nothing that is done to a
unit of work takes a mark away. -/
structure Marks (d : Dispatcher) (see : ℕ → Call → Staging → List α) (P : α → Staging → Prop) :
    Prop where
  fair : ∀ h ∈ d.handlers, h.Fair
  react : ∀ {position h calls call s a}, d.handlers[position]? = some h →
    a ∈ see position call s → P a (h.react calls call s).2
  stays : ∀ {a s s'}, s.Edits s' → P a s → P a s'

namespace Marks

theorem callHandler (hm : Marks d see P) {position : ℕ} {h : Handler} {call : Call} {c : Cascade}
    (hh : d.handlers[position]? = some h) (ha : a ∈ see position call c.staging) :
    P a (c.callHandler position h call).1.staging := by
  have hreact : P a (h.react (callsOf position c.calls) call c.staging).2 := hm.react hh ha
  unfold Cascade.callHandler
  dsimp only
  split
  · exact hreact
  · exact hm.stays ⟨Nat.le_succ _, .single (.recordFailure _)⟩ hreact

theorem callAll (hm : Marks d see P) {call : Call} {hs : List Handler} {c : Cascade} {position : ℕ}
    (hhs : d.handlers.drop position = hs) (ha : a ∈ seenInAll see call position hs c) :
    P a (callAll call position hs c).1.staging := by
  induction hs generalizing c position with
  | nil => cases ha
  | cons h hs ih =>
    rcases List.mem_append.mp ha with ha | ha
    · have hh : d.handlers[position]? = some h := by
        have hzero := congrArg (·[0]?) hhs
        simpa using hzero
      have hfair : ∀ g ∈ hs, g.Fair := fun g hg =>
        hm.fair g (List.mem_of_mem_drop (hhs ▸ List.mem_cons_of_mem h hg))
      exact hm.stays (edits_callAll call hfair _ _) (hm.callHandler hh ha)
    · refine ih ?_ ha
      rw [← List.tail_drop, hhs, List.tail_cons]

theorem event (hm : Marks d see P) {depth : Depth} {c : Cascade} {e : Event}
    (ha : a ∈ seenInEvent see d depth c e) : P a (c.handleEvent d depth e).1.staging := by
  unfold seenInEvent at ha
  unfold handleEvent
  split at ha
  · cases ha
  rename_i hdepth
  rw [if_neg hdepth]
  cases hunit : c.staging.unit.stageEvent? e with
  | none =>
    rw [hunit] at ha
    cases ha
  | some unit =>
    rw [hunit] at ha
    exact hm.callAll rfl ha

theorem edits_level (hm : Marks d see P) (depth : Depth) (c : Cascade) (es : List Event) :
    c.staging.Edits (c.handleLevel d depth es).1.staging := by
  induction es generalizing c with
  | nil => exact .refl _
  | cons e es ih => exact (edits_handleEvent hm.fair depth c e).trans (ih _)

theorem level (hm : Marks d see P) {depth : Depth} {c : Cascade} {es : List Event}
    (ha : a ∈ seenInLevel see d depth c es) : P a (c.handleLevel d depth es).1.staging := by
  induction es generalizing c with
  | nil => cases ha
  | cons e es ih =>
    rcases List.mem_append.mp ha with ha | ha
    · exact hm.stays (hm.edits_level depth _ es) (hm.event ha)
    · exact ih ha

theorem run (hm : Marks d see P) {levels : ℕ} {depth : Depth} {c : Cascade} {es : List Event}
    (ha : a ∈ seenInRun see d levels depth c es) : P a (run d levels depth c es).1.staging := by
  induction levels generalizing depth c es with
  | zero => cases ha
  | succ levels ih =>
    cases es with
    | nil => cases ha
    | cons e es =>
      rcases List.mem_append.mp ha with ha | ha
      · let next := c.handleLevel d depth (e :: es)
        have hrest : next.1.staging.Edits
            (Cascade.run d levels depth.next next.1 next.2).1.staging :=
          run_keeps (I := fun c' _ => next.1.staging.Edits c'.staging)
            (fun c' depth g _ h => h.trans (edits_handleEvent hm.fair depth c' g)) (.refl _)
        exact hm.stays hrest (hm.level ha)
      · exact ih ha

end Marks

end Cascade

namespace Service

variable {s : Service} {depth : Depth} {e : Event} {staging : Staging} {calls : List CallRecord}
  {x : Switch}

/-- Every switch that is refused in a dispatch leaves its record. -/
theorem bears_of_mem_refusals (hbuiltIn : s.extra = [])
    (hx : x ∈ s.refusals depth e staging calls) :
    (s.dispatcher.dispatchAt depth e staging calls).staging.unit.Bears x := by
  have hmarks : Cascade.Marks s.dispatcher
      (fun position call staging => if position = 1 then staging.refusalsOn s.config call else [])
      fun x staging => staging.unit.Bears x := by
    refine ⟨(fair_of_builtIn hbuiltIn).handlers, ?_, fun h hx => hx.edits h.unit⟩
    intro position h calls call staging x hh hx
    split at hx
    · rename_i hposition
      subst hposition
      cases hh
      exact Staging.bears_refusalsOn hx calls
    · cases hx
  exact hmarks.run hx

end Service

end Referral
