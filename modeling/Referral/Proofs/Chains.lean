import Referral.Proofs.RetryEndings

/-!
# Chains of moves

The circle in force is known in two ways: a unit of work has the one that it was started from, moved
along by what it stages, and a commit has the one of the store, moved along by what it reads off the
unit. Moves that start in the first always start in the second, so a unit that is committed on the
store that it was started from is not refused for them, and neither is a switch made by hand.
-/

namespace Referral

namespace Transition

/-- Moves that lead on from a circle: each starts where the one before it led, and leads
elsewhere. -/
def Chain : Option CircleId → List Transition → Prop
  | _, [] => True
  | circle, t :: ts => t.source = circle ∧ t.source ≠ some t.target ∧ Chain (some t.target) ts

instance decidableChain : (circle : Option CircleId) → (ts : List Transition) →
    Decidable (Chain circle ts)
  | _, [] => inferInstanceAs (Decidable True)
  | circle, t :: ts =>
    have := decidableChain (some t.target) ts
    inferInstanceAs (Decidable (t.source = circle ∧ t.source ≠ some t.target ∧ _))

end Transition

/-- Moves of one promoter that all lead elsewhere are a chain if none of them is stale. -/
theorem Store.chain_of_staleMove?_eq_none {store : Store} {k : PromoterKey}
    {before ts : List Transition}
    (hkey : ∀ t ∈ before ++ ts, (⟨t.program, t.promoter⟩ : PromoterKey) = k)
    (hstale : store.staleMove? before ts = none)
    (helsewhere : ∀ t ∈ ts, t.source ≠ some t.target) :
    Transition.Chain (store.circleAfter k before) ts := by
  induction ts generalizing before with
  | nil => trivial
  | cons t ts ih =>
    rw [List.forall_mem_cons] at helsewhere
    rw [List.append_cons] at hkey
    have ht : (⟨t.program, t.promoter⟩ : PromoterKey) = k := hkey t (by simp)
    have hnext : store.circleAfter k (before ++ [t]) = some t.target := by
      rw [store.circleAfter_eq fun t ht => hkey t (List.mem_append_left _ ht),
        List.getLast?_concat]
    rw [staleMove?, ht] at hstale
    split at hstale
    · rename_i hsource
      exact ⟨hsource.symm, helsewhere.1, hnext ▸ ih hkey hstale helsewhere.2⟩
    · cases hstale

/-! ## Moves that lead elsewhere -/

namespace Staging

/-- Every staged move leads to another circle than it starts in. -/
def Elsewhere (s : Staging) : Prop := ∀ t ∈ s.moves, t.source ≠ some t.target

variable {s s' : Staging} {config : Config} {e : Event} {depth : Depth}

theorem Elsewhere.ensurePermit? {k : PromoterKey} (h : s.Elsewhere)
    (hpermit : s.ensurePermit? k = some s') : s'.Elsewhere := by
  obtain ⟨held, permits, rfl⟩ := ensurePermit?_frame hpermit
  exact h

theorem Elsewhere.move (h : s.Elsewhere) (t : StagedTransition)
    (ht : t.transition.source ≠ some t.transition.target) :
    (s.mapUnit fun u => u.stageTransition t).Elsewhere := by
  intro t' ht'
  simp only [moves, mapUnit, WorkUnit.stageTransition, List.map_append, List.mem_append,
    List.map_cons, List.map_nil, List.mem_singleton] at ht'
  rcases ht' with ht' | rfl
  · exact h t' ht'
  · exact ht

/-- A move that an effect makes starts in the circle in force, which is not its target. -/
theorem Elsewhere.fire (h : s.Elsewhere) (rule : RuleId) (effect : Effect) :
    (s.fire config e rule effect depth).2.Elsewhere := by
  unfold Staging.fire
  cases effect with
  | generateCommission spec =>
    simp only [prepare]
    by_cases hdeep : config.maxDepth < depth.next
    · simp only [if_pos hdeep]
      exact h
    · simp only [if_neg hdeep, Effect.outcome]
      cases spec.amountFor e config.precision.toNat with
      | error refusal => exact h
      | ok amount => exact h
  | switchCircle target =>
    simp only [prepare]
    cases hpermit : s.ensurePermit? e.promoterKey with
    | none => exact h
    | some s' =>
      have htaken : s'.Elsewhere := h.ensurePermit? hpermit
      simp only [Effect.outcome, switchTo]
      by_cases hcircle : (s'.unit.context.circles.any fun c => c.isOf e.program target) = true
      · by_cases hstays : s'.unit.context.currentCircle = some target
        · simp only [hcircle, hstays]
          exact htaken
        · simp only [hcircle, hstays]
          exact htaken.move (s'.moveTo e rule depth target) hstays
      · simp only [hcircle]
        exact htaken

theorem Elsewhere.fireAll (h : s.Elsewhere) (rs : List Rule) :
    (Staging.fireAll config e depth rs s).2.Elsewhere := by
  induction rs generalizing s with
  | nil => exact h
  | cons r rs ih =>
    have hfire : (s.fire config e r.id r.effect depth).2.Elsewhere := h.fire r.id r.effect
    unfold Staging.fireAll
    split
    · rename_i emitted s' hs'
      rw [hs'] at hfire
      exact ih hfire
    · rename_i refusal s' hs'
      rw [hs'] at hfire
      have hrecord : (s'.recordError (some e.id) e.program e.promoter (some r.id) (some r.effect)
          .effect refusal.toError depth).Elsewhere := hfire
      exact ih hrecord

theorem isKeptBy_elsewhere_rulesHandler (config : Config) :
    Cascade.IsKeptBy Elsewhere (rulesHandler config) := by
  intro calls call s hs
  simp only [rulesHandler]
  cases hmark : s.unit.markEvaluated? call.event.id with
  | none => exact hs
  | some unit =>
    have hunit : Elsewhere { s with unit } := by
      unfold WorkUnit.markEvaluated? at hmark
      split at hmark
      · cases hmark
      · cases hmark
        exact hs
    dsimp only
    rw [evaluate_eq]
    split
    · exact hunit
    · exact hunit.fireAll _

theorem isKeptBy_elsewhere_aggregatesHandler : Cascade.IsKeptBy Elsewhere aggregatesHandler := by
  intro calls call s hs
  simp only [aggregatesHandler]
  split <;> exact hs

/-- With the built-in handlers, whatever is dispatched stages only moves that lead elsewhere. -/
theorem Elsewhere.dispatchAt {s : Service} (hbuiltIn : s.extra = []) {staging : Staging}
    (h : staging.Elsewhere) (depth : Depth) (e : Event) (calls : List CallRecord) :
    (s.dispatcher.dispatchAt depth e staging calls).staging.Elsewhere := by
  refine s.dispatcher.keeps_dispatchAt (fun _ _ h => h) ?_ ?_ depth e staging calls h
  · rw [Service.dispatcher, hbuiltIn]
    intro h hh
    rcases List.mem_cons.mp hh with rfl | hh
    · exact isKeptBy_elsewhere_aggregatesHandler
    · rw [List.mem_singleton.mp hh]
      exact isKeptBy_elsewhere_rulesHandler _
  · intro s e unit hunit hs
    unfold WorkUnit.stageEvent? at hunit
    split at hunit
    · cases hunit
    · cases hunit
      exact hs

end Staging

/-- Moves that are not stale are not what a unit of work is refused for. -/
theorem Store.check_ne_switchRejected {store : Store} {u : WorkUnit}
    (hmoves : store.staleMove? [] (u.transitions.map (·.transition)) = none)
    (promoter : PromoterId) : store.check u ≠ .error (.switchRejected promoter) := by
  simp only [check, hmoves]
  split
  · rintro ⟨⟩
  · split <;> rintro ⟨⟩

namespace Service

open Procedure World

/-- The moves that are staged for an event at any depth are a chain from the circle in force, and
the store that the unit of work was started from does not refuse it for them. -/
theorem chain_dispatchAt {s : Service} (hbuiltIn : s.extra = []) (store : Store) (depth : Depth)
    (e : Event) (permits : Permits) (ids : IdSupply) (now : Instant) (calls : List CallRecord) :
    let u := (s.dispatcher.dispatchAt depth e
      ⟨.start (store.context e.promoterKey), permits, ids, now⟩ calls).staging.unit
    Transition.Chain (store.currentCircle e.promoterKey) (u.transitions.map (·.transition)) ∧
      (∀ t ∈ u.transitions.map (·.transition),
        (⟨t.program, t.promoter⟩ : PromoterKey) = e.promoterKey) ∧
      ∀ promoter, store.check u ≠ .error (.switchRejected promoter) := by
  intro u
  have hbelongs := belongs_dispatchAt hbuiltIn (.start store e permits ids now) depth calls
  have hstart : Staging.Elsewhere ⟨.start (store.context e.promoterKey), permits, ids, now⟩ :=
    fun _ ht => by cases ht
  have helsewhere := Staging.Elsewhere.dispatchAt hbuiltIn hstart depth e calls
  have hkey : ∀ t ∈ [] ++ u.transitions.map (·.transition),
      (⟨t.program, t.promoter⟩ : PromoterKey) = e.promoterKey := hbelongs.movers
  exact ⟨store.chain_of_staleMove?_eq_none hkey hbelongs.unbroken helsewhere, hbelongs.movers,
    Store.check_ne_switchRejected hbelongs.unbroken⟩

end Service

/-! ## Switches made by hand -/

namespace Store

variable {store after mid : Store} {k : PromoterKey} {target : CircleId}
  {answer : Except Error SwitchOutcome}

/-- What the switch of a promoter to a circle comes to where no commit is set to fail. -/
inductive Switches (store : Store) (k : PromoterKey) (target : CircleId) :
    Except Error SwitchOutcome → Store → Prop
  | unknown (hcircle : (store.circles.any fun c => c.isOf k.program target) = false) :
      Switches store k target (.error (.circleNotFound target)) store
  | stays (hcircle : (store.circles.any fun c => c.isOf k.program target) = true)
      (hcurrent : store.currentCircle k = some target) :
      Switches store k target (.ok (.stayed target)) store
  | moves (hcircle : (store.circles.any fun c => c.isOf k.program target) = true)
      (hcurrent : store.currentCircle k ≠ some target) {t : Transition}
      (ht : t = ⟨k.program, k.promoter, store.currentCircle k, target, t.time⟩) :
      Switches store k target (.ok (.switched t)) (store.move t)

/-- A switch is not refused as one that is too late, and where no commit is set to fail it comes out
as the circles say. -/
structure SwitchesAlone (store : Store) (k : PromoterKey) (target : CircleId)
    (answer : Except Error SwitchOutcome) (after : Store) : Prop where
  timely : ∀ promoter, answer ≠ .error (.switchRejected promoter)
  outcome : store.failingCommits = 0 → store.Switches k target answer after

/-- The unit of work of a switch made by hand. -/
def switchUnit (store : Store) (k : PromoterKey) (t : Transition) : WorkUnit :=
  ((WorkUnit.start (store.context k)).holdPermit k).stageTransition ⟨t, none, none, 0⟩

/-- A move from the circle in force is not stale. -/
theorem staleMove?_switchUnit {t : Transition} (hkey : (⟨t.program, t.promoter⟩ : PromoterKey) = k)
    (hsource : t.source = mid.currentCircle k) :
    mid.staleMove? [] ((store.switchUnit k t).transitions.map (·.transition)) = none := by
  have hafter : mid.circleAfter k [] = t.source := hsource.symm
  simp only [switchUnit, WorkUnit.stageTransition, WorkUnit.holdPermit, WorkUnit.start,
    List.nil_append, List.map_cons, List.map_nil, staleMove?, hkey, hafter, if_true]

/-- It is written, unless its commit is set to fail. -/
theorem commit_switchUnit {t : Transition} (hkey : (⟨t.program, t.promoter⟩ : PromoterKey) = k)
    (hsource : t.source = store.currentCircle k) (hzero : store.failingCommits = 0)
    (now : Instant) :
    ∃ receipt, store.commit (store.switchUnit k t) now = (.ok receipt, store.move t) := by
  have hcheck : store.check (store.switchUnit k t) = .ok () := by
    simp only [check, staleMove?_switchUnit hkey hsource]
    rfl
  have hmerge : store.book.merge (store.switchUnit k t).delta = .ok store.book := rfl
  have hwrite : store.write (store.switchUnit k t) store.book now = store.move t := by
    simp only [write, switchUnit, WorkUnit.stageTransition, WorkUnit.holdPermit, WorkUnit.start,
      List.nil_append, List.map_cons, List.map_nil, List.foldl_nil, List.foldl_cons,
      List.append_nil]
  rcases store.commit_cases (store.switchUnit k t) now with ⟨hfailing, -⟩ |
    ⟨-, error, hcause, -⟩ | ⟨-, -, book, hbook, hcommit⟩
  · omega
  · rcases hcause with hrefused | ⟨-, hrefused⟩
    · rw [hcheck] at hrefused
      cases hrefused
    · rw [hmerge] at hrefused
      cases hrefused
  · rw [hmerge] at hbook
    cases hbook
    exact ⟨_, hwrite ▸ hcommit⟩

/-- However the store answers to it, the switch comes out as it should. -/
theorem switchesAlone_of_answers {t : Transition} {answer : Except Error Receipt}
    (hcircle : (store.circles.any fun c => c.isOf k.program target) = true)
    (hcurrent : store.currentCircle k ≠ some target)
    (ht : t = ⟨k.program, k.promoter, store.currentCircle k, target, t.time⟩)
    (h : store.Answers (store.switchUnit k t) answer after) :
    store.SwitchesAlone k target (answer.map fun _ => .switched t) after := by
  obtain ⟨mid, now, hmid, hcommit⟩ := h
  have hkey : (⟨t.program, t.promoter⟩ : PromoterKey) = k := by rw [ht]
  have hsource : t.source = store.currentCircle k := by rw [ht]
  constructor
  · intro promoter hanswer
    cases answer with
    | ok receipt => cases hanswer
    | error error =>
      cases hanswer
      -- the circle in force does not depend on how many commits are set to fail
      have hmoves : mid.staleMove? []
          ((store.switchUnit k t).transitions.map (·.transition)) = none := by
        obtain ⟨failing, -, rfl⟩ := hmid
        exact staleMove?_switchUnit hkey hsource
      exact commit_ne_switchRejected_of_unbroken hmoves now promoter (congrArg Prod.fst hcommit)
  · intro hzero
    obtain rfl := hmid.eq_of_zero hzero
    obtain ⟨receipt, htaken⟩ := commit_switchUnit hkey hsource hzero now
    rw [htaken] at hcommit
    cases hcommit
    exact .moves hcircle hcurrent ht

end Store

namespace Service

open Procedure World

variable {w : World} {k : PromoterKey}

/-- A switch made by hand that nobody interrupts, while no other is in flight. -/
theorem ends_switchCircle_alone (s : Service) (target : CircleId) (hfree : k ∉ w.permits.out) :
    (s.switchCircle k target).Ends
      (fun answer w' => w.store.SwitchesAlone k target answer w'.store) w := by
  have hacquire : (perform (.acquirePermit k)).Ends
      (fun acquired w' => acquired = true ∧ w'.store = w.store) w := by
    refine ends_perform (fun _ _ => rfl) fun w' w'' hw' hw'' => ?_
    rw [hw''.store_eq]
    simp only [World.perform, hw'.permits_eq]
    cases hpermits : w.permits.acquire? k with
    | some permits => exact ⟨rfl, hw'.store_eq⟩
    | none => exact (hfree (Permits.acquire?_eq_none.mp hpermits)).elim
  unfold switchCircle
  refine hacquire.bind ?_
  rintro _ w₁ ⟨rfl, h₁⟩
  refine (ends_read _).bind ?_
  rintro _ w₂ ⟨rfl, h₂⟩
  have hclock : (perform .now).Ends (fun _ w' => w'.store = w₂.store) w₂ :=
    ends_still (fun _ => rfl) fun _ => rfl
  refine hclock.bind fun now w₃ h₃ => ?_
  have hstore : w₃.store = w.store := (h₃.trans h₂.store_eq).trans h₁
  have hrelease : ∀ answer : Except Error SwitchOutcome,
      w.store.SwitchesAlone k target answer w.store → (do
        perform (.releasePermits [k])
        return answer : Procedure (Except Error SwitchOutcome)).Ends
          (fun answer w' => w.store.SwitchesAlone k target answer w'.store) w₃ := by
    intro answer h
    have hgive : (perform (.releasePermits [k])).Ends (fun _ w' => w'.store = w₃.store) w₃ :=
      ends_still (fun _ => rfl) fun _ => rfl
    exact hgive.bind fun _ w₄ h₄ =>
      ends_pure (R := fun answer after => w.store.SwitchesAlone k target answer after)
        ((h₄.trans hstore) ▸ h)
  have hcircles := w.store.any_circles_context k target
  have hcurrent := w.store.currentCircle_context k
  rw [h₁, hcurrent]
  unfold switchTo
  rw [hcircles]
  by_cases hcircle : (w.store.circles.any fun c => c.isOf k.program target) = true
  · by_cases hstays : w.store.currentCircle k = some target
    · simp only [hcircle, hstays]
      exact hrelease _ ⟨(fun _ h => by cases h), fun _ => .stays hcircle hstays⟩
    · simp only [hcircle, hstays]
      let t : Transition := ⟨k.program, k.promoter, w.store.currentCircle k, target, now⟩
      have hspared : w.store.Spared w₃.store := hstore ▸ .refl _
      change (s.commitSwitch (w.store.context k) k t).Ends _ w₃
      unfold commitSwitch
      refine (ends_commitRetrying_spared _ _ _ hspared).bind ?_
      rintro answer w₄ h₄
      have hswitched := Store.switchesAlone_of_answers hcircle hstays (t := t) rfl h₄
      cases answer with
      | error error =>
        exact ends_finish
          (R := fun answer after => w.store.SwitchesAlone k target answer after) hswitched
      | ok receipt =>
        have hoffer : ∀ ns, (perform (.offer ns)).Ends (fun _ w' => w'.store = w₄.store) w₄ :=
          fun _ => ends_still (fun _ => rfl) fun _ => rfl
        exact (hoffer _).bind fun _ w₅ h₅ => ends_finish
          (R := fun answer after => w.store.SwitchesAlone k target answer after) (h₅ ▸ hswitched)
  · simp only [hcircle]
    exact hrelease _ ⟨(fun _ h => by cases h), fun _ => .unknown (by simpa using hcircle)⟩

/-- The unit of work and the store agree on the circle in force. What is staged for an event by the
built-in handlers are chains of moves from it, however deep the event and however many moves there
are, and the store that the unit was started from never refuses them. Nor does it refuse a switch
made by hand with no other in flight: where no commit is set to fail, the circle is unknown, or the
promoter is in it, or moves there. -/
theorem moves_start_in_force (s : Service) :
    (s.extra = [] → ∀ (store : Store) (depth : Depth) (e : Event) (permits : Permits)
      (ids : IdSupply) (now : Instant) (calls : List CallRecord),
      let u := (s.dispatcher.dispatchAt depth e
        ⟨.start (store.context e.promoterKey), permits, ids, now⟩ calls).staging.unit
      Transition.Chain (store.currentCircle e.promoterKey) (u.transitions.map (·.transition)) ∧
        (∀ t ∈ u.transitions.map (·.transition),
          (⟨t.program, t.promoter⟩ : PromoterKey) = e.promoterKey) ∧
        ∀ promoter, store.check u ≠ .error (.switchRejected promoter)) ∧
    ∀ (w : World) (k : PromoterKey) (target : CircleId), k ∉ w.permits.out →
      (s.switchCircle k target).Ends
        (fun answer w' => w.store.SwitchesAlone k target answer w'.store) w :=
  ⟨fun hbuiltIn store depth e permits ids now calls =>
    chain_dispatchAt hbuiltIn store depth e permits ids now calls,
    fun _ _ target hfree => s.ends_switchCircle_alone target hfree⟩

/-- Two rules move a promoter on twice, and an operator moves the promoter once. -/
theorem moves_start_in_force_twice :
    let now : Instant := ⟨0, 0, by decide, by decide, by decide⟩
    let s := Service.mk .default []
    let e := Event.signup ⟨1⟩ ⟨2⟩ ⟨3⟩ ⟨4⟩ ⟨5⟩ ⟨6⟩ now
    let rule (id : RuleId) (target : CircleId) : Rule :=
      ⟨id, ⟨3⟩, "promote", .signup, none, [], .switchCircle target, true⟩
    let store : Store := { Store.empty with
      circles := [⟨⟨7⟩, ⟨3⟩, "new", true⟩, ⟨⟨8⟩, ⟨3⟩, "silver", false⟩,
        ⟨⟨9⟩, ⟨3⟩, "gold", false⟩]
      rules := [rule ⟨10⟩ ⟨8⟩, rule ⟨11⟩ ⟨9⟩] }
    let w : World := { World.start now ⟨100⟩ with store }
    s.extra = [] ∧ e.promoterKey ∉ w.permits.out ∧
      (∃ u, u = (s.dispatcher.dispatchAt 0 e
          ⟨.start (store.context e.promoterKey), .empty, ⟨100⟩, now⟩ []).staging.unit ∧
        u.transitions.length = 2 ∧
        Transition.Chain (store.currentCircle e.promoterKey) (u.transitions.map (·.transition)) ∧
        ∀ promoter, store.check u ≠ .error (.switchRejected promoter)) ∧
      (s.switchCircle e.promoterKey ⟨9⟩).Ends
        (fun answer w' => w.store.SwitchesAlone e.promoterKey ⟨9⟩ answer w'.store) w := by
  intro now s e rule store w
  have hfree : e.promoterKey ∉ w.permits.out := List.not_mem_nil
  have hall : ∀ (store : Store) (e : Event), ∃ u, u = (s.dispatcher.dispatchAt 0 e
      ⟨.start (store.context e.promoterKey), .empty, ⟨100⟩, now⟩ []).staging.unit ∧
      Transition.Chain (store.currentCircle e.promoterKey) (u.transitions.map (·.transition)) ∧
      ∀ promoter, store.check u ≠ .error (.switchRejected promoter) := fun store e =>
    have hmoves := (moves_start_in_force s).1 rfl store 0 e .empty ⟨100⟩ now []
    ⟨_, rfl, hmoves.1, hmoves.2.2⟩
  obtain ⟨u, hu, hchain, hcheck⟩ := hall store e
  have htwice : u.transitions.length = 2 := by
    rw [hu]
    decide +kernel
  exact ⟨rfl, hfree, ⟨u, hu, htwice, hchain, hcheck⟩,
    (moves_start_in_force s).2 w e.promoterKey ⟨9⟩ hfree⟩

end Service

end Referral
