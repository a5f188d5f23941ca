import Mathlib.Logic.Equiv.Basic
import Referral.Proofs.Dispatched

/-!
# Dispatches under other names

What a dispatch makes has names from a supply, and is dated by the clock. Two dispatches of an event
that find the same of its promoter stage the same, but for these names and dates, whatever permits
of other promoters are out and whatever calls the handlers had before.
-/

namespace Referral

/-- Another name for each name, and another time for each. -/
structure Renaming where
  names : Equiv.Perm (BitVec 128)
  time : Instant → Instant

/-- All names and times are kept. -/
def Renaming.same : Renaming := ⟨.refl _, id⟩

variable {ρ : Renaming}

/-! ## Things under their other names -/

namespace Id

variable {k : Entity}

def rename (ρ : Renaming) (a : Id k) : Id k := ⟨ρ.names a.bits⟩

@[simp] theorem rename_inj {a b : Id k} : a.rename ρ = b.rename ρ ↔ a = b := by
  cases a
  cases b
  simp [rename]

theorem rename_same (a : Id k) : a.rename .same = a := rfl

end Id

/-- An event and the one that it follows from have other names. -/
def Event.rename (ρ : Renaming) (e : Event) : Event :=
  { e with id := e.id.rename ρ, causation := e.causation.map (Id.rename ρ) }

section

variable (ρ : Renaming) (e : Event)

@[simp] theorem Event.id_rename : (e.rename ρ).id = e.id.rename ρ := rfl

@[simp] theorem Event.revenue_rename : (e.rename ρ).revenue = e.revenue := rfl

@[simp] theorem Event.program_rename : (e.rename ρ).program = e.program := rfl

@[simp] theorem Event.promoter_rename : (e.rename ρ).promoter = e.promoter := rfl

@[simp] theorem Event.promoterKey_rename : (e.rename ρ).promoterKey = e.promoterKey := rfl

end

/-- An event does not change with the time. -/
theorem Event.rename_refl (time : Instant → Instant) (e : Event) :
    e.rename ⟨.refl _, time⟩ = e := by
  cases e with
  | mk _ _ _ _ _ _ _ _ _ _ _ _ _ causation => cases causation <;> rfl

theorem Event.rename_same (e : Event) : e.rename .same = e := e.rename_refl fun t => t

def Commission.rename (ρ : Renaming) (c : Commission) : Commission :=
  { c with id := c.id.rename ρ, source := c.source.rename ρ }

theorem Commission.rename_same (c : Commission) : c.rename .same = c := rfl

def StagedTransition.rename (ρ : Renaming) (t : StagedTransition) : StagedTransition :=
  { t with event := t.event.map (Id.rename ρ) }

theorem StagedTransition.rename_same (t : StagedTransition) : t.rename .same = t := by
  cases t with
  | mk _ _ event => cases event <;> rfl

def Refusal.rename (ρ : Renaming) : Refusal → Refusal
  | invalidRevenue event => .invalidRevenue (event.rename ρ)
  | refusal => refusal

theorem CommissionSpec.amountFor_rename (ρ : Renaming) (spec : CommissionSpec) (e : Event)
    (precision : ℕ) : spec.amountFor (e.rename ρ) precision =
      (spec.amountFor e precision).mapError (Refusal.rename ρ) := by
  cases spec with
  | fixed amount => rfl
  | percentage share =>
    simp only [amountFor, Event.revenue_rename, Event.id_rename]
    cases e.revenue.bind fun revenue => (revenue.share share).roundTo? precision <;> rfl

/-- Two errors that say the same, except that each may name its own event. -/
inductive Error.Renames (ρ : Renaming) : Error → Error → Prop
  | same (error : Error) : Renames ρ error error
  | overflow (event : EventId) :
    Renames ρ (Error.overflow event.display) (Error.overflow (event.rename ρ).display)
  | revenue (event : EventId) :
    Renames ρ (.invalidRevenue event) (.invalidRevenue (event.rename ρ))

theorem Refusal.renames_toError (ρ : Renaming) (refusal : Refusal) :
    refusal.toError.Renames ρ (refusal.rename ρ).toError := by
  cases refusal with
  | invalidRevenue event => exact .revenue event
  | _ => exact .same _

/-- Two records of the same failure. -/
inductive Failure.Renames (ρ : Renaming) : Failure → Failure → Prop
  | ofError {error error' : Error} (h : error.Renames ρ error') (id : FailureId)
    (event : Option EventId) (program : ProgramId) (promoter : PromoterId) (rule : Option RuleId)
    (effect : Option Effect) (origin : Origin) (depth : Depth) (now : Instant) :
    Renames ρ
      (.ofError id event program promoter rule effect origin error depth now)
      (.ofError (id.rename ρ) (event.map (Id.rename ρ)) program promoter rule effect origin error'
        depth (ρ.time now))

/-- Two units of work that stage the same. -/
structure WorkUnit.Renames (ρ : Renaming) (u u' : WorkUnit) : Prop where
  context : u'.context = u.context
  events : u'.events = u.events.map (Event.rename ρ)
  evaluated : u'.evaluated = u.evaluated.map (Id.rename ρ)
  commissions : u'.commissions = u.commissions.map (Commission.rename ρ)
  transitions : u'.transitions = u.transitions.map (StagedTransition.rename ρ)
  failures : List.Forall₂ (Failure.Renames ρ) u.failures u'.failures
  resolved : u'.resolved = u.resolved
  attempted : u'.attempted = u.attempted
  delta : u'.delta = u.delta
  permits : u'.permits = u.permits

/-- Two answers of a handler that say the same. -/
inductive RenamesAnswer (ρ : Renaming) :
    Except Error (List Event) → Except Error (List Event) → Prop
  | ok (children : List Event) :
    RenamesAnswer ρ (.ok children) (.ok (children.map (Event.rename ρ)))
  | error {error error' : Error} (h : error.Renames ρ error') :
    RenamesAnswer ρ (.error error) (.error error')

/-- Two failures of a handler that say the same. -/
structure HandlerFailure.Renames (ρ : Renaming) (f f' : HandlerFailure) : Prop where
  handler : f'.handler = f.handler
  event : f'.event = f.event.rename ρ
  error : f.error.Renames ρ f'.error

/-- Two reports that say the same. -/
structure DispatchReport.Renames (ρ : Renaming) (r r' : DispatchReport) : Prop where
  dispatched : r'.dispatched = r.dispatched.map (Id.rename ρ)
  skipped : r'.skipped = r.skipped.map (Id.rename ρ)
  rejected : r'.rejected = r.rejected.map (Id.rename ρ)
  handlerFailures : List.Forall₂ (HandlerFailure.Renames ρ) r.handlerFailures r'.handlerFailures
  deepest : r'.deepest = r.deepest

/-! ### Where nothing gets another name -/

theorem Error.Renames.eq {error error' : Error} (h : error.Renames .same error') :
    error' = error := by
  cases h <;> rfl

theorem Failure.Renames.eq {f f' : Failure} (h : f.Renames .same f') : f' = f := by
  cases h with
  | ofError h _ event =>
    rw [h.eq]
    cases event <;> rfl

theorem HandlerFailure.Renames.eq {f f' : HandlerFailure} (h : f.Renames .same f') : f' = f := by
  obtain ⟨hhandler, hevent, herror⟩ := h
  cases f
  cases f'
  cases hhandler
  cases hevent
  cases herror.eq
  rfl

/-- Lists are equal whose elements are, each to its counterpart. -/
theorem eq_of_forall₂ {α : Type} {R : α → α → Prop} (h : ∀ {a b}, R a b → b = a) {as bs : List α}
    (hlists : List.Forall₂ R as bs) : bs = as := by
  induction hlists with
  | nil => rfl
  | cons hhead _ ih => rw [h hhead, ih]

theorem WorkUnit.Renames.eq {u u' : WorkUnit} (h : u.Renames .same u') : u' = u := by
  obtain ⟨hcontext, hevents, hevaluated, hcommissions, htransitions, hfailures, hresolved,
    hattempted, hdelta, hpermits⟩ := h
  have hrecords := eq_of_forall₂ Failure.Renames.eq hfailures
  rw [List.map_id'' Event.rename_same] at hevents
  rw [List.map_id'' Id.rename_same] at hevaluated
  rw [List.map_id'' Commission.rename_same] at hcommissions
  rw [List.map_id'' StagedTransition.rename_same] at htransitions
  cases u
  cases u'
  simp_all

theorem DispatchReport.Renames.eq {r r' : DispatchReport} (h : r.Renames .same r') : r' = r := by
  obtain ⟨hdispatched, hskipped, hrejected, hfailures, hdeepest⟩ := h
  have hrecords := eq_of_forall₂ HandlerFailure.Renames.eq hfailures
  rw [List.map_id'' Id.rename_same] at hdispatched hskipped hrejected
  cases r
  cases r'
  simp_all

/-- The second supply is ahead of the first, whose names below a limit go over into those of the
second. -/
structure IdSupply.Renames (ρ : Renaming) (ahead : ℤ) (limit : ℕ) (ids ids' : IdSupply) : Prop where
  next : (ids'.next : ℤ) = ids.next + ahead
  names : ∀ i, ids.next + i < limit →
    ρ.names (BitVec.ofNat 128 (ids.next + i)) = BitVec.ofNat 128 (ids'.next + i)

namespace IdSupply

variable {ahead : ℤ} {limit : ℕ} {ids ids' : IdSupply}

theorem Renames.peek (h : ids.Renames ρ ahead limit ids') (hroom : ids.next < limit)
    {k : Entity} : (ids'.peek : Id k) = ids.peek.rename ρ :=
  Id.ext (h.names 0 hroom).symm

theorem Renames.skip (h : ids.Renames ρ ahead limit ids') (count : ℕ) :
    (ids.skip count).Renames ρ ahead limit (ids'.skip count) where
  next := by
    have hnext := h.next
    simp only [IdSupply.skip]
    omega
  names i hi := by
    simp only [IdSupply.skip, Nat.add_assoc] at hi ⊢
    exact h.names (count + i) hi

end IdSupply

/-! ## Stagings -/

namespace WorkUnit

variable {u u' : WorkUnit}

theorem Renames.start (ρ : Renaming) (c : Context) : (WorkUnit.start c).Renames ρ (.start c) :=
  ⟨rfl, rfl, rfl, rfl, rfl, .nil, rfl, rfl, rfl, rfl⟩

theorem Renames.isStaged (h : u.Renames ρ u') (id : EventId) :
    u'.isStaged (id.rename ρ) = u.isStaged id := by
  simp [WorkUnit.isStaged, h.events, Event.rename, Function.comp_def]

theorem Renames.isEvaluated (h : u.Renames ρ u') (id : EventId) :
    u'.evaluated.contains (id.rename ρ) = u.evaluated.contains id := by
  rw [h.evaluated, Bool.eq_iff_iff]
  simp

theorem Renames.stageEvent (h : u.Renames ρ u') (e : Event) :
    Renames ρ { u with events := u.events ++ [e] }
      { u' with events := u'.events ++ [e.rename ρ] } :=
  { h with events := by simp [h.events] }

theorem Renames.stageCommission (h : u.Renames ρ u') (c : Commission) :
    (u.stageCommission c).Renames ρ (u'.stageCommission (c.rename ρ)) :=
  { h with commissions := by simp [WorkUnit.stageCommission, h.commissions] }

theorem Renames.stageTransition (h : u.Renames ρ u') (t : StagedTransition) :
    (u.stageTransition t).Renames ρ (u'.stageTransition (t.rename ρ)) :=
  { h with
    context := by
      rw [WorkUnit.stageTransition, h.context]
      rfl
    transitions := by simp [WorkUnit.stageTransition, h.transitions] }

theorem Renames.holdPermit (h : u.Renames ρ u') (k : PromoterKey) :
    (u.holdPermit k).Renames ρ (u'.holdPermit k) :=
  { h with permits := by simp only [WorkUnit.holdPermit, h.permits] }

theorem Renames.recordFailure (h : u.Renames ρ u') {f f' : Failure} (hf : f.Renames ρ f') :
    (u.recordFailure f).Renames ρ (u'.recordFailure f') :=
  { h with failures := List.rel_append h.failures (.cons hf .nil) }

end WorkUnit

namespace Staging

/-- Two stagings that hold the same. The permit for the given promoter is out only if the unit of
work holds it. -/
structure Renames (ρ : Renaming) (ahead : ℤ) (limit : ℕ) (k : PromoterKey) (s s' : Staging) :
    Prop where
  unit : s.unit.Renames ρ s'.unit
  ids : s.ids.Renames ρ ahead limit s'.ids
  clock : s'.now = ρ.time s.now
  left : k ∈ s.permits.out → k ∈ s.unit.permits
  right : k ∈ s'.permits.out → k ∈ s'.unit.permits

namespace Renames

variable {ahead : ℤ} {limit : ℕ} {k : PromoterKey} {s s' : Staging} {e : Event} {depth : Depth}

theorem recordError (h : Renames ρ ahead limit k s s') (hroom : s.ids.next < limit)
    (event : Option EventId) (program : ProgramId) (promoter : PromoterId) (rule : Option RuleId)
    (effect : Option Effect) (origin : Origin) {error error' : Error}
    (herror : error.Renames ρ error') (depth : Depth) :
    Renames ρ ahead limit k (s.recordError event program promoter rule effect origin error depth)
      (s'.recordError (event.map (Id.rename ρ)) program promoter rule effect origin error'
        depth) := by
  refine { h with unit := h.unit.recordFailure ?_, ids := h.ids.skip 1 }
  rw [h.ids.peek hroom, h.clock]
  exact .ofError herror _ _ _ _ _ _ _ _ _

/-- The permit is there for the taking. -/
theorem ensurePermit (h : Renames ρ ahead limit k s s') :
    ∃ t t', s.ensurePermit? k = some t ∧ s'.ensurePermit? k = some t' ∧
      Renames ρ ahead limit k t t' := by
  have hsame : s'.unit.holdsPermit k = s.unit.holdsPermit k := by
    rw [WorkUnit.holdsPermit, WorkUnit.holdsPermit, h.unit.permits]
  unfold ensurePermit?
  rw [hsame]
  by_cases hheld : s.unit.holdsPermit k = true
  · simp only [if_pos hheld]
    exact ⟨s, s', rfl, rfl, h⟩
  · have hfree : ∀ {p : Permits}, (k ∈ p.out → k ∈ s.unit.permits) →
        ∃ q, p.acquire? k = some q := by
      intro p hp
      cases hq : p.acquire? k with
      | some q => exact ⟨q, rfl⟩
      | none =>
        have hmem := hp (Permits.acquire?_eq_none.mp hq)
        exact (hheld (by simpa [WorkUnit.holdsPermit] using hmem)).elim
    obtain ⟨q, hq⟩ := hfree h.left
    obtain ⟨q', hq'⟩ := hfree (h.unit.permits ▸ h.right)
    simp only [if_neg hheld, hq, hq', Option.map_some]
    refine ⟨_, _, rfl, rfl, h.unit.holdPermit k, h.ids, h.clock, fun _ => ?_, fun _ => ?_⟩
    · simp [WorkUnit.holdPermit]
    · simp [WorkUnit.holdPermit]

/-- The commission gets the next name. -/
theorem earned (h : Renames ρ ahead limit k s s') (hroom : s.ids.next < limit) (e : Event)
    (rule : RuleId) (spec : CommissionSpec) (amount : Money) :
    s'.earned (e.rename ρ) rule spec amount = (s.earned e rule spec amount).rename ρ := by
  have hname : (s'.ids.peek : CommissionId) = s.ids.peek.rename ρ := h.ids.peek hroom
  rw [Staging.earned, hname]
  rfl

/-- An effect that is applied, or refused, in the one is so in the other. -/
theorem fire (h : Renames ρ ahead limit e.promoterKey s s') (config : Config) (rule : RuleId)
    (effect : Effect) (depth : Depth)
    (hroom : (s.fire config e rule effect depth).2.ids.next ≤ limit) :
    (s'.fire config (e.rename ρ) rule effect depth).1 =
      ((s.fire config e rule effect depth).1.map (Option.map (Event.rename ρ))).mapError
        (Refusal.rename ρ) ∧
    Renames ρ ahead limit e.promoterKey (s.fire config e rule effect depth).2
      (s'.fire config (e.rename ρ) rule effect depth).2 := by
  unfold Staging.fire at hroom ⊢
  cases effect with
  | generateCommission spec =>
    simp only [prepare] at hroom ⊢
    by_cases hdeep : config.maxDepth < depth.next
    · simp only [if_pos hdeep]
      exact ⟨rfl, h⟩
    · simp only [if_neg hdeep, Effect.outcome, CommissionSpec.amountFor_rename] at hroom ⊢
      cases hamount : spec.amountFor e config.precision.toNat with
      | error refusal => exact ⟨rfl, h⟩
      | ok amount =>
        rw [hamount] at hroom
        have hused : s.ids.next + 2 ≤ limit := hroom
        have hearned := h.earned (by omega) e rule spec amount
        have hname : ((s'.ids.skip 1).peek : EventId) = (s.ids.skip 1).peek.rename ρ :=
          (h.ids.skip 1).peek hused
        refine ⟨?_, { h with unit := ?_, ids := h.ids.skip 2 }⟩
        · change Except.ok (some ((s'.earned (e.rename ρ) rule spec amount).event
            (s'.ids.skip 1).peek (e.rename ρ))) = _
          rw [hearned, hname]
          rfl
        · change (s.unit.stageCommission (s.earned e rule spec amount)).Renames ρ
            (s'.unit.stageCommission (s'.earned (e.rename ρ) rule spec amount))
          rw [hearned]
          exact h.unit.stageCommission _
  | switchCircle target =>
    obtain ⟨t, t', ht, ht', h'⟩ := h.ensurePermit
    simp only [prepare, Event.promoterKey_rename, ht, ht', Effect.outcome, switchTo,
      Event.program_rename, Event.promoter_rename, h'.unit.context]
    by_cases hcircle : (t.unit.context.circles.any fun c => c.isOf e.program target) = true
    · by_cases hstays : t.unit.context.currentCircle = some target
      · simp only [hcircle, hstays]
        exact ⟨rfl, h'⟩
      · simp only [hcircle, hstays]
        exact ⟨rfl, h'.unit.stageTransition (t.moveTo e rule depth target), h'.ids.skip 0,
          h'.clock, h'.left, h'.right⟩
    · simp only [hcircle]
      exact ⟨rfl, h'⟩

theorem fireAll (h : Renames ρ ahead limit e.promoterKey s s') (config : Config) (depth : Depth)
    (rs : List Rule) (hroom : (Staging.fireAll config e depth rs s).2.ids.next ≤ limit) :
    (Staging.fireAll config (e.rename ρ) depth rs s').1 =
      ((Staging.fireAll config e depth rs s).1.1.map (Event.rename ρ),
        (Staging.fireAll config e depth rs s).1.2) ∧
    Renames ρ ahead limit e.promoterKey (Staging.fireAll config e depth rs s).2
      (Staging.fireAll config (e.rename ρ) depth rs s').2 := by
  induction rs generalizing s s' with
  | nil => exact ⟨rfl, h⟩
  | cons r rs ih =>
    have hids : ∀ t : Staging, t.ids.next ≤ (Staging.fireAll config e depth rs t).2.ids.next := by
      intro t
      have hhandles : t.Handles config e depth (fun _ _ => True)
          (Staging.fireAll config e depth rs t).1.1 (Staging.fireAll config e depth rs t).2 :=
        t.handles_fireAll fun _ _ => trivial
      exact hhandles.ids_le
    have hfire := h.fire config r.id r.effect depth
    unfold Staging.fireAll at hroom ⊢
    generalize s.fire config e r.id r.effect depth = first at hfire hroom
    generalize s'.fire config (e.rename ρ) r.id r.effect depth = first' at hfire
    obtain ⟨answer, t⟩ := first
    obtain ⟨answer', t'⟩ := first'
    cases answer with
    | ok emitted =>
      obtain ⟨hanswer, ht⟩ := hfire ((hids t).trans hroom)
      cases hanswer
      obtain ⟨hrest, hlast⟩ := ih ht hroom
      refine ⟨?_, hlast⟩
      cases emitted <;> simp [hrest]
    | error refusal =>
      have hused : t.ids.next + 1 ≤ limit := (hids _).trans hroom
      obtain ⟨hanswer, ht⟩ := hfire (Nat.le_of_succ_le hused)
      cases hanswer
      obtain ⟨hrest, hlast⟩ := ih (ht.recordError hused (some e.id) e.program e.promoter
        (some r.id) (some r.effect) .effect (refusal.renames_toError ρ) depth) hroom
      have hevents := congrArg Prod.fst hrest
      have hfailed := congrArg (fun a => a.2 + 1) hrest
      exact ⟨Prod.ext hevents hfailed, hlast⟩

theorem evaluate (h : Renames ρ ahead limit e.promoterKey s s') (config : Config) (depth : Depth)
    (hroom : (s.evaluate config e depth).2.ids.next ≤ limit) :
    (s'.evaluate config (e.rename ρ) depth).1 =
      (s.evaluate config e depth).1.map (fun a => (a.1.map (Event.rename ρ), a.2)) ∧
    Renames ρ ahead limit e.promoterKey (s.evaluate config e depth).2
      (s'.evaluate config (e.rename ρ) depth).2 := by
  have htotals : s'.unit.currentTotals = s.unit.currentTotals := by
    rw [WorkUnit.currentTotals, WorkUnit.currentTotals, h.unit.context, h.unit.delta]
  rw [evaluate_eq] at hroom ⊢
  rw [evaluate_eq, htotals, h.unit.context]
  cases htotal : s.unit.currentTotals with
  | error error => exact ⟨rfl, h⟩
  | ok totals =>
    rw [htotal] at hroom
    -- neither the trigger of a rule nor a condition looks at the name of the event
    obtain ⟨hrest, hlast⟩ := h.fireAll config depth
      ((s.unit.context.eligibleRules e).filter fun r => r.isMatch (Snapshot.ofEvent totals e)) hroom
    have hsnapshot : Snapshot.ofEvent totals (e.rename ρ) = Snapshot.ofEvent totals e := by
      funext parameter
      cases parameter <;> rfl
    have heligible : s.unit.context.eligibleRules (e.rename ρ) = s.unit.context.eligibleRules e :=
      rfl
    simp only [heligible, hsnapshot, hrest, Except.map]
    exact ⟨trivial, hlast⟩

/-- The totals are kept up by either or by none. -/
theorem count (h : Renames ρ ahead limit k s s') (calls calls' : List Call) (e : Event)
    (depth : Depth) : RenamesAnswer ρ (aggregatesHandler.react calls ⟨e, depth⟩ s).1
      (aggregatesHandler.react calls' ⟨e.rename ρ, depth⟩ s').1 ∧
    Renames ρ ahead limit k (aggregatesHandler.react calls ⟨e, depth⟩ s).2
      (aggregatesHandler.react calls' ⟨e.rename ρ, depth⟩ s').2 := by
  have hadd : s'.unit.delta.add? (e.rename ρ) = s.unit.delta.add? e := by
    rw [h.unit.delta]
    rfl
  simp only [aggregatesHandler, Book.add, hadd]
  cases s.unit.delta.add? e with
  | none => exact ⟨.error (.overflow e.id), h⟩
  | some delta => exact ⟨.ok [], { h with unit := { h.unit with delta := rfl } }⟩

/-- The rules are evaluated for an event in both or in none. -/
theorem react (h : Renames ρ ahead limit e.promoterKey s s') (config : Config)
    (calls calls' : List Call) (depth : Depth)
    (hroom : ((rulesHandler config).react calls ⟨e, depth⟩ s).2.ids.next ≤ limit) :
    RenamesAnswer ρ ((rulesHandler config).react calls ⟨e, depth⟩ s).1
      ((rulesHandler config).react calls' ⟨e.rename ρ, depth⟩ s').1 ∧
    Renames ρ ahead limit e.promoterKey ((rulesHandler config).react calls ⟨e, depth⟩ s).2
      ((rulesHandler config).react calls' ⟨e.rename ρ, depth⟩ s').2 := by
  simp only [rulesHandler, WorkUnit.markEvaluated?, Event.id_rename, h.unit.isEvaluated] at hroom ⊢
  by_cases hmarked : s.unit.evaluated.contains e.id = true
  · simp only [if_pos hmarked]
    exact ⟨.ok [], h⟩
  · simp only [if_neg hmarked] at hroom ⊢
    have hmarks : Renames ρ ahead limit e.promoterKey
        { s with unit := { s.unit with evaluated := s.unit.evaluated ++ [e.id] } }
        { s' with unit := { s'.unit with evaluated := s'.unit.evaluated ++ [e.id.rename ρ] } } :=
      { h with unit := { h.unit with evaluated := by simp [h.unit.evaluated] } }
    obtain ⟨hanswer, hlast⟩ := hmarks.evaluate config depth hroom
    refine ⟨?_, hlast⟩
    rw [hanswer]
    generalize (Staging.evaluate _ config e depth).1 = answer
    cases answer with
    | error error => exact .error (.same error)
    | ok a => exact .ok a.1

end Renames

end Staging

/-! ## Cascades -/

namespace Cascade

/-- Two cascades that stage and report the same. -/
structure Renames (ρ : Renaming) (ahead : ℤ) (limit : ℕ) (k : PromoterKey) (c c' : Cascade) :
    Prop where
  staging : c.staging.Renames ρ ahead limit k c'.staging
  report : c.report.Renames ρ c'.report

variable {s : Service} {c c' : Cascade} {ahead : ℤ} {limit : ℕ} {k : PromoterKey} {depth : Depth}
  {e : Event}

/-- A handler that goes by neither its earlier calls nor the names. -/
theorem Renames.callHandler (h : c.Renames ρ ahead limit k c') (position : ℕ) {handler : Handler}
    (hreact : ∀ calls calls', (handler.react calls ⟨e, depth⟩ c.staging).2.ids.next ≤ limit →
      RenamesAnswer ρ (handler.react calls ⟨e, depth⟩ c.staging).1
        (handler.react calls' ⟨e.rename ρ, depth⟩ c'.staging).1 ∧
      Staging.Renames ρ ahead limit k (handler.react calls ⟨e, depth⟩ c.staging).2
        (handler.react calls' ⟨e.rename ρ, depth⟩ c'.staging).2)
    (hroom : (c.callHandler position handler ⟨e, depth⟩).1.staging.ids.next ≤ limit) :
    (c'.callHandler position handler ⟨e.rename ρ, depth⟩).2 =
      (c.callHandler position handler ⟨e, depth⟩).2.map (Event.rename ρ) ∧
    Renames ρ ahead limit k (c.callHandler position handler ⟨e, depth⟩).1
      (c'.callHandler position handler ⟨e.rename ρ, depth⟩).1 := by
  have hanswers := hreact (callsOf position c.calls) (callsOf position c'.calls)
  unfold Cascade.callHandler at hroom ⊢
  generalize handler.react (callsOf position c.calls) ⟨e, depth⟩ c.staging = first
    at hanswers hroom
  generalize handler.react (callsOf position c'.calls) ⟨e.rename ρ, depth⟩ c'.staging = first'
    at hanswers
  obtain ⟨answer, t⟩ := first
  obtain ⟨answer', t'⟩ := first'
  cases answer with
  | ok children =>
    obtain ⟨hanswer, hstaging⟩ := hanswers hroom
    cases hanswer
    exact ⟨rfl, hstaging, h.report⟩
  | error error =>
    have hused : t.ids.next + 1 ≤ limit := hroom
    obtain ⟨hanswer, hstaging⟩ := hanswers (Nat.le_of_succ_le hused)
    cases hanswer with
    | error herror =>
      exact ⟨rfl, hstaging.recordError hused _ _ _ _ _ _ herror _,
        { h.report with
          handlerFailures := List.rel_append h.report.handlerFailures
            (.cons ⟨rfl, rfl, herror⟩ .nil) }⟩

theorem Renames.handleEvent (hbuiltIn : s.extra = []) (h : c.Renames ρ ahead limit e.promoterKey c')
    (hroom : (Cascade.handleEvent s.dispatcher depth c e).1.staging.ids.next ≤ limit) :
    (Cascade.handleEvent s.dispatcher depth c' (e.rename ρ)).2 =
      (Cascade.handleEvent s.dispatcher depth c e).2.map (Event.rename ρ) ∧
    Renames ρ ahead limit e.promoterKey (Cascade.handleEvent s.dispatcher depth c e).1
      (Cascade.handleEvent s.dispatcher depth c' (e.rename ρ)).1 := by
  unfold Cascade.handleEvent at hroom ⊢
  by_cases hdeep : s.dispatcher.maxDepth < depth
  · simp only [if_pos hdeep] at hroom ⊢
    have hcause : (e.rename ρ).causation.getD (e.rename ρ).id =
        (e.causation.getD e.id).rename ρ := by
      cases hcausation : e.causation <;> simp [Event.rename, hcausation]
    refine ⟨rfl, ?_, { h.report with rejected := by simp [reject, h.report.rejected] }⟩
    simp only [reject, hcause]
    exact h.staging.recordError hroom _ _ _ _ _ _ (.same _) _
  simp only [if_neg hdeep, WorkUnit.stageEvent?, Event.id_rename,
    h.staging.unit.isStaged] at hroom ⊢
  by_cases hstaged : c.staging.unit.isStaged e.id = true
  · simp only [if_pos hstaged]
    exact ⟨rfl, h.staging, { h.report with skipped := by simp [skip, h.report.skipped] }⟩
  simp only [if_neg hstaged] at hroom ⊢
  let unit : WorkUnit := { c.staging.unit with events := c.staging.unit.events ++ [e] }
  let unit' : WorkUnit := { c'.staging.unit with events := c'.staging.unit.events ++ [e.rename ρ] }
  have haccept : Renames ρ ahead limit e.promoterKey (c.accept unit depth e)
      (c'.accept unit' depth (e.rename ρ)) := by
    refine ⟨{ h.staging with unit := h.staging.unit.stageEvent e },
      { h.report with dispatched := ?_, deepest := ?_ }⟩
    · simp [accept, h.report.dispatched]
    · simp only [accept, h.report.deepest]
  simp only [Service.dispatcher, hbuiltIn, callAll_pair] at hroom ⊢
  let counted := ((c.accept unit depth e).callHandler 0 aggregatesHandler ⟨e, depth⟩).1
  have hbetween : counted.staging.ids.next ≤ limit :=
    (counted.handles_callHandler s.config 1 ⟨e, depth⟩).ids_le.trans hroom
  obtain ⟨hfollow, hcounted⟩ := haccept.callHandler 0
    (fun calls calls' _ => haccept.staging.count calls calls' e depth) hbetween
  obtain ⟨hchildren, hruled⟩ := hcounted.callHandler 1
    (fun calls calls' hids => hcounted.staging.react s.config calls calls' depth hids) hroom
  refine ⟨?_, hruled⟩
  rw [List.map_append, ← hfollow, ← hchildren]

end Cascade

/-! ## Dispatches -/

namespace Service

variable {s : Service} {w w' : World} {e : Event} {now : Instant}

/-- Two dispatches of an event that find the same of its promoter stage and report the same under
other names, if the names that the first takes go over into those that the second takes. -/
theorem renames_dispatched (hbuiltIn : s.extra = []) (hkeeps : e.rename ρ = e)
    (hcontext : w'.store.context e.promoterKey = w.store.context e.promoterKey)
    (hfree : e.promoterKey ∉ w.permits.out) (hfree' : e.promoterKey ∉ w'.permits.out)
    {ahead : ℤ}
    (hids : w.ids.Renames ρ ahead (s.dispatched w e now).staging.ids.next w'.ids) :
    Cascade.Renames ρ ahead (s.dispatched w e now).staging.ids.next e.promoterKey
      (s.dispatched w e now) (s.dispatched w' e (ρ.time now)) := by
  let limit := (s.dispatched w e now).staging.ids.next
  let R : Cascade → Cascade → List Event → Prop := fun c c' queue =>
    c.Renames ρ ahead limit e.promoterKey c' ∧ c.staging.Belongs w.store e w.ids.next queue
  have htracks : Cascade.Tracks s.dispatcher s.dispatcher
      (fun c => c.staging.ids.next ≤ limit) (Event.rename ρ) R := by
    constructor
    · exact fun c depth g hc => (Cascade.takes_handleEvent hbuiltIn c depth g).ids_le.trans hc
    · rintro c c' depth g rest hroom ⟨halike, hbelongs⟩
      have hkey : g.promoterKey = e.promoterKey :=
        congrArg LinkKey.owner (hbelongs.links g (by simp))
      rw [← hkey] at halike
      obtain ⟨hsame, hnext⟩ := halike.handleEvent hbuiltIn hroom
      rw [hkey] at hnext
      exact ⟨hsame, hnext, hbelongs.takes (Cascade.takes_handleEvent hbuiltIn c depth g)⟩
  have hstaging : Staging.Renames ρ ahead limit e.promoterKey
      ⟨.start (w.store.context e.promoterKey), w.permits, w.ids, now⟩
      ⟨.start (w'.store.context e.promoterKey), w'.permits, w'.ids, ρ.time now⟩ :=
    ⟨hcontext ▸ .start ρ _, hids, rfl, fun h => (hfree h).elim, fun h => (hfree' h).elim⟩
  have hstart : R ⟨⟨.start (w.store.context e.promoterKey), w.permits, w.ids, now⟩, w.calls, .start⟩
      ⟨⟨.start (w'.store.context e.promoterKey), w'.permits, w'.ids, ρ.time now⟩, w'.calls, .start⟩
      [e] :=
    ⟨⟨hstaging, rfl, rfl, rfl, .nil, rfl⟩, .start _ _ _ _ _⟩
  have hrun := (htracks.run (s.dispatcher.levels 0) 0 (le_refl limit) hstart).1
  rw [List.map_singleton, hkeeps] at hrun
  exact hrun

/-- The number of names that a dispatch takes does not depend on the time. -/
theorem ids_dispatched (hbuiltIn : s.extra = []) (hfree : e.promoterKey ∉ w.permits.out)
    (now now' : Instant) :
    (s.dispatched w e now').staging.ids.next = (s.dispatched w e now).staging.ids.next := by
  have hids : w.ids.Renames ⟨.refl _, fun _ => now'⟩ 0 (s.dispatched w e now).staging.ids.next
      w.ids := ⟨by simp, fun _ _ => rfl⟩
  have hsame := renames_dispatched hbuiltIn (e.rename_refl _) rfl hfree hfree hids
  have hnext := hsame.staging.ids.next
  rw [add_zero] at hnext
  exact_mod_cast hnext

end Service

end Referral
