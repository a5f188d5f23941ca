import Referral.Proofs.Growth
import Referral.Proofs.Handling
import Referral.Proofs.Serving

/-!
# Totals that only grow

With the built-in handlers, and as long as no rule that is put sets a fixed commission below zero,
every stored total stays between zero and the exact sum of what the log contributes to it. It is
below that sum where an event could not be counted, and a rebuild raises it to the sum. So no
request lowers a total, whatever comes between its steps.
-/

namespace Referral

/-- No amount in the store can take anything off the totals, and none was taken off. -/
structure Store.NonNegative (s : Store) : Prop where
  numbered : s.Numbered
  facts : ∀ e ∈ s.facts, e.NonNegative
  rules : ∀ r ∈ s.rules, r.effect.NonNegative
  failures : ∀ f ∈ s.failures, f.NonNegative
  book : s.book.Within s.facts

/-- The same of a unit of work in hand. -/
structure WorkUnit.NonNegative (u : WorkUnit) : Prop where
  rules : ∀ r ∈ u.context.rules, r.effect.NonNegative
  events : ∀ e ∈ u.events, e.NonNegative
  failures : ∀ f ∈ u.failures, f.NonNegative
  delta : u.delta.Within u.events

/-! ## Units of work -/

namespace WorkUnit

variable {u : WorkUnit}

theorem nonNegative_start {c : Context} (h : ∀ r ∈ c.rules, r.effect.NonNegative) :
    (start c).NonNegative :=
  ⟨h, List.forall_mem_nil _, List.forall_mem_nil _, Book.within_empty⟩

theorem NonNegative.recordFailure (h : u.NonNegative) {f : Failure} (hf : f.NonNegative) :
    (u.recordFailure f).NonNegative :=
  ⟨h.rules, h.events, List.forall_mem_append.mpr ⟨h.failures, by simpa using hf⟩, h.delta⟩

end WorkUnit

namespace Staging

variable {config : Config} {e : Event} {depth : Depth} {allowed : RuleId → Effect → Prop}
  {s s' : Staging} {new : List Event}

theorem nonNegative_recordError (h : s.unit.NonNegative) {effect : Option Effect}
    (heffect : ∀ x ∈ effect, x.NonNegative) (event : Option EventId) (program : ProgramId)
    (promoter : PromoterId) (rule : Option RuleId) (origin : Origin) (error : Error)
    (depth : Depth) :
    (s.recordError event program promoter rule effect origin error depth).unit.NonNegative :=
  h.recordFailure heffect

/-- One thing that rules do: the events that follow have no negative amounts if the effects that may
be applied set none. -/
theorem Does.nonNegative (h : s.Does config e depth allowed new s') (hu : s.unit.NonNegative)
    (he : e.NonNegative) (hallowed : ∀ rule effect, allowed rule effect → effect.NonNegative) :
    s'.unit.NonNegative ∧ ∀ g ∈ new, g.NonNegative := by
  cases h with
  | mark => exact ⟨⟨hu.rules, hu.events, hu.failures, hu.delta⟩, List.forall_mem_nil _⟩
  | permit hpermit =>
    obtain ⟨held, permits, rfl⟩ := ensurePermit?_frame hpermit
    exact ⟨⟨hu.rules, hu.events, hu.failures, hu.delta⟩, List.forall_mem_nil _⟩
  | reward hrule _ hamount =>
    refine ⟨⟨hu.rules, hu.events, hu.failures, hu.delta⟩, fun g hg => ?_⟩
    rw [List.mem_singleton.mp hg]
    refine ⟨?_, by rintro _ ⟨⟩⟩
    rintro _ ⟨⟩
    exact CommissionSpec.units_amountFor_nonneg (hallowed _ _ hrule) he hamount
  | move => exact ⟨⟨hu.rules, hu.events, hu.failures, hu.delta⟩, List.forall_mem_nil _⟩
  | refuse refusal hrule =>
    refine ⟨nonNegative_recordError hu ?_ _ _ _ _ _ _ _, List.forall_mem_nil _⟩
    rintro _ ⟨⟩
    exact hallowed _ _ hrule
  | fail error =>
    exact ⟨nonNegative_recordError hu (by rintro _ ⟨⟩) _ _ _ _ _ _ _, List.forall_mem_nil _⟩

theorem Handles.nonNegative (h : s.Handles config e depth allowed new s') (hu : s.unit.NonNegative)
    (he : e.NonNegative) (hallowed : ∀ rule effect, allowed rule effect → effect.NonNegative) :
    s'.unit.NonNegative ∧ ∀ g ∈ new, g.NonNegative := by
  refine h.keeps (I := fun s out => s.unit.NonNegative ∧ ∀ g ∈ out, g.NonNegative) ?_ []
    ⟨hu, List.forall_mem_nil _⟩
  rintro s s' out new step ⟨hu, hout⟩
  obtain ⟨hu', hnew⟩ := step.nonNegative hu he hallowed
  exact ⟨hu', List.forall_mem_append.mpr ⟨hout, hnew⟩⟩

/-- An event that is staged is counted, or the totals stay as they were. -/
theorem Enters.nonNegative (h : s.Enters e depth s') (hu : s.unit.NonNegative)
    (he : e.NonNegative) : s'.unit.NonNegative := by
  have hone : ∀ g ∈ [e], g.NonNegative := by simpa using he
  cases h with
  | counted hadd =>
    exact ⟨hu.rules, List.forall_mem_append.mpr ⟨hu.events, hone⟩, hu.failures,
      hu.delta.add he hadd⟩
  | uncounted =>
    have hstaged : WorkUnit.NonNegative { s.unit with events := s.unit.events ++ [e] } :=
      ⟨hu.rules, List.forall_mem_append.mpr ⟨hu.events, hone⟩, hu.failures, hu.delta.append hone⟩
    exact hstaged.recordFailure (by rintro _ ⟨⟩)

/-- The rules that a unit works with offer no effect that sets a negative commission. -/
theorem Offers.nonNegative {rules : List Rule} (h : ∀ r ∈ rules, r.effect.NonNegative)
    (rule : RuleId) (effect : Effect) (hoffer : Offers rules e rule effect) :
    effect.NonNegative := by
  obtain ⟨r, hr, -, -, rfl⟩ := hoffer
  exact h r hr

theorem Takes.nonNegative (h : s.Takes config e depth new s') (hu : s.unit.NonNegative)
    (he : e.NonNegative) : s'.unit.NonNegative ∧ ∀ g ∈ new, g.NonNegative := by
  cases h with
  | reject =>
    exact ⟨nonNegative_recordError hu (by rintro _ ⟨⟩) _ _ _ _ _ _ _, List.forall_mem_nil _⟩
  | skip => exact ⟨hu, List.forall_mem_nil _⟩
  | handle _ _ enters handles =>
    exact handles.nonNegative (enters.nonNegative hu he) he (Offers.nonNegative hu.rules)

theorem nonNegative_demoteTransitions (hu : s.unit.NonNegative) (error : Error) (now : Instant) :
    (s.demoteTransitions error now).unit.NonNegative := by
  obtain ⟨records, ids, heq, -, hrecords⟩ := s.demoteTransitions_frame error now
  rw [heq]
  refine ⟨hu.rules, hu.events, List.forall_mem_append.mpr ⟨hu.failures, fun f hf => ?_⟩, hu.delta⟩
  obtain ⟨target, htarget⟩ := hrecords.effect f hf
  rintro effect heffect
  rw [htarget] at heffect
  cases heffect
  trivial

end Staging

/-- Whatever is dispatched to the built-in handlers, amounts stay at least zero. -/
theorem Service.nonNegative_dispatchAt {s : Service} (hbuiltIn : s.extra = []) (depth : Depth)
    {e : Event} {staging : Staging} (calls : List CallRecord) (hu : staging.unit.NonNegative)
    (he : e.NonNegative) :
    (s.dispatcher.dispatchAt depth e staging calls).staging.unit.NonNegative := by
  refine (Cascade.run_keeps
    (I := fun c queue => c.staging.unit.NonNegative ∧ ∀ e ∈ queue, e.NonNegative)
    (fun c depth e rest hc => ?_) ⟨hu, by simpa using he⟩).1
  obtain ⟨hunit, hqueue⟩ := hc
  rw [List.forall_mem_cons] at hqueue
  obtain ⟨hunit', hnew⟩ :=
    (Cascade.takes_handleEvent hbuiltIn c depth e).nonNegative hunit hqueue.1
  exact ⟨hunit', List.forall_mem_append.mpr ⟨hqueue.2, hnew⟩⟩

/-! ## The store -/

namespace Store.NonNegative

variable {s : Store}

theorem empty : Store.empty.NonNegative where
  numbered _ _ h := by simp [Store.empty] at h
  facts := List.forall_mem_nil _
  rules := List.forall_mem_nil _
  failures := List.forall_mem_nil _
  book := Book.within_empty

/-- A unit of work adds to the totals what its events add, or less. -/
theorem commit {u : WorkUnit} (hu : u.NonNegative) (h : s.NonNegative) (now : Instant) :
    (s.commit u now).2.NonNegative ∧ s.book.Below (s.commit u now).2.book := by
  rcases s.commit_store u now with ⟨n, hstore⟩ | ⟨-, book, hmerge, hstore⟩
  · rw [hstore]
    exact ⟨⟨h.numbered, h.facts, h.rules, h.failures, h.book⟩, .refl _⟩
  · have hnumbered := (Store.Later.commit s u now).numbered h.numbered
    rw [hstore] at hnumbered ⊢
    have hfacts := List.forall_mem_append.mpr ⟨h.facts, hu.events⟩
    refine ⟨⟨hnumbered, ?_, ?_, ?_, ?_⟩, ?_⟩
    · rw [facts_write]
      exact hfacts
    · rw [rules_write]
      exact h.rules
    · intro f hf effect heffect
      -- resolving a record or counting an attempt leaves its effect
      have hmem : f.effect ∈ (s.failures ++ u.failures).map (·.effect) := by
        rw [← map_failures_write s u book now _ (fun _ => rfl) fun _ _ => rfl]
        exact List.mem_map_of_mem hf
      obtain ⟨f', hf', heq⟩ := List.mem_map.mp hmem
      have hold := List.forall_mem_append.mpr ⟨h.failures, hu.failures⟩ f' hf'
      exact hold effect (heq ▸ heffect)
    · rw [book_write, facts_write]
      exact h.book.merge hu.delta hmerge
    · rw [book_write]
      exact hu.delta.below_merge hmerge

/-- The totals of a scope may be replaced by exact ones. -/
theorem swap {scope : Scope} {book : Book} {asOf count : ℕ} {store : Store}
    (hbook : book.Tallies scope (s.facts.take asOf))
    (hstore : s.replaceTotals scope book asOf = .ok (count, store)) (h : s.NonNegative) :
    store.NonNegative ∧ s.book.Below store.book := by
  have hnumbered := (Store.Later.replaceTotals hstore).numbered h.numbered
  obtain ⟨rebuilt, hadd, -, rfl⟩ := replaceTotals_eq_ok.mp hstore
  have htallies := hbook.replay hadd
  exact ⟨⟨hnumbered, h.facts, h.rules, h.failures, h.book.replaceScope htallies h.facts⟩,
    h.book.below_replaceScope htallies⟩

theorem putRule {r : Rule} {store : Store} (hr : r.effect.NonNegative)
    (hstore : s.putRule r = .ok store) (h : s.NonNegative) : store.NonNegative := by
  obtain ⟨-, rules, rfl, hrules⟩ := putRule_eq_ok hstore
  refine ⟨h.numbered, h.facts, fun r' hr' => ?_, h.failures, h.book⟩
  rcases hrules r' hr' with hold | rfl
  · exact h.rules r' hold
  · exact hr

end Store.NonNegative

namespace Service

open World (Follows)

/-- What was logged stays, amounts stay at least zero, and no total falls. -/
structure Raises (w w' : World) : Prop extends Follows (·.store.NonNegative) w w' where
  below : w.store.NonNegative → w.store.book.Below w'.store.book

variable {w w' : World} {s : Service}

theorem Raises.of_book_eq (hlater : w.store.Later w'.store)
    (hkeeps : w.store.NonNegative → w'.store.NonNegative) (hids : w.ids.next ≤ w'.ids.next)
    (hbook : w'.store.book = w.store.book) : Raises w w' :=
  ⟨⟨hlater, hkeeps, hids⟩, fun _ => hbook ▸ .refl _⟩

theorem Raises.commit {u : WorkUnit} (hu : u.NonNegative) : Raises w (w.perform (.commit u)).2 :=
  ⟨⟨.commit _ _ _, fun hw => (hw.commit hu w.now).1, le_refl _⟩, fun hw => (hw.commit hu w.now).2⟩

theorem rely_raises : Procedure.Rely Raises where
  refl _ := .of_book_eq (.refl _) id (le_refl _) rfl
  trans _ _ _ h h' := ⟨(World.rely_follows _).trans _ _ _ h.toFollows h'.toFollows,
    fun hw => (h.below hw).trans (h'.below (h.keeps hw))⟩
  later _ _ h := h.later

/-- With the built-in handlers alone, no request takes anything off a total. -/
theorem upholds_raises (hbuiltIn : s.extra = []) (hbatch : s.config.batchSize ≠ 0) :
    s.Upholds (fun request => ∀ r, request = .putRule r → r.effect.NonNegative)
      (·.store.NonNegative)
      (fun _ u cs => u.NonNegative ∧ ∀ c ∈ cs, c.event.NonNegative) Raises Raises where
  rely := rely_raises
  follows h := h.toFollows
  within h := h
  numbered h := h.numbered
  aside h hids := .of_book_eq (h ▸ .refl _) (fun hw => h ▸ hw) hids (by rw [h])
  disturb _ _ _ := .of_book_eq (.of_log_eq rfl rfl)
    (fun hw => ⟨hw.numbered, hw.facts, hw.rules, hw.failures, hw.book⟩) (le_refl _) rfl
  putRule hr h := .of_book_eq (.putRule h) (fun hw => hw.putRule (hr _ rfl) h) (le_refl _) (by
    obtain ⟨-, rules, rfl, -⟩ := Store.putRule_eq_ok h
    rfl)
  putCircle {w c store} _ h := by
    have hlater := Store.Later.putCircle h
    rw [Store.putCircle_eq_ok h] at hlater ⊢
    exact .of_book_eq hlater
      (fun hw => ⟨hw.numbered, hw.facts, hw.rules, hw.failures, hw.book⟩) (le_refl _) rfl
  assignCircle {w k circle store} h := by
    have hlater := Store.Later.assignCircle h
    rw [(Store.assignCircle_eq_ok h).2] at hlater ⊢
    exact .of_book_eq hlater
      (fun hw => ⟨hw.numbered, hw.facts, hw.rules, hw.failures, hw.book⟩) (le_refl _) rfl
  swap hbook h := ⟨⟨.replaceTotals h, fun hw => (hw.swap (hbook.tallies hbatch) h).1, le_refl _⟩,
    fun hw => (hw.swap (hbook.tallies hbatch) h).2⟩
  later _ _ hu := hu
  start k hw := ⟨WorkUnit.nonNegative_start fun r hr => hw.rules r (List.mem_of_mem_filter hr),
    List.forall_mem_nil _⟩
  enter hw haccept _ := ⟨WorkUnit.nonNegative_start fun r hr =>
    hw.rules r (List.mem_of_mem_filter hr), by simpa using nonNegative_of_accept haccept⟩
  dispatch {w u c cs staging} _ hu hstaging := by
    subst hstaging
    obtain ⟨hunit, hcalls⟩ := hu
    rw [List.forall_mem_cons] at hcalls
    exact ⟨Cascade.ids_le_dispatchAt hbuiltIn c.depth c.event ⟨u, w.permits, w.ids, w.now⟩ w.calls,
      nonNegative_dispatchAt hbuiltIn _ _ hunit hcalls.1, hcalls.2⟩
  fire {w u f e rule effect answer staging} _ hf he heffect hu hfire := by
    obtain ⟨w₀, h₀, -, hstored⟩ := hf
    obtain ⟨w₁, h₁, -, hsource⟩ := he
    have hevent := h₁.facts e hsource.mem_facts
    have hhandles := (⟨u, w.permits, w.ids, w.now⟩ : Staging).handles_fire s.config e f.depth rule
      effect (fun _ x => x = effect) rfl
    obtain ⟨hunit, hnew⟩ := hhandles.nonNegative hu.1 hevent fun _ x hx =>
      hx ▸ h₀.failures f hstored effect heffect
    have hids := hhandles.ids_le
    rw [hfire] at hunit hnew hids
    refine ⟨hids, ?_⟩
    rintro emitted rfl
    exact ⟨hunit, by simpa [Except.toOption] using hnew⟩
  call {w u name position h f e calls answer staging} _ he hu hname hfind hreact := by
    obtain ⟨w₁, h₁, -, hsource⟩ := he
    have hevent := h₁.facts e hsource.mem_facts
    rw [eq_rulesHandler hbuiltIn hname hfind] at hreact
    have hhandles := (⟨u, w.permits, w.ids, w.now⟩ : Staging).handles_react s.config calls
      ⟨e, f.depth⟩
    obtain ⟨hunit, hnew⟩ := hhandles.nonNegative hu.1 hevent (Staging.Offers.nonNegative hu.1.rules)
    have hids := hhandles.ids_le
    rw [hreact] at hunit hnew hids
    refine ⟨hids, ?_⟩
    rintro children rfl
    exact ⟨hunit, by simpa [Except.toOption] using hnew⟩
  demote {w u error staging} _ hu hstaging := by
    subst hstaging
    obtain ⟨_, ids, hframe, hids, -⟩ :=
      (⟨u, w.permits, w.ids, w.now⟩ : Staging).demoteTransitions_frame error w.now
    refine ⟨?_, Staging.nonNegative_demoteTransitions hu.1 error w.now, List.forall_mem_nil _⟩
    rw [hframe]
    exact hids
  resolve _ hu := ⟨⟨hu.1.rules, hu.1.events, hu.1.failures, hu.1.delta⟩, hu.2⟩
  attempt _ hu := ⟨⟨hu.1.rules, hu.1.events, hu.1.failures, hu.1.delta⟩, hu.2⟩
  move _ hu := .commit ⟨hu.1.rules, hu.1.events, hu.1.failures, hu.1.delta⟩
  commit hu := .commit hu.1

/-- In every state of every interleaving of requests, with the built-in handlers alone, no total is
negative, and none is higher than in any later state, unless a rule that was put sets a fixed
commission below zero. -/
theorem totals_never_fall {s : Service} (hbuiltIn : s.extra = []) (hbatch : s.config.batchSize ≠ 0)
    {origin : Instant} {ids : IdSupply} {t t' : Traffic}
    (hrun : s.Reaches ⟨.start origin ids, []⟩ t) (hrun' : s.Reaches t t')
    (hrules : ∀ r, t'.Receives (.putRule r) → r.effect.NonNegative) :
    t.world.store.book.NonNegative ∧ t.world.store.book.Below t'.world.store.book := by
  have hs := upholds_raises hbuiltIn hbatch
  have hrules' : ∀ r, t.Receives (.putRule r) → r.effect.NonNegative := fun r hr =>
    hrules r (hrun'.receives (fun _ _ h => by cases h) hr)
  obtain ⟨hsince, htasks⟩ := hs.reaches Store.NonNegative.empty
    (fun _ _ hr r heq => hrules' r (heq ▸ hr)) (List.forall_mem_nil _) hrun
  have ht : t.world.store.NonNegative := hsince.keeps Store.NonNegative.empty
  obtain ⟨hraises, -⟩ := hs.reaches ht (fun _ _ hr r heq => hrules r (heq ▸ hr)) htasks hrun'
  exact ⟨ht.book.nonNegative, hraises.below ht⟩

/-- Two signups that a rule rewards: the commission of the promoter is five units, then ten. -/
theorem totals_of_rewarded_signups_rise : ∃ (s : Service) (origin : Instant) (t t' : Traffic),
    s.Reaches ⟨.start origin ⟨100⟩, []⟩ t ∧ s.Reaches t t' ∧
    (t.world.store.book.promoter ⟨⟨3⟩, ⟨4⟩⟩).commission.units = 50000 ∧
    (t'.world.store.book.promoter ⟨⟨3⟩, ⟨4⟩⟩).commission.units = 100000 ∧
    t.world.store.book.NonNegative ∧ t.world.store.book.Below t'.world.store.book := by
  let now : Instant := ⟨0, 0, by decide, by decide, by decide⟩
  let e : Event := .signup ⟨1⟩ ⟨2⟩ ⟨3⟩ ⟨4⟩ ⟨5⟩ ⟨6⟩ now
  let r : Rule := ⟨⟨7⟩, ⟨3⟩, "reward", .signup, none, [],
    .generateCommission (.fixed ⟨50000, by decide, by decide⟩), true⟩
  let s : Service := ⟨.default, []⟩
  let ruled := (s.serve (.putRule r)).goOn (.start now ⟨100⟩)
  let first := (s.serve (.publish e)).goOn ruled.2
  have hrun := (Reaches.alone s (.start now ⟨100⟩) [] (.putRule r)).trans
    (Reaches.alone s ruled.2 _ (.publish e))
  have hrun' := Reaches.alone s first.2 ([] ++ [⟨.putRule r, ruled.1⟩] ++ [⟨.publish e, first.1⟩])
    (.publish { e with id := ⟨9⟩ })
  refine ⟨s, now, _, _, hrun, hrun', by decide +kernel, by decide +kernel, ?_⟩
  refine totals_never_fall rfl (by decide) hrun hrun' ?_
  rintro r' ⟨task, htask, hrequest⟩
  simp only [List.nil_append, List.cons_append, List.mem_cons, List.not_mem_nil, or_false] at htask
  rcases htask with rfl | rfl | rfl
  · cases hrequest
    exact (by decide : (0 : ℤ) ≤ 50000)
  · cases hrequest
  · cases hrequest

/-- A rule may set a fixed commission below zero: then a signup takes it off the totals, and they
are negative. -/
theorem totals_may_fall :
    (¬ ∀ (s : Service) (origin : Instant) (ids : IdSupply) (t : Traffic), s.extra = [] →
      s.config.batchSize ≠ 0 → s.Reaches ⟨.start origin ids, []⟩ t →
      t.world.store.book.NonNegative) ∧
    ¬ ∀ (s : Service) (origin : Instant) (ids : IdSupply) (t : Traffic) (e : Event), s.extra = [] →
      s.config.batchSize ≠ 0 → s.Reaches ⟨.start origin ids, []⟩ t →
      t.world.store.book.Below ((s.publish e).goOn t.world).2.store.book := by
  let now : Instant := ⟨0, 0, by decide, by decide, by decide⟩
  let e : Event := .signup ⟨1⟩ ⟨2⟩ ⟨3⟩ ⟨4⟩ ⟨5⟩ ⟨6⟩ now
  let r : Rule := ⟨⟨7⟩, ⟨3⟩, "fine", .signup, none, [],
    .generateCommission (.fixed ⟨-50000, by decide, by decide⟩), true⟩
  let s : Service := ⟨.default, []⟩
  have hrule := Reaches.alone s (.start now ⟨100⟩) [] (.putRule r)
  have hsignup := hrule.trans (Reaches.alone s _ _ (.publish e))
  constructor
  · intro hnonneg
    have h := (hnonneg s now ⟨100⟩ _ rfl (by decide) hsignup).promoters ⟨⟨3⟩, ⟨4⟩⟩
      PromoterField.commission
    exact absurd h (by decide +kernel)
  · intro hbelow
    have h := (hbelow s now ⟨100⟩ _ e rfl (by decide) hrule).promoters
      ⟨⟨3⟩, ⟨4⟩⟩ PromoterField.commission
    exact absurd h (by decide +kernel)

end Service

end Referral
