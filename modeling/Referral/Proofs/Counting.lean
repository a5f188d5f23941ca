import Referral.Proofs.BookTally
import Referral.Proofs.Handling

/-!
# Units of work that count their events

The first handler adds each staged event to the totals of the unit of work, and nothing else touches
these. So a unit that was made by dispatching events counts exactly what it stages, unless it holds
the record of an event that could not be added.
-/

namespace Referral

/-- The record says that an event could not be added to totals. -/
def Failure.Uncounted (f : Failure) : Prop := f.origin = .handler aggregatesHandler.name

instance (f : Failure) : Decidable f.Uncounted := inferInstanceAs (Decidable (f.origin = _))

namespace WorkUnit

/-- The totals of the unit are those of the staged events, unless the unit says that one of them
could not be added. -/
def Counts (u : WorkUnit) : Prop :=
  (∀ f ∈ u.failures, ¬ f.Uncounted) → u.delta.Tallies .all u.events

/-- Another unit has the same events and totals, and the same records of events that could not be
added. -/
structure SameCount (u u' : WorkUnit) : Prop where
  events : u'.events = u.events
  delta : u'.delta = u.delta
  uncounted : ∀ f : Failure, f.Uncounted → (f ∈ u'.failures ↔ f ∈ u.failures)

variable {u u' u'' : WorkUnit}

theorem counts_start (c : Context) : (start c).Counts := fun _ => Book.tallies_empty _

namespace SameCount

theorem refl (u : WorkUnit) : u.SameCount u := ⟨rfl, rfl, fun _ _ => Iff.rfl⟩

theorem trans (h : u.SameCount u') (h' : u'.SameCount u'') : u.SameCount u'' :=
  ⟨h'.events.trans h.events, h'.delta.trans h.delta,
    fun f hf => (h'.uncounted f hf).trans (h.uncounted f hf)⟩

/-- A further record, of something else. -/
theorem recordFailure (u : WorkUnit) {f : Failure} (hf : ¬ f.Uncounted) :
    u.SameCount (u.recordFailure f) := by
  refine ⟨rfl, rfl, fun f' hf' => ?_⟩
  simp only [WorkUnit.recordFailure, List.mem_append, List.mem_singleton]
  constructor
  · rintro (h | rfl)
    · exact h
    · exact (hf hf').elim
  · exact .inl

theorem counts (h : u.SameCount u') (hu : u.Counts) : u'.Counts := by
  intro hnone
  rw [h.events, h.delta]
  exact hu fun f hf huncounted => hnone f ((h.uncounted f huncounted).mpr hf) huncounted

end SameCount

end WorkUnit

/-! ## Effects and rules -/

namespace Staging

open WorkUnit (SameCount)

variable {config : Config} {e : Event} {depth : Depth} {allowed : RuleId → Effect → Prop}
  {s s' : Staging} {out new : List Event}

theorem sameCount_recordError (s : Staging) (event : Option EventId) (program : ProgramId)
    (promoter : PromoterId) (rule : Option RuleId) (effect : Option Effect) (origin : Origin)
    (error : Error) (depth : Depth) (horigin : origin ≠ .handler aggregatesHandler.name) :
    s.unit.SameCount (s.recordError event program promoter rule effect origin error depth).unit :=
  SameCount.recordFailure _ horigin

theorem sameCount_demoteTransitions (s : Staging) (error : Error) (now : Instant) :
    s.unit.SameCount (s.demoteTransitions error now).unit := by
  obtain ⟨records, ids, hframe, -, hrecords⟩ := s.demoteTransitions_frame error now
  have hcounted : ∀ f ∈ records, ¬ f.Uncounted := by
    intro f hf
    obtain ⟨t, -, id, rfl⟩ := hrecords.exists_move hf
    simp only [Failure.Uncounted, demoted, Failure.ofError]
    split <;> simp
  rw [hframe]
  refine ⟨rfl, rfl, fun f huncounted => ⟨fun hf => ?_, List.mem_append_left _⟩⟩
  rcases List.mem_append.mp hf with hf | hf
  · exact hf
  · exact (hcounted f hf huncounted).elim

theorem Does.sameCount (h : s.Does config e depth allowed new s') :
    s.unit.SameCount s'.unit := by
  cases h with
  | permit hpermit =>
    obtain ⟨held, permits, rfl⟩ := ensurePermit?_frame hpermit
    exact ⟨rfl, rfl, fun _ _ => Iff.rfl⟩
  | mark => exact ⟨rfl, rfl, fun _ _ => Iff.rfl⟩
  | reward => exact ⟨rfl, rfl, fun _ _ => Iff.rfl⟩
  | move => exact ⟨rfl, rfl, fun _ _ => Iff.rfl⟩
  | refuse => exact sameCount_recordError _ _ _ _ _ _ _ _ _ (by simp)
  | fail =>
    exact sameCount_recordError _ _ _ _ _ _ _ _ _ (by simp [rulesHandler, aggregatesHandler])

theorem Handles.sameCount (h : s.Handles config e depth allowed out s') :
    s.unit.SameCount s'.unit :=
  h.keeps' (I := fun s' => s.unit.SameCount s'.unit) (fun step h => h.trans step.sameCount)
    (.refl _)

/-- An event that is staged is counted at once, or it is noted that it could not be. -/
theorem Enters.counts (h : s.Enters e depth s') (hs : s.unit.Counts) : s'.unit.Counts := by
  cases h with
  | counted hadd => exact fun hnone => (hs hnone).add hadd
  | uncounted =>
    exact fun hnone => (hnone _ (List.mem_append_right _ List.mem_cons_self) rfl).elim

theorem Takes.counts (h : s.Takes config e depth out s') (hs : s.unit.Counts) :
    s'.unit.Counts := by
  cases h with
  | reject => exact (sameCount_recordError _ _ _ _ _ _ _ _ _ (by simp)).counts hs
  | skip => exact hs
  | handle _ _ enters handles => exact handles.sameCount.counts (enters.counts hs)

end Staging

/-! ## Cascades -/

namespace Cascade

open WorkUnit (SameCount)

/-- Each record of an event that could not be added was there before, or the report names the
handler that failed. -/
def Blames (u : WorkUnit) (c : Cascade) : Prop :=
  ∀ f ∈ c.staging.unit.failures, f.Uncounted →
    f ∈ u.failures ∨ c.report.failedIn aggregatesHandler.name = true

theorem Blames.of_sameCount {u : WorkUnit} {c c' : Cascade} (h : c.Blames u)
    (hunit : c.staging.unit.SameCount c'.staging.unit)
    (hreport : c.report.handlerFailures ⊆ c'.report.handlerFailures) : c'.Blames u := by
  intro f hf huncounted
  rcases h f ((hunit.uncounted f huncounted).mp hf) huncounted with h | h
  · exact .inl h
  · obtain ⟨failure, hfailure, hname⟩ := List.any_eq_true.mp h
    exact .inr (List.any_eq_true.mpr ⟨failure, hreport hfailure, hname⟩)

theorem handlerFailures_callHandler (c : Cascade) (position : ℕ) (h : Handler) (call : Call) :
    c.report.handlerFailures ⊆ (c.callHandler position h call).1.report.handlerFailures := by
  unfold callHandler
  split
  rename_i answer staging _
  cases answer with
  | ok children => exact fun _ h => h
  | error error => exact List.subset_append_left _ _

theorem blames_callHandler_aggregates {u : WorkUnit} {c : Cascade} {position : ℕ} {call : Call}
    (h : c.Blames u) : (c.callHandler position aggregatesHandler call).1.Blames u := by
  unfold callHandler
  simp only [aggregatesHandler]
  cases c.staging.unit.delta.add call.event with
  | ok delta => exact h
  | error error =>
    exact fun f _ _ => .inr (List.any_eq_true.mpr
      ⟨_, List.mem_append_right _ List.mem_cons_self, by simp [aggregatesHandler]⟩)

theorem blames_handleEvent {s : Service} (hbuiltIn : s.extra = []) {u : WorkUnit} {c : Cascade}
    (depth : Depth) (e : Event) (h : c.Blames u) :
    (handleEvent s.dispatcher depth c e).1.Blames u := by
  unfold handleEvent
  by_cases hdeep : s.dispatcher.maxDepth < depth
  · rw [if_pos hdeep]
    exact h.of_sameCount (Staging.sameCount_recordError _ _ _ _ _ _ _ _ _ (by simp)) fun _ h => h
  rw [if_neg hdeep]
  cases hstage : c.staging.unit.stageEvent? e with
  | none => exact h
  | some unit =>
    have haccept : (c.accept unit depth e).Blames u := by
      unfold WorkUnit.stageEvent? at hstage
      split at hstage
      · cases hstage
      · cases hstage
        exact h
    simp only [Service.dispatcher, hbuiltIn, callAll]
    exact (blames_callHandler_aggregates haccept).of_sameCount
      (handles_callHandler _ _ _ _).sameCount (handlerFailures_callHandler _ _ _ _)

end Cascade

/-- What is dispatched to the built-in handlers is counted. -/
theorem Service.counts_dispatchAt {s : Service} (hbuiltIn : s.extra = []) (depth : Depth)
    (e : Event) {staging : Staging} (calls : List CallRecord) (h : staging.unit.Counts) :
    (s.dispatcher.dispatchAt depth e staging calls).staging.unit.Counts :=
  Cascade.run_keeps (I := fun c _ => c.staging.unit.Counts)
    (fun c depth e _ h => (Cascade.takes_handleEvent hbuiltIn c depth e).counts h) h

/-- A dispatch in which the handler of totals does not fail makes no record that says so. -/
theorem Service.blames_dispatchAt {s : Service} (hbuiltIn : s.extra = []) (depth : Depth)
    (e : Event) (staging : Staging) (calls : List CallRecord) :
    (s.dispatcher.dispatchAt depth e staging calls).Blames staging.unit :=
  Cascade.run_keeps (I := fun c _ => c.Blames staging.unit)
    (fun _ depth e _ h => Cascade.blames_handleEvent hbuiltIn depth e h) fun _ hf _ => .inl hf

end Referral
