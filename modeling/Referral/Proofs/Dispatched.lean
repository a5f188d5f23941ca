import Referral.Proofs.Cascade
import Referral.Proofs.Evaluating
import Referral.Proofs.Handling

/-!
# What is staged for an event

Whatever the rules are, all that a dispatch stages belongs to the promoter and the link of the event
that it began with: the events that follow, the totals, the permit and the moves, each of which
starts where the one before it led. The events that follow have new names.
-/

namespace Referral

/-- All keys of a book are those of one event. -/
structure Book.Confined (b : Book) (e : Event) : Prop where
  promoters : ∀ k v, b.promoters.get? k = some v → k = e.promoterKey
  promoterDays : ∀ k v, b.promoterDays.get? k = some v → k.1 = e.promoterKey
  links : ∀ k v, b.links.get? k = some v → k = e.linkKey
  linkDays : ∀ k v, b.linkDays.get? k = some v → k.1 = e.linkKey

namespace Book

variable {b b' : Book} {e g : Event}

theorem confined_empty (e : Event) : (∅ : Book).Confined e where
  promoters _ _ h := by cases h
  promoterDays _ _ h := by cases h
  links _ _ h := by cases h
  linkDays _ _ h := by cases h

/-- An addition to a map leaves the other keys as they were. -/
theorem get?_of_add? {κ ν : Type} [Ranked κ] [DecidableEq κ] [Summable ν] {m m' : OrderedMap κ ν}
    {k j : κ} {v w : ν} (hadd : m.add? k v = some m') (hget : m'.get? j = some w) :
    j = k ∨ m.get? j = some w := by
  obtain ⟨sum, -, rfl⟩ := Option.map_eq_some_iff.mp hadd
  rw [OrderedMap.get?_insert] at hget
  by_cases hj : j = k
  · exact .inl hj
  · rw [if_neg hj] at hget
    exact .inr hget

theorem Confined.add (h : b.Confined e) (hg : g.linkKey = e.linkKey) (hadd : b.add g = .ok b') :
    b'.Confined e := by
  obtain ⟨h₁, h₂, h₃, h₄⟩ := add?_eq_some.mp (add_eq_ok.mp hadd)
  have hpromoter : g.promoterKey = e.promoterKey := congrArg LinkKey.owner hg
  constructor
  · intro k v hk
    rcases get?_of_add? h₁ hk with rfl | hk
    · exact hpromoter
    · exact h.promoters k v hk
  · intro k v hk
    rcases get?_of_add? h₂ hk with rfl | hk
    · exact hpromoter
    · exact h.promoterDays k v hk
  · intro k v hk
    rcases get?_of_add? h₃ hk with rfl | hk
    · exact hg
    · exact h.links k v hk
  · intro k v hk
    rcases get?_of_add? h₄ hk with rfl | hk
    · exact hg
    · exact h.linkDays k v hk

end Book

namespace Staging

/-- The moves that are staged. -/
def moves (s : Staging) : List Transition := s.unit.transitions.map (·.transition)

/-- All that is staged, with the events that are still to come, belongs to the event `root`, which
was dispatched on a fresh unit when the next number was `first`. -/
structure Belongs (store : Store) (root : Event) (first : ℕ) (s : Staging) (queue : List Event) :
    Prop where
  key : s.unit.context.key = root.promoterKey
  circle : s.unit.context.currentCircle = store.circleAfter root.promoterKey s.moves
  movers : ∀ t ∈ s.moves, (⟨t.program, t.promoter⟩ : PromoterKey) = root.promoterKey
  unbroken : store.staleMove? [] s.moves = none
  resolved : s.unit.resolved = []
  attempted : s.unit.attempted = []
  links : ∀ g ∈ s.unit.events ++ queue, g.linkKey = root.linkKey
  names : ∀ g ∈ s.unit.events ++ queue,
    g.id = root.id ∨ ∃ n, first ≤ n ∧ n < s.ids.next ∧ g.id = Id.ofNat n
  numbers : first ≤ s.ids.next
  delta : s.unit.delta.Confined root
  permits : ∀ k ∈ s.unit.permits, k = root.promoterKey

namespace Belongs

variable {store : Store} {root e : Event} {first : ℕ} {s s' : Staging} {queue new : List Event}
  {config : Config} {depth : Depth} {allowed : RuleId → Effect → Prop}

theorem start (store : Store) (root : Event) (permits : Permits) (ids : IdSupply) (now : Instant) :
    Belongs store root ids.next ⟨.start (store.context root.promoterKey), permits, ids, now⟩
      [root] where
  key := rfl
  circle := store.currentCircle_context _
  movers := by simp [moves, WorkUnit.start]
  unbroken := rfl
  resolved := rfl
  attempted := rfl
  links := by simp [WorkUnit.start]
  names := by simp [WorkUnit.start]
  numbers := le_refl _
  delta := Book.confined_empty root
  permits := by simp [WorkUnit.start]

/-- More numbers may be used up for something else, and events may be dropped. -/
theorem weaken (h : Belongs store root first s queue) {ids : IdSupply} {failures : List Failure}
    {queue' : List Event} (hids : s.ids.next ≤ ids.next)
    (hqueue : ∀ g ∈ s.unit.events ++ queue', g ∈ s.unit.events ++ queue) :
    Belongs store root first { s with unit := { s.unit with failures }, ids } queue' := by
  refine { h with links := fun g hg => h.links g (hqueue g hg), names := ?_, numbers := ?_ }
  · intro g hg
    rcases h.names g (hqueue g hg) with hroot | ⟨n, hfirst, hlt, hn⟩
    · exact .inl hroot
    · exact .inr ⟨n, hfirst, hlt.trans_le hids, hn⟩
  · exact h.numbers.trans hids

theorem recordError (h : Belongs store root first s queue) (event : Option EventId)
    (program : ProgramId) (promoter : PromoterId) (rule : Option RuleId) (effect : Option Effect)
    (origin : Origin) (error : Error) (depth : Depth) :
    Belongs store root first
      (s.recordError event program promoter rule effect origin error depth) queue :=
  h.weaken (Nat.le_succ _) fun _ hg => hg

/-- A commission is earned for an event that belongs to the root. -/
theorem reward (h : Belongs store root first s queue) (he : e.linkKey = root.linkKey)
    (rule : RuleId) (spec : CommissionSpec) (amount : Money) :
    Belongs store root first (s.reward (s.earned e rule spec amount))
      (queue ++ [(s.earned e rule spec amount).event (s.ids.skip 1).peek e]) := by
  have hnumbers := h.numbers
  have hlater : s.ids.next ≤ (s.ids.skip 2).next := Nat.le_add_right _ _
  refine { h with links := ?_, names := ?_, numbers := hnumbers.trans hlater }
  · intro g hg
    rw [← List.append_assoc] at hg
    rcases List.mem_append.mp hg with hg | hg
    · exact h.links g hg
    · rw [List.mem_singleton.mp hg]
      exact he
  · intro g hg
    rw [← List.append_assoc] at hg
    rcases List.mem_append.mp hg with hg | hg
    · rcases h.names g hg with hroot | ⟨n, hfirst, hlt, hn⟩
      · exact .inl hroot
      · exact .inr ⟨n, hfirst, hlt.trans_le hlater, hn⟩
    · rw [List.mem_singleton.mp hg]
      refine .inr ⟨s.ids.next + 1, by omega, ?_, rfl⟩
      simp [Staging.reward, IdSupply.skip]

/-- The promoter moves on from the circle in force. -/
theorem move (h : Belongs store root first s queue) (he : e.linkKey = root.linkKey)
    (rule : RuleId) (depth : Depth) (target : CircleId) :
    Belongs store root first (s.mapUnit fun u => u.stageTransition (s.moveTo e rule depth target))
      queue := by
  have hkey : (⟨e.program, e.promoter⟩ : PromoterKey) = root.promoterKey :=
    congrArg LinkKey.owner he
  let t : Transition :=
    ⟨e.program, e.promoter, s.unit.context.currentCircle, target, e.occurredAt⟩
  have hmoves : (s.mapUnit fun u => u.stageTransition (s.moveTo e rule depth target)).moves =
      s.moves ++ [t] := by
    simp [moves, mapUnit, WorkUnit.stageTransition, moveTo, t]
  have hafter : store.circleAfter root.promoterKey (s.moves ++ [t]) = some target := by
    rw [← hkey]
    simp [Store.circleAfter, t]
  have hsource : store.circleAfter ⟨t.program, t.promoter⟩ ([] ++ s.moves) = t.source := by
    rw [List.nil_append, hkey]
    exact h.circle.symm
  refine { h with circle := ?_, movers := ?_, unbroken := ?_ }
  · rw [hmoves, hafter]
    rfl
  · intro t' ht'
    rw [hmoves] at ht'
    rcases List.mem_append.mp ht' with ht' | ht'
    · exact h.movers t' ht'
    · rw [List.mem_singleton.mp ht']
      exact hkey
  · rw [hmoves]
    exact store.staleMove?_append h.unbroken hsource

theorem does (he : e.linkKey = root.linkKey) (step : s.Does config e depth allowed new s')
    (h : Belongs store root first s queue) : Belongs store root first s' (queue ++ new) := by
  cases step with
  | mark =>
    rw [List.append_nil]
    exact { h with }
  | permit hpermit =>
    rw [List.append_nil]
    unfold ensurePermit? at hpermit
    split at hpermit
    · cases hpermit
      exact h
    · obtain ⟨permits, -, rfl⟩ := Option.map_eq_some_iff.mp hpermit
      have hkey : e.promoterKey = root.promoterKey := congrArg LinkKey.owner he
      refine { h with permits := fun k hk => ?_ }
      rcases List.mem_append.mp hk with hk | hk
      · exact h.permits k hk
      · rw [List.mem_singleton.mp hk, hkey]
  | reward => exact h.reward he _ _ _
  | move =>
    rw [List.append_nil]
    exact h.move he _ _ _
  | refuse =>
    rw [List.append_nil]
    exact h.recordError _ _ _ _ _ _ _ _
  | fail =>
    rw [List.append_nil]
    exact h.recordError _ _ _ _ _ _ _ _

theorem enters (h : Belongs store root first s (e :: queue)) (henters : s.Enters e depth s') :
    Belongs store root first s' queue := by
  have hall : ∀ g ∈ s.unit.events ++ [e] ++ queue, g ∈ s.unit.events ++ e :: queue := by
    intro g hg
    rwa [List.append_assoc] at hg
  have hstaged : Belongs store root first
      { s with unit := { s.unit with events := s.unit.events ++ [e] } } queue :=
    { h with
      links := fun g hg => h.links g (hall g hg)
      names := fun g hg => h.names g (hall g hg) }
  cases henters with
  | counted hadd =>
    exact { hstaged with delta := h.delta.add (h.links e (by simp)) hadd }
  | uncounted => exact hstaged.recordError _ _ _ _ _ _ _ _

/-- What a cascade does with the next event keeps everything in the hands of the root. -/
theorem takes (h : Belongs store root first s (e :: queue))
    (htakes : s.Takes config e depth new s') : Belongs store root first s' (queue ++ new) := by
  have hrest : ∀ g ∈ s.unit.events ++ queue, g ∈ s.unit.events ++ e :: queue := by
    intro g hg
    rcases List.mem_append.mp hg with hg | hg
    · exact List.mem_append_left _ hg
    · exact List.mem_append_right _ (List.mem_cons_of_mem _ hg)
  cases htakes with
  | reject =>
    rw [List.append_nil]
    exact h.weaken (Nat.le_succ _) hrest
  | skip =>
    rw [List.append_nil]
    exact h.weaken (le_refl _) hrest
  | handle _ _ henters hhandles =>
    have he : e.linkKey = root.linkKey := h.links e (by simp)
    exact hhandles.keeps (does he) _ (h.enters henters)

end Belongs

/-- Staged events stay staged. -/
theorem Does.events_eq {config : Config} {e : Event} {depth : Depth}
    {allowed : RuleId → Effect → Prop} {s s' : Staging} {new : List Event}
    (h : s.Does config e depth allowed new s') : s'.unit.events = s.unit.events := by
  cases h with
  | permit hpermit =>
    obtain ⟨held, permits, rfl⟩ := ensurePermit?_frame hpermit
    rfl
  | _ => rfl

theorem Handles.events_eq {config : Config} {e : Event} {depth : Depth}
    {allowed : RuleId → Effect → Prop} {s s' : Staging} {new : List Event}
    (h : s.Handles config e depth allowed new s') : s'.unit.events = s.unit.events :=
  h.keeps' (I := fun s' => s'.unit.events = s.unit.events)
    (fun step h => step.events_eq.trans h) rfl

theorem Takes.events_eq {config : Config} {e : Event} {depth : Depth} {s s' : Staging}
    {new : List Event} (h : s.Takes config e depth new s') :
    s'.unit.events = s.unit.events ∨ s'.unit.events = s.unit.events ++ [e] := by
  cases h with
  | reject => exact .inl rfl
  | skip => exact .inl rfl
  | @handle _ s₁ _ _ _ henters hhandles =>
    have hentered : s₁.unit.events = s.unit.events ++ [e] := by cases henters <;> rfl
    exact .inr (hhandles.events_eq.trans hentered)

/-- An event that is neither too deep nor staged is staged. -/
theorem Takes.events_eq_append {config : Config} {e : Event} {depth : Depth} {s s' : Staging}
    {new : List Event} (h : s.Takes config e depth new s') (hroom : depth ≤ config.maxDepth)
    (hnew : s.unit.isStaged e.id = false) : s'.unit.events = s.unit.events ++ [e] := by
  cases h with
  | reject deep => exact absurd hroom (not_le.mpr deep)
  | skip staged => simp [hnew] at staged
  | @handle _ s₁ _ _ _ henters hhandles =>
    have hentered : s₁.unit.events = s.unit.events ++ [e] := by cases henters <;> rfl
    exact hhandles.events_eq.trans hentered

end Staging

/-! ## Dispatches -/

namespace Dispatcher

variable {d : Dispatcher} {depth : Depth} {e : Event} {staging : Staging}
  {calls : List CallRecord}

theorem levels_pos (d : Dispatcher) (depth : Depth) : ∃ n, d.levels depth = n + 2 := by
  refine ⟨d.levels depth - 2, ?_⟩
  unfold levels
  split <;> omega

/-- What holds after the first event, and is kept by the handling of each that follows, holds of the
whole dispatch. -/
theorem dispatchAt_keeps {I : Cascade → List Event → Prop}
    (hfirst : I (Cascade.handleEvent d depth ⟨staging, calls, .start⟩ e).1
      (Cascade.handleEvent d depth ⟨staging, calls, .start⟩ e).2)
    (hevent : ∀ c depth e rest, I c (e :: rest) →
      I (Cascade.handleEvent d depth c e).1 (rest ++ (Cascade.handleEvent d depth c e).2)) :
    ∃ left, I (d.dispatchAt depth e staging calls) left := by
  obtain ⟨n, hn⟩ := d.levels_pos depth
  have hlevel : Cascade.handleLevel d depth ⟨staging, calls, .start⟩ [e] =
      Cascade.handleEvent d depth ⟨staging, calls, .start⟩ e := by
    simp only [Cascade.handleLevel, List.append_nil]
  rw [dispatchAt, hn, Cascade.run, hlevel]
  exact ⟨_, Cascade.run_keeps hevent hfirst⟩

end Dispatcher

namespace Service

variable {s : Service} {w : World} {e : Event}

/-- The dispatch of an event on a fresh unit of work at some time. -/
def dispatched (s : Service) (w : World) (e : Event) (now : Instant) : Cascade :=
  s.dispatcher.dispatchAt 0 e ⟨.start (w.store.context e.promoterKey), w.permits, w.ids, now⟩
    w.calls

/-- A dispatch stages the event first, and then what belongs to it. -/
theorem belongs_dispatched (hbuiltIn : s.extra = []) (w : World) (e : Event) (now : Instant) :
    (∃ following, (s.dispatched w e now).staging.unit.events = e :: following) ∧
      (s.dispatched w e now).staging.Belongs w.store e w.ids.next [] := by
  let c₀ : Cascade :=
    ⟨⟨.start (w.store.context e.promoterKey), w.permits, w.ids, now⟩, w.calls, .start⟩
  let I : Cascade → List Event → Prop := fun c queue =>
    (∃ following, c.staging.unit.events = e :: following) ∧
      c.staging.Belongs w.store e w.ids.next queue
  have hstart : c₀.staging.Belongs w.store e w.ids.next [e] :=
    .start w.store e w.permits w.ids now
  have hfirst : I (Cascade.handleEvent s.dispatcher 0 c₀ e).1
      (Cascade.handleEvent s.dispatcher 0 c₀ e).2 := by
    have htakes := Cascade.takes_handleEvent hbuiltIn c₀ 0 e
    exact ⟨⟨[], htakes.events_eq_append (Fin.zero_le _) rfl⟩, hstart.takes htakes⟩
  obtain ⟨left, hstaged, hbelongs⟩ := Dispatcher.dispatchAt_keeps hfirst
    fun c depth g rest ⟨⟨following, hstaged⟩, hbelongs⟩ => by
      have htakes := Cascade.takes_handleEvent hbuiltIn c depth g
      refine ⟨?_, hbelongs.takes htakes⟩
      rcases htakes.events_eq with h | h
      · exact ⟨following, h.trans hstaged⟩
      · exact ⟨following ++ [g], by rw [h, hstaged, List.cons_append]⟩
  exact ⟨hstaged, hbelongs.weaken (le_refl _) fun g hg =>
    List.mem_append_left _ (by simpa using hg)⟩

end Service

end Referral
