import Mathlib.Logic.Relation
import Referral.Proofs.Fleet
import Referral.Proofs.Handling
import Referral.Script

/-!
# Sound logs

Units of work are changed by their own operations only, and these never stage two events under one
name. A commit refuses every name of the log. So the entries of a log have distinct names whatever
services and others have done to the store, and the index gives the place of each.
-/

namespace Referral

/-! ## Units of work and their operations -/

namespace WorkUnit

/-- One operation on a unit of work. Its context and its sums are open to any change. -/
inductive Edit (u : WorkUnit) : WorkUnit → Prop
  | stageEvent {e : Event} {u' : WorkUnit} (h : u.stageEvent? e = some u') : Edit u u'
  | markEvaluated (id : EventId) : Edit u { u with evaluated := u.evaluated ++ [id] }
  | stageCommission (c : Commission) : Edit u (u.stageCommission c)
  | stageTransition (t : StagedTransition) : Edit u (u.stageTransition t)
  | recordFailure (f : Failure) : Edit u (u.recordFailure f)
  | resolveFailure (id : FailureId) : Edit u (u.resolveFailure id)
  | recordAttempt (id : FailureId) : Edit u (u.recordAttempt id)
  | holdPermit (k : PromoterKey) : Edit u (u.holdPermit k)
  | demoteTransitions (permits : Permits) (ids : IdSupply) (error : Error) (now : Instant) :
    Edit u ((⟨u, permits, ids, now⟩ : Staging).demoteTransitions error now).unit
  | setContext (context : Context) : Edit u { u with context }
  | setDelta (delta : Book) : Edit u { u with delta }

/-- Any number of operations, one after the other. -/
abbrev Edits : WorkUnit → WorkUnit → Prop := Relation.ReflTransGen Edit

/-- A unit of work that was put together by its operations. -/
def Built (u : WorkUnit) : Prop := ∃ c, (start c).Edits u

variable {u u' : WorkUnit}

theorem built_start (c : Context) : (start c).Built := ⟨c, .refl⟩

theorem Built.edits (hu : u.Built) (h : u.Edits u') : u'.Built := by
  obtain ⟨c, hc⟩ := hu
  exact ⟨c, hc.trans h⟩

theorem stageEvent?_eq_some {e : Event} (h : u.stageEvent? e = some u') :
    u.isStaged e.id = false ∧ u' = { u with events := u.events ++ [e] } := by
  unfold stageEvent? at h
  split at h
  · cases h
  · rename_i hnew
    cases h
    exact ⟨by simpa using hnew, rfl⟩

/-- An operation stages nothing, or an event under a name that is new to the unit. -/
theorem Edit.events_eq (h : u.Edit u') : u'.events = u.events ∨
    ∃ e, u.isStaged e.id = false ∧ u'.events = u.events ++ [e] := by
  cases h with
  | stageEvent h =>
    obtain ⟨hnew, rfl⟩ := stageEvent?_eq_some h
    exact .inr ⟨_, hnew, rfl⟩
  | demoteTransitions permits ids error now =>
    obtain ⟨records, ids', heq, -⟩ :=
      (⟨u, permits, ids, now⟩ : Staging).demoteTransitions_frame error now
    rw [heq]
    exact .inl rfl
  | _ => exact .inl rfl

/-- What is staged stays staged. -/
theorem Edits.events (h : u.Edits u') : u.events <+: u'.events := by
  induction h with
  | refl => exact List.prefix_refl _
  | tail _ hedit ih =>
    rcases hedit.events_eq with hsame | ⟨e, -, happend⟩
    · rwa [hsame]
    · rw [happend]
      exact ih.trans (List.prefix_append _ _)

/-- No two events are staged under one name. -/
theorem Built.nodup (h : u.Built) : (u.events.map (·.id)).Nodup := by
  obtain ⟨c, hc⟩ := h
  induction hc with
  | refl => exact List.nodup_nil
  | @tail u₁ _ _ hedit ih =>
    rcases hedit.events_eq with hsame | ⟨e, hnew, happend⟩
    · rwa [hsame]
    · have hnot : e.id ∉ u₁.events.map (·.id) := by
        rintro hmem
        obtain ⟨g, hg, hid⟩ := List.mem_map.mp hmem
        rw [isStaged, List.any_eq_false] at hnew
        exact hnew g hg (decide_eq_true hid)
      rw [happend, List.map_append, List.map_singleton]
      exact List.nodup_append.mpr ⟨ih, List.nodup_singleton _, by
        rintro a ha b hb rfl
        exact hnot (List.mem_singleton.mp hb ▸ ha)⟩

end WorkUnit

/-! ## Sound logs -/

namespace Store

/-- Each entry of the log has its place as its number and a name of its own, and the index gives the
place of each name in the log and of no other. -/
structure Sound (s : Store) : Prop where
  numbered : s.Numbered
  distinct : (s.facts.map (·.id)).Nodup
  index : ∀ id i, s.index.get? id = some i ↔ s.log[i]?.map (·.event.id) = some id

variable {s s' : Store}

theorem sound_empty : empty.Sound where
  numbered _ _ h := by simp [empty] at h
  distinct := List.nodup_nil
  index id i := by
    have hnone : empty.index.get? id = none := rfl
    rw [hnone]
    simp [empty]

theorem getElem?_log_id (s : Store) (i : ℕ) :
    s.log[i]?.map (·.event.id) = (s.facts.map (·.id))[i]? := by
  simp [facts, Function.comp_def]

theorem Sound.located (h : s.Sound) : s.Located := fun id i => (h.index id i).mp

theorem Sound.indexed (h : s.Sound) : s.Indexed := by
  intro id
  rw [hasEvent, OrderedMap.contains, Option.isSome_iff_exists, List.mem_iff_getElem?]
  simp only [h.index, getElem?_log_id]

/-- A numbered log of distinct names is sound if the index knows its names and their places. -/
theorem sound_of_nodup (hnumbered : s.Numbered) (hindexed : s.Indexed) (hlocated : s.Located)
    (hdistinct : (s.facts.map (·.id)).Nodup) : s.Sound := by
  refine ⟨hnumbered, hdistinct, fun id i => ⟨hlocated id i, fun hi => ?_⟩⟩
  rw [getElem?_log_id] at hi
  obtain ⟨j, hj⟩ := Option.isSome_iff_exists.mp ((hindexed id).mpr (List.mem_of_getElem? hi))
  have hsame := hlocated id j hj
  rw [getElem?_log_id] at hsame
  have hlt := (List.getElem?_eq_some_iff.mp hi).1
  rw [hj, (List.getElem?_inj hlt hdistinct).mp (hi.trans hsame.symm)]

/-- One change of a store: a unit of work is committed, or refused, or something else changes than
the log and its index, such as totals, rules and circles. -/
inductive Grows (s : Store) : Store → Prop
  | commit {u : WorkUnit} (built : u.Built) (now : Instant) : Grows s (s.commit u now).2
  | alter {s' : Store} (log : s'.log = s.log) (index : s'.index = s.index) : Grows s s'

theorem Grows.later (h : s.Grows s') : s.Later s' := by
  cases h with
  | commit => exact .commit _ _ _
  | alter log index => exact .of_log_eq log index

/-- A unit that is committed brings names that are new to the log. -/
theorem Sound.grows (hs : s.Sound) (h : s.Grows s') : s'.Sound := by
  have hlater := h.later
  refine sound_of_nodup (hlater.numbered hs.numbered) (hlater.indexed hs.indexed)
    (hlater.located hs.located) ?_
  cases h with
  | alter log index =>
    rw [facts, log]
    exact hs.distinct
  | @commit u built now =>
    rcases s.commit_store u now with ⟨n, hstore⟩ | ⟨hcheck, book, -, hstore⟩
    · rw [hstore]
      exact hs.distinct
    · rw [hstore, facts_write, List.map_append]
      refine List.nodup_append.mpr ⟨hs.distinct, built.nodup, ?_⟩
      rintro id hold _ hnew rfl
      obtain ⟨e, he, rfl⟩ := List.mem_map.mp hnew
      have hknown := (hs.indexed e.id).mpr hold
      rw [hasEvent_eq_false_of_check hcheck he] at hknown
      cases hknown

end Store

/-! ## What handlers make of units of work -/

namespace Staging

variable {config : Config} {e : Event} {depth : Depth} {allowed : RuleId → Effect → Prop}
  {s s' s'' : Staging} {new : List Event}

/-- The unit of work is changed by its operations only, and identifiers are only ever used up. -/
structure Edits (s s' : Staging) : Prop where
  ids : s.ids.next ≤ s'.ids.next
  unit : s.unit.Edits s'.unit

theorem Edits.refl (s : Staging) : s.Edits s := ⟨le_rfl, .refl⟩

theorem Edits.trans (h : s.Edits s') (h' : s'.Edits s'') : s.Edits s'' :=
  ⟨h.ids.trans h'.ids, h.unit.trans h'.unit⟩

theorem edits_demoteTransitions (s : Staging) (error : Error) :
    s.Edits (s.demoteTransitions error s.now) := by
  obtain ⟨records, ids, heq, hids, -⟩ := s.demoteTransitions_frame error s.now
  exact ⟨by rw [heq]; exact hids, .single (.demoteTransitions s.permits s.ids error s.now)⟩

theorem Does.edits (h : s.Does config e depth allowed new s') : s.Edits s' := by
  refine ⟨h.ids_le, ?_⟩
  cases h with
  | mark => exact .single (.markEvaluated _)
  | permit hpermit =>
    unfold ensurePermit? at hpermit
    split at hpermit
    · cases hpermit
      exact .refl
    · obtain ⟨permits, -, rfl⟩ := Option.map_eq_some_iff.mp hpermit
      exact .single (.holdPermit _)
  | reward => exact .single (.stageCommission _)
  | move => exact .single (.stageTransition _)
  | refuse => exact .single (.recordFailure _)
  | fail => exact .single (.recordFailure _)

theorem Handles.edits (h : s.Handles config e depth allowed new s') : s.Edits s' :=
  h.keeps' (I := s.Edits) (fun step hs => hs.trans step.edits) (.refl s)

end Staging

/-- A handler that changes units of work by their operations only. -/
def Handler.Fair (h : Handler) : Prop :=
  ∀ (calls : List Call) (c : Call) (s : Staging), s.Edits (h.react calls c s).2

theorem fair_aggregatesHandler : aggregatesHandler.Fair := by
  intro calls c s
  simp only [aggregatesHandler]
  split
  · exact ⟨le_rfl, .single (.setDelta _)⟩
  · exact .refl s

theorem fair_rulesHandler (config : Config) : (rulesHandler config).Fair := fun calls c s =>
  (s.handles_react config calls c).edits

/-- The handlers that scripts describe are fair. -/
theorem Script.fair_handler (script : Script) : script.handler.Fair := by
  intro calls c s
  simp only [handler]
  split
  · rename_i r _
    cases hresponse : r.response with
    | echo count => exact ⟨Nat.le_add_right _ _, .refl⟩
    | _ => exact .refl s
  · exact .refl s

namespace Cascade

variable {d : Dispatcher} {s : Staging}

theorem ignoresRecords_edits (s : Staging) : IgnoresRecords s.Edits :=
  fun _ f hs => hs.trans ⟨Nat.le_succ _, .single (.recordFailure f)⟩

theorem isKeptBy_edits {h : Handler} (hfair : h.Fair) : IsKeptBy s.Edits h :=
  fun calls call _ hs => hs.trans (hfair calls call _)

theorem edits_stageEvent (s' : Staging) (e : Event) (unit : WorkUnit)
    (h : s'.unit.stageEvent? e = some unit) (hs : s.Edits s') : s.Edits { s' with unit } :=
  hs.trans ⟨le_rfl, .single (.stageEvent h)⟩

theorem edits_callHandler {h : Handler} (hfair : h.Fair) (c : Cascade) (position : ℕ)
    (call : Call) : c.staging.Edits (c.callHandler position h call).1.staging :=
  callHandler_keeps (ignoresRecords_edits _) (isKeptBy_edits hfair) c position call (.refl _)

theorem edits_callAll (call : Call) {hs : List Handler} (hfair : ∀ h ∈ hs, h.Fair) (c : Cascade)
    (position : ℕ) : c.staging.Edits (callAll call position hs c).1.staging :=
  callAll_keeps (ignoresRecords_edits _) call (fun h hh => isKeptBy_edits (hfair h hh)) c position
    (.refl _)

theorem edits_handleEvent (hfair : ∀ h ∈ d.handlers, h.Fair) (depth : Depth) (c : Cascade)
    (e : Event) : c.staging.Edits (handleEvent d depth c e).1.staging :=
  handleEvent_keeps (ignoresRecords_edits _) (fun h hh => isKeptBy_edits (hfair h hh))
    edits_stageEvent depth c e (.refl _)

end Cascade

theorem Dispatcher.edits_dispatchAt {d : Dispatcher} (hfair : ∀ h ∈ d.handlers, h.Fair)
    (depth : Depth) (e : Event) (staging : Staging) (calls : List CallRecord) :
    staging.Edits (d.dispatchAt depth e staging calls).staging :=
  d.keeps_dispatchAt (Cascade.ignoresRecords_edits _)
    (fun h hh => Cascade.isKeptBy_edits (hfair h hh)) Cascade.edits_stageEvent depth e staging calls
    (.refl _)

/-! ## Services and others -/

namespace Service

/-- All handlers change units of work by their operations only. -/
def Fair (s : Service) : Prop := ∀ h ∈ s.extra, h.Fair

variable {s : Service}

theorem fair_of_builtIn (hbuiltIn : s.extra = []) : s.Fair := by
  rw [Fair, hbuiltIn]
  exact List.forall_mem_nil _

theorem Fair.handlers (hs : s.Fair) : ∀ h ∈ s.dispatcher.handlers, h.Fair := by
  intro h hmem
  rcases List.mem_cons.mp hmem with rfl | hmem
  · exact fair_aggregatesHandler
  rcases List.mem_cons.mp hmem with rfl | hmem
  · exact fair_rulesHandler s.config
  · exact hs h hmem

/-- A service with fair handlers commits nothing but units that were put together by their
operations. -/
theorem maintains_sound (hs : s.Fair) :
    s.Maintains (fun _ => True) (fun w => w.store.Sound) fun _ u _ => u.Built where
  numbered h := h.numbered
  aside h _ hw := h ▸ hw
  disturb _ _ hw := hw.grows (.alter rfl rfl)
  putRule h hw := by
    obtain ⟨-, rules, rfl, -⟩ := Store.putRule_eq_ok h
    exact hw.grows (.alter rfl rfl)
  putCircle h hw := by
    rw [Store.putCircle_eq_ok h]
    exact hw.grows (.alter rfl rfl)
  assignCircle h hw := by
    rw [(Store.assignCircle_eq_ok h).2]
    exact hw.grows (.alter rfl rfl)
  swap _ h hw := by
    obtain ⟨book, -, -, rfl⟩ := Store.replaceTotals_eq_ok.mp h
    exact hw.grows (.alter rfl rfl)
  later _ _ hu := hu
  start _ _ := WorkUnit.built_start _
  enter _ _ _ := WorkUnit.built_start _
  dispatch {w u c cs staging} _ hu hstaging := by
    have hedits := Dispatcher.edits_dispatchAt hs.handlers c.depth c.event
      ⟨u, w.permits, w.ids, w.now⟩ w.calls
    rw [hstaging] at hedits
    exact ⟨hedits.ids, hu.edits hedits.unit⟩
  fire {w u f e rule effect answer staging} _ _ _ _ hu hfire := by
    have hedits := (Staging.handles_fire ⟨u, w.permits, w.ids, w.now⟩ s.config e f.depth rule effect
      (fun _ _ => True) trivial).edits
    rw [hfire] at hedits
    exact ⟨hedits.ids, fun _ _ => hu.edits hedits.unit⟩
  call {w u name position h f e calls answer staging} _ _ hu _ hfind hreact := by
    have hfair := hs.handlers h (Dispatcher.mem_of_find? hfind).1
    have hedits := hfair calls ⟨e, f.depth⟩ ⟨u, w.permits, w.ids, w.now⟩
    rw [hreact] at hedits
    exact ⟨hedits.ids, fun _ _ => hu.edits hedits.unit⟩
  demote {w u error staging} _ hu hstaging := by
    have hedits := (⟨u, w.permits, w.ids, w.now⟩ : Staging).edits_demoteTransitions error
    rw [hstaging] at hedits
    exact ⟨hedits.ids, hu.edits hedits.unit⟩
  resolve failure hu := hu.edits (.single (.resolveFailure failure))
  attempt failure hu := hu.edits (.single (.recordAttempt failure))
  move {_ u k _ _ t} _ hu :=
    hu.edits (.head (.holdPermit k) (.single (.stageTransition ⟨t, none, none, 0⟩)))
  commit {w _} hu hw := hw.grows (.commit hu w.now)

end Service

namespace Fleet

variable {f f' : Fleet} {I : World → Prop} {asked : Event → Prop}

/-- What can happen where services share a store with others: one of the services does what it may
do next, or somebody else changes the store. -/
inductive NextAmid (f : Fleet) : Fleet → Prop
  | member {f' : Fleet} (step : f.Next f') : NextAmid f f'
  | other {store : Store} (change : f.store.Grows store) : NextAmid f { f with store }

/-- The states that a run may go through. -/
abbrev ReachesAmid : Fleet → Fleet → Prop := Relation.ReflTransGen NextAmid

theorem Reaches.amid (h : f.Reaches f') : f.ReachesAmid f' := by
  induction h with
  | refl => exact .refl
  | tail _ step ih => exact ih.tail (.member step)

/-- A step of a member loses nothing that was logged. -/
theorem Holds.later (h : f.Holds asked I) (hstep : f.Next f') (hasked : ∀ e, f'.Asks e → asked e) :
    f.store.Later f'.store := by
  cases hstep with
  | @act before after s t t' hmembers step =>
    have hmem : (s, t) ∈ f.members := hmembers ▸ List.mem_append_right _ List.mem_cons_self
    obtain ⟨U, hs⟩ := h.maintains _ hmem
    exact (hs.next (h.shared _ rfl rfl)
      (fun e he => hasked e ⟨(s, t'), List.mem_append_right _ List.mem_cons_self, he⟩)
      (h.tasks _ hmem) step).1.later

/-- What holds of services still does after a change by others that keeps the invariant. -/
theorem Holds.other {store : Store} (h : f.Holds asked I) (hlater : f.store.Later store)
    (hstore : ∀ w : World, I { w with store := f.store, ids := f.ids } →
      I { w with store, ids := f.ids }) : Holds asked I { f with store } where
  shared w hw hids := by
    have hnow := hstore w (h.shared _ rfl rfl)
    change w.store = store at hw
    subst hw
    rwa [← (hids : w.ids = f.ids)] at hnow
  maintains := h.maintains
  tasks m hm task htask := (h.tasks m hm task htask).later (World.rely_follows I)
    ⟨hlater, hstore _, le_rfl⟩

/-- Whatever services and others do, the log stays sound, and it only ever grows at its end. -/
theorem ReachesAmid.sound (h : f.Holds (fun _ => True) fun w => w.store.Sound)
    (hrun : f.ReachesAmid f') :
    f'.Holds (fun _ => True) (fun w => w.store.Sound) ∧ f.store.Later f'.store := by
  induction hrun with
  | refl => exact ⟨h, .refl _⟩
  | tail _ hstep ih =>
    obtain ⟨hholds, hlater⟩ := ih
    cases hstep with
    | member step =>
      exact ⟨hholds.next step fun _ _ => trivial,
        hlater.trans (hholds.later step fun _ _ => trivial)⟩
    | other change =>
      exact ⟨hholds.other change.later fun _ hsound => Store.Sound.grows hsound change,
        hlater.trans change.later⟩

theorem holds_sound_start {services : List (Service × Instant)}
    (hfair : ∀ m ∈ services, m.1.Fair) (ids : IdSupply) :
    (start services ids).Holds (fun _ => True) fun w => w.store.Sound :=
  holds_start (fun m hm => ⟨_, Service.maintains_sound (hfair m hm)⟩)
    fun _ hstore _ => hstore ▸ Store.sound_empty

end Fleet

end Referral
