import Referral.Proofs.Handling
import Referral.Proofs.Turns

/-!
# Nothing that is emitted is lost

Every event that comes into the queue of a cascade has its turn, and in it exactly one fate: it is
rejected, skipped, or dispatched to all handlers. What a turn adds to the staged changes, to the
calls and to the report follows from its fate and from what the handlers answer, so what a dispatch
adds is that of its turns, one after the other.
-/

namespace Referral

/-! ## Handlers that leave the books to the dispatcher -/

/-- Whether failures of this origin are recorded by a dispatch itself. -/
def Origin.isOfDispatch : Origin → Bool
  | .handler _ | .cascadeLimit => true
  | .effect | .manualSwitch => false

/-- The staged failures of handlers and of the limit. -/
def WorkUnit.dispatchFailures (u : WorkUnit) : List Failure :=
  u.failures.filter (·.origin.isOfDispatch)

/-- The same events and the same failures of handlers and of the limit are staged. -/
structure WorkUnit.SameBooks (u u' : WorkUnit) : Prop where
  events : u'.events = u.events
  failures : u'.dispatchFailures = u.dispatchFailures

/-- A handler that stages no events by itself and records no failures of handlers or of the
limit. -/
def Handler.IsReserved (h : Handler) : Prop :=
  ∀ past call (s : Staging), s.unit.SameBooks (h.react past call s).2.unit

section Reserved

variable {config : Config} {e : Event} {depth : Depth} {s s' : Staging}

theorem WorkUnit.SameBooks.trans {u u' u'' : WorkUnit} (h : u.SameBooks u')
    (h' : u'.SameBooks u'') : u.SameBooks u'' :=
  ⟨h'.events.trans h.events, h'.failures.trans h.failures⟩

theorem WorkUnit.sameBooks_mark {u u' : WorkUnit} {id : EventId}
    (h : u.markEvaluated? id = some u') : u.SameBooks u' := by
  unfold markEvaluated? at h
  split at h
  · cases h
  · cases h
    exact ⟨rfl, rfl⟩

theorem Staging.sameBooks_prepare {effect : Effect} (h : s.prepare config e depth effect = .ok s') :
    s.unit.SameBooks s'.unit := by
  unfold prepare at h
  split at h
  · split at h
    · cases h
    · cases h
      exact ⟨rfl, rfl⟩
  · split at h
    · rename_i s'' hpermit
      cases h
      obtain ⟨held, permits, rfl⟩ := ensurePermit?_frame hpermit
      exact ⟨rfl, rfl⟩
    · cases h

theorem Staging.sameBooks_fire (s : Staging) (rule : RuleId) (effect : Effect) :
    s.unit.SameBooks (s.fire config e rule effect depth).2.unit := by
  unfold fire
  cases hprepare : s.prepare config e depth effect with
  | error refusal => exact ⟨rfl, rfl⟩
  | ok s' =>
    refine (sameBooks_prepare hprepare).trans ?_
    dsimp only
    split
    · exact ⟨rfl, rfl⟩
    · rename_i outcome _
      cases outcome.change <;> exact ⟨rfl, rfl⟩

/-- Refused effects are recorded, but as effects. -/
theorem Staging.sameBooks_fireAll (rules : List Rule) (s : Staging) :
    s.unit.SameBooks (fireAll config e depth rules s).2.unit := by
  induction rules generalizing s with
  | nil => exact ⟨rfl, rfl⟩
  | cons r rs ih =>
    have hfire := @Staging.sameBooks_fire config e depth s r.id r.effect
    unfold fireAll
    split
    · rename_i emitted s' hs'
      rw [hs'] at hfire
      exact hfire.trans (ih s')
    · rename_i refusal s' hs'
      rw [hs'] at hfire
      have hrecord : s'.unit.SameBooks (s'.recordError (some e.id) e.program e.promoter (some r.id)
          (some r.effect) .effect refusal.toError depth).unit :=
        ⟨rfl, by simp [recordError, WorkUnit.recordFailure, WorkUnit.dispatchFailures,
          Failure.ofError, Origin.isOfDispatch]⟩
      exact (hfire.trans hrecord).trans (ih _)

theorem isReserved_rulesHandler (config : Config) : (rulesHandler config).IsReserved := by
  intro past call s
  simp only [rulesHandler]
  split
  · exact ⟨rfl, rfl⟩
  · rename_i unit hunit
    refine (WorkUnit.sameBooks_mark hunit).trans ?_
    rw [Staging.evaluate_eq]
    split
    · exact ⟨rfl, rfl⟩
    · exact Staging.sameBooks_fireAll _ { s with unit }

theorem isReserved_aggregatesHandler : aggregatesHandler.IsReserved := by
  intro past call s
  simp only [aggregatesHandler]
  split <;> exact ⟨rfl, rfl⟩

/-- So are the handlers that scripts describe. -/
theorem Script.isReserved_handler (script : Script) : script.handler.IsReserved := by
  intro past call s
  simp only [handler]
  split
  · rename_i r _
    cases hresponse : r.response <;> exact ⟨rfl, rfl⟩
  · exact ⟨rfl, rfl⟩

end Reserved

/-! ## What handlers answer -/

/-- What a handler answered to a call. -/
structure Answer where
  handler : String
  outcome : Except Error (List Event)

namespace Answer

/-- The events that it returned. -/
def returned (a : Answer) : List Event := a.outcome.toOption.getD []

/-- The error, if it failed. -/
def error? (a : Answer) : Option Error :=
  match a.outcome with
  | .ok _ => none
  | .error error => some error

/-- The failure, as a report lists it. -/
def failure? (e : Event) (a : Answer) : Option HandlerFailure :=
  a.error?.map fun error => ⟨a.handler, e.id, error⟩

end Answer

/-- Something that goes wrong when an event has its turn. -/
structure Trouble where
  event : Event
  depth : Depth
  /-- The event that the record is about. -/
  about : EventId
  origin : Origin
  error : Error

namespace Trouble

/-- The record that is made of it. -/
def record (t : Trouble) (id : FailureId) (now : Instant) : Failure :=
  .ofError id (some t.about) t.event.program t.event.promoter none none t.origin t.error t.depth now

/-- The failure is the record that is made of it at some time. -/
def IsRecordedAs (t : Trouble) (f : Failure) : Prop := f = t.record f.id f.recordedAt

end Trouble

/-- The trouble with a handler, if it failed. -/
def Answer.trouble? (call : Call) (a : Answer) : Option Trouble :=
  a.error?.map fun error => ⟨call.event, call.depth, call.event.id, .handler a.handler, error⟩

namespace Cascade

variable {call : Call} {c : Cascade}

/-- What a handler answers to a call. -/
def answer (c : Cascade) (position : ℕ) (h : Handler) (call : Call) : Answer :=
  ⟨h.name, (h.react (callsOf position c.calls) call c.staging).1⟩

/-- What handlers answer to a call, one after the other. -/
def answers (call : Call) : ℕ → List Handler → Cascade → List Answer
  | _, [], _ => []
  | position, h :: hs, c =>
    c.answer position h call :: answers call (position + 1) hs (c.callHandler position h call).1

/-- What calls of handlers add to a cascade, in view of their answers. The first handler is at the
given position. -/
structure Passes (call : Call) (position count : ℕ) (answers : List Answer) (c c' : Cascade) :
    Prop where
  events : c'.staging.unit.events = c.staging.unit.events
  records : ∃ records,
    c'.staging.unit.dispatchFailures = c.staging.unit.dispatchFailures ++ records ∧
      List.Forall₂ Trouble.IsRecordedAs (answers.filterMap (·.trouble? call)) records
  calls : c'.calls = c.calls ++ (List.range' position count).map (⟨·, call⟩)
  report : c'.report = { c.report with
    handlerFailures := c.report.handlerFailures ++ answers.filterMap (·.failure? call.event) }

theorem Passes.trans {position count more : ℕ} {first rest : List Answer} {c' c'' : Cascade}
    (h : c.Passes call position count first c')
    (h' : c'.Passes call (position + count) more rest c'') :
    c.Passes call position (count + more) (first ++ rest) c'' := by
  obtain ⟨records, hrecords, hrecorded⟩ := h.records
  obtain ⟨later, hlater, hrecorded'⟩ := h'.records
  refine ⟨h'.events.trans h.events, ⟨records ++ later, ?_, ?_⟩, ?_, ?_⟩
  · rw [hlater, hrecords, List.append_assoc]
  · rw [List.filterMap_append]
    exact List.rel_append hrecorded hrecorded'
  · rw [h'.calls, h.calls, List.append_assoc, ← List.map_append, List.range'_append_1]
  · rw [h'.report, h.report, List.filterMap_append, List.append_assoc]

/-- A handler is called, and its error is recorded. -/
theorem passes_callHandler {h : Handler} (hreserved : h.IsReserved) (c : Cascade) (position : ℕ)
    (call : Call) :
    c.Passes call position 1 [c.answer position h call] (c.callHandler position h call).1 ∧
      (c.callHandler position h call).2 = (c.answer position h call).returned := by
  have hbooks := hreserved (callsOf position c.calls) call c.staging
  cases hreact : h.react (callsOf position c.calls) call c.staging with
  | mk outcome staging =>
    have hanswer : c.answer position h call = ⟨h.name, outcome⟩ := by rw [answer, hreact]
    rw [hreact] at hbooks
    rw [hanswer]
    cases outcome with
    | ok children =>
      rw [callHandler_of_ok hreact]
      refine ⟨⟨hbooks.events, ⟨[], ?_, .nil⟩, rfl, ?_⟩, rfl⟩
      · rw [List.append_nil]
        exact hbooks.failures
      · simp [Answer.failure?, Answer.error?]
    | error error =>
      let t : Trouble := ⟨call.event, call.depth, call.event.id, .handler h.name, error⟩
      rw [callHandler_of_error hreact]
      refine ⟨⟨hbooks.events, ⟨[t.record staging.ids.peek staging.now], ?_, .cons rfl .nil⟩, rfl,
        rfl⟩, rfl⟩
      rw [← hbooks.failures]
      simp [t, Trouble.record, Staging.recordError, WorkUnit.recordFailure,
        WorkUnit.dispatchFailures, Failure.ofError, Origin.isOfDispatch]

/-- Every handler is called, whatever those before it answered. -/
theorem passes_callAll {hs : List Handler} (hreserved : ∀ h ∈ hs, h.IsReserved) (c : Cascade)
    (position : ℕ) :
    c.Passes call position hs.length (answers call position hs c) (callAll call position hs c).1 ∧
      (callAll call position hs c).2 = (answers call position hs c).flatMap (·.returned) := by
  induction hs generalizing c position with
  | nil =>
    refine ⟨⟨rfl, ⟨[], by simp [callAll], .nil⟩, by simp [callAll], ?_⟩, rfl⟩
    simp [callAll, answers]
  | cons h hs ih =>
    rw [List.forall_mem_cons] at hreserved
    obtain ⟨hfirst, hreturned⟩ := passes_callHandler hreserved.1 c position call
    obtain ⟨hrest, hothers⟩ := ih hreserved.2 (c.callHandler position h call).1 (position + 1)
    rw [answers, List.flatMap_cons, List.length_cons, Nat.add_comm]
    refine ⟨hfirst.trans hrest, ?_⟩
    rw [← hreturned, ← hothers]
    rfl

end Cascade

/-! ## Turns -/

/-- What becomes of an event. -/
inductive Fate
  | rejected
  | skipped
  | dispatched
deriving DecidableEq

namespace Visit

variable {d : Dispatcher} {v : Visit}

/-- What becomes of the event: too deep ones are rejected, staged ones are skipped. -/
def fate (d : Dispatcher) (v : Visit) : Fate :=
  if d.maxDepth < v.waiting.depth then .rejected
  else if v.before.staging.unit.isStaged v.waiting.event.id then .skipped
  else .dispatched

/-- The event as it is passed to handlers. -/
def call (v : Visit) : Call := ⟨v.waiting.event, v.waiting.depth⟩

/-- The cascade as the first handler finds it. -/
def staged (v : Visit) : Cascade :=
  v.before.accept
    { v.before.staging.unit with
      events := v.before.staging.unit.events ++ [v.waiting.event] }
    v.waiting.depth v.waiting.event

/-- What the handlers answer; they are asked about dispatched events only. -/
def answers (d : Dispatcher) (v : Visit) : List Answer :=
  if v.fate d = .dispatched then v.staged.answers v.call 0 d.handlers else []

/-- The events that the handlers return. -/
def returned (d : Dispatcher) (v : Visit) : List Event := (v.answers d).flatMap (·.returned)

/-- All that goes wrong: the event is too deep, or handlers fail. -/
def troubles (d : Dispatcher) (v : Visit) : List Trouble :=
  if v.fate d = .rejected then
    [⟨v.waiting.event, v.waiting.depth, v.waiting.event.causation.getD v.waiting.event.id,
      .cascadeLimit, .cascadeLimit v.waiting.depth d.maxDepth⟩]
  else (v.answers d).filterMap (·.trouble? v.call)

/-- The events of one fate, in order. -/
def ofFate (d : Dispatcher) (fate : Fate) (visits : List Visit) : List Visit :=
  visits.filter (·.fate d = fate)

/-- The identifiers of the events of one fate, in order. -/
def idsOf (d : Dispatcher) (fate : Fate) (visits : List Visit) : List EventId :=
  (ofFate d fate visits).map (·.waiting.event.id)

theorem ofFate_append (fate : Fate) (visits later : List Visit) :
    ofFate d fate (visits ++ later) = ofFate d fate visits ++ ofFate d fate later :=
  List.filter_append ..

theorem idsOf_append (fate : Fate) (visits later : List Visit) :
    idsOf d fate (visits ++ later) = idsOf d fate visits ++ idsOf d fate later := by
  rw [idsOf, ofFate_append, List.map_append, idsOf, idsOf]

/-- What the turns of some events add to a cascade. -/
structure Adds (d : Dispatcher) (visits : List Visit) (c c' : Cascade) : Prop where
  /-- Exactly the dispatched events are staged. -/
  events : c'.staging.unit.events =
    c.staging.unit.events ++ (ofFate d .dispatched visits).map (·.waiting.event)
  nodup : (idsOf d .dispatched visits).Nodup
  new : ∀ id ∈ idsOf d .dispatched visits, c.staging.unit.isStaged id = false
  /-- The report lists each event under its fate. -/
  dispatched : c'.report.dispatched = c.report.dispatched ++ idsOf d .dispatched visits
  skipped : c'.report.skipped = c.report.skipped ++ idsOf d .skipped visits
  rejected : c'.report.rejected = c.report.rejected ++ idsOf d .rejected visits
  handlerFailures : c'.report.handlerFailures = c.report.handlerFailures ++
    visits.flatMap fun v => (v.answers d).filterMap (·.failure? v.waiting.event)
  /-- Each dispatched event is passed to every handler, in order, before the next event. -/
  calls : c'.calls = c.calls ++ (ofFate d .dispatched visits).flatMap fun v =>
    (List.range d.handlers.length).map (⟨·, v.call⟩)
  /-- Each trouble leaves one record. -/
  records : ∃ records,
    c'.staging.unit.dispatchFailures = c.staging.unit.dispatchFailures ++ records ∧
      List.Forall₂ Trouble.IsRecordedAs (visits.flatMap (·.troubles d)) records

theorem Adds.refl (c : Cascade) : Adds d [] c c where
  events := (List.append_nil _).symm
  nodup := List.nodup_nil
  new := List.forall_mem_nil _
  dispatched := (List.append_nil _).symm
  skipped := (List.append_nil _).symm
  rejected := (List.append_nil _).symm
  handlerFailures := (List.append_nil _).symm
  calls := (List.append_nil _).symm
  records := ⟨[], (List.append_nil _).symm, .nil⟩

theorem Adds.trans {visits later : List Visit} {c c' c'' : Cascade} (h : Adds d visits c c')
    (h' : Adds d later c' c'') : Adds d (visits ++ later) c c'' := by
  obtain ⟨records, hrecords, hrecorded⟩ := h.records
  obtain ⟨others, hothers, hrecorded'⟩ := h'.records
  have hstaged : ∀ id, c'.staging.unit.isStaged id = true ↔
      c.staging.unit.isStaged id = true ∨ id ∈ idsOf d .dispatched visits := by
    intro id
    simp [WorkUnit.isStaged, h.events, idsOf]
  have hnew : ∀ id ∈ idsOf d .dispatched later,
      c.staging.unit.isStaged id = false ∧ id ∉ idsOf d .dispatched visits := by
    intro id hid
    have hnot := (hstaged id).not.mp (by simp [h'.new id hid])
    rw [not_or, Bool.not_eq_true] at hnot
    exact hnot
  refine ⟨?_, ?_, ?_, ?_, ?_, ?_, ?_, ?_, ⟨records ++ others, ?_, ?_⟩⟩
  · rw [h'.events, h.events, ofFate_append, List.map_append, List.append_assoc]
  · rw [idsOf_append, List.nodup_append]
    exact ⟨h.nodup, h'.nodup, fun id hid _ hid' heq => (hnew _ hid').2 (heq ▸ hid)⟩
  · rw [idsOf_append]
    exact List.forall_mem_append.mpr ⟨h.new, fun id hid => (hnew id hid).1⟩
  · rw [h'.dispatched, h.dispatched, idsOf_append, List.append_assoc]
  · rw [h'.skipped, h.skipped, idsOf_append, List.append_assoc]
  · rw [h'.rejected, h.rejected, idsOf_append, List.append_assoc]
  · rw [h'.handlerFailures, h.handlerFailures, List.flatMap_append, List.append_assoc]
  · rw [h'.calls, h.calls, ofFate_append, List.flatMap_append, List.append_assoc]
  · rw [hothers, hrecords, List.append_assoc]
  · rw [List.flatMap_append]
    exact List.rel_append hrecorded hrecorded'

/-- What a turn adds, and that what the handlers return joins the queue. -/
def Accounted (d : Dispatcher) (v : Visit) : Prop :=
  Adds d [v] v.before (v.after d) ∧ v.following d = (v.returned d).map v.waiting.child

theorem accounted_of_deep (hdeep : d.maxDepth < v.waiting.depth) : v.Accounted d := by
  have hfate : v.fate d = .rejected := if_pos hdeep
  rw [Accounted, after, following, Cascade.handleEvent_of_deep hdeep]
  refine ⟨?_, by simp [returned, answers, hfate]⟩
  let t : Trouble := ⟨v.waiting.event, v.waiting.depth,
    v.waiting.event.causation.getD v.waiting.event.id, .cascadeLimit,
    .cascadeLimit v.waiting.depth d.maxDepth⟩
  constructor
  case records =>
    refine ⟨[t.record v.before.staging.ids.peek v.before.staging.now], ?_, ?_⟩
    · simp [t, Trouble.record, Cascade.reject, Staging.recordError, WorkUnit.recordFailure,
        WorkUnit.dispatchFailures, Failure.ofError, Origin.isOfDispatch]
    · rw [List.flatMap_singleton, troubles, if_pos hfate]
      exact .cons rfl .nil
  all_goals simp [ofFate, idsOf, answers, hfate, Cascade.reject, Staging.recordError,
    WorkUnit.recordFailure]

theorem accounted_of_staged (hroom : v.waiting.depth ≤ d.maxDepth)
    (hstaged : v.before.staging.unit.isStaged v.waiting.event.id = true) : v.Accounted d := by
  have hfate : v.fate d = .skipped := by rw [fate, if_neg (not_lt.mpr hroom), if_pos hstaged]
  rw [Accounted, after, following, Cascade.handleEvent_of_staged hroom hstaged]
  refine ⟨?_, by simp [returned, answers, hfate]⟩
  constructor
  case records => exact ⟨[], by simp [Cascade.skip], by simp [troubles, answers, hfate]⟩
  all_goals simp [ofFate, idsOf, answers, hfate, Cascade.skip]

theorem accounted_of_new (hreserved : ∀ h ∈ d.handlers, h.IsReserved)
    (hroom : v.waiting.depth ≤ d.maxDepth)
    (hnew : v.before.staging.unit.isStaged v.waiting.event.id = false) : v.Accounted d := by
  have hfate : v.fate d = .dispatched := by
    rw [fate, if_neg (not_lt.mpr hroom), if_neg (by simp [hnew])]
  have hanswers : v.answers d = v.staged.answers v.call 0 d.handlers := if_pos hfate
  obtain ⟨hpasses, hreturned⟩ := @Cascade.passes_callAll v.call _ hreserved v.staged 0
  rw [← hanswers] at hpasses hreturned
  rw [Accounted, after, following, Cascade.handleEvent_of_new hroom hnew]
  refine ⟨?_, congrArg (List.map v.waiting.child) hreturned⟩
  obtain ⟨records, hrecords, hrecorded⟩ := hpasses.records
  constructor
  case events =>
    refine hpasses.events.trans ?_
    simp [ofFate, hfate, staged, Cascade.accept]
  case records =>
    refine ⟨records, hrecords, ?_⟩
    rw [List.flatMap_singleton, troubles, if_neg (by simp [hfate])]
    exact hrecorded
  case calls =>
    refine hpasses.calls.trans ?_
    simp [ofFate, hfate, staged, Cascade.accept, List.range_eq_range']
  case nodup => simp [idsOf, ofFate, hfate]
  case new => simpa [idsOf, ofFate, hfate] using hnew
  all_goals
    refine (congrArg _ hpasses.report).trans ?_
    simp [idsOf, ofFate, hfate, staged, Cascade.accept, call]

/-- The turn of an event adds what its fate says. -/
theorem accounted (hreserved : ∀ h ∈ d.handlers, h.IsReserved) (v : Visit) : v.Accounted d := by
  by_cases hdeep : d.maxDepth < v.waiting.depth
  · exact accounted_of_deep hdeep
  cases hstaged : v.before.staging.unit.isStaged v.waiting.event.id with
  | true => exact accounted_of_staged (not_lt.mp hdeep) hstaged
  | false => exact accounted_of_new hreserved (not_lt.mp hdeep) hstaged

end Visit

/-! ## Dispatches -/

theorem Depth.next_le_next {depth depth' : Depth} (h : depth ≤ depth') :
    depth.next ≤ depth'.next := by
  rw [Fin.le_def] at h ⊢
  simp only [next]
  omega

namespace Dispatcher

variable {d : Dispatcher}

/-- The turns add to a cascade what those of the single events add, and no event that was in the
queue or was returned is missing. -/
theorem adds_visits (hreserved : ∀ h ∈ d.handlers, h.IsReserved) (turns : ℕ) (p : Progress) :
    Visit.Adds d (d.visits turns p) p.cascade (d.turn^[turns] p).cascade ∧
      p.queue ++ (d.visits turns p).flatMap (fun v => (v.returned d).map v.waiting.child) =
        (d.visits turns p).map (·.waiting) ++ (d.turn^[turns] p).queue := by
  induction turns generalizing p with
  | zero => exact ⟨.refl _, by simp [visits]⟩
  | succ turns ih =>
    obtain ⟨c, _ | ⟨w, queue⟩⟩ := p
    · have hstuck : d.turn^[turns + 1] ⟨c, []⟩ = ⟨c, []⟩ := Function.iterate_fixed rfl _
      rw [hstuck]
      exact ⟨.refl _, rfl⟩
    · obtain ⟨hadds, hfollowing⟩ := Visit.accounted hreserved ⟨w, c⟩
      obtain ⟨hrest, hqueue⟩ := ih (d.turn ⟨c, w :: queue⟩)
      have hturn : (d.turn ⟨c, w :: queue⟩).queue = queue ++ Visit.following d ⟨w, c⟩ := rfl
      rw [hturn, hfollowing, List.append_assoc] at hqueue
      exact ⟨hadds.trans hrest, congrArg (w :: ·) hqueue⟩

/-- An event has its turn when those that had theirs before it are through. -/
theorem iterate_turn_of_visits {turns : ℕ} {p : Progress} {earlier later : List Visit} {v : Visit}
    (h : d.visits turns p = earlier ++ v :: later) :
    (∃ queue, d.turn^[earlier.length] p = ⟨v.before, v.waiting :: queue⟩) ∧
      d.visits earlier.length p = earlier := by
  induction earlier generalizing turns p with
  | nil =>
    cases turns with
    | zero => cases h
    | succ turns =>
      obtain ⟨c, _ | ⟨w, queue⟩⟩ := p
      · cases h
      · obtain ⟨rfl, -⟩ := List.cons.inj h
        exact ⟨⟨queue, rfl⟩, rfl⟩
  | cons first earlier ih =>
    cases turns with
    | zero => cases h
    | succ turns =>
      obtain ⟨c, _ | ⟨w, queue⟩⟩ := p
      · cases h
      · obtain ⟨rfl, hrest⟩ := List.cons.inj h
        obtain ⟨hturn, hvisits⟩ := ih hrest
        exact ⟨hturn, congrArg (_ :: ·) hvisits⟩

/-! ### Depths -/

/-- The events that wait come in the order of their depths and span two levels at most. -/
def Layered (queue : List Waiting) : Prop :=
  queue.Pairwise fun w x => w.depth ≤ x.depth ∧ x.depth ≤ w.depth.next

/-- What follows from the first event is no less deep than the events of its level that wait. -/
theorem Layered.following {c : Cascade} {w : Waiting} {queue : List Waiting}
    (h : Layered (w :: queue)) : Layered (queue ++ Visit.following d ⟨w, c⟩) := by
  obtain ⟨hfirst, hqueue⟩ := List.pairwise_cons.mp h
  have hchild : ∀ x ∈ Visit.following d ⟨w, c⟩, x.depth = w.depth.next := by
    intro x hx
    obtain ⟨e, -, rfl⟩ := List.mem_map.mp hx
    rfl
  refine List.pairwise_append.mpr ⟨hqueue, ?_, fun x hx y hy => ?_⟩
  · refine List.pairwise_of_forall_mem_list fun x hx y hy => ?_
    rw [hchild x hx, hchild y hy]
    exact ⟨le_refl _, Depth.le_next _⟩
  · rw [hchild y hy]
    exact ⟨(hfirst x hx).2, Depth.next_le_next (hfirst x hx).1⟩

theorem pairwise_depth_visits (turns : ℕ) {p : Progress} (h : Layered p.queue) :
    (d.visits turns p).Pairwise fun v v' => v.waiting.depth ≤ v'.waiting.depth := by
  induction turns generalizing p with
  | zero => exact .nil
  | succ turns ih =>
    obtain ⟨c, _ | ⟨w, queue⟩⟩ := p
    · exact .nil
    · have hnext : Layered (d.turn ⟨c, w :: queue⟩).queue := h.following
      refine List.pairwise_cons.mpr ⟨fun v hv => ?_, ih hnext⟩
      let I : Cascade → List Waiting → Prop := fun _ queue => ∀ x ∈ queue, w.depth ≤ x.depth
      have hstart : ∀ x ∈ queue ++ Visit.following d ⟨w, c⟩, w.depth ≤ x.depth := by
        rw [List.forall_mem_append]
        refine ⟨fun x hx => ((List.pairwise_cons.mp h).1 x hx).1, fun x hx => ?_⟩
        obtain ⟨e, -, rfl⟩ := List.mem_map.mp hx
        exact Depth.le_next _
      obtain ⟨rest, hrest⟩ := forall_visits (I := I) (fun c' w' queue' hI => by
        obtain ⟨hfirst, hothers⟩ := List.forall_mem_cons.mp hI
        refine List.forall_mem_append.mpr ⟨hothers, fun x hx => ?_⟩
        obtain ⟨e, -, rfl⟩ := List.mem_map.mp hx
        exact hfirst.trans (Depth.le_next _)) turns hstart v hv
      exact hrest _ List.mem_cons_self

/-! ### Deliveries -/

/-- The turns of a dispatch account for all that it does. -/
structure Delivers (d : Dispatcher) (depth : Depth) (e : Event) (staging : Staging)
    (calls : List CallRecord) (visits : List Visit) : Prop where
  adds : Visit.Adds d visits ⟨staging, calls, .start⟩ (d.dispatchAt depth e staging calls)
  /-- The root and all events that handlers return have their turns, each once. -/
  complete : visits.map (·.waiting) =
    ⟨e, depth, 0⟩ :: visits.flatMap fun v => (v.returned d).map v.waiting.child
  /-- Depths never decrease. -/
  depths : visits.Pairwise fun v v' => v.waiting.depth ≤ v'.waiting.depth
  /-- All events but the root come after the event that they follow from. -/
  parents : ∀ earlier v later, visits = earlier ++ v :: later → earlier ≠ [] →
    ∃ parent ∈ earlier, parent.fate d = .dispatched ∧
      ∃ child ∈ parent.returned d, v.waiting = parent.waiting.child child

/-- Handlers are asked about dispatched events only. -/
theorem fate_of_mem_returned {v : Visit} {e : Event} (h : e ∈ v.returned d) :
    v.fate d = .dispatched := by
  by_contra hfate
  rw [Visit.returned, Visit.answers, if_neg hfate] at h
  cases h

/-- Below the deepest depth as the limit, and with handlers that leave the books to the dispatcher,
nothing that is emitted is lost. -/
theorem dispatchAt_delivers (hlimit : d.maxDepth.val < 255)
    (hreserved : ∀ h ∈ d.handlers, h.IsReserved) (depth : Depth) (e : Event) (staging : Staging)
    (calls : List CallRecord) :
    ∃ turns, d.turn^[turns] (begin depth e staging calls) =
        ⟨d.dispatchAt depth e staging calls, []⟩ ∧
      d.Delivers depth e staging calls (d.visits turns (begin depth e staging calls)) := by
  obtain ⟨turns, hend⟩ := exists_iterate_turn_eq hlimit depth e staging calls
  obtain ⟨hadds, hqueue⟩ := adds_visits hreserved turns (begin depth e staging calls)
  rw [hend] at hadds hqueue
  refine ⟨turns, hend, hadds, ?_, ?_, ?_⟩
  · rw [List.append_nil] at hqueue
    exact hqueue.symm
  · exact pairwise_depth_visits turns (List.pairwise_singleton _ _)
  · intro earlier v later hvisits hearlier
    obtain ⟨⟨queue, hturn⟩, hsame⟩ := iterate_turn_of_visits hvisits
    obtain ⟨-, hwaiting⟩ := adds_visits hreserved earlier.length (begin depth e staging calls)
    rw [hturn, hsame] at hwaiting
    obtain ⟨first, others, rfl⟩ := List.exists_cons_of_ne_nil hearlier
    have hrest : (first :: others).flatMap (fun v => (v.returned d).map v.waiting.child) =
        others.map (·.waiting) ++ v.waiting :: queue := (List.cons.inj hwaiting).2
    have hmem : v.waiting ∈ (first :: others).flatMap
        fun v => (v.returned d).map v.waiting.child := by
      rw [hrest]
      exact List.mem_append_right _ List.mem_cons_self
    obtain ⟨parent, hparent, hchild⟩ := List.mem_flatMap.mp hmem
    obtain ⟨child, hreturned, heq⟩ := List.mem_map.mp hchild
    exact ⟨parent, hparent, fate_of_mem_returned hreturned, child, hreturned, heq.symm⟩

/-- A signup. -/
def arrival : Event :=
  .signup ⟨1⟩ ⟨2⟩ ⟨3⟩ ⟨4⟩ ⟨5⟩ ⟨6⟩ ⟨0, 0, by decide, by decide, by decide⟩

/-- An event that follows from it. -/
def welcome : Event := { arrival with id := ⟨7⟩, causation := some arrival.id }

/-- A handler that lets an event follow twice from the first, and a copy from each other, and one
that always fails. -/
def greeting : Dispatcher where
  handlers := [aggregatesHandler,
    (⟨"greeting", [⟨some arrival.id, none, none, .emit [welcome, welcome]⟩,
      ⟨none, none, none, .echo 1⟩]⟩ : Script).handler,
    (⟨"broken", [⟨none, none, none, .fail (.store "broken")⟩]⟩ : Script).handler]
  maxDepth := 1

/-- With a limit of one, the first of the two is dispatched, the other is skipped, and the copy is
rejected. -/
theorem greeting_delivers :
    greeting.maxDepth.val < 255 ∧ (∀ h ∈ greeting.handlers, h.IsReserved) ∧
    let staging : Staging := ⟨.start ⟨arrival.program, arrival.promoter, [], [], none, .zero⟩,
      .empty, ⟨8⟩, arrival.occurredAt⟩
    (∃ turns, greeting.turn^[turns] (begin 0 arrival staging []) =
        ⟨greeting.dispatchAt 0 arrival staging [], []⟩ ∧
      greeting.Delivers 0 arrival staging [] (greeting.visits turns (begin 0 arrival staging []))) ∧
    (greeting.dispatchAt 0 arrival staging []).report =
      ⟨[arrival.id, welcome.id], [welcome.id], [⟨9⟩],
        [⟨"broken", arrival.id, .store "broken"⟩, ⟨"broken", welcome.id, .store "broken"⟩], 1⟩ := by
  have hlimit : greeting.maxDepth.val < 255 := by decide
  have hreserved : ∀ h ∈ greeting.handlers, h.IsReserved := by
    simp only [greeting, List.forall_mem_cons]
    exact ⟨isReserved_aggregatesHandler, Script.isReserved_handler _, Script.isReserved_handler _,
      List.forall_mem_nil _⟩
  exact ⟨hlimit, hreserved, dispatchAt_delivers hlimit hreserved 0 arrival _ [], rfl⟩

end Dispatcher

end Referral
