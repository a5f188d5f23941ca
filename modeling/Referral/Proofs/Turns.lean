import Mathlib.Logic.Function.Iterate
import Mathlib.Tactic
import Referral.Cascade
import Referral.Script

/-!
# Cascades turn by turn

A cascade works through a queue: each turn takes the first event off it, and what follows from that
event joins at the end, one parent link further from the root. Going level by level comes to the
same. As long as the limit is below the deepest depth there is, the queue runs empty whatever the
handlers do, and no event further from the root than the limit allows is staged or passed to a
handler. At the deepest depth itself an event and what follows from it have the same depth, so there
the limit holds nothing back.
-/

namespace Referral

/-- An event in the queue of a cascade. -/
structure Waiting where
  event : Event
  depth : Depth
  /-- The number of parent links between the event and the root of the cascade. -/
  links : ℕ

/-- An event that followed from one in the queue. -/
def Waiting.child (w : Waiting) (e : Event) : Waiting := ⟨e, w.depth.next, w.links + 1⟩

/-- A cascade with the events that wait for their turn. -/
@[ext]
structure Progress where
  cascade : Cascade
  queue : List Waiting

/-- An event whose turn has come, and what the cascade had come to before. -/
structure Visit where
  waiting : Waiting
  before : Cascade

namespace Visit

/-- The cascade after the turn. -/
def after (d : Dispatcher) (v : Visit) : Cascade :=
  (v.before.handleEvent d v.waiting.depth v.waiting.event).1

/-- The events that the handlers returned, as they join the queue. -/
def following (d : Dispatcher) (v : Visit) : List Waiting :=
  (v.before.handleEvent d v.waiting.depth v.waiting.event).2.map v.waiting.child

end Visit

namespace Dispatcher

/-- A dispatch that has not begun. -/
def begin (depth : Depth) (e : Event) (staging : Staging) (calls : List CallRecord) : Progress :=
  ⟨⟨staging, calls, .start⟩, [⟨e, depth, 0⟩]⟩

/-- One turn of the queue. -/
def turn (d : Dispatcher) : Progress → Progress
  | ⟨c, []⟩ => ⟨c, []⟩
  | ⟨c, w :: queue⟩ => ⟨Visit.after d ⟨w, c⟩, queue ++ Visit.following d ⟨w, c⟩⟩

/-- The events whose turn comes within a number of turns. -/
def visits (d : Dispatcher) : ℕ → Progress → List Visit
  | 0, _ => []
  | _ + 1, ⟨_, []⟩ => []
  | turns + 1, ⟨c, w :: queue⟩ => ⟨w, c⟩ :: d.visits turns (d.turn ⟨c, w :: queue⟩)

end Dispatcher

namespace Cascade

variable {d : Dispatcher} {depth : Depth} {links : ℕ}

/-- The events of one level in the queue. -/
def level (depth : Depth) (links : ℕ) (es : List Event) : List Waiting :=
  es.map fun e => ⟨e, depth, links⟩

/-- A level is handled in as many turns as it has events, and the next level is then at the end of
the queue. -/
theorem iterate_turn_level (c : Cascade) (es : List Event) (queue : List Waiting) :
    d.turn^[es.length] ⟨c, level depth links es ++ queue⟩ =
      ⟨(c.handleLevel d depth es).1,
        queue ++ level depth.next (links + 1) (c.handleLevel d depth es).2⟩ := by
  induction es generalizing c queue with
  | nil => simp [level, handleLevel]
  | cons e es ih =>
    have hturn : d.turn ⟨c, level depth links (e :: es) ++ queue⟩ =
        ⟨(c.handleEvent d depth e).1, level depth links es ++
          (queue ++ level depth.next (links + 1) (c.handleEvent d depth e).2)⟩ := by
      simp [Dispatcher.turn, level, Visit.after, Visit.following, Waiting.child]
    rw [List.length_cons, Function.iterate_succ_apply, hturn, ih]
    simp [handleLevel, level]

/-- Levels are handled in some number of turns. -/
theorem exists_iterate_turn_run (levels : ℕ) (c : Cascade) (es : List Event) :
    ∃ n links', d.turn^[n] ⟨c, level depth links es⟩ =
      ⟨(c.run d levels depth es).1,
        level (c.run d levels depth es).2.2 links' (c.run d levels depth es).2.1⟩ := by
  induction levels generalizing depth links c es with
  | zero => exact ⟨0, links, rfl⟩
  | succ levels ih =>
    cases es with
    | nil => exact ⟨0, links, rfl⟩
    | cons e es =>
      have hlevel := @iterate_turn_level d depth links c (e :: es) []
      rw [List.append_nil, List.nil_append] at hlevel
      obtain ⟨n, links', hrest⟩ := @ih depth.next (links + 1)
        (c.handleLevel d depth (e :: es)).1 (c.handleLevel d depth (e :: es)).2
      refine ⟨n + (e :: es).length, links', ?_⟩
      rw [Function.iterate_add_apply, hlevel, hrest]
      rfl

/-- An event that is too deep leads to nothing. -/
theorem handleEvent_of_deep (h : d.maxDepth < depth) (c : Cascade) (e : Event) :
    c.handleEvent d depth e = (c.reject d.maxDepth depth e, []) := by
  rw [handleEvent, if_pos h]

/-- An event that is staged already leads to nothing. -/
theorem handleEvent_of_staged (hroom : depth ≤ d.maxDepth) {c : Cascade} {e : Event}
    (hstaged : c.staging.unit.isStaged e.id = true) : c.handleEvent d depth e = (c.skip e, []) := by
  rw [handleEvent, if_neg (not_lt.mpr hroom), WorkUnit.stageEvent?, if_pos hstaged]

/-- A new event is staged and passed to the handlers. -/
theorem handleEvent_of_new (hroom : depth ≤ d.maxDepth) {c : Cascade} {e : Event}
    (hnew : c.staging.unit.isStaged e.id = false) : c.handleEvent d depth e =
      callAll ⟨e, depth⟩ 0 d.handlers (c.accept
        { c.staging.unit with events := c.staging.unit.events ++ [e] } depth e) := by
  rw [handleEvent, if_neg (not_lt.mpr hroom), WorkUnit.stageEvent?, if_neg (by simp [hnew])]

theorem callHandler_of_ok {c : Cascade} {position : ℕ} {h : Handler} {call : Call}
    {children : List Event} {staging : Staging}
    (hreact : h.react (callsOf position c.calls) call c.staging = (.ok children, staging)) :
    c.callHandler position h call =
      ({ c with staging, calls := c.calls ++ [⟨position, call⟩] }, children) := by
  simp only [callHandler, hreact]

theorem callHandler_of_error {c : Cascade} {position : ℕ} {h : Handler} {call : Call}
    {error : Error} {staging : Staging}
    (hreact : h.react (callsOf position c.calls) call c.staging = (.error error, staging)) :
    c.callHandler position h call =
      (⟨staging.recordError (some call.event.id) call.event.program call.event.promoter none none
          (.handler h.name) error call.depth,
        c.calls ++ [⟨position, call⟩],
        { c.report with
          handlerFailures := c.report.handlerFailures ++ [⟨h.name, call.event.id, error⟩] }⟩,
        []) := by
  simp only [callHandler, hreact]

theorem handleLevel_of_deep (h : d.maxDepth < depth) (c : Cascade) (es : List Event) :
    (c.handleLevel d depth es).2 = [] := by
  induction es generalizing c with
  | nil => rfl
  | cons e es ih =>
    simp only [handleLevel, handleEvent_of_deep h, List.nil_append]
    exact ih _

theorem run_nil_left (levels : ℕ) (c : Cascade) : (c.run d levels depth []).2.1 = [] := by
  cases levels <;> rfl

/-- Below the deepest depth, so many levels leave no event over. -/
theorem run_left_eq_nil (hlimit : d.maxDepth.val < 255) {levels : ℕ}
    (hlevels : d.maxDepth.val + 2 ≤ depth.val + levels) (hpos : 0 < levels) (c : Cascade)
    (es : List Event) : (c.run d levels depth es).2.1 = [] := by
  induction levels generalizing depth c es with
  | zero => omega
  | succ levels ih =>
    cases es with
    | nil => rfl
    | cons e es =>
      change ((c.handleLevel d depth (e :: es)).1.run d levels depth.next
        (c.handleLevel d depth (e :: es)).2).2.1 = []
      by_cases hdeep : d.maxDepth < depth
      · rw [handleLevel_of_deep hdeep]
        exact run_nil_left levels _
      · have hroom : depth.val ≤ d.maxDepth.val := Fin.le_def.mp (not_lt.mp hdeep)
        have hnext := Depth.val_next (d := depth) (by omega)
        exact ih (by omega) (by omega) _ _

end Cascade

namespace Dispatcher

variable {d : Dispatcher} {depth : Depth}

/-- The turns of the queue come to an end, with what the dispatch comes to. -/
theorem exists_iterate_turn_eq (hlimit : d.maxDepth.val < 255) (depth : Depth) (e : Event)
    (staging : Staging) (calls : List CallRecord) :
    ∃ n, d.turn^[n] (begin depth e staging calls) =
      ⟨d.dispatchAt depth e staging calls, []⟩ := by
  obtain ⟨n, links, hrun⟩ := @Cascade.exists_iterate_turn_run d depth 0
    (d.levels depth) ⟨staging, calls, .start⟩ [e]
  have hlevels : d.levels depth = d.maxDepth.val - depth.val + 2 := if_pos hlimit
  have hleft : (Cascade.run d (d.levels depth) depth ⟨staging, calls, .start⟩ [e]).2.1 = [] :=
    Cascade.run_left_eq_nil hlimit (by omega) (by omega) _ _
  rw [hleft] at hrun
  exact ⟨n, hrun⟩

/-- The event at the front of the queue is the next whose turn comes. -/
theorem mem_visits (d : Dispatcher) {n : ℕ} {p : Progress} {c : Cascade} {w : Waiting}
    {queue : List Waiting} (h : d.turn^[n] p = ⟨c, w :: queue⟩) : ⟨w, c⟩ ∈ d.visits (n + 1) p := by
  induction n generalizing p with
  | zero =>
    rw [Function.iterate_zero_apply] at h
    rw [h]
    exact List.mem_cons_self
  | succ n ih =>
    obtain ⟨c₀, _ | ⟨w₀, queue₀⟩⟩ := p
    · have hstuck : d.turn^[n + 1] ⟨c₀, []⟩ = ⟨c₀, []⟩ := Function.iterate_fixed rfl _
      rw [hstuck] at h
      cases h
    · exact List.mem_cons_of_mem _ (ih h)

/-- What each turn keeps of the queue holds for each event whose turn comes. -/
theorem forall_visits {I : Cascade → List Waiting → Prop}
    (hturn : ∀ c w queue, I c (w :: queue) →
      I (Visit.after d ⟨w, c⟩) (queue ++ Visit.following d ⟨w, c⟩))
    (turns : ℕ) {p : Progress} (hp : I p.cascade p.queue) :
    ∀ v ∈ d.visits turns p, ∃ queue, I v.before (v.waiting :: queue) := by
  induction turns generalizing p with
  | zero => exact List.forall_mem_nil _
  | succ turns ih =>
    obtain ⟨c, queue⟩ := p
    cases queue with
    | nil => exact List.forall_mem_nil _
    | cons w queue =>
      rw [visits, List.forall_mem_cons]
      exact ⟨⟨queue, hp⟩, ih (hturn c w queue hp)⟩

/-- Depths count parent links, up to the deepest. -/
theorem val_depth_of_mem_visits {e : Event} {staging : Staging} {calls : List CallRecord}
    {turns : ℕ} {v : Visit} (hv : v ∈ d.visits turns (begin depth e staging calls)) :
    v.waiting.depth.val = min (depth.val + v.waiting.links) 255 := by
  let I : Cascade → List Waiting → Prop := fun _ queue =>
    ∀ w ∈ queue, w.depth.val = min (depth.val + w.links) 255
  have hstart : I (begin depth e staging calls).cascade (begin depth e staging calls).queue := by
    have := depth.isLt
    intro w hw
    rw [List.mem_singleton.mp hw]
    dsimp only
    omega
  obtain ⟨queue, hqueue⟩ := forall_visits (I := I) (fun c w queue h x hx => by
    obtain ⟨hfirst, hrest⟩ := List.forall_mem_cons.mp h
    rcases List.mem_append.mp hx with hx | hx
    · exact hrest x hx
    · obtain ⟨child, -, rfl⟩ := List.mem_map.mp hx
      simp only [Waiting.child, Depth.next]
      omega) turns hstart v hv
  exact hqueue _ List.mem_cons_self

end Dispatcher

/-! ## The limit -/

/-- Nothing is staged and no handler is called in the turn of an event. -/
def Visit.IsIdle (d : Dispatcher) (v : Visit) : Prop :=
  (v.after d).staging.unit.events = v.before.staging.unit.events ∧
    (v.after d).calls = v.before.calls

namespace Dispatcher

/-- Every dispatch comes to an end, and no event that is further from the root than the limit allows
is staged by it or passed to a handler. -/
def IsBounded (d : Dispatcher) : Prop :=
  ∀ (depth : Depth) (e : Event) (staging : Staging) (calls : List CallRecord),
    (∃ n, d.turn^[n] (begin depth e staging calls) = ⟨d.dispatchAt depth e staging calls, []⟩) ∧
    ∀ turns, ∀ v ∈ d.visits turns (begin depth e staging calls),
      d.maxDepth.val < depth.val + v.waiting.links → v.IsIdle d

theorem isBounded_of_lt {d : Dispatcher} (hlimit : d.maxDepth.val < 255) : d.IsBounded := by
  intro depth e staging calls
  refine ⟨exists_iterate_turn_eq hlimit depth e staging calls, fun turns v hv hfar => ?_⟩
  have hdepth := val_depth_of_mem_visits hv
  have hdeep : d.maxDepth < v.waiting.depth := by
    rw [Fin.lt_def]
    omega
  simp [Visit.IsIdle, Visit.after, Cascade.handleEvent_of_deep hdeep, Cascade.reject,
    Staging.recordError, WorkUnit.recordFailure]

/-! ### The deepest depth as the limit -/

/-- One event follows from each of the first 257 that come. -/
def echoes : Reaction := ⟨none, none, some 257, .echo 1⟩

/-- A handler that lets one event follow from each of the first 257 that it is called for. -/
def echo : Script := ⟨"echo", [echoes]⟩

theorem usesAfter_echo {calls : List Call} (h : calls.length ≤ 257) :
    echo.usesAfter calls = [(echoes, calls.length)] := by
  induction calls using List.reverseRecOn with
  | nil => rfl
  | append_singleton calls c ih =>
    rw [List.length_append, List.length_singleton] at h
    have hcalls := ih (by omega)
    have hleft : calls.length < 257 := by omega
    rw [Script.usesAfter] at hcalls ⊢
    rw [List.foldl_append, hcalls]
    simp [Script.choose, Reaction.isFor, echoes, hleft]

theorem react_echo {calls : List Call} (h : calls.length < 257) (c : Call) (s : Staging) :
    echo.handler.react calls c s =
      (.ok [{ c.event with id := s.ids.peek, causation := some c.event.id }],
        { s with ids := s.ids.skip 1 }) := by
  simp [Script.handler, usesAfter_echo h.le, Script.choose, Reaction.isFor, echoes, h,
    Script.respond, Script.copies, IdSupply.skip]

/-- The deepest depth as the limit, with such a handler. -/
def echoing : Dispatcher := ⟨[echo.handler], 255⟩

/-- After some turns: one event waits, that many parent links from the root, under a new name. -/
structure Echoes (turns : ℕ) (p : Progress) : Prop where
  queue : ∃ w, p.queue = [w] ∧ w.links = turns ∧ w.event.id = Id.ofNat (turns + 1)
  ids : p.cascade.staging.ids.next = turns + 2
  staged : ∀ e ∈ p.cascade.staging.unit.events, ∃ n < turns, e.id = Id.ofNat (n + 1)
  calls : (callsOf 0 p.cascade.calls).length = turns

/-- The event that waits is staged and passed to the handler, and one follows from it. -/
theorem Echoes.turn {turns : ℕ} (hturns : turns < 257) {p : Progress} (h : Echoes turns p) :
    Echoes (turns + 1) (echoing.turn p) ∧
      (echoing.turn p).cascade.calls.length = p.cascade.calls.length + 1 := by
  obtain ⟨c, queue⟩ := p
  obtain ⟨w, rfl, hlinks, hid⟩ := h.queue
  have hids : c.staging.ids.next = turns + 2 := h.ids
  have hcalls : (callsOf 0 c.calls).length = turns := h.calls
  have hroom : w.depth ≤ echoing.maxDepth := Fin.le_def.mpr (Nat.le_of_lt_succ w.depth.isLt)
  have hnew : c.staging.unit.isStaged w.event.id = false := by
    rw [WorkUnit.isStaged, List.any_eq_false]
    intro e he hsame
    obtain ⟨n, hn, heq⟩ := h.staged e he
    have hbits := congrArg (fun id : EventId => id.bits.toNat)
      (heq.symm.trans ((of_decide_eq_true hsame).trans hid))
    simp only [Id.ofNat, BitVec.toNat_ofNat] at hbits
    omega
  let accepted := c.accept
    { c.staging.unit with events := c.staging.unit.events ++ [w.event] } w.depth w.event
  have hreact := @react_echo (callsOf 0 c.calls) (by omega) ⟨w.event, w.depth⟩ accepted.staging
  have hevent : c.handleEvent echoing w.depth w.event =
      ({ accepted with
          staging := { accepted.staging with ids := c.staging.ids.skip 1 }
          calls := c.calls ++ [⟨0, ⟨w.event, w.depth⟩⟩] },
        [{ w.event with id := c.staging.ids.peek, causation := some w.event.id }]) := by
    rw [Cascade.handleEvent_of_new hroom hnew]
    change ((accepted.callHandler 0 echo.handler ⟨w.event, w.depth⟩).1,
      (accepted.callHandler 0 echo.handler ⟨w.event, w.depth⟩).2 ++ []) = _
    rw [Cascade.callHandler_of_ok hreact]
    rfl
  have hturn : echoing.turn ⟨c, [w]⟩ = ⟨_, [] ++ _⟩ := rfl
  rw [Visit.after, Visit.following, hevent] at hturn
  rw [hturn]
  refine ⟨⟨⟨_, rfl, congrArg (· + 1) hlinks, congrArg Id.ofNat hids⟩, congrArg (· + 1) hids,
    fun e he => ?_, ?_⟩, by simp⟩
  · rcases List.mem_append.mp he with he | he
    · obtain ⟨n, hn, heq⟩ := h.staged e he
      exact ⟨n, by omega, heq⟩
    · rw [List.mem_singleton.mp he]
      exact ⟨turns, by omega, hid⟩
  · simpa [callsOf] using hcalls

/-- So an event is passed to the handler that is further from the root than the limit allows. -/
theorem not_isBounded_echoing : ¬ echoing.IsBounded := by
  intro hbounded
  let now : Instant := ⟨0, 0, by decide, by decide, by decide⟩
  let root : Event := .signup ⟨1⟩ ⟨2⟩ ⟨3⟩ ⟨4⟩ ⟨5⟩ ⟨6⟩ now
  let context : Context := ⟨root.program, root.promoter, [], [], none, .zero⟩
  let p := begin 0 root ⟨.start context, .empty, ⟨2⟩, now⟩ []
  have hstart : Echoes 0 p := ⟨⟨_, rfl, rfl, rfl⟩, rfl, List.forall_mem_nil _, rfl⟩
  have hfar : ∀ turns ≤ 257, Echoes turns (echoing.turn^[turns] p) := by
    intro turns
    induction turns with
    | zero => exact fun _ => hstart
    | succ turns ih =>
      intro hturns
      rw [Function.iterate_succ_apply']
      exact ((ih (by omega)).turn (by omega)).1
  have hlast := hfar 256 (by omega)
  obtain ⟨⟨c, queue⟩, hstate⟩ : ∃ q, echoing.turn^[256] p = q := ⟨_, rfl⟩
  rw [hstate] at hlast
  obtain ⟨w, rfl, hlinks, -⟩ := hlast.queue
  have hturned : (Visit.after echoing ⟨w, c⟩).calls.length = c.calls.length + 1 :=
    (hlast.turn (by omega)).2
  have hvisit := echoing.mem_visits hstate
  have hlimit : echoing.maxDepth.val < (0 : Depth).val + w.links := by
    rw [hlinks]
    decide
  obtain ⟨-, hidle⟩ := (hbounded 0 root _ []).2 257 _ hvisit hlimit
  rw [hidle] at hturned
  exact Nat.succ_ne_self _ hturned.symm

/-- A limit below the deepest depth bounds every dispatch, whatever the handlers are, and no other
limit does. -/
theorem isBounded_iff (limit : Depth) :
    (∀ handlers : List Handler, (⟨handlers, limit⟩ : Dispatcher).IsBounded) ↔ limit.val < 255 := by
  refine ⟨fun hbounded => ?_, fun hlimit handlers => isBounded_of_lt hlimit⟩
  by_contra hdeepest
  have heq : limit = 255 := Fin.ext (Nat.le_antisymm (Nat.le_of_lt_succ limit.isLt)
    (not_lt.mp hdeepest))
  subst heq
  exact not_isBounded_echoing (hbounded [echo.handler])

/-- So a cascade may go on beyond its limit. -/
theorem limit_may_be_passed : ¬ ∀ d : Dispatcher, d.IsBounded := fun hbounded =>
  not_isBounded_echoing (hbounded echoing)

end Dispatcher

end Referral
