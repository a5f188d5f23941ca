import Mathlib.Tactic
import Referral.Cascade

/-!
# Invariants of cascades

A cascade works through a queue: each event is handled at the front, and what follows from it waits
at the end. What the handling of one event keeps, in view of the events that wait, the cascade
keeps.
-/

namespace Referral

namespace Cascade

variable {d d' : Dispatcher} {I : Cascade → List Event → Prop} {before : Cascade → Prop}
  {f : Event → Event} {R : Cascade → Cascade → List Event → Prop}

/-- The handling of each event keeps two cascades related, the second of which knows each event by
another form, and the same follows from it. This need hold only up to some point: what holds before
it also held before the last event. -/
structure Tracks (d d' : Dispatcher) (before : Cascade → Prop) (f : Event → Event)
    (R : Cascade → Cascade → List Event → Prop) : Prop where
  back : ∀ c depth e, before (handleEvent d depth c e).1 → before c
  event : ∀ c c' depth e rest, before (handleEvent d depth c e).1 → R c c' (e :: rest) →
    (handleEvent d' depth c' (f e)).2 = (handleEvent d depth c e).2.map f ∧
    R (handleEvent d depth c e).1 (handleEvent d' depth c' (f e)).1
      (rest ++ (handleEvent d depth c e).2)

namespace Tracks

theorem back_level (h : Tracks d d' before f R) (depth : Depth) {c : Cascade} {es : List Event}
    (hc : before (handleLevel d depth c es).1) : before c := by
  induction es generalizing c with
  | nil => exact hc
  | cons e es ih => exact h.back c depth e (ih hc)

theorem back_run (h : Tracks d d' before f R) (levels : ℕ) (depth : Depth) {c : Cascade}
    {es : List Event} (hc : before (run d levels depth c es).1) : before c := by
  induction levels generalizing depth c es with
  | zero => exact hc
  | succ levels ih =>
    cases es with
    | nil => exact hc
    | cons e es =>
      have hnext : before (handleLevel d depth c (e :: es)).1 := ih depth.next hc
      exact h.back_level depth hnext

/-- Two cascades that are related are so after a level. The events of one level stand before those
that were put off to the next. -/
theorem level (h : Tracks d d' before f R) (depth : Depth) {c c' : Cascade}
    {es putOff : List Event} (hc : before (handleLevel d depth c es).1)
    (hR : R c c' (es ++ putOff)) :
    (handleLevel d' depth c' (es.map f)).2 = (handleLevel d depth c es).2.map f ∧
    R (handleLevel d depth c es).1 (handleLevel d' depth c' (es.map f)).1
      (putOff ++ (handleLevel d depth c es).2) := by
  induction es generalizing c c' putOff with
  | nil => exact ⟨rfl, by simpa [handleLevel] using hR⟩
  | cons e es ih =>
    have hlevel : before (handleLevel d depth (handleEvent d depth c e).1 es).1 := hc
    obtain ⟨hsame, hfirst⟩ := h.event c c' depth e (es ++ putOff) (h.back_level depth hlevel) hR
    rw [List.append_assoc] at hfirst
    obtain ⟨hrest, hlast⟩ := ih hlevel hfirst
    rw [List.append_assoc] at hlast
    simp only [handleLevel, List.map_cons, List.map_append]
    exact ⟨by rw [hsame, hrest], hlast⟩

/-- Two cascades that are related run alike. -/
theorem run (h : Tracks d d' before f R) (levels : ℕ) (depth : Depth) {c c' : Cascade}
    {es : List Event} (hc : before (Cascade.run d levels depth c es).1) (hR : R c c' es) :
    R (Cascade.run d levels depth c es).1 (Cascade.run d' levels depth c' (es.map f)).1
      (Cascade.run d levels depth c es).2.1 := by
  induction levels generalizing depth c c' es with
  | zero => exact hR
  | succ levels ih =>
    cases es with
    | nil => exact hR
    | cons e es =>
      have hnext : before (Cascade.run d levels depth.next (handleLevel d depth c (e :: es)).1
          (handleLevel d depth c (e :: es)).2).1 := hc
      have hqueue : R c c' ((e :: es) ++ []) := by rwa [List.append_nil]
      obtain ⟨hsame, hlevel⟩ := h.level depth (h.back_run levels _ hnext) hqueue
      rw [List.nil_append] at hlevel
      have hrest := ih depth.next hnext hlevel
      rw [← hsame] at hrest
      exact hrest

end Tracks

/-- Two cascades that know each event by the same form and are related run alike. -/
theorem run_alike
    (hevent : ∀ c c' depth e rest, R c c' (e :: rest) →
      (handleEvent d' depth c' e).2 = (handleEvent d depth c e).2 ∧
      R (handleEvent d depth c e).1 (handleEvent d' depth c' e).1
        (rest ++ (handleEvent d depth c e).2))
    (levels : ℕ) (depth : Depth) {c c' : Cascade} {es : List Event} (h : R c c' es) :
    R (run d levels depth c es).1 (run d' levels depth c' es).1
      (run d levels depth c es).2.1 := by
  have htracks : Tracks d d' (fun _ => True) id R :=
    ⟨fun _ _ _ _ => trivial, fun c c' depth e rest _ hR => by
      rw [List.map_id]
      exact hevent c c' depth e rest hR⟩
  have hrun := htracks.run levels depth trivial h
  rwa [List.map_id] at hrun

/-- What the handling of each event keeps, in view of the events that wait, a run keeps. -/
theorem run_keeps
    (hevent : ∀ c depth e rest, I c (e :: rest) →
      I (handleEvent d depth c e).1 (rest ++ (handleEvent d depth c e).2))
    {levels : ℕ} {depth : Depth} {c : Cascade} {es : List Event} (h : I c es) :
    I (run d levels depth c es).1 (run d levels depth c es).2.1 := by
  have hsame : ∀ c c' depth e rest, c' = c ∧ I c (e :: rest) →
      (handleEvent d depth c' e).2 = (handleEvent d depth c e).2 ∧
      (handleEvent d depth c' e).1 = (handleEvent d depth c e).1 ∧
        I (handleEvent d depth c e).1 (rest ++ (handleEvent d depth c e).2) := by
    rintro c _ depth e rest ⟨rfl, hc⟩
    exact ⟨rfl, rfl, hevent _ depth e rest hc⟩
  exact (run_alike (R := fun c c' queue => c' = c ∧ I c queue) hsame _ _ ⟨rfl, h⟩).2

/-! ### What handlers keep of what is staged -/

variable {P : Staging → Prop}

/-- A failure record makes no difference to a property of what is staged. -/
def IgnoresRecords (P : Staging → Prop) : Prop :=
  ∀ (s : Staging) (f : Failure), P s →
    P { s with unit := s.unit.recordFailure f, ids := s.ids.skip 1 }

/-- A handler keeps a property of what is staged. -/
def IsKeptBy (P : Staging → Prop) (h : Handler) : Prop :=
  ∀ calls call s, P s → P (h.react calls call s).2

theorem callHandler_keeps (hrecord : IgnoresRecords P) {h : Handler} (hh : IsKeptBy P h)
    (c : Cascade) (position : ℕ) (call : Call) (hc : P c.staging) :
    P (c.callHandler position h call).1.staging := by
  have hreact := hh (callsOf position c.calls) call c.staging hc
  unfold callHandler
  dsimp only
  split
  · exact hreact
  · exact hrecord _ _ hreact

theorem callAll_keeps (hrecord : IgnoresRecords P) (call : Call) {hs : List Handler}
    (hhs : ∀ h ∈ hs, IsKeptBy P h) (c : Cascade) (position : ℕ) (hc : P c.staging) :
    P (callAll call position hs c).1.staging := by
  induction hs generalizing c position with
  | nil => exact hc
  | cons h hs ih =>
    rw [List.forall_mem_cons] at hhs
    exact ih hhs.2 _ _ (callHandler_keeps hrecord hhs.1 c position call hc)

theorem handleEvent_keeps (hrecord : IgnoresRecords P) (hd : ∀ h ∈ d.handlers, IsKeptBy P h)
    (hstage : ∀ s e unit, s.unit.stageEvent? e = some unit → P s → P { s with unit })
    (depth : Depth) (c : Cascade) (e : Event) (hc : P c.staging) :
    P (handleEvent d depth c e).1.staging := by
  unfold handleEvent
  split
  · exact hrecord _ _ hc
  split
  · exact hc
  · rename_i unit hunit
    exact callAll_keeps hrecord _ hd _ _ (hstage _ _ _ hunit hc)

end Cascade

/-- What all handlers keep of what is staged, whatever is dispatched to them keeps. -/
theorem Dispatcher.keeps_dispatchAt {d : Dispatcher} {P : Staging → Prop}
    (hrecord : Cascade.IgnoresRecords P) (hd : ∀ h ∈ d.handlers, Cascade.IsKeptBy P h)
    (hstage : ∀ s e unit, s.unit.stageEvent? e = some unit → P s → P { s with unit })
    (depth : Depth) (e : Event) (staging : Staging) (calls : List CallRecord) (h : P staging) :
    P (d.dispatchAt depth e staging calls).staging :=
  Cascade.run_keeps (I := fun c _ => P c.staging)
    (fun c depth e _ hc => Cascade.handleEvent_keeps hrecord hd hstage depth c e hc) h

/-- What is found is a handler of that name. -/
theorem Dispatcher.mem_of_find? {d : Dispatcher} {name : String} {position : ℕ} {h : Handler}
    (hfind : d.find? name = some (position, h)) : h ∈ d.handlers ∧ h.name = name := by
  obtain ⟨⟨h', i⟩, hfirst, heq⟩ := Option.map_eq_some_iff.mp hfind
  cases heq
  exact ⟨List.fst_mem_of_mem_zipIdx (List.mem_of_find?_eq_some hfirst),
    by simpa using List.find?_some hfirst⟩

end Referral
