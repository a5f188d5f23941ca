import Referral.Proofs.Batches

/-!
# Invariants of a service

All changes of the store come from units of work, from the swap of totals after a rebuild, and from
setting up rules and circles. So an invariant of the store holds throughout any interleaving of
requests if each of these keeps it; for units of work it is enough to know what every step of their
making keeps, from their start to their commit.
-/

namespace Referral

namespace World

/-- Nothing that was logged is lost, an invariant that held holds, and no identifier comes again. -/
structure Follows (I : World → Prop) (w w' : World) : Prop where
  later : w.store.Later w'.store
  keeps : I w → I w'
  ids : w.ids.next ≤ w'.ids.next

variable {I : World → Prop} {w w' : World} {P : Store → Prop}

theorem rely_follows (I : World → Prop) : Procedure.Rely (Follows I) where
  refl _ := ⟨.refl _, id, le_refl _⟩
  trans _ _ _ h h' := ⟨h.later.trans h'.later, h'.keeps ∘ h.keeps, h.ids.trans h'.ids⟩
  later _ _ h := h.later

/-- Something was true of the store at some time when the invariant held. -/
def Once (I : World → Prop) (w : World) (P : Store → Prop) : Prop :=
  ∃ w₀, I w₀ ∧ Follows I w₀ w ∧ P w₀.store

theorem Once.later (h : w.Once I P) (hw : Follows I w w') : w'.Once I P := by
  obtain ⟨w₀, h₀, hfollows, hP⟩ := h
  exact ⟨w₀, h₀, (rely_follows I).trans _ _ _ hfollows hw, hP⟩

end World

/-- The event is in the log under the name that a failure record gives. -/
def Store.IsSource (s : Store) (f : Failure) (e : Event) : Prop :=
  ∃ id stored, f.event = some id ∧ s.event? id = some stored ∧ stored.event = e

theorem Store.IsSource.mem_facts {s : Store} {f : Failure} {e : Event} (h : s.IsSource f e) :
    e ∈ s.facts := by
  obtain ⟨id, stored, -, hfound, rfl⟩ := h
  obtain ⟨i, -, hlog⟩ := Option.bind_eq_some_iff.mp hfound
  exact List.mem_map_of_mem (List.mem_of_getElem? hlog)

namespace Service

/-- A book that a service read off the log for a scope: it tallies the log up to some end of it, or
it is empty because there was no room for events in what is read at once. -/
structure ReadsOff (s : Service) (w : World) (scope : Scope) (book : Book) (asOf : ℕ) : Prop where
  tallies : s.config.batchSize ≠ 0 → book.Tallies scope (w.store.facts.take asOf)
  empty : s.config.batchSize = 0 → book = ∅

theorem ReadsOff.restrict {s : Service} {w : World} {scope : Scope} {book : Book} {asOf : ℕ}
    (h : s.ReadsOff w scope book asOf) : s.ReadsOff w scope (book.restrict scope) asOf :=
  ⟨fun hbatch => (h.tallies hbatch).restrict, fun hbatch => by rw [h.empty hbatch]; rfl⟩

/-- What the parts of a service have to keep of an invariant `I` and of units of work: `U` says of a
unit in hand, with the events that are still to be dispatched on it, that it may be committed after
these. The events that come from producers are those that `asked` says. -/
structure Maintains (s : Service) (asked : Event → Prop) (I : World → Prop)
    (U : World → WorkUnit → List Call → Prop) : Prop where
  numbered : ∀ {w}, I w → w.store.Numbered
  /-- The invariant is about what is stored, and about identifiers that were used. -/
  aside : ∀ {w w' : World}, w'.store = w.store → w.ids.next ≤ w'.ids.next → I w → I w'
  disturb : ∀ {w : World} (failingCommits scanDelay : ℕ), I w →
    I { w with store := { w.store with failingCommits, scanDelay } }
  putRule : ∀ {w : World} {r : Rule} {store : Store}, w.store.putRule r = .ok store → I w →
    I { w with store }
  putCircle : ∀ {w : World} {c : Circle} {store : Store}, w.store.putCircle c = .ok store → I w →
    I { w with store }
  assignCircle : ∀ {w : World} {k : PromoterKey} {circle : CircleId} {store : Store},
    w.store.assignCircle k circle w.now = .ok store → I w → I { w with store }
  /-- The totals of a scope may be replaced by those of the log up to an earlier end of it. -/
  swap : ∀ {w : World} {scope : Scope} {book : Book} {asOf count : ℕ} {store : Store},
    s.ReadsOff w scope book asOf → w.store.replaceTotals scope book asOf = .ok (count, store) →
    I w → I { w with store }
  later : ∀ {w w' : World} {u : WorkUnit} {cs : List Call}, World.Follows I w w' → I w →
    U w u cs → U w' u cs
  start : ∀ {w : World} (k : PromoterKey), I w → U w (.start (w.store.context k)) []
  enter : ∀ {w : World} {e : Event}, I w → accept e = .ok () → asked e →
    U w (.start (w.store.context e.promoterKey)) [⟨e, 0⟩]
  dispatch : ∀ {w : World} {u : WorkUnit} {c : Call} {cs : List Call} {staging : Staging}, I w →
    U w u (c :: cs) →
    (s.dispatcher.dispatchAt c.depth c.event ⟨u, w.permits, w.ids, w.now⟩ w.calls).staging =
      staging →
    w.ids.next ≤ staging.ids.next ∧ U { w with ids := staging.ids } staging.unit cs
  fire : ∀ {w : World} {u : WorkUnit} {f : Failure} {e : Event} {rule : RuleId} {effect : Effect}
    {answer : Except Refusal (Option Event)} {staging : Staging}, I w →
    w.Once I (f ∈ ·.failures) → w.Once I (·.IsSource f e) → f.effect = some effect → U w u [] →
    (⟨u, w.permits, w.ids, w.now⟩ : Staging).fire s.config e rule effect f.depth =
      (answer, staging) →
    w.ids.next ≤ staging.ids.next ∧ ∀ emitted, answer = .ok emitted →
      U { w with ids := staging.ids } staging.unit (emitted.toList.map (⟨·, f.depth.next⟩))
  call : ∀ {w : World} {u : WorkUnit} {name : String} {position : ℕ} {h : Handler} {f : Failure}
    {e : Event} {calls : List Call} {answer : Except Error (List Event)} {staging : Staging}, I w →
    w.Once I (·.IsSource f e) → U w u [] → name ≠ aggregatesHandler.name →
    s.dispatcher.find? name = some (position, h) →
    h.react calls ⟨e, f.depth⟩ ⟨u, w.permits, w.ids, w.now⟩ = (answer, staging) →
    w.ids.next ≤ staging.ids.next ∧ ∀ children, answer = .ok children →
      U { w with ids := staging.ids } staging.unit (children.map (⟨·, f.depth.next⟩))
  demote : ∀ {w : World} {u : WorkUnit} {error : Error} {staging : Staging}, I w → U w u [] →
    (⟨u, w.permits, w.ids, w.now⟩ : Staging).demoteTransitions error w.now = staging →
    w.ids.next ≤ staging.ids.next ∧ U { w with ids := staging.ids } staging.unit []
  resolve : ∀ {w : World} {u : WorkUnit} (failure : FailureId), U w u [] →
    U w (u.resolveFailure failure) []
  attempt : ∀ {w : World} {u : WorkUnit} (failure : FailureId), U w u [] →
    U w (u.recordAttempt failure) []
  /-- A move made by hand. -/
  move : ∀ {w : World} {u : WorkUnit} {k : PromoterKey} {target : CircleId} {now : Instant}
    {t : Transition},
    switchTo k.program k.promoter u.context.currentCircle target u.context.circles now =
      .ok (.transition t) →
    U w u [] → U w ((u.holdPermit k).stageTransition ⟨t, none, none, 0⟩) []
  commit : ∀ {w : World} {u : WorkUnit}, U w u [] → I w → I (w.perform (.commit u)).2

/-- What the parts of a service have to do, so that all that requests do is within a relation `G`,
as long as all that happens is within a relation `R` that carries an invariant `I` on. Of the units
in hand `U` says what it says above. The requests are those that `admitted` says. -/
structure Upholds (s : Service) (admitted : Request → Prop) (I : World → Prop)
    (U : World → WorkUnit → List Call → Prop) (R G : World → World → Prop) : Prop where
  rely : Procedure.Rely R
  follows : ∀ {w w' : World}, R w w' → World.Follows I w w'
  within : ∀ {w w' : World}, G w w' → R w w'
  numbered : ∀ {w}, I w → w.store.Numbered
  aside : ∀ {w w' : World}, w'.store = w.store → w.ids.next ≤ w'.ids.next → G w w'
  disturb : ∀ (w : World) (failingCommits scanDelay : ℕ),
    G w { w with store := { w.store with failingCommits, scanDelay } }
  putRule : ∀ {w : World} {r : Rule} {store : Store}, admitted (.putRule r) →
    w.store.putRule r = .ok store → G w { w with store }
  putCircle : ∀ {w : World} {c : Circle} {store : Store}, admitted (.putCircle c) →
    w.store.putCircle c = .ok store → G w { w with store }
  assignCircle : ∀ {w : World} {k : PromoterKey} {circle : CircleId} {store : Store},
    w.store.assignCircle k circle w.now = .ok store → G w { w with store }
  swap : ∀ {w : World} {scope : Scope} {book : Book} {asOf count : ℕ} {store : Store},
    s.ReadsOff w scope book asOf → w.store.replaceTotals scope book asOf = .ok (count, store) →
    G w { w with store }
  later : ∀ {w w' : World} {u : WorkUnit} {cs : List Call}, R w w' → I w → U w u cs → U w' u cs
  start : ∀ {w : World} (k : PromoterKey), I w → U w (.start (w.store.context k)) []
  enter : ∀ {w : World} {e : Event}, I w → accept e = .ok () → admitted (.publish e) →
    U w (.start (w.store.context e.promoterKey)) [⟨e, 0⟩]
  dispatch : ∀ {w : World} {u : WorkUnit} {c : Call} {cs : List Call} {staging : Staging}, I w →
    U w u (c :: cs) →
    (s.dispatcher.dispatchAt c.depth c.event ⟨u, w.permits, w.ids, w.now⟩ w.calls).staging =
      staging →
    w.ids.next ≤ staging.ids.next ∧ U { w with ids := staging.ids } staging.unit cs
  fire : ∀ {w : World} {u : WorkUnit} {f : Failure} {e : Event} {rule : RuleId} {effect : Effect}
    {answer : Except Refusal (Option Event)} {staging : Staging}, I w →
    w.Once I (f ∈ ·.failures) → w.Once I (·.IsSource f e) → f.effect = some effect → U w u [] →
    (⟨u, w.permits, w.ids, w.now⟩ : Staging).fire s.config e rule effect f.depth =
      (answer, staging) →
    w.ids.next ≤ staging.ids.next ∧ ∀ emitted, answer = .ok emitted →
      U { w with ids := staging.ids } staging.unit (emitted.toList.map (⟨·, f.depth.next⟩))
  call : ∀ {w : World} {u : WorkUnit} {name : String} {position : ℕ} {h : Handler} {f : Failure}
    {e : Event} {calls : List Call} {answer : Except Error (List Event)} {staging : Staging}, I w →
    w.Once I (·.IsSource f e) → U w u [] → name ≠ aggregatesHandler.name →
    s.dispatcher.find? name = some (position, h) →
    h.react calls ⟨e, f.depth⟩ ⟨u, w.permits, w.ids, w.now⟩ = (answer, staging) →
    w.ids.next ≤ staging.ids.next ∧ ∀ children, answer = .ok children →
      U { w with ids := staging.ids } staging.unit (children.map (⟨·, f.depth.next⟩))
  demote : ∀ {w : World} {u : WorkUnit} {error : Error} {staging : Staging}, I w → U w u [] →
    (⟨u, w.permits, w.ids, w.now⟩ : Staging).demoteTransitions error w.now = staging →
    w.ids.next ≤ staging.ids.next ∧ U { w with ids := staging.ids } staging.unit []
  resolve : ∀ {w : World} {u : WorkUnit} {failure : FailureId}, admitted (.retry failure) →
    U w u [] → U w (u.resolveFailure failure) []
  attempt : ∀ {w : World} {u : WorkUnit} (failure : FailureId), U w u [] →
    U w (u.recordAttempt failure) []
  /-- A move made by hand is committed as it is. -/
  move : ∀ {w : World} {u : WorkUnit} {k : PromoterKey} {target : CircleId} {now : Instant}
    {t : Transition},
    switchTo k.program k.promoter u.context.currentCircle target u.context.circles now =
      .ok (.transition t) → U w u [] →
    G w (w.perform (.commit ((u.holdPermit k).stageTransition ⟨t, none, none, 0⟩))).2
  commit : ∀ {w : World} {u : WorkUnit}, U w u [] → G w (w.perform (.commit u)).2

/-- The parts that keep an invariant let it go on. -/
theorem Maintains.upholds {s : Service} {asked : Event → Prop} {I : World → Prop}
    {U : World → WorkUnit → List Call → Prop} (hs : s.Maintains asked I U) :
    s.Upholds (fun r => ∀ e, r = .publish e → asked e) I U (World.Follows I) (World.Follows I) where
  rely := World.rely_follows I
  follows h := h
  within h := h
  numbered := hs.numbered
  aside h hids := ⟨h ▸ .refl _, hs.aside h hids, hids⟩
  disturb _ _ _ := ⟨.of_log_eq rfl rfl, hs.disturb _ _, le_refl _⟩
  putRule _ h := ⟨.putRule h, hs.putRule h, le_refl _⟩
  putCircle _ h := ⟨.putCircle h, hs.putCircle h, le_refl _⟩
  assignCircle h := ⟨.assignCircle h, hs.assignCircle h, le_refl _⟩
  swap hbook h := ⟨.replaceTotals h, hs.swap hbook h, le_refl _⟩
  later := hs.later
  start := hs.start
  enter hw haccept hasked := hs.enter hw haccept (hasked _ rfl)
  dispatch := hs.dispatch
  fire := hs.fire
  call := hs.call
  demote := hs.demote
  resolve _ hu := hs.resolve _ hu
  attempt := hs.attempt
  move hswitch hu := ⟨.commit _ _ _, hs.commit (hs.move hswitch hu), le_refl _⟩
  commit hu := ⟨.commit _ _ _, hs.commit hu, le_refl _⟩

end Service

namespace Procedure

open World (Follows rely_follows)

variable {I : World → Prop} {R G : World → World → Prop} {α β : Type} {Q : α → World → Prop}
  {Q₁ : β → World → Prop} {w : World}

/-- A procedure whose own actions are all within a relation `G`, as long as others stay within `R`,
and that ends with an answer that `Q` allows. -/
abbrev Abides {α : Type} (R G : World → World → Prop) (Q : α → World → Prop) (p : Procedure α)
    (w : World) : Prop := p.Keeps R (fun w w' _ => G w w') Q w

/-- A procedure that keeps an invariant by its own actions, whatever others do as long as they keep
it, and that ends with an answer that `Q` allows. -/
abbrev Safely {α : Type} (I : World → Prop) (Q : α → World → Prop) (p : Procedure α) (w : World) :
    Prop := p.Abides (Follows I) (Follows I) Q w

theorem abides_pure (a : α) : (pure a : Procedure α).Abides R G (fun _ _ => True) w :=
  fun _ _ => trivial

/-- What a procedure that only looks at the world says of it stays true. -/
theorem Looks.abides {p : Procedure α} {n : ℕ} (h : p.Looks R n Q w) (hG : ∀ w, G w w) :
    p.Abides R G Q w :=
  Keeps.weaken h.keeps (fun w _ _ h => h ▸ hG w) fun _ _ h => h

end Procedure

namespace Service

open Procedure World

variable {s : Service} {asked : Event → Prop} {admitted : Request → Prop} {I : World → Prop}
  {U : World → WorkUnit → List Call → Prop} {R G : World → World → Prop} {w : World} {α β : Type}
  {Q : α → World → Prop} {Q₁ : β → World → Prop}

namespace Upholds

theorem keeps (hs : s.Upholds admitted I U R G) {w w' : World} (h : R w w') (hw : I w) : I w' :=
  (hs.follows h).keeps hw

theorem trans (hs : s.Upholds admitted I U R G) {w₁ w₂ w₃ : World} (h : R w₁ w₂)
    (h' : R w₂ w₃) : R w₁ w₃ := hs.rely.trans _ _ _ h h'

theorem still (hs : s.Upholds admitted I U R G) (w : World) : G w w := hs.aside rfl le_rfl

theorem once (hs : s.Upholds admitted I U R G) {w w' : World} {P : Store → Prop}
    (h : w.Once I P) (hw : R w w') : w'.Once I P := h.later (hs.follows hw)

theorem bind (hs : s.Upholds admitted I U R G) (hw : I w) {p : Procedure β}
    {f : β → Procedure α} (h : p.Abides R G Q₁ w)
    (hf : ∀ b w', I w' → R w w' → Q₁ b w' → (f b).Abides R G Q w') : (p >>= f).Abides R G Q w := by
  have hsince := Keeps.since hs.rely h (fun _ _ _ => hs.within) (hs.rely.refl w)
  refine Keeps.bind hs.rely hsince (fun _ _ _ h => h) ?_
  rintro b w' ⟨hb, hw'⟩
  exact hf b w' (hs.keeps hw' hw) hw' hb

theorem abides_perform (hs : s.Upholds admitted I U R G) {action : Action α} (hw : I w)
    (h : ∀ w', I w' → R w w' → G w' (w'.perform action).2 ∧
      ∀ w'', R (w'.perform action).2 w'' → I w'' → Q (w'.perform action).1 w'') :
    (perform action).Abides R G Q w := by
  refine keeps_perform fun w' hw' _ => ?_
  obtain ⟨hstep, hend⟩ := h w' (hs.keeps hw' hw) hw'
  have hkept := hs.keeps (hs.within hstep) (hs.keeps hw' hw)
  exact ⟨hstep, fun w'' hw'' => hend w'' hw'' (hs.keeps hw'' hkept)⟩

theorem abides_aside (hs : s.Upholds admitted I U R G) {action : Action α}
    (h : ∀ w : World, (w.perform action).2.store = w.store ∧ (w.perform action).2.ids = w.ids) :
    (perform action).Abides R G (fun _ _ => True) w :=
  keeps_perform fun w' _ _ => ⟨hs.aside (h w').1 (by rw [(h w').2]), fun _ _ => trivial⟩

/-- What was read was so at some time. -/
theorem abides_read (hs : s.Upholds admitted I U R G) (hw : I w) (f : Store → α) :
    (read f).Abides R G (fun a w' => w'.Once I fun store => a = f store) w :=
  hs.abides_perform hw fun w' hw' _ =>
    ⟨hs.aside rfl le_rfl, fun _ h'' _ => ⟨w', hw', hs.follows h'', rfl⟩⟩

theorem abides_sleep (hs : s.Upholds admitted I U R G) (millis : ℕ) :
    (sleep millis).Abides R G (fun _ _ => True) w :=
  fun _ _ _ => ⟨hs.aside rfl le_rfl,
    fun _ _ _ => ⟨hs.aside rfl le_rfl, fun _ _ => trivial⟩⟩

theorem abides_lockAll (hs : s.Upholds admitted I U R G) (task : TaskId) (ks : List LockKey) :
    (lockAll task ks).Abides R G (fun _ _ => True) w := by
  induction ks generalizing w with
  | nil => exact abides_pure ()
  | cons k ks ih =>
    exact fun _ _ _ => ⟨hs.aside rfl le_rfl, fun _ _ _ => ⟨hs.aside rfl le_rfl, ih⟩⟩

theorem abides_withLocks (hs : s.Upholds admitted I U R G) (hw : I w) (ks : List LockKey)
    {body : Procedure α}
    (hbody : ∀ w', I w' → R w w' → body.Abides R G (fun _ _ => True) w') :
    (withLocks ks body).Abides R G (fun _ _ => True) w := by
  unfold withLocks
  refine hs.bind hw (hs.abides_aside fun _ => ⟨rfl, rfl⟩) fun task w₁ hw₁ h₁ _ => ?_
  refine hs.bind hw₁ (hs.abides_lockAll task ks) fun _ w₂ hw₂ h₂ _ => ?_
  refine hs.bind hw₂ (hbody w₂ hw₂ (hs.trans h₁ h₂)) fun a w₃ hw₃ _ _ => ?_
  exact hs.bind hw₃ (hs.abides_aside fun _ => ⟨rfl, rfl⟩) fun _ _ _ _ _ => abides_pure a

theorem abides_finish (hs : s.Upholds admitted I U R G) (hw : I w) (u : WorkUnit) (answer : α) :
    (finish u answer).Abides R G (fun _ _ => True) w :=
  hs.bind hw (hs.abides_aside fun _ => ⟨rfl, rfl⟩) fun _ _ _ _ _ => abides_pure answer

/-! ### Units of work -/

theorem abides_startUnit (hs : s.Upholds admitted I U R G)
    (hw : I w) {k : PromoterKey} {cs : List Call}
    (hstart : ∀ w', I w' → U w' (.start (w'.store.context k)) cs) :
    (startUnit k).Abides R G (fun u w' => U w' u cs) w := by
  intro w₁ h₁ _
  refine ⟨hs.still w₁, fun w₂ h₂ => ?_⟩
  exact hs.later h₂ (hs.keeps h₁ hw) (hstart w₁ (hs.keeps h₁ hw))

/-- A step with the desk at hand, and what lasts of its answer. -/
theorem abides_stage (hs : s.Upholds admitted I U R G) (hw : I w) {f : Desk → α × Desk}
    (hf : ∀ w', I w' → R w w' → w'.ids.next ≤ (f w'.desk).2.ids.next ∧
      Q (f w'.desk).1 { w' with ids := (f w'.desk).2.ids })
    (hlasts : ∀ a w' w'', R w' w'' → I w' → Q a w' → Q a w'') :
    (perform (.stage f)).Abides R G Q w := by
  refine hs.abides_perform hw fun w₁ hw₁ h₁ => ?_
  obtain ⟨hids, hQ⟩ := hf w₁ hw₁ h₁
  refine ⟨hs.aside rfl hids, fun w₂ h₂ _ => ?_⟩
  let used : World := { w₁ with ids := (f w₁.desk).2.ids }
  have hused : I used := hs.keeps (w := w₁) (hs.within (hs.aside rfl hids)) hw₁
  have hdone : R used (w₁.perform (.stage f)).2 := hs.within (hs.aside rfl (le_refl _))
  exact hlasts _ _ _ (hs.trans hdone h₂) hused hQ

theorem abides_dispatch (hs : s.Upholds admitted I U R G) (hw : I w) {u : WorkUnit} {e : Event}
    {cs : List Call} {depth : Depth} (hu : U w u (⟨e, depth⟩ :: cs)) :
    (s.dispatch u depth e).Abides R G (fun a w' => U w' a.2 cs) w :=
  hs.abides_stage hw (fun _ hw' h' => hs.dispatch hw' (hs.later h' hw hu) rfl)
    fun _ _ _ h hw' hu' => hs.later h hw' hu'

theorem abides_dispatchEach (hs : s.Upholds admitted I U R G)
    (hw : I w) {u : WorkUnit} {es : List Event}
    {depth : Depth} (hu : U w u (es.map (⟨·, depth⟩))) :
    (s.dispatchEach depth es u).Abides R G (fun u' w' => U w' u' []) w := by
  induction es generalizing u w with
  | nil => exact fun w' hw' => hs.later hw' hw hu
  | cons e es ih =>
    unfold dispatchEach
    exact hs.bind hw (hs.abides_dispatch hw hu) fun _ _ hw' _ hu' => ih hw' hu'

theorem abides_commitRetrying (hs : s.Upholds admitted I U R G)
    (hw : I w) (backoff : ℕ → Duration) {u : WorkUnit}
    (hu : ∀ w', I w' → R w w' → G w' (w'.perform (.commit u)).2) (retries attempt : ℕ) :
    (commitRetrying backoff u retries attempt).Abides R G (fun _ _ => True) w := by
  have hcommit : (perform (.commit u)).Abides R G (fun _ _ => True) w :=
    hs.abides_perform hw fun w' hw' h' => ⟨hu w' hw' h', fun _ _ _ => trivial⟩
  induction retries generalizing w attempt with
  | zero => exact hcommit
  | succ retries ih =>
    unfold commitRetrying
    refine hs.bind hw hcommit fun answer w₁ hw₁ h₁ _ => ?_
    cases answer with
    | ok receipt => exact abides_pure _
    | error e =>
      simp only []
      by_cases htransient : e.isTransient = true
      · rw [if_pos htransient]
        refine hs.bind hw₁ (hs.abides_sleep _) fun _ w₂ hw₂ h₂ _ => ?_
        have hu₂ : ∀ w', I w' → R w₂ w' → G w' (w'.perform (.commit u)).2 := fun w' hw' h' =>
          hu w' hw' (hs.trans h₁ (hs.trans h₂ h'))
        exact ih hw₂ hu₂ _ (hs.abides_perform hw₂ fun w' hw' h' =>
          ⟨hu₂ w' hw' h', fun _ _ _ => trivial⟩)
      · rw [if_neg htransient]
        exact abides_pure _

theorem abides_commit (hs : s.Upholds admitted I U R G)
    (hw : I w) {u : WorkUnit} (hu : U w u []) :
    (s.commit u).Abides R G (fun _ _ => True) w :=
  hs.abides_commitRetrying hw _ (fun _ _ h' => hs.commit (hs.later h' hw hu)) _ _

theorem abides_commitDemoting (hs : s.Upholds admitted I U R G) (hw : I w) {u : WorkUnit}
    (hu : U w u []) : (s.commitDemoting u).Abides R G (fun _ _ => True) w := by
  unfold commitDemoting
  refine hs.bind hw (hs.abides_commit hw hu) fun answer w₁ hw₁ h₁ _ => ?_
  split
  · rename_i promoter
    split
    · exact abides_pure _
    have hstage : (stageWith u fun staging => ((), staging.demoteTransitions
        (.switchRejected promoter) staging.now)).Abides R G (fun a w' => U w' a.2 []) w₁ :=
      hs.abides_stage hw₁
        (fun _ hw' h' => hs.demote hw' (hs.later (hs.trans h₁ h') hw hu) rfl)
        fun _ _ _ h hw' hu' => hs.later h hw' hu'
    refine hs.bind hw₁ hstage fun a w₂ hw₂ _ hu₂ => ?_
    exact hs.bind hw₂ (hs.abides_commit hw₂ hu₂) fun _ _ _ _ _ => abides_pure _
  · exact abides_pure _

/-! ### Requests -/

theorem abides_record (hs : s.Upholds admitted I U R G) (hw : I w) {e : Event}
    (haccept : accept e = .ok ()) (hadmitted : admitted (.publish e)) :
    (s.record e).Abides R G (fun _ _ => True) w := by
  unfold record
  refine hs.bind hw (abides_aside hs fun _ => ⟨rfl, rfl⟩) fun known w₁ hw₁ _ _ => ?_
  split
  · exact abides_pure _
  have hstart : (startUnit e.promoterKey).Abides R G (fun u w' => U w' u [⟨e, 0⟩]) w₁ :=
    hs.abides_startUnit hw₁ fun _ hw' => hs.enter hw' haccept hadmitted
  refine hs.bind hw₁ hstart fun u w₂ hw₂ _ hu => ?_
  refine hs.bind hw₂ (hs.abides_dispatch hw₂ hu) fun a w₃ hw₃ _ hu => ?_
  obtain ⟨dispatch, u⟩ := a
  refine hs.bind hw₃ (hs.abides_commitDemoting hw₃ hu) fun a w₄ hw₄ _ _ => ?_
  obtain ⟨answer, u⟩ := a
  cases answer with
  | error error => exact hs.abides_finish hw₄ u _
  | ok receipt =>
    simp only []
    have hoffer : ∀ w, I w → (do
        perform (.offer u.notifications)
        finish u (.ok (.committed (reportOn e u receipt dispatch))) :
          Procedure (Except Error PublishOutcome)).Abides R G (fun _ _ => True) w := fun w hw =>
      hs.bind hw (hs.abides_aside fun _ => ⟨rfl, rfl⟩) fun _ _ hw' _ _ =>
        hs.abides_finish hw' u _
    split
    · exact hs.bind hw₄ (hs.abides_aside fun _ => ⟨rfl, rfl⟩) fun _ w₅ hw₅ _ _ => hoffer w₅ hw₅
    · exact hoffer w₄ hw₄

theorem abides_publish (hs : s.Upholds admitted I U R G)
    (hw : I w) {e : Event} (hadmitted : admitted (.publish e)) :
    (s.publish e).Abides R G (fun _ _ => True) w := by
  unfold publish
  cases haccept : accept e with
  | error error => exact abides_pure _
  | ok _ => exact hs.abides_withLocks hw _ fun _ hw' _ => hs.abides_record hw' haccept hadmitted

theorem abides_commitSwitch (hs : s.Upholds admitted I U R G)
    (hw : I w) {c : Context} {k : PromoterKey} {t : Transition}
    (hu : ∀ w', I w' → R w w' → G w' (w'.perform (.commit
      (((WorkUnit.start c).holdPermit k).stageTransition ⟨t, none, none, 0⟩))).2) :
    (s.commitSwitch c k t).Abides R G (fun _ _ => True) w := by
  unfold commitSwitch
  refine hs.bind hw (hs.abides_commitRetrying hw _ hu _ _) fun answer w₁ hw₁ _ _ => ?_
  split
  · exact hs.abides_finish hw₁ _ _
  · exact hs.bind hw₁ (hs.abides_aside fun _ => ⟨rfl, rfl⟩) fun _ _ hw' _ _ =>
      hs.abides_finish hw' _ _

theorem abides_switchCircle (hs : s.Upholds admitted I U R G) (hw : I w) (k : PromoterKey)
    (target : CircleId) : (s.switchCircle k target).Abides R G (fun _ _ => True) w := by
  have hrelease : ∀ {w} (answer : Except Error SwitchOutcome), I w → (do
      perform (.releasePermits [k])
      return answer : Procedure (Except Error SwitchOutcome)).Abides R G (fun _ _ => True) w :=
    fun answer hw =>
      hs.bind hw (hs.abides_aside fun _ => ⟨rfl, rfl⟩) fun _ _ _ _ _ => abides_pure _
  have hacquire : ∀ w : World, (w.perform (.acquirePermit k)).2.store = w.store ∧
      (w.perform (.acquirePermit k)).2.ids = w.ids := by
    intro w
    simp only [World.perform]
    split <;> exact ⟨rfl, rfl⟩
  unfold switchCircle
  refine hs.bind hw (hs.abides_aside hacquire) fun acquired w₁ hw₁ _ _ => ?_
  split
  · exact abides_pure _
  refine hs.bind hw₁ ((looks_read _ w₁).abides hs.still) fun c w₃ hw₃ _ hc => ?_
  obtain ⟨w₂, h₂, h₃, rfl⟩ := hc
  have hw₂ := hs.keeps h₂ hw₁
  refine hs.bind hw₃ (hs.abides_aside fun _ => ⟨rfl, rfl⟩) fun now w₄ hw₄ h₄ _ => ?_
  split
  · exact hrelease _ hw₄
  · rename_i t hswitch
    refine hs.abides_commitSwitch hw₄ fun w' _ h' => hs.move hswitch ?_
    exact hs.later (hs.trans (hs.trans h₃ h₄) h') hw₂ (hs.start k hw₂)
  · exact hrelease _ hw₄
  · exact hrelease _ hw₄

theorem abides_stillFailing (hs : s.Upholds admitted I U R G)
    (hw : I w) (f : Failure) (error : Error) :
    (s.stillFailing f error).Abides R G (fun _ _ => True) w := by
  unfold stillFailing
  refine hs.bind hw (hs.abides_startUnit hw fun _ => hs.start _) fun u w₁ hw₁ _ hu => ?_
  exact hs.bind hw₁ (hs.abides_commit hw₁ (hs.attempt f.id hu)) fun _ _ _ _ _ => abides_pure _

theorem abides_resolveOnly (hs : s.Upholds admitted I U R G) (hw : I w) {f : Failure}
    (hadmitted : admitted (.retry f.id)) (transitions : List Transition) :
    (s.resolveOnly f transitions).Abides R G (fun _ _ => True) w := by
  unfold resolveOnly
  refine hs.bind hw (hs.abides_startUnit hw fun _ => hs.start _) fun u w₁ hw₁ _ hu => ?_
  exact hs.bind hw₁ (hs.abides_commit hw₁ (hs.resolve hadmitted hu)) fun _ _ _ _ _ => abides_pure _

theorem abides_sourceEvent (hs : s.Upholds admitted I U R G) (hw : I w) (f : Failure) :
    (sourceEvent f).Abides R G
      (fun answer w' => ∀ e, answer = .ok e → w'.Once I (·.IsSource f e)) w := by
  unfold sourceEvent
  split
  · exact fun _ _ _ h => by cases h
  · rename_i id hid
    refine hs.bind hw (hs.abides_read hw _) fun stored w₁ _ _ hread => ?_
    cases stored with
    | none => exact fun _ _ _ h => by cases h
    | some stored =>
      intro w₂ h₂ e he
      cases he
      obtain ⟨w₀, h₀, hfollows, hstored⟩ := hread
      have hsource : w₁.Once I (·.IsSource f stored.event) :=
        ⟨w₀, h₀, hfollows, id, stored, hid, hstored.symm, rfl⟩
      exact hs.once hsource h₂

theorem abides_settleRetry (hs : s.Upholds admitted I U R G) (hw : I w) {f : Failure}
    (hadmitted : admitted (.retry f.id)) {result : Except Error (List Event)} {u : WorkUnit}
    (hu : ∀ children, result = .ok children → U w u (children.map (⟨·, f.depth.next⟩))) :
    (s.settleRetry f result u).Abides R G (fun _ _ => True) w := by
  unfold settleRetry
  cases result with
  | error error =>
    exact hs.bind hw (hs.abides_stillFailing hw f error) fun _ _ hw' _ _ =>
      hs.abides_finish hw' u _
  | ok children =>
    refine hs.bind hw (hs.abides_dispatchEach hw (hu children rfl)) fun u w₁ hw₁ _ hu => ?_
    refine hs.bind hw₁ (hs.abides_commitDemoting hw₁ (hs.resolve hadmitted hu))
      fun a w₂ hw₂ _ _ => ?_
    obtain ⟨answer, u⟩ := a
    cases answer with
    | error error => exact hs.abides_finish hw₂ u _
    | ok receipt =>
      exact hs.bind hw₂ (hs.abides_aside fun _ => ⟨rfl, rfl⟩) fun _ _ hw' _ _ =>
        hs.abides_finish hw' u _

theorem abides_retryEffect (hs : s.Upholds admitted I U R G) (hw : I w) {f : Failure}
    (hadmitted : admitted (.retry f.id)) (hf : w.Once I (f ∈ ·.failures)) :
    (s.retryEffect f).Abides R G (fun _ _ => True) w := by
  unfold retryEffect
  split
  · rename_i effect rule heffect _
    refine hs.bind hw (hs.abides_sourceEvent hw f) fun source w₁ hw₁ h₁ hsource => ?_
    cases source with
    | error error => exact abides_pure _
    | ok e =>
      refine hs.abides_withLocks hw₁ _ fun w₂ hw₂ h₂ => ?_
      refine hs.bind hw₂ (hs.abides_startUnit hw₂ fun _ => hs.start _) fun u w₃ hw₃ h₃ hu => ?_
      have hstored : w₃.Once I (f ∈ ·.failures) := hs.once hf (hs.trans (hs.trans h₁ h₂) h₃)
      have hlogged : w₃.Once I (·.IsSource f e) := hs.once (hsource e rfl) (hs.trans h₂ h₃)
      have hfire : (stageWith u fun staging =>
          staging.fire s.config e rule effect f.depth).Abides R G (fun a w' => ∀ emitted,
            a.1 = .ok emitted → U w' a.2 (emitted.toList.map (⟨·, f.depth.next⟩))) w₃ :=
        hs.abides_stage hw₃
          (fun _ hw' h' => hs.fire hw' (hs.once hstored h') (hs.once hlogged h') heffect
            (hs.later h' hw₃ hu) rfl)
          fun _ _ _ h hw' hu' emitted hok => hs.later h hw' (hu' emitted hok)
      refine hs.bind hw₃ hfire fun a w₄ hw₄ _ hu => hs.abides_settleRetry hw₄ hadmitted ?_
      intro children hchildren
      cases hfired : a.1 with
      | error refusal =>
        simp [hfired, Except.mapError, Except.map] at hchildren
      | ok emitted =>
        simp only [hfired, Except.mapError, Except.map, Except.ok.injEq] at hchildren
        exact hchildren ▸ hu emitted hfired
  · exact abides_pure _

theorem abides_retryHandler (hs : s.Upholds admitted I U R G)
    (hw : I w) {f : Failure} (hadmitted : admitted (.retry f.id)) {name : String}
    (hname : name ≠ aggregatesHandler.name) :
    (s.retryHandler f name).Abides R G (fun _ _ => True) w := by
  unfold retryHandler
  split
  · exact abides_pure _
  · rename_i position h hfind
    refine hs.bind hw (hs.abides_sourceEvent hw f) fun source w₁ hw₁ _ hsource => ?_
    cases source with
    | error error => exact abides_pure _
    | ok e =>
      refine hs.abides_withLocks hw₁ _ fun w₂ hw₂ h₂ => ?_
      refine hs.bind hw₂ (hs.abides_startUnit hw₂ fun _ => hs.start _) fun u w₃ hw₃ h₃ hu => ?_
      have hlogged : w₃.Once I (·.IsSource f e) := hs.once (hsource e rfl) (hs.trans h₂ h₃)
      have hcall : (callHandler position h u ⟨e, f.depth⟩).Abides R G (fun a w' => ∀ children,
          a.1 = .ok children → U w' a.2 (children.map (⟨·, f.depth.next⟩))) w₃ :=
        hs.abides_stage hw₃
          (fun _ hw' h' =>
            hs.call hw' (hs.once hlogged h') (hs.later h' hw₃ hu) hname hfind rfl)
          fun _ _ _ h hw' hu' children hok => hs.later h hw' (hu' children hok)
      exact hs.bind hw₃ hcall fun a w₄ hw₄ _ hu => hs.abides_settleRetry hw₄ hadmitted hu

/-! ### Maintenance -/

theorem replaceTotals (hs : s.Upholds admitted I U R G) {scope : Scope} {book : Book} {asOf : ℕ}
    (h : s.ReadsOff w scope book asOf) : G w (w.perform (.replaceTotals scope book asOf)).2 := by
  simp only [World.perform]
  split
  · rename_i count store hstore
    exact hs.swap h hstore
  · exact hs.still w

theorem abides_replaceTotals (hs : s.Upholds admitted I U R G)
    (hw : I w) {w₀ : World} {scope : Scope}
    {book : Book} {asOf : ℕ} (h₀ : R w₀ w) (h : s.ReadsOff w₀ scope book asOf)
    (hasOf : asOf ≤ w₀.store.log.length) :
    (perform (.replaceTotals scope book asOf)).Abides R G (fun _ _ => True) w := by
  refine hs.abides_perform hw fun w' _ h' => ⟨hs.replaceTotals ⟨?_, h.empty⟩, fun _ _ _ => trivial⟩
  rw [(hs.follows (hs.trans h₀ h')).later.take_facts hasOf]
  exact h.tallies

/-- The book that is read off the log. -/
theorem abides_bookOfLog (hs : s.Upholds admitted I U R G)
    {cancelled : Procedure Bool} (hcancelled : IsCancellation cancelled)
    {w₀ : World} (hw : R w₀ w) (hnumbered : w₀.store.Numbered) (scope : Scope) :
    (bookOfLog s.config cancelled scope w₀.store.head).Abides R G
      (fun answer _ => ∀ a, answer = .ok a → s.ReadsOff w₀ scope a.1 w₀.store.head) w := by
  by_cases hbatch : s.config.batchSize = 0
  · have hempty := foldLog_zero hs.rely hcancelled scope w₀.store.head (w₀.store.head + 1) 0 ∅ 0 w
    rw [bookOfLog, hbatch]
    exact Keeps.weaken hempty (fun w _ _ h => h ▸ hs.still w)
      fun _ _ h a ha => ⟨fun hne => (hne hbatch).elim, fun _ => h a ha⟩
  · have hlooks := looks_bookOfLog hs.rely hcancelled hbatch hw hnumbered scope
    exact Keeps.weaken (hlooks.abides hs.still) (fun _ _ _ h => h) fun _ _ h a ha =>
      ⟨fun _ => (h a ha).tallies hnumbered.head_eq.le (.refl _), fun hzero => (hbatch hzero).elim⟩

theorem abides_rebuild (hs : s.Upholds admitted I U R G) (hw : I w) {cancelled : Procedure Bool}
    (hcancelled : IsCancellation cancelled) (scope : Scope) :
    (rebuild s.config cancelled scope).Abides R G (fun _ _ => True) w := by
  unfold rebuild
  refine hs.bind hw ((looks_read _ w).abides hs.still) fun watermark w₂ hw₂ _ hread => ?_
  obtain ⟨w₁, h₁, h₂, rfl⟩ := hread
  have hnumbered := hs.numbered (hs.keeps h₁ hw)
  have hfold := hs.abides_bookOfLog hcancelled h₂ hnumbered scope
  refine hs.bind hw₂ hfold fun answer w₃ hw₃ h₃ hanswer => ?_
  cases answer with
  | error error => exact abides_pure _
  | ok a =>
    obtain ⟨book, folded⟩ := a
    refine hs.bind hw₃ ((hcancelled.looks w₃).abides hs.still) fun stop w₄ hw₄ h₄ _ => ?_
    split
    · exact abides_pure _
    have hswap := hs.abides_replaceTotals hw₄ (hs.trans h₂ (hs.trans h₃ h₄)) (hanswer _ rfl)
      hnumbered.head_eq.le
    exact hs.bind hw₄ hswap fun _ _ _ _ _ => abides_pure _

theorem abides_verify (hs : s.Upholds admitted I U R G) (hw : I w) (scope : Scope) :
    (verify s.config scope).Abides R G (fun _ _ => True) w := by
  unfold verify
  refine hs.bind hw ((looks_read _ w).abides hs.still) fun snapshot w₂ hw₂ _ hread => ?_
  obtain ⟨w₁, h₁, h₂, rfl⟩ := hread
  have hnumbered := hs.numbered (hs.keeps h₁ hw)
  have hfold := hs.abides_bookOfLog (.inl rfl) h₂ hnumbered scope
  refine hs.bind hw₂ hfold fun answer w₃ hw₃ h₃ hanswer => ?_
  cases answer with
  | error error => exact abides_pure _
  | ok a =>
    obtain ⟨book, folded⟩ := a
    simp only []
    split
    · exact abides_pure _
    have hreads : s.ReadsOff w₁ scope (book.restrict scope) w₁.store.head :=
      (hanswer _ rfl).restrict
    have hswap := hs.abides_replaceTotals hw₃ (hs.trans h₂ h₃) hreads hnumbered.head_eq.le
    refine hs.bind hw₃ hswap fun answer _ _ _ _ => ?_
    cases answer with
    | error error => exact abides_pure _
    | ok count => exact abides_pure _

theorem abides_retryByRebuild (hs : s.Upholds admitted I U R G) (hw : I w) {f : Failure}
    (hadmitted : admitted (.retry f.id)) :
    (s.retryByRebuild f).Abides R G (fun _ _ => True) w := by
  unfold retryByRebuild
  refine hs.bind hw (hs.abides_rebuild hw (.inl rfl) _)
    fun answer w₁ hw₁ _ _ => ?_
  cases answer with
  | error error => exact hs.abides_stillFailing hw₁ f error
  | ok report => exact hs.abides_resolveOnly hw₁ hadmitted []

theorem abides_retrySwitch (hs : s.Upholds admitted I U R G) (hw : I w) {f : Failure}
    (hadmitted : admitted (.retry f.id)) :
    (s.retrySwitch f).Abides R G (fun _ _ => True) w := by
  unfold retrySwitch
  split
  · refine hs.bind hw (hs.abides_switchCircle hw _ _) fun answer w₁ hw₁ _ _ => ?_
    split
    · exact hs.abides_resolveOnly hw₁ hadmitted _
    · exact hs.abides_resolveOnly hw₁ hadmitted _
    · exact hs.abides_stillFailing hw₁ f _
    · exact hs.abides_stillFailing hw₁ f _
    · exact abides_pure _
  · exact abides_pure _

theorem abides_retry (hs : s.Upholds admitted I U R G) (hw : I w) {id : FailureId}
    (hadmitted : admitted (.retry id)) : (s.retry id).Abides R G (fun _ _ => True) w := by
  unfold retry
  refine hs.bind hw (hs.abides_read hw _) fun stored w₁ hw₁ _ hread => ?_
  cases stored with
  | none => exact abides_pure _
  | some f =>
    obtain ⟨w₀, h₀, hfollows, hstored⟩ := hread
    have hf : w₁.Once I (f ∈ ·.failures) :=
      ⟨w₀, h₀, hfollows, List.mem_of_find?_eq_some hstored.symm⟩
    obtain rfl : f.id = id := by simpa using List.find?_some hstored.symm
    simp only []
    split
    · exact abides_pure _
    split
    · exact abides_pure _
    · exact hs.abides_retrySwitch hw₁ hadmitted
    · split
      · exact hs.abides_retryByRebuild hw₁ hadmitted
      · rename_i hname
        exact hs.abides_retryHandler hw₁ hadmitted hname
    · exact hs.abides_retryEffect hw₁ hadmitted hf

/-! ### All requests -/

/-- A change of the store that may be refused. -/
theorem abides_setUp (hs : s.Upholds admitted I U R G)
    {action : Action (Except Error Unit)} {change : World → Except Error Store}
    (hperform : ∀ w : World, w.perform action = w.updateStore (change w))
    (hchange : ∀ (w : World) store, change w = .ok store → G w { w with store }) :
    (perform action).Abides R G (fun _ _ => True) w := by
  refine keeps_perform fun w' _ _ => ⟨?_, fun _ _ => trivial⟩
  rw [hperform]
  unfold updateStore
  split
  · rename_i store hstore
    exact hchange w' store hstore
  · exact hs.still w'

theorem abides_serve (hs : s.Upholds admitted I U R G) (hw : I w) {r : Request}
    (hadmitted : r.Stays → admitted r) :
    (s.serve r).Abides R G (fun _ _ => True) w := by
  cases r with
  | putRule r =>
    exact hs.abides_setUp (fun _ => rfl) fun _ _ => hs.putRule (hadmitted fun _ _ h => by cases h)
  | putCircle c =>
    exact hs.abides_setUp (fun _ => rfl) fun _ _ => hs.putCircle (hadmitted fun _ _ h => by cases h)
  | assignCircle k circle => exact hs.abides_setUp (fun _ => rfl) fun _ _ => hs.assignCircle
  | publish e => exact hs.abides_publish hw (hadmitted fun _ _ h => by cases h)
  | retry failure => exact hs.abides_retry hw (hadmitted fun _ _ h => by cases h)
  | switchCircle k target => exact hs.abides_switchCircle hw k target
  | rebuild scope => exact hs.abides_rebuild hw (.inl rfl) scope
  | rebuildApart task scope => exact hs.abides_rebuild hw (.inr ⟨task, rfl⟩) scope
  | cancelRebuild task => exact hs.abides_aside fun _ => ⟨rfl, rfl⟩
  | verify scope => exact hs.abides_verify hw scope

/-- What is left of all requests goes on to stay within the relation, whatever comes next. -/
theorem next (hs : s.Upholds admitted I U R G) {t t' : Traffic} (ht : I t.world)
    (hadmitted : ∀ r : Request, r.Stays → t'.Receives r → admitted r)
    (htasks : ∀ task ∈ t.tasks, task.rest.Abides R G (fun _ _ => True) t.world)
    (h : s.Next t t') :
    G t.world t'.world ∧ ∀ task ∈ t'.tasks, task.rest.Abides R G (fun _ _ => True) t'.world :=
  Next.related hs.rely (fun _ _ => hs.within) (fun _ _ _ => hs.aside rfl le_rfl) hs.disturb
    (fun task htask => hs.abides_serve ht fun hstays => hadmitted _ hstays ⟨task, htask, rfl⟩)
    htasks h

/-- A run stays within the relation if what is left of the requests does so when it starts. -/
theorem reaches (hs : s.Upholds admitted I U R G) {t t' : Traffic} (ht : I t.world)
    (hadmitted : ∀ r : Request, r.Stays → t'.Receives r → admitted r)
    (htasks : ∀ task ∈ t.tasks, task.rest.Abides R G (fun _ _ => True) t.world)
    (h : s.Reaches t t') :
    R t.world t'.world ∧ ∀ task ∈ t'.tasks, task.rest.Abides R G (fun _ _ => True) t'.world := by
  induction h with
  | refl => exact ⟨hs.rely.refl _, htasks⟩
  | tail _ hnext ih =>
    obtain ⟨hsince, htasks⟩ := ih fun r hstays hr => hadmitted r hstays (hnext.receives hstays hr)
    obtain ⟨hstep, htasks'⟩ := hs.next (hs.keeps hsince ht) hadmitted htasks hnext
    exact ⟨hs.trans hsince (hs.within hstep), htasks'⟩

end Upholds

namespace Maintains

theorem receives_asked {t : Traffic} (hasked : ∀ e, t.Asks e → asked e) {r : Request}
    (hr : t.Receives r) : ∀ e, r = .publish e → asked e := by
  rintro e rfl
  exact hasked e hr

/-- What is left of all requests goes on to keep the invariant, whatever comes next. -/
theorem next (hs : s.Maintains asked I U) {t t' : Traffic} (ht : I t.world)
    (hasked : ∀ e, t'.Asks e → asked e)
    (htasks : ∀ task ∈ t.tasks, task.rest.Safely I (fun _ _ => True) t.world) (h : s.Next t t') :
    Follows I t.world t'.world ∧
      ∀ task ∈ t'.tasks, task.rest.Safely I (fun _ _ => True) t'.world :=
  hs.upholds.next ht (fun _ _ => receives_asked hasked) htasks h

/-- An invariant that all parts of a service keep holds in every state of every run, and no state
loses what was logged before. -/
theorem reaches (hs : s.Maintains asked I U) {t t' : Traffic} (hidle : t.tasks = [])
    (ht : I t.world) (hasked : ∀ e, t'.Asks e → asked e) (h : s.Reaches t t') :
    Follows I t.world t'.world :=
  (hs.upholds.reaches ht (fun _ _ => receives_asked hasked) (by simp [hidle]) h).1

end Maintains

end Service

end Referral
