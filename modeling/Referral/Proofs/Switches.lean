import Referral.Proofs.Demotion

/-!
# Switches side by side

Switches made by hand, published events, retries and changes to circles may be served side by side,
in any order of their actions. A note is kept of the permits that each request holds. In every state
that may be reached, every permit that is out is in the hands of one request, an accepted commit
makes moves from the circles in force, and refused moves of a published event become failure records
that are committed with the rest of it.
-/

namespace Referral

/-- A request and the permits that it holds. -/
structure Holder : Type 1 where
  task : Task
  held : List PromoterKey

/-- The requests that came in, each with its permits. -/
structure Custody : Type 1 where
  world : World
  holders : List Holder

/-- What is left of a request changes the store by its operations only and gives back what it holds.
A rebuild in the background holds nothing, and an event whose moves are refused is committed without
them. -/
structure Holder.Proper (h : Holder) : Prop where
  regular : h.task.rest.IsRegular
  carries : h.task.rest.Carries (fun held _ => held = []) h.held
  apart : ∀ task scope, h.task.request = .rebuildApart task scope →
    h.held = [] ∧ h.task.rest.Preserves World.permits fun _ => True
  demotes : ∀ e p, h.task = ⟨.publish e, p⟩ → p.AfterRefusal fun u q =>
    q.Recommits u.Demoted Service.Reports Service.Declines fun _ => False

namespace Custody

open Procedure Service

/-- The requests without the note of their permits. -/
def traffic (c : Custody) : Traffic := ⟨c.world, c.holders.map (·.task)⟩

/-- What can happen next, and what it does to the permits in the hands of the request that acts. -/
inductive Next (s : Service) : Custody → Custody → Prop
  | arrive (w : World) (holders : List Holder) (r : Request) :
      Next s ⟨w, holders⟩ ⟨w, holders ++ [⟨⟨r, s.serve r⟩, []⟩]⟩
  | act {w w' : World} {before after : List Holder} {r : Request} {p p' : Procedure r.Answer}
      {held : List PromoterKey} (step : p.Step w p' w') :
      Next s ⟨w, before ++ ⟨⟨r, p⟩, held⟩ :: after⟩
        ⟨w', before ++ ⟨⟨r, p'⟩, w.permits.handed w'.permits held⟩ :: after⟩
  | giveUp {w : World} {before after : List Holder} {task : TaskId} {scope : Scope}
      {p : Procedure RebuildResult} {held : List PromoterKey} :
      Next s ⟨w, before ++ ⟨⟨.rebuildApart task scope, p⟩, held⟩ :: after⟩ ⟨w, before ++ after⟩
  | pass (w : World) (holders : List Holder) (millis turns : ℕ) :
      Next s ⟨w, holders⟩
        ⟨{ w with elapsed := w.elapsed + millis, turns := w.turns + turns }, holders⟩
  | disturb (w : World) (holders : List Holder) (failingCommits scanDelay : ℕ) :
      Next s ⟨w, holders⟩
        ⟨{ w with store := { w.store with failingCommits, scanDelay } }, holders⟩

/-- The states that a run may go through. -/
abbrev Reaches (s : Service) : Custody → Custody → Prop := Relation.ReflTransGen (Next s)

variable {s : Service} {c c' : Custody}

/-! ## The note of permits -/

theorem Next.traffic (h : Next s c c') : s.Next c.traffic c'.traffic := by
  cases h with
  | arrive w holders r =>
    simp only [Custody.traffic, List.map_append]
    exact .arrive w _ r
  | act step =>
    simp only [Custody.traffic, List.map_append]
    exact .act step
  | giveUp =>
    simp only [Custody.traffic, List.map_append]
    exact .giveUp
  | pass w holders millis turns => exact .pass w _ millis turns
  | disturb w holders failingCommits scanDelay => exact .disturb w _ failingCommits scanDelay

/-- Whatever happens next, a note of it can be kept. -/
theorem exists_next {t : Traffic} (h : s.Next c.traffic t) :
    ∃ c', Next s c c' ∧ c'.traffic = t := by
  obtain ⟨w, holders⟩ := c
  generalize htraffic : (⟨w, holders⟩ : Custody).traffic = t₀ at h
  cases h with
  | arrive w tasks r =>
    cases htraffic
    exact ⟨_, .arrive w holders r, by simp [Custody.traffic]⟩
  | act step =>
    obtain ⟨rfl, htasks⟩ := Traffic.mk.inj htraffic
    obtain ⟨before, rest, rfl, rfl, hrest⟩ := List.map_eq_append_iff.mp htasks
    obtain ⟨⟨_, held⟩, after, rfl, rfl, rfl⟩ := List.map_eq_cons_iff.mp hrest
    exact ⟨_, .act step, by simp [Custody.traffic]⟩
  | giveUp =>
    obtain ⟨rfl, htasks⟩ := Traffic.mk.inj htraffic
    obtain ⟨before, rest, rfl, rfl, hrest⟩ := List.map_eq_append_iff.mp htasks
    obtain ⟨⟨_, held⟩, after, rfl, rfl, rfl⟩ := List.map_eq_cons_iff.mp hrest
    exact ⟨_, .giveUp, by simp [Custody.traffic]⟩
  | pass w tasks millis turns =>
    cases htraffic
    exact ⟨_, .pass w holders millis turns, rfl⟩
  | disturb w tasks failingCommits scanDelay =>
    cases htraffic
    exact ⟨_, .disturb w holders failingCommits scanDelay, rfl⟩

/-- The runs with the note are those without. -/
theorem reaches_iff {t : Traffic} :
    s.Reaches c.traffic t ↔ ∃ c', Reaches s c c' ∧ c'.traffic = t := by
  constructor
  · intro h
    induction h with
    | refl => exact ⟨c, .refl, rfl⟩
    | tail _ step ih =>
      obtain ⟨c₁, hrun, rfl⟩ := ih
      obtain ⟨c₂, hnext, rfl⟩ := exists_next step
      exact ⟨c₂, hrun.tail hnext, rfl⟩
  · rintro ⟨c', hrun, rfl⟩
    induction hrun with
    | refl => exact .refl
    | tail _ hnext ih => exact ih.tail hnext.traffic

/-! ## What each request keeps -/

theorem proper_serve (hbuiltIn : s.extra = []) (r : Request) :
    (⟨⟨r, s.serve r⟩, []⟩ : Holder).Proper where
  regular := s.isRegular_serve r
  carries := carries_serve hbuiltIn r
  apart := by
    rintro task scope rfl
    exact ⟨rfl, s.preserves_rebuildApart task scope⟩
  demotes := by
    rintro e _ ⟨⟩
    exact afterRefusal_publish hbuiltIn e

theorem proper_step {w w' : World} {r : Request} {p p' : Procedure r.Answer}
    {held : List PromoterKey} (h : (⟨⟨r, p⟩, held⟩ : Holder).Proper)
    (hheld : ∀ k ∈ held, k ∈ w.permits.out) (hstep : p.Step w p' w') :
    (⟨⟨r, p'⟩, w.permits.handed w'.permits held⟩ : Holder).Proper where
  regular := (h.regular.change hstep).1
  carries := (h.carries.step hheld hstep).2
  apart task scope hr := by
    obtain ⟨hnone, hpreserves⟩ := h.apart task scope hr
    obtain ⟨hsame, hrest⟩ := hpreserves.step hstep
    refine ⟨?_, hrest⟩
    rw [hsame, Permits.handed_self hheld]
    exact hnone
  demotes := by
    rintro e _ ⟨⟩
    exact (h.demotes e p rfl).step hstep

/-- Every permit that is out is in the hands of one request, and all requests keep to what is left
of them. -/
structure Sound (c : Custody) : Prop where
  nodup : (c.holders.flatMap (·.held)).Nodup
  out : ∀ k, k ∈ c.world.permits.out ↔ k ∈ c.holders.flatMap (·.held)
  proper : ∀ h ∈ c.holders, h.Proper

theorem sound_start {w : World} (hfree : w.permits.out = []) : Sound ⟨w, []⟩ where
  nodup := .nil
  out k := by simp [hfree]
  proper h hh := by cases hh

theorem Sound.next (hbuiltIn : s.extra = []) (h : c.Sound) (hnext : Next s c c') : c'.Sound := by
  cases hnext with
  | arrive w holders r =>
    refine ⟨?_, fun k => ?_, fun x hx => ?_⟩
    · simpa using h.nodup
    · simpa using h.out k
    · rcases List.mem_append.mp hx with hx | hx
      · exact h.proper x hx
      · rw [List.mem_singleton.mp hx]
        exact proper_serve hbuiltIn r
  | @act w w' before after r p p' held hstep =>
    -- the permits of the request that acts, and those of all others
    let rest := before.flatMap (·.held) ++ after.flatMap (·.held)
    have hsplit : ∀ x : Holder,
        ((before ++ x :: after).flatMap (·.held)).Perm (x.held ++ rest) := by
      intro x
      rw [List.flatMap_append, List.flatMap_cons]
      exact List.perm_append_comm_assoc _ _ _
    have hown := h.proper ⟨⟨r, p⟩, held⟩ (by simp)
    have hnodup : (held ++ rest).Nodup := (hsplit ⟨⟨r, p⟩, held⟩).nodup_iff.mp h.nodup
    have hout : ∀ k, k ∈ w.permits.out ↔ k ∈ held ++ rest := fun k =>
      (h.out k).trans (hsplit ⟨⟨r, p⟩, held⟩).mem_iff
    have hheld : ∀ k ∈ held, k ∈ w.permits.out := fun k hk =>
      (hout k).mpr (List.mem_append_left _ hk)
    obtain ⟨hnodup', hout'⟩ :=
      Permits.handed_append hnodup hout (hown.carries.step hheld hstep).1
    have hsplit' := hsplit ⟨⟨r, p'⟩, w.permits.handed w'.permits held⟩
    refine ⟨hsplit'.nodup_iff.mpr hnodup', fun k => (hout' k).trans hsplit'.mem_iff.symm, ?_⟩
    intro x hx
    rcases List.mem_append.mp hx with hx | hx
    · exact h.proper x (List.mem_append_left _ hx)
    rcases List.mem_cons.mp hx with rfl | hx
    · exact proper_step hown hheld hstep
    · exact h.proper x (List.mem_append_right _ (List.mem_cons_of_mem _ hx))
  | @giveUp w before after task scope p held =>
    obtain ⟨hnone, -⟩ := (h.proper ⟨⟨.rebuildApart task scope, p⟩, held⟩ (by simp)).apart _ _ rfl
    obtain rfl : held = [] := hnone
    refine ⟨?_, fun k => ?_, fun x hx => ?_⟩
    · simpa using h.nodup
    · simpa using h.out k
    · rcases List.mem_append.mp hx with hx | hx
      · exact h.proper x (List.mem_append_left _ hx)
      · exact h.proper x (List.mem_append_right _ (List.mem_cons_of_mem _ hx))
  | pass w holders millis turns => exact ⟨h.nodup, h.out, h.proper⟩
  | disturb w holders failingCommits scanDelay => exact ⟨h.nodup, h.out, h.proper⟩

theorem Reaches.sound (hbuiltIn : s.extra = []) {w : World} (hfree : w.permits.out = [])
    (hrun : Reaches s ⟨w, []⟩ c) : c.Sound := by
  induction hrun with
  | refl => exact sound_start hfree
  | tail _ hnext ih => exact ih.next hbuiltIn hnext

/-- Promoters come into other circles only by an accepted commit, or because they are placed. -/
theorem Sound.relocates (h : c.Sound) (hnext : Next s c c') :
    c.world.store.Relocates c'.world.store := by
  cases hnext with
  | @act w w' before after r p p' held hstep =>
    have hregular := (h.proper ⟨⟨r, p⟩, held⟩ (by simp)).regular
    obtain ⟨-, hsame | hchange⟩ := hregular.change hstep
    · exact .stays (congrArg Store.memberships hsame)
    · exact hchange.relocates
  | _ => exact .stays rfl

/-! ## The circles and permits of promoters -/

/-- What holds of switches in a state. -/
structure Orderly (s : Service) (c : Custody) : Prop where
  /-- Each move of a commit that is accepted now starts from the circle in force at its turn, and
  memberships are those after these moves. -/
  continues : ∀ {u : WorkUnit} {now : Instant} {receipt : Receipt} {store : Store},
    c.world.store.commit u now = (.ok receipt, store) → c.world.store.Continues u.moves ∧
      store.memberships = (u.moves.foldl Store.move c.world.store).memberships
  relocates : ∀ {c' : Custody}, Next s c c' → c.world.store.Relocates c'.world.store
  /-- No two requests, and none twice, hold a permit for the same promoter. -/
  nodup : (c.holders.flatMap (·.held)).Nodup
  /-- The permits that are out are those that requests hold. -/
  out : ∀ k, c.world.permits.isOut k = true ↔ ∃ h ∈ c.holders, k ∈ h.held
  ended : ∀ h ∈ c.holders, ∀ a, h.task.rest = .done a → h.held = []
  /-- If the moves of a published event are refused when it is committed, that leaves the store as
  it is, and the rest is committed at once with a record for each move, unless an error follows. -/
  demotes : ∀ {e : Event} {u : WorkUnit}
    {next : Except Error Receipt → Procedure (Except Error PublishOutcome)}
    {held : List PromoterKey} {promoter : PromoterId} {store : Store},
    ⟨⟨.publish e, .act (.commit u) next⟩, held⟩ ∈ c.holders →
    c.world.store.commit u c.world.now = (.error (.switchRejected promoter), store) →
    store = c.world.store ∧ (next (.error (.switchRejected promoter))).Recommits u.Demoted
      Reports Declines fun _ => False

theorem Sound.orderly (h : c.Sound) : c.Orderly s where
  continues hcommit := Store.continues_of_commit hcommit
  relocates := h.relocates
  nodup := h.nodup
  out k := by rw [Permits.isOut_iff, h.out, List.mem_flatMap]
  ended x hx a ha := by
    have hcarries := (h.proper x hx).carries
    rw [ha] at hcarries
    exact hcarries
  demotes {e u next held promoter store} hx hcommit := by
    have hrefused := (h.proper _ hx).demotes e _ rfl
    have hanswer : (c.world.store.commit u c.world.now).1 = .error (.switchRejected promoter) := by
      rw [hcommit]
    have hrest := (hrefused c.world rfl).1 u promoter rfl hanswer
    have hperform : (c.world.perform (.commit u)).1 = .error (.switchRejected promoter) := hanswer
    rw [hperform] at hrest
    exact ⟨(Store.commit_eq_switchRejected hcommit).1, hrest⟩

/-- However requests are interleaved, switches stay in order. -/
theorem switches_orderly (hbuiltIn : s.extra = []) {w : World} (hfree : w.permits.out = []) :
    (∀ t, s.Reaches ⟨w, []⟩ t ↔ ∃ c, Reaches s ⟨w, []⟩ c ∧ c.traffic = t) ∧
      ∀ c, Reaches s ⟨w, []⟩ c → c.Orderly s :=
  ⟨fun _ => reaches_iff (c := ⟨w, []⟩), fun _ hrun => (hrun.sound hbuiltIn hfree).orderly⟩

end Custody

/-! ## A refused move -/

namespace Procedure

variable {α : Type}

/-- A number of actions of a procedure, or as many as need not be waited for. -/
def advance : ℕ → Procedure α → World → Procedure α × World
  | n + 1, act action next, w =>
    if action.isReady w = true then advance n (next (w.perform action).1) (w.perform action).2
    else (act action next, w)
  | _, p, w => (p, w)

theorem steps_advance (n : ℕ) (p : Procedure α) (w : World) :
    p.Steps w (p.advance n w).1 (p.advance n w).2 := by
  induction n generalizing p w with
  | zero => exact .none
  | succ n ih =>
    cases p with
    | act action next =>
      by_cases hready : action.isReady w = true
      · simp only [advance, hready, if_true]
        exact Steps.trans (.more .none (.act hready)) (ih _ _)
      · simp only [advance, hready]
        exact .none
    | done a => exact .none
    | both first second next => exact .none

/-- The unit of work that a procedure commits next. -/
def pending? : Procedure α → Option WorkUnit
  | act action _ => action.unit?
  | _ => none

end Procedure

namespace Custody

open Procedure Service

/-- What is left of a publication that is about to commit a unit of work. -/
theorem eq_act_of_pending? {p : Procedure (Except Error PublishOutcome)} {u : WorkUnit}
    (h : p.pending? = some u) : ∃ next, p = .act (.commit u) next := by
  cases p with
  | act action next =>
    cases action with
    | commit u' =>
      cases h
      exact ⟨next, rfl⟩
    | _ => cases h
  | done a => cases h
  | both first second next => cases h

/-- A signup that moves its promoter on is dispatched, and the promoter is placed elsewhere before
the commit: the move is refused while its permit is out. -/
theorem refused_move_orderly : ∃ (s : Service) (w : World) (c : Custody), s.extra = [] ∧
    w.permits.out = [] ∧ Reaches s ⟨w, []⟩ c ∧ c.Orderly s ∧ c.world.permits.out = [⟨⟨3⟩, ⟨4⟩⟩] ∧
    ∃ h ∈ c.holders, ∃ (e : Event) (u : WorkUnit)
      (next : Except Error Receipt → Procedure (Except Error PublishOutcome)),
      h.task = ⟨.publish e, .act (.commit u) next⟩ ∧
      (c.world.store.commit u c.world.now).1 = .error (.switchRejected ⟨4⟩) := by
  let now : Instant := ⟨0, 0, by decide, by decide, by decide⟩
  let s : Service := ⟨.default, []⟩
  let e : Event := .signup ⟨1⟩ ⟨2⟩ ⟨3⟩ ⟨4⟩ ⟨5⟩ ⟨6⟩ now
  let r : Rule := ⟨⟨7⟩, ⟨3⟩, "promote", .signup, none, [], .switchCircle ⟨9⟩, true⟩
  let w : World := .start now ⟨100⟩
  let w₁ := s.afterEach w [.putRule r, .putCircle ⟨⟨8⟩, ⟨3⟩, "new", true⟩,
    .putCircle ⟨⟨9⟩, ⟨3⟩, "proven", false⟩]
  -- the signup takes its locks, is not known, and is dispatched on a unit of work
  let p := ((s.serve (.publish e)).advance 8 w₁).1
  let w₂ := ((s.serve (.publish e)).advance 8 w₁).2
  let placing : Request := .assignCircle e.promoterKey ⟨9⟩
  obtain ⟨tasks, hsetUp⟩ := s.reaches_afterEach w [] [.putRule r,
    .putCircle ⟨⟨8⟩, ⟨3⟩, "new", true⟩, .putCircle ⟨⟨9⟩, ⟨3⟩, "proven", false⟩]
  have hpublish : s.Reaches ⟨w₁, tasks⟩ ⟨w₂, tasks ++ [⟨.publish e, p⟩]⟩ :=
    .head (.arrive w₁ tasks (.publish e)) (Reaches.steps (steps_advance 8 _ w₁))
  have hplace := Service.Reaches.alone s w₂ (tasks ++ [⟨.publish e, p⟩]) placing
  obtain ⟨hnote, horderly⟩ := switches_orderly (s := s) rfl (w := w) rfl
  have hnoted : ∀ {w' : World} {tasks' : List Task}, s.Reaches ⟨w, []⟩ ⟨w', tasks'⟩ →
      ∃ c, Reaches s ⟨w, []⟩ c ∧ c.world = w' ∧ c.holders.map (·.task) = tasks' := by
    intro w' tasks' h
    obtain ⟨c, hrun, htraffic⟩ := (hnote _).mp h
    exact ⟨c, hrun, congrArg Traffic.world htraffic, congrArg Traffic.tasks htraffic⟩
  obtain ⟨c, hrun, hworld, htasks⟩ := hnoted ((hsetUp.trans hpublish).trans hplace)
  have hcommits : p.pending?.isSome = true := by decide +kernel
  obtain ⟨u, hu⟩ := Option.isSome_iff_exists.mp hcommits
  obtain ⟨next, hnext⟩ := eq_act_of_pending? hu
  have htask : (⟨.publish e, p⟩ : Task) ∈ c.holders.map (·.task) := by
    rw [htasks]
    simp
  obtain ⟨h, hh, htask⟩ := List.mem_map.mp htask
  refine ⟨s, w, c, rfl, rfl, hrun, horderly c hrun, ?_, h, hh, e, u, next, ?_, ?_⟩
  · rw [hworld]
    decide +kernel
  · exact htask.trans (congrArg (Task.mk (.publish e)) hnext)
  · have hrefused : (p.pending?.map fun u => (((s.serve placing).goOn w₂).2.store.commit u
        ((s.serve placing).goOn w₂).2.now).1) = some (.error (.switchRejected ⟨4⟩)) := by
      decide +kernel
    rw [hu] at hrefused
    rw [hworld]
    exact Option.some.inj hrefused

end Custody

end Referral
