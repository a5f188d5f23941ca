import Mathlib.Logic.Relation
import Mathlib.Tactic
import Referral.Proofs.Log
import Referral.Service

/-!
# Interleavings

Requests to a service are served side by side, one action at a time, in any order. A procedure is
shown to keep a relation on the world step by step, under the assumption that whatever happens
between two of its actions keeps that relation as well; if all requests do so, the relation holds
between the beginning of a run and each of its states.
-/

namespace Referral

namespace Procedure

/-- One action of a procedure, if it need not be waited for. -/
inductive Step : {α : Type} → Procedure α → World → Procedure α → World → Prop
  | act {α β : Type} {action : Action β} {next : β → Procedure α} {w : World}
      (ready : action.isReady w = true) :
      Step (.act action next) w (next (w.perform action).1) (w.perform action).2
  | first {α β γ : Type} {p p' : Procedure β} {q : Procedure γ} {next : β → γ → Procedure α}
      {w w' : World} (step : Step p w p' w') : Step (.both p q next) w (.both p' q next) w'
  | second {α β γ : Type} {p : Procedure β} {q q' : Procedure γ} {next : β → γ → Procedure α}
      {w w' : World} (step : Step q w q' w') : Step (.both p q next) w (.both p q' next) w'
  | join {α β γ : Type} {b : β} {c : γ} {next : β → γ → Procedure α} {w : World} :
      Step (.both (.done b) (.done c) next) w (next b c) w

/-- Any number of actions of a procedure. -/
inductive Steps {α : Type} (p : Procedure α) (w : World) : Procedure α → World → Prop
  | none : Steps p w p w
  | more {q q' : Procedure α} {w' w'' : World} (h : Steps p w q w') (step : q.Step w' q' w'') :
      Steps p w q' w''

theorem Steps.trans {α : Type} {p q r : Procedure α} {w w' w'' : World} (h : p.Steps w q w')
    (h' : q.Steps w' r w'') : p.Steps w r w'' := by
  induction h' with
  | none => exact h
  | more _ step ih => exact .more ih step

theorem Steps.first {α β γ : Type} {p p' : Procedure β} {q : Procedure γ}
    {next : β → γ → Procedure α} {w w' : World} (h : p.Steps w p' w') :
    (both p q next).Steps w (both p' q next) w' := by
  induction h with
  | none => exact .none
  | more _ step ih => exact .more ih (.first step)

theorem Steps.second {α β γ : Type} {p : Procedure β} {q q' : Procedure γ}
    {next : β → γ → Procedure α} {w w' : World} (h : q.Steps w q' w') :
    (both p q next).Steps w (both p q' next) w' := by
  induction h with
  | none => exact .none
  | more _ step ih => exact .more ih (.second step)

/-- Going on as far as possible is one of the ways to go on. -/
theorem steps_goOn {α : Type} (p : Procedure α) (w : World) :
    p.Steps w (p.goOn w).1 (p.goOn w).2 := by
  induction p generalizing w with
  | done a => exact .none
  | act action next ih =>
    by_cases hready : action.isReady w = true
    · simp only [goOn, hready, if_pos]
      exact Steps.trans (.more .none (.act hready)) (ih _ _)
    · simp only [goOn, hready]
      exact .none
  | both first second next ihFirst ihSecond ihNext =>
    have hboth : (both first second next).Steps w
        (both (first.goOn w).1 (second.goOn (first.goOn w).2).1 next)
        (second.goOn (first.goOn w).2).2 :=
      Steps.trans (Steps.first (ihFirst w)) (Steps.second (ihSecond _))
    simp only [goOn]
    split
    · rename_i b c hb hc
      have hfirst : (first.goOn w).1 = done b := by
        cases h : (first.goOn w).1 <;> simp_all [answer?]
      have hsecond : (second.goOn (first.goOn w).2).1 = done c := by
        cases h : (second.goOn (first.goOn w).2).1 <;> simp_all [answer?]
      rw [hfirst, hsecond] at hboth
      exact Steps.trans (.more hboth .join) (ihNext b c _)
    · exact hboth

/-- How far a procedure gets in the midst of others: `n` actions of its own, and between them
anything that the relation allows. -/
inductive Amid (others : World → World → Prop) {α : Type} (p : Procedure α) (w : World) :
    ℕ → Procedure α → World → Prop
  | start : Amid others p w 0 p w
  | others {n : ℕ} {q : Procedure α} {w' w'' : World} (h : Amid others p w n q w')
      (change : others w' w'') : Amid others p w n q w''
  | own {n : ℕ} {q q' : Procedure α} {w' w'' : World} (h : Amid others p w n q w')
      (step : q.Step w' q' w'') : Amid others p w (n + 1) q' w''

/-- Whatever happens between its actions within `R`, each action that the procedure does is one
that `P` allows, given what is left of the procedure, and it ends with an answer that `Q` allows.
A procedure that would run two others beside each other does not count. -/
def Keeps (R : World → World → Prop) : {α : Type} → (World → World → Procedure α → Prop) →
    (α → World → Prop) → Procedure α → World → Prop
  | _, _, Q, done a, w => ∀ w', R w w' → Q a w'
  | _, P, Q, act action next, w => ∀ w', R w w' → action.isReady w' = true →
      P w' (w'.perform action).2 (next (w'.perform action).1) ∧
      (next (w'.perform action).1).Keeps R P Q (w'.perform action).2
  | _, _, _, both _ _ _, _ => False

/-- A relation that may be taken for granted between a world and a later one: nothing that was
logged is lost, and time may go on. -/
structure Rely (R : World → World → Prop) : Prop where
  refl : ∀ w, R w w
  trans : ∀ w w' w'', R w w' → R w' w'' → R w w''
  later : ∀ w w', R w w' → w.store.Later w'.store

/-- Whatever happens between its actions within `R`, a procedure ends after so many of them. -/
def Within (R : World → World → Prop) : {α : Type} → ℕ → Procedure α → World → Prop
  | _, _, done _, _ => True
  | _, n, act action next, w => 0 < n ∧ ∀ w', R w w' → action.isReady w' = true →
      (next (w'.perform action).1).Within R (n - 1) (w'.perform action).2
  | _, _, both _ _ _, _ => False

section Keeps

variable {R : World → World → Prop} {α β : Type} {P : World → World → Procedure α → Prop}
  {Q : α → World → Prop} {w w' : World}

/-- What a procedure keeps, it still keeps after others acted. -/
theorem Keeps.later (hR : Rely R) {p : Procedure α} (h : p.Keeps R P Q w) (hw : R w w') :
    p.Keeps R P Q w' := by
  cases p with
  | done a => exact fun w'' hw'' => h w'' (hR.trans _ _ _ hw hw'')
  | act action next => exact fun w'' hw'' => h w'' (hR.trans _ _ _ hw hw'')
  | both first second next => exact h

theorem Keeps.weaken {P' : World → World → Procedure α → Prop} {Q' : α → World → Prop}
    {p : Procedure α} (h : p.Keeps R P Q w) (hP : ∀ w w' q, P w w' q → P' w w' q)
    (hQ : ∀ a w, Q a w → Q' a w) : p.Keeps R P' Q' w := by
  induction p generalizing w with
  | done a => exact fun w' hw' => hQ a w' (h w' hw')
  | act action next ih =>
    intro w' hw' hready
    obtain ⟨hstep, hnext⟩ := h w' hw' hready
    exact ⟨hP _ _ _ hstep, ih _ hnext hP hQ⟩
  | both first second next => exact h

/-- If the actions of a procedure keep to the relation as well, it holds from the beginning to the
end. -/
theorem Keeps.since (hR : Rely R) {p : Procedure α} (h : p.Keeps R P Q w)
    (hP : ∀ w w' q, P w w' q → R w w') {w₀ : World} (hw : R w₀ w) :
    p.Keeps R P (fun a w' => Q a w' ∧ R w₀ w') w := by
  induction p generalizing w with
  | done a => exact fun w' hw' => ⟨h w' hw', hR.trans _ _ _ hw hw'⟩
  | act action next ih =>
    intro w' hw' hready
    obtain ⟨hstep, hnext⟩ := h w' hw' hready
    exact ⟨hstep, ih _ hnext hP (hR.trans _ _ _ hw (hR.trans _ _ _ hw' (hP _ _ _ hstep)))⟩
  | both first second next => exact h

/-- One procedure after another: the answer of the first is what the second starts from. -/
theorem Keeps.bind {p : Procedure β} {f : β → Procedure α}
    {P₁ : World → World → Procedure β → Prop} {Q₁ : β → World → Prop}
    (hR : Rely R) (h : p.Keeps R P₁ Q₁ w)
    (hP : ∀ w w' q, P₁ w w' q → P w w' (q.andThen f))
    (hf : ∀ b w', Q₁ b w' → (f b).Keeps R P Q w') : (p >>= f).Keeps R P Q w := by
  induction p generalizing w with
  | done b => exact hf b w (h w (hR.refl w))
  | act action next ih =>
    intro w' hw' hready
    obtain ⟨hstep, hnext⟩ := h w' hw' hready
    exact ⟨hP _ _ _ hstep, ih _ hnext hP hf⟩
  | both first second next => exact h.elim

theorem keeps_perform {action : Action α}
    (h : ∀ w', R w w' → action.isReady w' = true →
      P w' (w'.perform action).2 (.done (w'.perform action).1) ∧
      ∀ w'', R (w'.perform action).2 w'' → Q (w'.perform action).1 w'') :
    (perform action).Keeps R P Q w := h

theorem Keeps.step {p q : Procedure α} (hR : Rely R) (h : p.Keeps R P Q w)
    (hstep : p.Step w q w') : P w w' q ∧ q.Keeps R P Q w' := by
  cases hstep with
  | act hready => exact h w (hR.refl w) hready
  | first => exact h.elim
  | second => exact h.elim
  | join => exact h.elim

theorem Keeps.amid {p q : Procedure α} {n : ℕ} (hR : Rely R) (h : p.Keeps R P Q w)
    (hrun : Amid R p w n q w') : q.Keeps R P Q w' := by
  induction hrun with
  | start => exact h
  | others _ hchange ih => exact ih.later hR hchange
  | own _ hstep ih => exact (ih.step hR hstep).2

/-! ### The number of actions -/

variable {m n : ℕ}

theorem Within.mono {p : Procedure α} (h : p.Within R m w) (hmn : m ≤ n) : p.Within R n w := by
  induction p generalizing m n w with
  | done a => trivial
  | act action next ih =>
    refine ⟨by have := h.1; omega, fun w' hw' hready => ?_⟩
    exact ih _ (h.2 w' hw' hready) (by omega)
  | both first second next => exact h

theorem Within.bind {p : Procedure β} {f : β → Procedure α}
    {P₁ : World → World → Procedure β → Prop} {Q₁ : β → World → Prop} (hR : Rely R)
    (hp : p.Within R m w) (h : p.Keeps R P₁ Q₁ w)
    (hf : ∀ b w', Q₁ b w' → (f b).Within R n w') : (p >>= f).Within R (m + n) w := by
  induction p generalizing m w with
  | done b => exact (hf b w (h w (hR.refl w))).mono (by omega)
  | act action next ih =>
    have hpos := hp.1
    refine ⟨by omega, fun w' hw' hready => ?_⟩
    have hnext := ih _ (hp.2 w' hw' hready) (h w' hw' hready).2 hf
    exact Within.mono hnext (by omega)
  | both first second next => exact h.elim

theorem Within.amid {p q : Procedure α} {k : ℕ} (hR : Rely R) (h : p.Within R n w)
    (hrun : Amid R p w k q w') : k ≤ n ∧ q.Within R (n - k) w' := by
  induction hrun with
  | start => exact ⟨Nat.zero_le _, h⟩
  | @others k q w' w'' _ hchange ih =>
    refine ⟨ih.1, ?_⟩
    have hq := ih.2
    cases q with
    | done a => trivial
    | act action next => exact ⟨hq.1, fun w'' hw'' => hq.2 w'' (hR.trans _ _ _ hchange hw'')⟩
    | both first second next => exact hq
  | own _ hstep ih =>
    have hq := ih.2
    cases hstep with
    | act hready =>
      have hpos := hq.1
      have hnext := hq.2 _ (hR.refl _) hready
      exact ⟨by omega, hnext.mono (by omega)⟩
    | first => exact hq.elim
    | second => exact hq.elim
    | join => exact hq.elim

end Keeps

end Procedure

/-! ## Requests -/

/-- What is asked of a service and its store. -/
inductive Request
  | putRule (r : Rule)
  | putCircle (c : Circle)
  | assignCircle (k : PromoterKey) (circle : CircleId)
  | publish (e : Event)
  | retry (failure : FailureId)
  | switchCircle (k : PromoterKey) (target : CircleId)
  | rebuild (scope : Scope)
  /-- A rebuild in the background, which its task may be told to call off. -/
  | rebuildApart (task : TaskId) (scope : Scope)
  | cancelRebuild (task : TaskId)
  | verify (scope : Scope)

/-- Whether a request stays, once it came in: a rebuild in the background may be given up. -/
def Request.Stays (r : Request) : Prop := ∀ task scope, r ≠ .rebuildApart task scope

/-- The answers to a request. -/
def Request.Answer : Request → Type
  | putRule _ | putCircle _ | assignCircle _ _ => Except Error Unit
  | publish _ => Except Error PublishOutcome
  | retry _ => Except Error RetryOutcome
  | switchCircle _ _ => Except Error SwitchOutcome
  | rebuild _ | rebuildApart _ _ => RebuildResult
  | cancelRebuild _ => Unit
  | verify _ => Except Error DriftReport

namespace Service

/-- How a request is served. -/
def serve (s : Service) : (r : Request) → Procedure r.Answer
  | .putRule r => .perform (.putRule r)
  | .putCircle c => .perform (.putCircle c)
  | .assignCircle k circle => .perform (.assignCircle k circle)
  | .publish e => s.publish e
  | .retry failure => s.retry failure
  | .switchCircle k target => s.switchCircle k target
  | .rebuild scope => .rebuildNow s.config scope
  | .rebuildApart task scope => .rebuildUntilCancelled s.config task scope
  | .cancelRebuild task => .perform (.cancelRebuild task)
  | .verify scope => .verify s.config scope

end Service

/-- A request and what is left to do for it. -/
structure Task : Type 1 where
  request : Request
  rest : Procedure request.Answer

/-- The world and the requests that came in so far, those that were answered included. -/
structure Traffic : Type 1 where
  world : World
  tasks : List Task

namespace Service

open Procedure (Rely)

/-- What can happen next: a request comes in, one of them goes on by one action, a rebuild in the
background is given up, time passes, or the store begins or ceases to fail commits or to be slow. -/
inductive Next (s : Service) : Traffic → Traffic → Prop
  | arrive (w : World) (tasks : List Task) (r : Request) :
      Next s ⟨w, tasks⟩ ⟨w, tasks ++ [⟨r, s.serve r⟩]⟩
  | act {w w' : World} {before after : List Task} {r : Request} {p p' : Procedure r.Answer}
      (step : p.Step w p' w') :
      Next s ⟨w, before ++ ⟨r, p⟩ :: after⟩ ⟨w', before ++ ⟨r, p'⟩ :: after⟩
  | giveUp {w : World} {before after : List Task} {task : TaskId} {scope : Scope}
      {p : Procedure RebuildResult} :
      Next s ⟨w, before ++ ⟨.rebuildApart task scope, p⟩ :: after⟩ ⟨w, before ++ after⟩
  | pass (w : World) (tasks : List Task) (millis turns : ℕ) :
      Next s ⟨w, tasks⟩
        ⟨{ w with elapsed := w.elapsed + millis, turns := w.turns + turns }, tasks⟩
  | disturb (w : World) (tasks : List Task) (failingCommits scanDelay : ℕ) :
      Next s ⟨w, tasks⟩ ⟨{ w with store := { w.store with failingCommits, scanDelay } }, tasks⟩

/-- The states that a run may go through. -/
abbrev Reaches (s : Service) : Traffic → Traffic → Prop := Relation.ReflTransGen s.Next

theorem Reaches.steps {s : Service} {w w' : World} {before after : List Task} {r : Request}
    {p p' : Procedure r.Answer} (h : p.Steps w p' w') :
    s.Reaches ⟨w, before ++ ⟨r, p⟩ :: after⟩ ⟨w', before ++ ⟨r, p'⟩ :: after⟩ := by
  induction h with
  | none => exact .refl
  | more _ step ih => exact .tail ih (.act step)

/-- A request that comes in and goes on alone as far as it can. -/
theorem Reaches.alone (s : Service) (w : World) (tasks : List Task) (r : Request) :
    s.Reaches ⟨w, tasks⟩
      ⟨((s.serve r).goOn w).2, tasks ++ [⟨r, ((s.serve r).goOn w).1⟩]⟩ :=
  .head (.arrive w tasks r) (Reaches.steps (Procedure.steps_goOn _ _))

/-- The world after requests that come in one after another, each when the last has gone on alone as
far as it can. -/
def afterEach (s : Service) (w : World) (rs : List Request) : World :=
  rs.foldl (fun w r => ((s.serve r).goOn w).2) w

theorem reaches_afterEach (s : Service) (w : World) (tasks : List Task) (rs : List Request) :
    ∃ tasks', s.Reaches ⟨w, tasks⟩ ⟨s.afterEach w rs, tasks'⟩ := by
  induction rs generalizing w tasks with
  | nil => exact ⟨tasks, .refl⟩
  | cons r rs ih =>
    obtain ⟨tasks', hrest⟩ := ih ((s.serve r).goOn w).2 (tasks ++ [⟨r, ((s.serve r).goOn w).1⟩])
    exact ⟨tasks', (Reaches.alone s w tasks r).trans hrest⟩

/-- If what is left of the requests does nothing but what `G` allows, whatever happens within `R`,
the next step is one that `G` allows. -/
theorem Next.related {s : Service} {R G : World → World → Prop} (hR : Rely R)
    (hG : ∀ w w', G w w' → R w w')
    (hpass : ∀ (w : World) (millis turns : ℕ),
      G w { w with elapsed := w.elapsed + millis, turns := w.turns + turns })
    (hdisturb : ∀ (w : World) (failingCommits scanDelay : ℕ),
      G w { w with store := { w.store with failingCommits, scanDelay } })
    {t t' : Traffic} (hserve : ∀ task ∈ t'.tasks,
      (s.serve task.request).Keeps R (fun w w' _ => G w w') (fun _ _ => True) t.world)
    (htasks : ∀ task ∈ t.tasks,
      task.rest.Keeps R (fun w w' _ => G w w') (fun _ _ => True) t.world)
    (h : s.Next t t') : G t.world t'.world ∧ ∀ task ∈ t'.tasks,
      task.rest.Keeps R (fun w w' _ => G w w') (fun _ _ => True) t'.world := by
  cases h with
  | arrive w tasks r =>
    refine ⟨hpass w 0 0, fun task htask => ?_⟩
    rcases List.mem_append.mp htask with hold | hnew
    · exact htasks task hold
    · have hserved := hserve task htask
      rw [List.mem_singleton.mp hnew] at hserved ⊢
      exact hserved
  | @act w w' before after r p p' hstep =>
    have hown := htasks ⟨r, p⟩ (List.mem_append_right _ List.mem_cons_self)
    obtain ⟨hw', hp'⟩ := hown.step hR hstep
    have hlater := hG _ _ hw'
    refine ⟨hw', fun task htask => ?_⟩
    rcases List.mem_append.mp htask with htask | htask
    · exact (htasks task (List.mem_append_left _ htask)).later hR hlater
    rcases List.mem_cons.mp htask with rfl | htask
    · exact hp'
    · exact (htasks task (List.mem_append_right _ (List.mem_cons_of_mem _ htask))).later hR hlater
  | @giveUp w before after =>
    refine ⟨hpass w 0 0, fun task htask => htasks task ?_⟩
    rcases List.mem_append.mp htask with htask | htask
    · exact List.mem_append_left _ htask
    · exact List.mem_append_right _ (List.mem_cons_of_mem _ htask)
  | pass w tasks millis turns =>
    have hw' := hpass w millis turns
    exact ⟨hw', fun task htask => (htasks task htask).later hR (hG _ _ hw')⟩
  | disturb w tasks failingCommits scanDelay =>
    have hw' := hdisturb w failingCommits scanDelay
    exact ⟨hw', fun task htask => (htasks task htask).later hR (hG _ _ hw')⟩

end Service

/-- The requests that came in. -/
def Traffic.Receives (t : Traffic) (r : Request) : Prop := ∃ task ∈ t.tasks, task.request = r

/-- The events that were to be published, whether they were or not. -/
def Traffic.Asks (t : Traffic) (e : Event) : Prop := ∃ task ∈ t.tasks, task.request = .publish e

namespace Service

/-- A request is not forgotten, unless it is a rebuild in the background that is given up. -/
theorem Next.receives {s : Service} {t t' : Traffic} (h : s.Next t t') {r : Request}
    (hstays : r.Stays) (hr : t.Receives r) : t'.Receives r := by
  obtain ⟨task, htask, hrequest⟩ := hr
  cases h with
  | arrive => exact ⟨task, List.mem_append_left _ htask, hrequest⟩
  | @act w w' before after r p p' =>
    rcases List.mem_append.mp htask with htask | htask
    · exact ⟨task, List.mem_append_left _ htask, hrequest⟩
    rcases List.mem_cons.mp htask with rfl | htask
    · exact ⟨⟨r, p'⟩, List.mem_append_right _ List.mem_cons_self, hrequest⟩
    · exact ⟨task, List.mem_append_right _ (List.mem_cons_of_mem _ htask), hrequest⟩
  | giveUp =>
    rcases List.mem_append.mp htask with htask | htask
    · exact ⟨task, List.mem_append_left _ htask, hrequest⟩
    rcases List.mem_cons.mp htask with rfl | htask
    · exact (hstays _ _ hrequest.symm).elim
    · exact ⟨task, List.mem_append_right _ htask, hrequest⟩
  | pass => exact ⟨task, htask, hrequest⟩
  | disturb => exact ⟨task, htask, hrequest⟩

theorem Reaches.receives {s : Service} {t t' : Traffic} (h : s.Reaches t t') {r : Request}
    (hstays : r.Stays) (hr : t.Receives r) : t'.Receives r := by
  induction h with
  | refl => exact hr
  | tail _ hnext ih => exact hnext.receives hstays ih

/-- A request to publish is not forgotten. -/
theorem Next.asks {s : Service} {t t' : Traffic} (h : s.Next t t') {e : Event} (he : t.Asks e) :
    t'.Asks e := h.receives (fun _ _ h => by cases h) he

end Service

end Referral
