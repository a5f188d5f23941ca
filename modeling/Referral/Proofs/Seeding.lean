import Referral.Intake
import Referral.Proofs.Serving

/-!
# Seeds

A seed is put into the store circle by circle and rule by rule. It may be loaded at any time, so
requests may come between its parts. All that it does is what requests for these parts would do, and
what parts of a service keep on all requests, they keep on loading as well.
-/

namespace Referral

/-- What a seed asks of the store. -/
def Seed.requests (s : Seed) : List Request := s.circles.map .putCircle ++ s.rules.map .putRule

/-- A seed and what is left to do to load it. -/
structure Loading : Type 1 where
  seed : Seed
  rest : Procedure (Except Error Unit)

/-- The requests and the seeds that came in so far, those that were dealt with included. -/
structure Inflow : Type 1 where
  traffic : Traffic
  loadings : List Loading

namespace Inflow

/-- The world at its beginning, when nothing came in. -/
def start (origin : Instant) (ids : IdSupply) : Inflow := ⟨⟨.start origin ids, []⟩, []⟩

/-- What was asked for, by a request or as a part of a seed. -/
def Receives (f : Inflow) (r : Request) : Prop :=
  f.traffic.Receives r ∨ ∃ l ∈ f.loadings, r ∈ l.seed.requests

end Inflow

namespace Service

variable {s : Service} {f f' : Inflow}

/-- What can happen next: what can happen to requests, a seed comes in, or one of them goes on by
one part. -/
inductive Flows (s : Service) : Inflow → Inflow → Prop
  | serve {t t' : Traffic} (loadings : List Loading) (step : s.Next t t') :
      Flows s ⟨t, loadings⟩ ⟨t', loadings⟩
  | arrive (t : Traffic) (loadings : List Loading) (seed : Seed) :
      Flows s ⟨t, loadings⟩ ⟨t, loadings ++ [⟨seed, seed.load⟩]⟩
  | load {w w' : World} {tasks : List Task} {before after : List Loading} {seed : Seed}
      {p p' : Procedure (Except Error Unit)} (step : p.Step w p' w') :
      Flows s ⟨⟨w, tasks⟩, before ++ ⟨seed, p⟩ :: after⟩
        ⟨⟨w', tasks⟩, before ++ ⟨seed, p'⟩ :: after⟩

/-- The states that a run may go through. -/
abbrev FlowsTo (s : Service) : Inflow → Inflow → Prop := Relation.ReflTransGen s.Flows

/-- What was asked for is not forgotten. -/
theorem Flows.receives (h : s.Flows f f') {r : Request} (hstays : r.Stays) (hr : f.Receives r) :
    f'.Receives r := by
  cases h with
  | serve loadings step => exact hr.imp_left (step.receives hstays)
  | arrive t loadings seed =>
    refine hr.imp_right fun ⟨l, hl, hmem⟩ => ?_
    exact ⟨l, List.mem_append_left _ hl, hmem⟩
  | @load w w' tasks before after seed p p' step =>
    refine hr.imp_right fun ⟨l, hl, hmem⟩ => ?_
    rcases List.mem_append.mp hl with hl | hl
    · exact ⟨l, List.mem_append_left _ hl, hmem⟩
    rcases List.mem_cons.mp hl with rfl | hl
    · exact ⟨⟨seed, p'⟩, List.mem_append_right _ List.mem_cons_self, hmem⟩
    · exact ⟨l, List.mem_append_right _ (List.mem_cons_of_mem _ hl), hmem⟩

/-! ## Runs -/

theorem FlowsTo.serve {t t' : Traffic} (loadings : List Loading) (h : s.Reaches t t') :
    s.FlowsTo ⟨t, loadings⟩ ⟨t', loadings⟩ := by
  induction h with
  | refl => exact .refl
  | tail _ step ih => exact ih.tail (.serve loadings step)

/-- A seed that comes in and is loaded as far as it can be, with nothing between its parts. -/
theorem FlowsTo.load (s : Service) (w : World) (tasks : List Task) (loadings : List Loading)
    (seed : Seed) : s.FlowsTo ⟨⟨w, tasks⟩, loadings⟩
      ⟨⟨(seed.load.goOn w).2, tasks⟩, loadings ++ [⟨seed, (seed.load.goOn w).1⟩]⟩ := by
  have hsteps : ∀ {p' : Procedure (Except Error Unit)} {w' : World}, seed.load.Steps w p' w' →
      s.FlowsTo ⟨⟨w, tasks⟩, loadings ++ [⟨seed, seed.load⟩]⟩
        ⟨⟨w', tasks⟩, loadings ++ [⟨seed, p'⟩]⟩ := by
    intro p' w' hsteps
    induction hsteps with
    | none => exact .refl
    | more _ step ih => exact ih.tail (.load step)
  exact .head (.arrive _ _ seed) (hsteps (Procedure.steps_goOn _ _))

/-! ## What loading keeps -/

open Procedure

variable {admitted : Request → Prop} {I : World → Prop} {U : World → WorkUnit → List Call → Prop}
  {R G : World → World → Prop} {w : World}

namespace Upholds

theorem abides_putCircles (hs : s.Upholds admitted I U R G) {cs : List Circle} (hw : I w)
    (hcs : ∀ c ∈ cs, admitted (.putCircle c)) :
    (Seed.putCircles cs).Abides R G (fun _ _ => True) w := by
  induction cs generalizing w with
  | nil => exact abides_pure _
  | cons c cs ih =>
    rw [List.forall_mem_cons] at hcs
    have hput : (perform (.putCircle c)).Abides R G (fun _ _ => True) w :=
      hs.abides_setUp (fun _ => rfl) fun _ _ => hs.putCircle hcs.1
    refine hs.bind hw hput fun answer w' hw' _ _ => ?_
    cases answer with
    | ok _ => exact ih hw' hcs.2
    | error _ => exact abides_pure _

theorem abides_putRules (hs : s.Upholds admitted I U R G) {rs : List Rule} (hw : I w)
    (hrs : ∀ r ∈ rs, admitted (.putRule r)) :
    (Seed.putRules rs).Abides R G (fun _ _ => True) w := by
  induction rs generalizing w with
  | nil => exact abides_pure _
  | cons r rs ih =>
    rw [List.forall_mem_cons] at hrs
    have hput : (perform (.putRule r)).Abides R G (fun _ _ => True) w :=
      hs.abides_setUp (fun _ => rfl) fun _ _ => hs.putRule hrs.1
    refine hs.bind hw hput fun answer w' hw' _ _ => ?_
    cases answer with
    | ok _ => exact ih hw' hrs.2
    | error _ => exact abides_pure _

theorem abides_load (hs : s.Upholds admitted I U R G) {seed : Seed} (hw : I w)
    (hseed : ∀ r ∈ seed.requests, admitted r) : seed.load.Abides R G (fun _ _ => True) w := by
  have hcircles : ∀ c ∈ seed.circles.filter (·.isDefault) ++ seed.circles.filter (!·.isDefault),
      admitted (.putCircle c) := by
    intro c hc
    have hmem : c ∈ seed.circles :=
      (List.mem_append.mp hc).elim List.mem_of_mem_filter List.mem_of_mem_filter
    exact hseed _ (List.mem_append_left _ (List.mem_map_of_mem hmem))
  have hrules : ∀ r ∈ seed.rules, admitted (.putRule r) := fun r hr =>
    hseed _ (List.mem_append_right _ (List.mem_map_of_mem hr))
  refine hs.bind hw (hs.abides_putCircles hw hcircles) fun answer w' hw' _ _ => ?_
  cases answer with
  | ok _ => exact hs.abides_putRules hw' hrules
  | error _ => exact abides_pure _

/-- All that is left of requests and seeds stays within the relation. -/
structure Continues (R G : World → World → Prop) (f : Inflow) : Prop where
  tasks : ∀ task ∈ f.traffic.tasks, task.rest.Abides R G (fun _ _ => True) f.traffic.world
  loadings : ∀ l ∈ f.loadings, l.rest.Abides R G (fun _ _ => True) f.traffic.world

theorem flow (hs : s.Upholds admitted I U R G) (hf : I f.traffic.world)
    (hadmitted : ∀ r : Request, r.Stays → f'.Receives r → admitted r) (hrest : Continues R G f)
    (h : s.Flows f f') : G f.traffic.world f'.traffic.world ∧ Continues R G f' := by
  cases h with
  | serve loadings step =>
    obtain ⟨hstep, htasks⟩ := hs.next hf (fun r hstays hr => hadmitted r hstays (.inl hr))
      hrest.tasks step
    exact ⟨hstep, htasks, fun l hl => (hrest.loadings l hl).later hs.rely (hs.within hstep)⟩
  | arrive t loadings seed =>
    refine ⟨hs.still _, hrest.tasks, fun l hl => ?_⟩
    rcases List.mem_append.mp hl with hl | hl
    · exact hrest.loadings l hl
    rw [List.mem_singleton] at hl
    subst hl
    refine hs.abides_load hf fun r hr => hadmitted r ?_ (.inr ⟨_, hl, hr⟩)
    rintro task scope rfl
    simp [Seed.requests] at hr
  | @load w w' tasks before after seed p p' step =>
    have hown := hrest.loadings ⟨seed, p⟩ (List.mem_append_right _ List.mem_cons_self)
    obtain ⟨hstep, hp'⟩ := hown.step hs.rely step
    have hlater := hs.within hstep
    refine ⟨hstep, fun task htask => (hrest.tasks task htask).later hs.rely hlater, fun l hl => ?_⟩
    rcases List.mem_append.mp hl with hl | hl
    · exact (hrest.loadings l (List.mem_append_left _ hl)).later hs.rely hlater
    rcases List.mem_cons.mp hl with rfl | hl
    · exact hp'
    · exact (hrest.loadings l (List.mem_append_right _ (List.mem_cons_of_mem _ hl))).later hs.rely
        hlater

/-- A run with seeds stays within the relation if all that is left when it starts does so. -/
theorem flowsTo (hs : s.Upholds admitted I U R G) (hf : I f.traffic.world)
    (hadmitted : ∀ r : Request, r.Stays → f'.Receives r → admitted r) (hrest : Continues R G f)
    (h : s.FlowsTo f f') : R f.traffic.world f'.traffic.world ∧ Continues R G f' := by
  induction h with
  | refl => exact ⟨hs.rely.refl _, hrest⟩
  | tail _ step ih =>
    obtain ⟨hsince, hrest'⟩ := ih fun r hstays hr => hadmitted r hstays (step.receives hstays hr)
    obtain ⟨hstep, hrest''⟩ := hs.flow (hs.keeps hsince hf) hadmitted hrest' step
    exact ⟨hs.trans hsince (hs.within hstep), hrest''⟩

end Upholds

end Service

end Referral
