import Referral.Proofs.Serving

/-!
# Courses of requests

What a request did in the midst of others is a list of deeds: its own actions, each with the world
in which it was done. The course of a procedure that is made of parts is made of their courses. In
any interleaving of requests, each of them has a course in which everything else is what the others
may do.
-/

namespace Referral

/-- An action, and the world in which it was done. -/
structure Deed : Type 1 where
  world : World
  {answer : Type}
  action : Action answer

namespace Procedure

/-- How far a procedure gets in the midst of others, and what it does itself: between its own
actions anything may happen that the relation allows. -/
inductive Comes (R : World → World → Prop) {α : Type} (p : Procedure α) (w : World) :
    List Deed → Procedure α → World → Prop
  | start : Comes R p w [] p w
  | others {deeds : List Deed} {q : Procedure α} {w' w'' : World} (h : Comes R p w deeds q w')
      (change : R w' w'') : Comes R p w deeds q w''
  | own {β : Type} {deeds : List Deed} {action : Action β} {next : β → Procedure α} {w' : World}
      (h : Comes R p w deeds (.act action next) w') (ready : action.isReady w' = true) :
      Comes R p w (deeds ++ [⟨w', action⟩]) (next (w'.perform action).1) (w'.perform action).2

/-- A procedure ends with an answer in the midst of others. -/
abbrev Finishes (R : World → World → Prop) {α : Type} (p : Procedure α) (w : World)
    (deeds : List Deed) (a : α) (w' : World) : Prop := p.Comes R w deeds (.done a) w'

section Courses

variable {R : World → World → Prop} {α β : Type} {w w' : World} {deeds : List Deed}

/-- A course that goes on from where another one has come. -/
theorem Comes.trans {p q q' : Procedure α} {more : List Deed} {w'' : World}
    (h : p.Comes R w deeds q w') (h' : q.Comes R w' more q' w'') :
    p.Comes R w (deeds ++ more) q' w'' := by
  induction h' with
  | start => rwa [List.append_nil]
  | others _ change ih => exact .others ih change
  | own _ ready ih =>
    rw [← List.append_assoc]
    exact .own ih ready

/-- One procedure after another: either the first goes on, or the second has begun. -/
theorem Comes.of_bind {p : Procedure β} {f : β → Procedure α} {q : Procedure α}
    (h : (p >>= f).Comes R w deeds q w') :
    (∃ p', p.Comes R w deeds p' w' ∧ q = p' >>= f) ∨
    ∃ b v first second, deeds = first ++ second ∧ p.Finishes R w first b v ∧
      (f b).Comes R v second q w' := by
  induction h with
  | start => exact .inl ⟨p, .start, rfl⟩
  | others _ change ih =>
    rcases ih with ⟨p', hp', rfl⟩ | ⟨b, v, first, second, rfl, hp, hf⟩
    · exact .inl ⟨p', .others hp' change, rfl⟩
    · exact .inr ⟨b, v, first, second, rfl, hp, .others hf change⟩
  | @own _ _ action next v _ ready ih =>
    rcases ih with ⟨p', hp', heq⟩ | ⟨b, v, first, second, rfl, hp, hf⟩
    · cases p' with
      | done b =>
        have hf : f b = .act action next := heq.symm
        have hbegun : (f b).Comes R v [] (.act action next) v := by
          rw [hf]
          exact .start
        exact .inr ⟨b, v, _, _, rfl, hp', hbegun.own ready⟩
      | act action next =>
        cases heq
        exact .inl ⟨_, .own hp' ready, rfl⟩
      | both first second next => cases heq
    · exact .inr ⟨b, v, first, _, List.append_assoc _ _ _, hp, .own hf ready⟩

theorem Finishes.of_bind {p : Procedure β} {f : β → Procedure α} {a : α}
    (h : (p >>= f).Finishes R w deeds a w') :
    ∃ b v first second, deeds = first ++ second ∧ p.Finishes R w first b v ∧
      (f b).Finishes R v second a w' := by
  rcases Comes.of_bind h with ⟨p', hp', heq⟩ | hparts
  · cases p' with
    | done b =>
      have hf : f b = done a := heq.symm
      refine ⟨b, w', deeds, [], (List.append_nil _).symm, hp', ?_⟩
      rw [hf]
      exact .start
    | act action next => cases heq
    | both first second next => cases heq
  · exact hparts

variable (hR : Rely R)

include hR

theorem Comes.of_done {a : α} {q : Procedure α} (h : (done a).Comes R w deeds q w') :
    deeds = [] ∧ q = done a ∧ R w w' := by
  induction h with
  | start => exact ⟨rfl, rfl, hR.refl w⟩
  | others _ change ih => exact ⟨ih.1, ih.2.1, hR.trans _ _ _ ih.2.2 change⟩
  | own _ _ ih => cases ih.2.1

/-- A procedure that has ended does nothing more. -/
theorem Finishes.of_done {a b : α} (h : (done a).Finishes R w deeds b w') :
    deeds = [] ∧ b = a ∧ R w w' := by
  obtain ⟨hdeeds, heq, hw⟩ := Comes.of_done hR h
  cases heq
  exact ⟨hdeeds, rfl, hw⟩

theorem Comes.of_act {action : Action β} {next : β → Procedure α} {q : Procedure α}
    (h : (act action next).Comes R w deeds q w') :
    (deeds = [] ∧ q = act action next ∧ R w w') ∨
    ∃ v rest, deeds = ⟨v, action⟩ :: rest ∧ R w v ∧ action.isReady v = true ∧
      (next (v.perform action).1).Comes R (v.perform action).2 rest q w' := by
  induction h with
  | start => exact .inl ⟨rfl, rfl, hR.refl w⟩
  | others _ change ih =>
    rcases ih with ⟨hnone, hq, hw⟩ | ⟨v, rest, hdeeds, hv, hready, hrest⟩
    · exact .inl ⟨hnone, hq, hR.trans _ _ _ hw change⟩
    · exact .inr ⟨v, rest, hdeeds, hv, hready, .others hrest change⟩
  | own _ ready ih =>
    rcases ih with ⟨rfl, hq, hw⟩ | ⟨v, rest, rfl, hv, hready, hrest⟩
    · cases hq
      exact .inr ⟨_, [], rfl, hw, ready, .start⟩
    · exact .inr ⟨v, _, rfl, hv, hready, .own hrest ready⟩

/-- A procedure that does one action, and what is left of it. -/
theorem Finishes.of_act {action : Action β} {next : β → Procedure α} {a : α}
    (h : (act action next).Finishes R w deeds a w') :
    ∃ v rest, deeds = ⟨v, action⟩ :: rest ∧ R w v ∧ action.isReady v = true ∧
      (next (v.perform action).1).Finishes R (v.perform action).2 rest a w' := by
  rcases Comes.of_act hR h with ⟨-, heq, -⟩ | hact
  · cases heq
  · exact hact

theorem Finishes.of_perform {action : Action α} {a : α}
    (h : (perform action).Finishes R w deeds a w') :
    ∃ v, deeds = [⟨v, action⟩] ∧ R w v ∧ a = (v.perform action).1 ∧
      R (v.perform action).2 w' := by
  obtain ⟨v, rest, rfl, hv, -, hrest⟩ := Finishes.of_act hR h
  obtain ⟨rfl, ha, hw'⟩ := Finishes.of_done hR hrest
  exact ⟨v, rfl, hv, ha, hw'⟩

end Courses

end Procedure

/-- If one list is another with an element put in front, an element of it is that one, or it is in
the rest, where it may be replaced. -/
theorem perm_cons_cases {α : Type*} {x y : α} {before after rest : List α}
    (h : (before ++ x :: after).Perm (y :: rest)) :
    (x = y ∧ (before ++ after).Perm rest) ∨
    ∃ others, rest.Perm (x :: others) ∧ ∀ z, (before ++ z :: after).Perm (y :: z :: others) := by
  have hmoved : (x :: (before ++ after)).Perm (y :: rest) := List.perm_middle.symm.trans h
  rcases List.mem_cons.mp (hmoved.symm.subset List.mem_cons_self) with rfl | hother
  · exact .inl ⟨rfl, hmoved.cons_inv⟩
  · obtain ⟨first, last, hsplit⟩ := List.append_of_mem hother
    have hfront : ∀ z, (before ++ z :: after).Perm (y :: z :: (first ++ last)) := by
      intro z
      refine List.perm_middle.trans ?_
      rw [hsplit]
      exact (List.perm_middle.cons z).trans (.swap y z _)
    exact .inr ⟨first ++ last, (h.symm.trans (hfront x)).cons_inv, hfront⟩

namespace Service

open Procedure

namespace Upholds

variable {s : Service} {all admitted : Request → Prop} {I : World → Prop}
  {U U' : World → WorkUnit → List Call → Prop} {R G G' : World → World → Prop}

/-- In every state of a run, each request has a course in which everything else is within what the
others do, if what they do is upheld. -/
theorem exists_course (hall : s.Upholds all I U' R G') (hany : ∀ r, all r)
    (hs : s.Upholds admitted I U R G) {w₀ : World} (hw₀ : I w₀) {t : Traffic}
    (hrun : s.Reaches ⟨w₀, []⟩ t) {r : Request} {p : Procedure r.Answer} {others : List Task}
    (htasks : t.tasks.Perm (⟨r, p⟩ :: others))
    (hothers : ∀ task ∈ others, task.request.Stays → admitted task.request) :
    (∀ task ∈ others, task.rest.Abides R G (fun _ _ => True) t.world) ∧
    ∃ t₀ deeds, s.Reaches ⟨w₀, []⟩ t₀ ∧ (s.serve r).Comes G t₀.world deeds p t.world := by
  induction hrun generalizing r p others with
  | refl => exact (List.not_perm_nil_cons _ _ htasks).elim
  | @tail t t' hrun hnext ih =>
    obtain ⟨hsince, hrest⟩ := hall.reaches hw₀ (fun r _ _ => hany r) (List.forall_mem_nil _) hrun
    have hw : I t.world := hall.keeps hsince hw₀
    cases hnext with
    | arrive w tasks r₁ =>
      rcases List.mem_append.mp (htasks.symm.subset List.mem_cons_self) with hold | hnew
      · obtain ⟨before, after, rfl⟩ := List.append_of_mem hold
        have hperm : (before ++ after ++ [(⟨r₁, s.serve r₁⟩ : Task)]).Perm others :=
          ((List.perm_middle.append_right _).symm.trans htasks).cons_inv
        obtain ⟨habide, hcourse⟩ := ih List.perm_middle fun task htask =>
          hothers task (hperm.subset (List.mem_append_left _ htask))
        refine ⟨fun task htask => ?_, hcourse⟩
        rcases List.mem_append.mp (hperm.symm.subset htask) with hold | hnew
        · exact habide task hold
        · rw [List.mem_singleton] at hnew
          subst hnew
          exact hs.abides_serve hw (hothers _ htask)
      · cases List.mem_singleton.mp hnew
        have hperm : tasks.Perm others :=
          ((List.perm_append_singleton _ tasks).symm.trans htasks).cons_inv
        have hadmitted : ∀ r : Request, r.Stays → Traffic.Receives ⟨w, tasks⟩ r → admitted r := by
          rintro _ hstays ⟨task, htask, rfl⟩
          exact hothers task (hperm.subset htask) hstays
        have habide := (hs.reaches hw₀ hadmitted (List.forall_mem_nil _) hrun).2
        exact ⟨fun task htask => habide task (hperm.symm.subset htask), _, [], hrun, .start⟩
    | @act w w' before after r₁ p₁ p₁' step =>
      rcases perm_cons_cases htasks with ⟨hsame, hperm⟩ | ⟨rest, hrest', hreplace⟩
      · cases hsame
        obtain ⟨habide, t₀, deeds, hreach, hcourse⟩ :=
          ih (List.perm_middle.trans (hperm.cons _)) hothers
        have hown := hrest ⟨r, p₁⟩ (List.mem_append_right _ List.mem_cons_self)
        obtain ⟨hstep, -⟩ := hown.step hall.rely step
        refine ⟨fun task htask => (habide task htask).later hs.rely (hall.within hstep), t₀, ?_⟩
        cases step with
        | act ready => exact ⟨_, hreach, .own hcourse ready⟩
        | first => exact hown.elim
        | second => exact hown.elim
        | join => exact hown.elim
      · have hstays : ∀ task ∈ ⟨r₁, p₁⟩ :: rest, task.request.Stays → admitted task.request := by
          have hothers' := fun task htask => hothers task (hrest'.symm.subset htask)
          rw [List.forall_mem_cons] at hothers' ⊢
          exact hothers'
        obtain ⟨habide, t₀, deeds, hreach, hcourse⟩ := ih (hreplace _) hstays
        rw [List.forall_mem_cons] at habide
        obtain ⟨hstep, hp₁'⟩ := habide.1.step hs.rely step
        refine ⟨fun task htask => ?_, t₀, deeds, hreach, .others hcourse hstep⟩
        rcases List.mem_cons.mp (hrest'.subset htask) with rfl | htask
        · exact hp₁'
        · exact (habide.2 task htask).later hs.rely (hs.within hstep)
    | @giveUp w before after id scope p₁ =>
      have hbefore : (before ++ ⟨.rebuildApart id scope, p₁⟩ :: after).Perm
          (⟨r, p⟩ :: ⟨.rebuildApart id scope, p₁⟩ :: others) :=
        List.perm_middle.trans ((htasks.cons _).trans (.swap _ _ _))
      obtain ⟨habide, hcourse⟩ := ih hbefore <| by
        rw [List.forall_mem_cons]
        exact ⟨fun hstays => (hstays _ _ rfl).elim, hothers⟩
      rw [List.forall_mem_cons] at habide
      exact ⟨habide.2, hcourse⟩
    | pass w tasks millis turns =>
      obtain ⟨habide, t₀, deeds, hreach, hcourse⟩ := ih htasks hothers
      have hstep : G w { w with elapsed := w.elapsed + millis, turns := w.turns + turns } :=
        hs.aside rfl le_rfl
      exact ⟨fun task htask => (habide task htask).later hs.rely (hs.within hstep), t₀, deeds,
        hreach, .others hcourse hstep⟩
    | disturb w tasks failingCommits scanDelay =>
      obtain ⟨habide, t₀, deeds, hreach, hcourse⟩ := ih htasks hothers
      have hstep := hs.disturb w failingCommits scanDelay
      exact ⟨fun task htask => (habide task htask).later hs.rely (hs.within hstep), t₀, deeds,
        hreach, .others hcourse hstep⟩

end Upholds

end Service

end Referral
