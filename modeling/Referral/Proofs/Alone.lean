import Referral.Proofs.Interleaving
import Referral.Proofs.Locks

/-!
# Procedures that have the world to themselves

Between two actions of a procedure nothing need happen but that time passes. What such a procedure
does can be followed action by action.
-/

namespace Referral

/-- Nothing happens but that time passes. -/
inductive World.Passes (w : World) : World → Prop
  | pass (millis turns : ℕ) :
    Passes w { w with elapsed := w.elapsed + millis, turns := w.turns + turns }

namespace World

variable {w w' : World}

theorem Passes.refl (w : World) : w.Passes w := .pass 0 0

theorem Passes.trans {w'' : World} (h : w.Passes w') (h' : w'.Passes w'') : w.Passes w'' := by
  obtain ⟨millis, turns⟩ := h
  obtain ⟨millis', turns'⟩ := h'
  have hpass := Passes.pass (w := w) (millis + millis') (turns + turns')
  simpa only [Nat.add_assoc] using hpass

theorem Passes.store_eq (h : w.Passes w') : w'.store = w.store := by
  cases h
  rfl

theorem Passes.locks_eq (h : w.Passes w') : w'.locks = w.locks := by
  cases h
  rfl

theorem Passes.permits_eq (h : w.Passes w') : w'.permits = w.permits := by
  cases h
  rfl

theorem Passes.origin_eq (h : w.Passes w') : w'.origin = w.origin := by
  cases h
  rfl

theorem rely_passes : Procedure.Rely Passes where
  refl := Passes.refl
  trans _ _ _ := Passes.trans
  later _ _ h := h.store_eq ▸ .refl _

/-- Nothing differs but what waiting, locks and names of tasks change. -/
inductive Aside (w : World) : World → Prop
  | aside (locks : LockTable) (nextTask : TaskId) (elapsed turns : ℕ) :
    Aside w { w with locks, nextTask, elapsed, turns }

theorem Aside.refl (w : World) : w.Aside w := .aside w.locks w.nextTask w.elapsed w.turns

theorem Passes.aside (h : w.Passes w') : w.Aside w' := by
  cases h
  exact .aside _ _ _ _

theorem Aside.trans {w'' : World} (h : w.Aside w') (h' : w'.Aside w'') : w.Aside w'' := by
  cases h
  cases h'
  exact .aside _ _ _ _

theorem Aside.store_eq (h : w.Aside w') : w'.store = w.store := by
  cases h
  rfl

end World

namespace Procedure

variable {α : Type} {p q : Procedure α} {w w' : World} {others : World → World → Prop}

/-- More actions of a procedure that has come so far. -/
theorem Amid.steps {q' : Procedure α} {w'' : World} {n : ℕ} (h : p.Amid others w n q w')
    (hsteps : q.Steps w' q' w'') : ∃ m, p.Amid others w m q' w'' := by
  induction hsteps with
  | none => exact ⟨n, h⟩
  | more _ step ih =>
    obtain ⟨m, hm⟩ := ih
    exact ⟨m + 1, .own hm step⟩

theorem eq_done_of_answer? {a : α} (h : p.answer? = some a) : p = done a := by
  cases p <;> simp_all [answer?]

/-- What a procedure comes to that ends without waiting. -/
theorem amid_of_answer? {a : α} (h : (p.goOn w).1.answer? = some a) :
    ∃ n, p.Amid others w n (done a) (p.goOn w).2 := by
  have hsteps := steps_goOn p w
  rw [eq_done_of_answer? h] at hsteps
  exact Amid.start.steps hsteps

/-- Goes on after a wait as far as possible. -/
def resume (run : Procedure α × World) (millis : ℕ) : Procedure α × World :=
  run.1.goOn { run.2 with elapsed := run.2.elapsed + millis }

/-- Where a procedure gets that goes on after a wait. -/
theorem amid_resume {run : Procedure α × World} (millis : ℕ)
    (h : ∃ n, p.Amid World.Passes w n run.1 run.2) :
    ∃ n, p.Amid World.Passes w n (resume run millis).1 (resume run millis).2 := by
  obtain ⟨n, hn⟩ := h
  exact (Amid.others hn (.pass millis 0)).steps (steps_goOn run.1 _)

/-! ## Whole runs -/

section Runs

variable {β : Type} {n m : ℕ} {w'' : World}

theorem Step.bind {p q : Procedure β} (h : p.Step w q w') (f : β → Procedure α) :
    (p >>= f).Step w (q >>= f) w' := by
  cases h with
  | act ready => exact .act ready
  | first step => exact .first step
  | second step => exact .second step
  | join => exact .join

theorem Amid.bind {p q : Procedure β} (h : p.Amid others w n q w') (f : β → Procedure α) :
    (p >>= f).Amid others w n (q >>= f) w' := by
  induction h with
  | start => exact .start
  | others _ change ih => exact ih.others change
  | own _ step ih => exact ih.own (step.bind f)

theorem Amid.trans {r : Procedure α} (h : p.Amid others w n q w') (h' : q.Amid others w' m r w'') :
    p.Amid others w (n + m) r w'' := by
  induction h' with
  | start => exact h
  | others _ change ih => exact ih.others change
  | own _ step ih => exact ih.own step

/-- A procedure that has the world to itself comes to an answer, and the world then. -/
def Runs (p : Procedure α) (w : World) (a : α) (w' : World) : Prop :=
  ∃ n, p.Amid World.Passes w n (done a) w'

/-- One procedure after another. -/
theorem Runs.bind {p : Procedure β} {f : β → Procedure α} {a : α} {b : β} (h : p.Runs w b w')
    (hf : (f b).Runs w' a w'') : (p >>= f).Runs w a w'' := by
  obtain ⟨n, hn⟩ := h
  obtain ⟨m, hm⟩ := hf
  exact ⟨n + m, (hn.bind f).trans hm⟩

/-- A procedure may begin later. -/
theorem Runs.after {a : α} (hpass : w.Passes w') (h : p.Runs w' a w'') : p.Runs w a w'' := by
  obtain ⟨n, hn⟩ := h
  exact ⟨0 + n, (Amid.others .start hpass).trans hn⟩

theorem runs_pure (a : α) (w : World) : (pure a : Procedure α).Runs w a w := ⟨0, .start⟩

/-- An action that need not be waited for. -/
theorem runs_perform (action : Action α) (hready : action.isReady w = true) :
    (perform action).Runs w (w.perform action).1 (w.perform action).2 :=
  ⟨1, .own .start (.act hready)⟩

theorem runs_of_goOn {a : α} (h : p.goOn w = (done a, w')) : p.Runs w a w' := by
  have hsteps := steps_goOn p w
  rw [h] at hsteps
  exact Amid.start.steps hsteps

/-- A wait is over after some time. -/
theorem runs_sleep (millis : ℕ) (w : World) : ∃ w', (sleep millis).Runs w () w' ∧ w.Passes w' := by
  let moment := w.momentAfter millis
  let w₁ : World := { w with elapsed := w.elapsed + moment, turns := w.turns + 0 }
  have hwait : (Action.awaitMoment moment).isReady w₁ = true :=
    decide_eq_true (Nat.le_add_left _ _)
  have hpass : w.Passes w₁ := .pass moment 0
  exact ⟨w₁, (runs_perform (.momentAfter millis) rfl).bind
    (.after hpass (runs_perform _ hwait)), hpass⟩

end Runs

/-- Left to itself a procedure only ever waits for time to pass, and it comes to an end, with an
answer and a world that `Q` allows. -/
def Ends : {α : Type} → (α → World → Prop) → Procedure α → World → Prop
  | _, Q, done a, w => ∀ w', w.Passes w' → Q a w'
  | _, Q, act action next, w => ∀ w', w.Passes w' →
      (∃ w'', w'.Passes w'' ∧ action.isReady w'' = true) ∧
      (action.isReady w' = true → (next (w'.perform action).1).Ends Q (w'.perform action).2)
  | _, _, both _ _ _, _ => False

section Ends

variable {β : Type} {Q : α → World → Prop} {Q₁ : β → World → Prop}

theorem Ends.weaken {Q' : α → World → Prop} (h : p.Ends Q w) (hQ : ∀ a w, Q a w → Q' a w) :
    p.Ends Q' w := by
  induction p generalizing w with
  | done a => exact fun w' hw' => hQ a w' (h w' hw')
  | act action next ih =>
    intro w' hw'
    obtain ⟨hready, hnext⟩ := h w' hw'
    exact ⟨hready, fun hnow => ih _ (hnext hnow) hQ⟩
  | both first second next => exact h.elim

/-- Where a procedure comes to an end, it does so with what it keeps among others that may wait. -/
theorem Ends.and_keeps {R : World → World → Prop} {P : World → World → Procedure α → Prop}
    {Q' : α → World → Prop} (h : p.Ends Q w) (hpass : ∀ w w' : World, w.Passes w' → R w w')
    (hkeeps : p.Keeps R P Q' w) : p.Ends (fun a v => Q a v ∧ Q' a v) w := by
  induction p generalizing w with
  | done a => exact fun w' hw' => ⟨h w' hw', hkeeps w' (hpass w w' hw')⟩
  | act action next ih =>
    intro w' hw'
    obtain ⟨hready, hnext⟩ := h w' hw'
    exact ⟨hready, fun hnow => ih _ (hnext hnow) (hkeeps w' (hpass w w' hw') hnow).2⟩
  | both first second next => exact h.elim

/-- Where a procedure comes to an end, it does so with what it keeps among others that only wait. -/
theorem Ends.of_keeps {P : World → World → Procedure α → Prop} {Q' : α → World → Prop}
    (h : p.Ends Q w) (hkeeps : p.Keeps World.Passes P Q' w) : p.Ends Q' w :=
  (h.and_keeps (fun _ _ => id) hkeeps).weaken fun _ _ => And.right

theorem Ends.later (h : p.Ends Q w) (hw : w.Passes w') : p.Ends Q w' := by
  cases p with
  | done a => exact fun w'' hw'' => h w'' (hw.trans hw'')
  | act action next => exact fun w'' hw'' => h w'' (hw.trans hw'')
  | both first second next => exact h

/-- One procedure after another: where the first ends the second goes on. -/
theorem Ends.bind {p : Procedure β} {f : β → Procedure α} (h : p.Ends Q₁ w)
    (hf : ∀ b w', Q₁ b w' → (f b).Ends Q w') : (p >>= f).Ends Q w := by
  induction p generalizing w with
  | done b => exact hf b w (h w (.refl w))
  | act action next ih =>
    intro w' hw'
    obtain ⟨hready, hnext⟩ := h w' hw'
    exact ⟨hready, fun hnow => ih _ (hnext hnow) hf⟩
  | both first second next => exact h.elim

/-- An action that need not be waited for. -/
theorem ends_perform {action : Action α} (hready : ∀ w', w.Passes w' → action.isReady w' = true)
    (hQ : ∀ w' w'', w.Passes w' → (w'.perform action).2.Passes w'' →
      Q (w'.perform action).1 w'') : (perform action).Ends Q w :=
  fun w' hw' => ⟨⟨w', .refl w', hready w' hw'⟩, fun _ w'' hw'' => hQ w' w'' hw' hw''⟩

theorem Ends.step (h : p.Ends Q w) (hstep : p.Step w q w') : q.Ends Q w' := by
  cases hstep with
  | act hready => exact (h w (.refl w)).2 hready
  | first => exact h.elim
  | second => exact h.elim
  | join => exact h.elim

theorem Ends.amid {n : ℕ} (h : p.Ends Q w) (hrun : p.Amid World.Passes w n q w') :
    q.Ends Q w' := by
  induction hrun with
  | start => exact h
  | others _ hchange ih => exact ih.later hchange
  | own _ hstep ih => exact ih.step hstep

/-- However far it got, it has ended as it should or it can go on after some time. -/
theorem Ends.goes_on {n : ℕ} (h : p.Ends Q w) (hrun : p.Amid World.Passes w n q w') :
    (∃ a, q = done a ∧ Q a w') ∨ ∃ w₁ q₁ w₂, w'.Passes w₁ ∧ q.Step w₁ q₁ w₂ := by
  have hq := h.amid hrun
  cases q with
  | done a => exact .inl ⟨a, rfl, hq w' (.refl w')⟩
  | act action next =>
    obtain ⟨w₁, hpass, hready⟩ := (hq w' (.refl w')).1
    exact .inr ⟨w₁, _, _, hpass, .act hready⟩
  | both first second next => exact hq.elim

/-- An action that neither waits nor changes the store. -/
theorem ends_still {action : Action α} (hready : ∀ w : World, action.isReady w = true)
    (hstore : ∀ w : World, (w.perform action).2.store = w.store) :
    (perform action).Ends (fun _ w' => w'.store = w.store) w :=
  ends_perform (fun w' _ => hready w') fun w' _ hw' hw'' =>
    hw''.store_eq.trans ((hstore w').trans hw'.store_eq)

/-- A look at the store. -/
theorem ends_read (f : Store → α) :
    (read f).Ends (fun a w' => a = f w.store ∧ w.Passes w') w :=
  ends_perform (fun _ _ => rfl) fun _ _ h₁ h₂ => ⟨congrArg f h₁.store_eq, h₁.trans h₂⟩

theorem ends_pure {R : α → Store → Prop} {a : α} (h : R a w.store) :
    (pure a : Procedure α).Ends (fun a w' => R a w'.store) w := by
  intro w' hw'
  rw [hw'.store_eq]
  exact h

/-- A wait is over after some time. -/
theorem ends_sleep (millis : ℕ) : (sleep millis).Ends (fun _ w' => w'.store = w.store) w := by
  intro w₁ h₁
  refine ⟨⟨w₁, .refl w₁, rfl⟩, fun _ w₂ h₂ => ?_⟩
  let moment := w₁.momentAfter millis
  have hwait : ∃ w₃, w₂.Passes w₃ ∧ (Action.awaitMoment moment).isReady w₃ = true :=
    ⟨_, .pass moment 0, decide_eq_true (Nat.le_add_left _ _)⟩
  refine ⟨hwait, fun _ w₃ h₃ => ?_⟩
  have hwaited : w₃.store = w₂.store := h₃.store_eq
  have hasked : w₂.store = w₁.store := h₂.store_eq
  exact (hwaited.trans hasked).trans h₁.store_eq

end Ends

/-- The next turn comes. -/
theorem ends_pause : pause.Ends (fun _ w' => w'.store = w.store) w := by
  intro w₁ h₁
  refine ⟨⟨w₁, .refl w₁, rfl⟩, fun _ w₂ h₂ => ?_⟩
  have hwait : ∃ w₃, w₂.Passes w₃ ∧ (Action.awaitTurn w₁.turns).isReady w₃ = true :=
    ⟨_, .pass 0 (w₁.turns + 1), decide_eq_true (by simp only; omega)⟩
  refine ⟨hwait, fun _ w₃ h₃ => ?_⟩
  have hwaited : w₃.store = w₂.store := h₃.store_eq
  have hasked : w₂.store = w₁.store := h₂.store_eq
  exact (hwaited.trans hasked).trans h₁.store_eq

/-- Locks at which there is nobody are taken. -/
theorem ends_lockAll (task : TaskId) {ks : List LockKey} (hks : ks.Nodup)
    (hfree : ∀ k ∈ ks, w.locks.queue k = []) :
    (lockAll task ks).Ends (fun _ w' => w.Aside w') w := by
  have hend : ∀ (ks : List LockKey) {w₁ : World}, ks.Nodup → w.Aside w₁ →
      (∀ k ∈ ks, w₁.locks.queue k = []) → (lockAll task ks).Ends (fun _ w' => w.Aside w') w₁ := by
    intro ks
    induction ks with
    | nil => exact fun _ h _ w' hw' => h.trans hw'.aside
    | cons k ks ih =>
      intro w₁ hnodup h hfree w₂ h₂
      rw [List.nodup_cons] at hnodup
      rw [List.forall_mem_cons] at hfree
      refine ⟨⟨w₂, .refl w₂, rfl⟩, fun _ w₃ h₃ => ?_⟩
      have hlocks : w₃.locks = w₁.locks.reach task k := by
        cases h₂
        cases h₃
        rfl
      have hreached : w₁.Aside w₃ := by
        cases h₂
        cases h₃
        exact .aside _ _ _ _
      have hholds : (Action.awaitLock task k).isReady w₃ = true := by
        simp [Action.isReady, hlocks, LockTable.holds, LockTable.queue_reach, hfree.1]
      have hrest : ∀ j ∈ ks, w₃.locks.queue j = [] := by
        intro j hj
        have hne : j ≠ k := fun heq => hnodup.1 (heq ▸ hj)
        rw [hlocks, LockTable.queue_reach, if_neg hne]
        exact hfree.2 j hj
      exact ⟨⟨w₃, .refl w₃, hholds⟩, fun _ => ih hnodup.2 (h.trans hreached) hrest⟩
  exact hend ks hks (.refl w) hfree

/-- What a procedure does to the store it still does if it has to take locks at which there is
nobody. -/
theorem ends_withLocks {body : Procedure α} {R : α → Store → Prop} {ks : List LockKey}
    (hks : ks.Nodup) (hfree : ∀ k ∈ ks, w.locks.queue k = [])
    (hbody : ∀ w', w.Aside w' → body.Ends (fun a w' => R a w'.store) w') :
    (withLocks ks body).Ends (fun a w' => R a w'.store) w := by
  have htask : (perform .newTask).Ends (fun _ w' => w.Aside w' ∧ w'.locks = w.locks) w := by
    refine ends_perform (fun _ _ => rfl) fun w' w'' hw' hw'' => ?_
    cases hw'
    cases hw''
    exact ⟨.aside _ _ _ _, rfl⟩
  unfold withLocks
  refine htask.bind fun task w₁ ⟨h₁, hlocks⟩ => ?_
  refine (ends_lockAll task hks (hlocks ▸ hfree)).bind fun _ w₂ h₂ => ?_
  refine (hbody w₂ (h₁.trans h₂)).bind fun a w₃ ha => ?_
  have hrelease : (perform (.releaseLocks task ks)).Ends (fun _ w' => w'.store = w₃.store) w₃ :=
    ends_still (fun _ => rfl) fun _ => rfl
  exact hrelease.bind fun _ w₄ h₄ => ends_pure (h₄ ▸ ha)

end Procedure

end Referral
