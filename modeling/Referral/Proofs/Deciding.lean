import Referral.Proofs.Interleaving

/-!
# The action that decides

Where several procedures share a store, it matters which of the actions of a procedure changes the
store. A procedure that decides does so in one action at most: before it and after it the store is
left as it is, and the answer is settled by what was found and done then.
-/

namespace Referral

namespace Procedure

variable {R G : World → World → Prop} {α β : Type} {D : α → World → World → Prop}
  {Q : α → World → Prop} {Q₁ : β → World → Prop} {w w' : World}

/-- A procedure that leaves the store as it is, keeps to `G` whatever others do within `R`, and ends
with an answer that `Q` allows. -/
abbrev Quietly (R G : World → World → Prop) {α : Type} (Q : α → World → Prop) (p : Procedure α)
    (w : World) : Prop :=
  p.Keeps R (fun w w' _ => G w w' ∧ w'.store = w.store) Q w

/-- Whatever others do within `R`, the procedure keeps to `G` in all that it does, and comes to an
action by which its answer is one that `D` allows for this action. Before this action and after it
the procedure leaves the store as it is, and the world in which it ends is one that `Q` allows. -/
def Decides (R G : World → World → Prop) : {α : Type} → (α → World → World → Prop) →
    (α → World → Prop) → Procedure α → World → Prop
  | _, _, _, done _, _ => False
  | _, D, Q, act action next, w => ∀ w', R w w' → action.isReady w' = true →
      G w' (w'.perform action).2 ∧
      ((w'.perform action).2.store = w'.store ∧
          (next (w'.perform action).1).Decides R G D Q (w'.perform action).2 ∨
        ∃ a, D a w' (w'.perform action).2 ∧
          (next (w'.perform action).1).Quietly R G (fun b w'' => b = a ∧ Q b w'')
            (w'.perform action).2)
  | _, _, _, both _ _ _, _ => False

theorem Decides.later (hR : Rely R) {p : Procedure α} (h : p.Decides R G D Q w) (hw : R w w') :
    p.Decides R G D Q w' := by
  cases p with
  | done a => exact h
  | act action next => exact fun w'' hw'' => h w'' (hR.trans _ _ _ hw hw'')
  | both first second next => exact h

/-- A step keeps to `G`, and either comes before the action that decides or is that action. -/
theorem Decides.step (hR : Rely R) {p q : Procedure α} (h : p.Decides R G D Q w)
    (hstep : p.Step w q w') :
    G w w' ∧ (w'.store = w.store ∧ q.Decides R G D Q w' ∨
      ∃ a, D a w w' ∧ q.Quietly R G (fun b w'' => b = a ∧ Q b w'') w') := by
  cases hstep with
  | act hready => exact h w (hR.refl w) hready
  | first => exact h.elim
  | second => exact h.elim
  | join => exact h.elim

/-- A quiet part after another. -/
theorem Quietly.bind (hR : Rely R) {p : Procedure β} {f : β → Procedure α}
    (h : p.Quietly R G Q₁ w) (hf : ∀ b w', Q₁ b w' → (f b).Quietly R G Q w') :
    (p >>= f).Quietly R G Q w :=
  Keeps.bind hR h (fun _ _ _ h => h) hf

/-- A quiet part before one that decides. -/
theorem Quietly.decides (hR : Rely R) {p : Procedure β} {f : β → Procedure α}
    (h : p.Quietly R G Q₁ w) (hf : ∀ b w', Q₁ b w' → (f b).Decides R G D Q w') :
    (p >>= f).Decides R G D Q w := by
  induction p generalizing w with
  | done b => exact hf b w (h w (hR.refl w))
  | act action next ih =>
    intro w' hw' hready
    obtain ⟨⟨hstep, hstore⟩, hnext⟩ := h w' hw' hready
    exact ⟨hstep, .inl ⟨hstore, ih _ hnext hf⟩⟩
  | both first second next => exact h.elim

/-- A part that decides before a quiet one, which turns its answer into another. -/
theorem Decides.bind (hR : Rely R) {D₁ : β → World → World → Prop} {p : Procedure β}
    {f : β → Procedure α} (h : p.Decides R G D₁ Q₁ w)
    (hf : ∀ b w₁ w₂, D₁ b w₁ w₂ → ∃ a, D a w₁ w₂ ∧
      ∀ w', Q₁ b w' → (f b).Quietly R G (fun a' w'' => a' = a ∧ Q a' w'') w') :
    (p >>= f).Decides R G D Q w := by
  induction p generalizing w with
  | done b => exact h.elim
  | act action next ih =>
    intro w' hw' hready
    obtain ⟨hstep, ⟨hstore, hnext⟩ | ⟨b, hdecided, hnext⟩⟩ := h w' hw' hready
    · exact ⟨hstep, .inl ⟨hstore, ih _ hnext hf⟩⟩
    · obtain ⟨a, ha, hrest⟩ := hf b _ _ hdecided
      refine ⟨hstep, .inr ⟨a, ha, ?_⟩⟩
      refine Quietly.bind hR hnext ?_
      rintro _ w'' ⟨rfl, hb⟩
      exact hrest w'' hb
  | both first second next => exact h.elim

theorem quietly_pure {a : α} (h : ∀ w', R w w' → Q a w') :
    (pure a : Procedure α).Quietly R G Q w := h

end Procedure

end Referral
