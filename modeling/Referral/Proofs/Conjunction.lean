import Referral.Proofs.Evaluating

/-!
# Conditions taken together

The conditions of a rule are evaluated one after the other up to the first that does not hold or
cannot be evaluated, so which answer that gives depends on their order. Whether the rule matches
does not: an error counts as a condition that does not hold. Only the set of the conditions matters
then, and for the answer itself if all of them can be evaluated.
-/

namespace Referral

variable {s : Snapshot} {cs cs' : List Condition}

/-- Lists with the same conditions match together. -/
theorem conditionsMatch_eq_of_mem_iff (h : ∀ c, c ∈ cs ↔ c ∈ cs') :
    conditionsMatch cs s = conditionsMatch cs' s := by
  rw [Bool.eq_iff_iff, conditionsMatch_iff, conditionsMatch_iff]
  simp only [h]

/-- Where every condition can be evaluated, the answer is whether the conditions match. -/
theorem allHold_eq_ok_of_evaluated (h : ∀ c ∈ cs, ∃ b, c.holds s = .ok b) :
    allHold s cs = .ok (conditionsMatch cs s) := by
  induction cs with
  | nil => simp [conditionsMatch, allHold]
  | cons c cs ih =>
    rw [List.forall_mem_cons] at h
    obtain ⟨⟨b, hb⟩, hrest⟩ := h
    cases b with
    | false => simp [conditionsMatch, allHold, hb]
    | true =>
      have hsame : allHold s (c :: cs) = allHold s cs := by simp [allHold, hb]
      have hmatch : conditionsMatch (c :: cs) s = conditionsMatch cs s := by
        simp [conditionsMatch, hsame]
      rw [hsame, hmatch, ih hrest]

/-- A rule matches exactly if each of its conditions, taken alone, holds, whether or not the others
can be evaluated. So rules with the same conditions, in any order and any number of times, match
together, and a rule with more conditions matches nothing more. Where all the conditions can be
evaluated, the answer itself is the same in every order. -/
theorem isMatch_iff_each_holds (s : Snapshot) :
    (∀ r : Rule, r.isMatch s = true ↔ ∀ c ∈ r.conditions, c.holds s = .ok true) ∧
    (∀ r r' : Rule, (∀ c, c ∈ r.conditions ↔ c ∈ r'.conditions) → r.isMatch s = r'.isMatch s) ∧
    (∀ r r' : Rule, r.conditions ⊆ r'.conditions → r.isMatch s = false → r'.isMatch s = false) ∧
    (∀ cs cs' : List Condition, (∀ c ∈ cs, ∀ flaw, c.holds s ≠ .error flaw) → cs.Perm cs' →
      allHold s cs = allHold s cs') := by
  refine ⟨fun r => conditionsMatch_iff r.conditions s, fun r r' => conditionsMatch_eq_of_mem_iff,
    fun r r' hsub hnot => ?_, fun cs cs' hevaluated hperm => ?_⟩
  · simp only [Rule.isMatch, ← Bool.not_eq_true, conditionsMatch_iff] at hnot ⊢
    exact fun hall => hnot fun c hc => hall c (hsub hc)
  · have hanswers : ∀ c ∈ cs, ∃ b, c.holds s = .ok b := by
      intro c hc
      cases hholds : c.holds s with
      | ok b => exact ⟨b, rfl⟩
      | error flaw => exact absurd hholds (hevaluated c hc flaw)
    have hanswers' : ∀ c ∈ cs', ∃ b, c.holds s = .ok b :=
      fun c hc => hanswers c (hperm.mem_iff.mpr hc)
    rw [allHold_eq_ok_of_evaluated hanswers, allHold_eq_ok_of_evaluated hanswers',
      conditionsMatch_eq_of_mem_iff fun c => hperm.mem_iff]

/-- A purchase that no signup preceded and that names no item. -/
def unnamedPurchase : Snapshot
  | .purchases => some (.count 1)
  | _ => none

/-- A condition on the item does not hold there, and one on the purchases has no number to compare
with. The answer is that of the one that stands first, and no rule with both matches. -/
theorem isMatch_iff_each_holds_unnamed :
    let unmet : Condition := ⟨.itemId, .equals, "book"⟩
    let unreadable : Condition := ⟨.purchases, .lessThan, "many"⟩
    allHold unnamedPurchase [unmet, unreadable] = .ok false ∧
      allHold unnamedPurchase [unreadable, unmet] = .error (.condition "many") ∧
      ∀ r : Rule, r.conditions = [unreadable, unmet] → r.isMatch unnamedPurchase = false := by
  intro unmet unreadable
  refine ⟨by decide, by decide, fun r hr => ?_⟩
  rw [← Bool.not_eq_true, (isMatch_iff_each_holds unnamedPurchase).1 r, hr]
  intro hall
  have hunmet := hall unmet (by simp)
  exact absurd hunmet (by decide)

end Referral
