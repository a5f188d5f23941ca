import Referral.Proofs.Log

/-!
# Failure records in the store

A commit adds its records at the end and marks those that it resolves or has tried once more. So the
first record of an identifier stays the first, with its origin, and whether it is resolved depends
only on whether some commit resolved it.
-/

namespace Referral

/-- Where a record was raised, and whether it is resolved. -/
def Failure.standing (f : Failure) : Origin × Bool := (f.origin, f.resolved)

namespace Store

/-- The standing of the record of an identifier. -/
def standing? (s : Store) (id : FailureId) : Option (Origin × Bool) :=
  (s.failure? id).map Failure.standing

theorem find?_modifyFirst {α β : Type} [DecidableEq β] (key : α → β) (b b' : β) (f : α → α)
    (hf : ∀ a, key (f a) = key a) (as : List α) :
    (modifyFirst (fun a => key a = b') f as).find? (fun a => key a = b) =
      if b = b' then (as.find? fun a => key a = b).map f else as.find? fun a => key a = b := by
  induction as with
  | nil => simp [modifyFirst]
  | cons a as ih =>
    rw [modifyFirst]
    by_cases hb' : key a = b'
    · simp only [hb', decide_true, if_pos]
      by_cases hb : b = b'
      · simp [hf, hb', hb]
      · simp [hf, hb', hb, Ne.symm hb]
    · simp only [hb', decide_false, Bool.false_eq_true, if_false]
      by_cases hb : key a = b
      · have hne : b ≠ b' := fun h => hb' (hb.trans h)
        simp [hb, hne]
      · simp [hb, ih]

theorem failure?_changeFailure (s : Store) (id id' : FailureId) (f : Failure → Failure)
    (hf : ∀ a, (f a).id = a.id) :
    (s.changeFailure id' f).failure? id =
      if id = id' then (s.failure? id).map f else s.failure? id :=
  find?_modifyFirst Failure.id id id' f hf s.failures

/-- What resolving records does to the standing of one. -/
theorem standing?_resolveAll (ids : List FailureId) (s : Store) (id : FailureId) :
    (ids.foldl (fun s id => s.changeFailure id fun f => { f with resolved := true }) s).standing? id
      = (s.standing? id).map fun x => (x.1, x.2 || ids.contains id) := by
  induction ids generalizing s with
  | nil =>
    rw [List.foldl_nil]
    cases s.standing? id <;> simp
  | cons id' ids ih =>
    rw [List.foldl_cons, ih]
    simp only [standing?, failure?_changeFailure s id id' (fun f => { f with resolved := true })
      fun _ => rfl]
    by_cases h : id = id'
    · cases s.failure? id <;> simp [h, Failure.standing]
    · cases s.failure? id <;> simp [h, Failure.standing]

/-- Trying records once more leaves their standing alone. -/
theorem standing?_attemptAll (ids : List FailureId) (s : Store) (id : FailureId) :
    (ids.foldl (fun s id => s.changeFailure id fun f => { f with attempts := f.attempts + 1 })
      s).standing? id = s.standing? id := by
  refine foldl_frame (fun s => s.standing? id) (fun s id' => ?_) ids s
  simp only [standing?, failure?_changeFailure s id id'
    (fun f => { f with attempts := f.attempts + 1 }) fun _ => rfl]
  by_cases h : id = id'
  · cases s.failure? id <;> simp [h, Failure.standing]
  · simp [h]

section Write

variable (s : Store) (u : WorkUnit) (book : Book) (now : Instant)

@[simp] theorem commissions_write :
    (s.write u book now).commissions = s.commissions ++ u.commissions := by
  dsimp only [write]
  rw [foldl_frame commissions (by intros; rfl), foldl_frame commissions (by intros; rfl)]
  refine (foldl_frame commissions (by intros; rfl) _ _).trans ?_
  exact congrArg (· ++ u.commissions) (foldl_frame commissions (by intros; rfl) _ _)

/-- A record that was there before a unit was written is resolved if it was, or if the unit resolves
it. -/
theorem standing?_write {id : FailureId} {standing : Origin × Bool}
    (h : s.standing? id = some standing) :
    (s.write u book now).standing? id =
      some (standing.1, standing.2 || u.resolved.contains id) := by
  dsimp only [write]
  rw [standing?_attemptAll, standing?_resolveAll]
  obtain ⟨f, hf, rfl⟩ := Option.map_eq_some_iff.mp h
  have hkeep : ∀ (s' : Store), s'.failures = s.failures →
      ({ s' with failures := s'.failures ++ u.failures } : Store).standing? id =
        some f.standing := by
    intro s' hs'
    simp only [standing?, failure?, hs', List.find?_append]
    rw [show s.failures.find? (·.id = id) = some f from hf]
    rfl
  rw [hkeep]
  · rfl
  · refine (foldl_frame failures (by intros; rfl) _ _).trans ?_
    exact foldl_frame failures (by intros; rfl) _ _

end Write

end Store

end Referral
