import Referral.Proofs.CheckedRules
import Referral.Proofs.Commits

/-!
# Circles in force

A unit of work is accepted only if each of its moves starts from the circle that is in force when
its turn comes, after the moves before it. Promoters come into other circles in no other way, unless
an operator places them.
-/

namespace Referral

/-- The promoter of a move. -/
def Transition.promoterKey (t : Transition) : PromoterKey := ⟨t.program, t.promoter⟩

/-- The moves of a unit, in the order in which they are made. -/
def WorkUnit.moves (u : WorkUnit) : List Transition := u.transitions.map (·.transition)

namespace Store

variable {s s' : Store} {u : WorkUnit} {now : Instant} {receipt : Receipt}

/-- Each of some moves starts from the circle in force for its promoter after the moves before. -/
def Continues (s : Store) (ts : List Transition) : Prop :=
  ∀ before t after, ts = before ++ t :: after →
    t.source = (before.foldl move s).currentCircle t.promoterKey

/-- A move puts its target in force for its promoter. -/
theorem currentCircle_move (s : Store) (t : Transition) (k : PromoterKey) :
    (s.move t).currentCircle k =
      if k = t.promoterKey then some t.target else s.currentCircle k := by
  have hget : (s.move t).memberships.get? k =
      if k = t.promoterKey then some t.membership else s.memberships.get? k :=
    OrderedMap.get?_insert _ _ _ _
  rw [currentCircle, hget]
  split <;> rfl

/-- What a commit takes for the circle after some moves is what they would put in force. -/
theorem circleAfter_eq_foldl (s : Store) (k : PromoterKey) (ts : List Transition) :
    s.circleAfter k ts = (ts.foldl move s).currentCircle k := by
  induction ts using List.reverseRecOn with
  | nil => rfl
  | append_singleton ts t ih =>
    rw [List.foldl_append, List.foldl_cons, List.foldl_nil, currentCircle_move, ← ih]
    by_cases hk : k = t.promoterKey
    · subst hk
      simp [circleAfter, Transition.promoterKey]
    · have hother : (t.program = k.program && t.promoter = k.promoter) = false := by
        rw [Bool.and_eq_false_iff, decide_eq_false_iff_not, decide_eq_false_iff_not, ← not_and_or]
        rintro ⟨hprogram, hpromoter⟩
        exact hk (by rw [Transition.promoterKey, hprogram, hpromoter])
      simp [circleAfter, hother, hk]

/-- No move of a list is stale exactly if the moves go on from each other. -/
theorem staleMove?_eq_none_iff {ts : List Transition} :
    s.staleMove? [] ts = none ↔ s.Continues ts := by
  rw [← not_iff_not, ← ne_eq, staleMove?_ne_none_iff, Continues]
  push Not
  constructor
  · rintro ⟨before, after, t, hts, hstale⟩
    refine ⟨before, t, after, hts, ?_⟩
    rwa [List.nil_append, circleAfter_eq_foldl] at hstale
  · rintro ⟨before, t, after, hts, hstale⟩
    refine ⟨before, after, t, hts, ?_⟩
    rwa [List.nil_append, circleAfter_eq_foldl]

/-- Moves go by the memberships alone. -/
theorem memberships_foldl_move {ts : List Transition} (h : s.memberships = s'.memberships) :
    (ts.foldl move s).memberships = (ts.foldl move s').memberships := by
  induction ts generalizing s s' with
  | nil => exact h
  | cons t ts ih => exact ih (by simp only [move, h])

@[simp] theorem memberships_write (s : Store) (u : WorkUnit) (book : Book) (now : Instant) :
    (s.write u book now).memberships = (u.moves.foldl move s).memberships := by
  dsimp only [write]
  rw [foldl_frame memberships (by intros; rfl), foldl_frame memberships (by intros; rfl)]
  exact memberships_foldl_move (foldl_frame memberships (by intros; rfl) u.events _)

/-- An accepted commit makes moves from the circles in force, and changes no membership but by
these. -/
theorem continues_of_commit (h : s.commit u now = (.ok receipt, s')) :
    s.Continues u.moves ∧ s'.memberships = (u.moves.foldl move s).memberships := by
  obtain ⟨-, hcheck, book, -, rfl⟩ := commit_of_ok h
  refine ⟨staleMove?_eq_none_iff.mp ?_, memberships_write _ _ _ _⟩
  unfold check at hcheck
  split at hcheck
  · cases hcheck
  · split at hcheck
    · cases hcheck
    · assumption

/-- How the circles that promoters are in may change. -/
inductive Relocates (s s' : Store) : Prop
  | stays (h : s'.memberships = s.memberships)
  /-- An operator places a promoter. -/
  | placed {k : PromoterKey} {circle : CircleId} {now : Instant}
      (h : s.assignCircle k circle now = .ok s')
  /-- A commit is accepted. -/
  | moved {u : WorkUnit} {now : Instant} {receipt : Receipt}
      (h : s.commit u now = (.ok receipt, s'))

theorem Change.relocates (h : s.Change s') : s.Relocates s' := by
  cases h with
  | commit u now =>
    rcases hcommit : s.commit u now with ⟨answer, s'⟩
    cases answer with
    | ok receipt => exact .moved hcommit
    | error error =>
      have hrefused : (s.commit u now).1 = .error error := by rw [hcommit]
      have hstore := commit_of_error hrefused
      rw [hcommit] at hstore
      obtain rfl : s' = _ := hstore
      exact .stays rfl
  | putRule hput =>
    obtain ⟨-, rules, rfl, -⟩ := putRule_eq_ok hput
    exact .stays rfl
  | putCircle hput =>
    rw [putCircle_eq_ok hput]
    exact .stays rfl
  | assignCircle hassign => exact .placed hassign
  | replaceTotals hreplace =>
    obtain ⟨book, -, -, rfl⟩ := replaceTotals_eq_ok.mp hreplace
    exact .stays rfl
  | overwriteTotals => exact .stays rfl
  | disturb => exact .stays rfl

end Store

end Referral
