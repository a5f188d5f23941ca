import Referral.Proofs.Custody
import Referral.Proofs.InForce
import Referral.Proofs.Recording
import Referral.Proofs.Records

/-!
# Refused moves

If the moves of a published event are refused when the event is committed, each becomes a failure
record, and the rest is committed at once. Whatever others do in between, nothing of the event is
stored before, and nothing after.
-/

namespace Referral

/-- A failure record that was raised for a move and is not resolved. -/
structure StagedTransition.RecordedAs (t : StagedTransition) (f : Failure) : Prop where
  event : f.event = t.event
  rule : f.rule = t.rule
  depth : f.depth = t.depth
  effect : f.effect = some (.switchCircle t.transition.target)
  promoter : (⟨f.program, f.promoter⟩ : PromoterKey) = t.transition.promoterKey
  unresolved : f.resolved = false

/-- A store takes in all of a unit but its moves, and a record for each of these. -/
structure Store.TakesDemoted (s : Store) (u : WorkUnit) (s' : Store) : Prop where
  facts : s'.facts = s.facts ++ u.events
  commissions : s'.commissions = s.commissions ++ u.commissions
  book : s.book.merge u.delta = .ok s'.book
  memberships : s'.memberships = s.memberships
  failures : ∃ records, s'.failures = s.failures ++ u.failures ++ records ∧
    List.Forall₂ StagedTransition.RecordedAs u.transitions records

/-- A unit of work that, where it is accepted, adds all of another but its moves, and a record for
each of these. -/
def WorkUnit.Demoted (u u' : WorkUnit) : Prop :=
  u'.commissions = u.commissions ∧ u'.transitions = [] ∧
  ∀ (s s' : Store) (now : Instant) (receipt : Receipt),
    s.commit u' now = (.ok receipt, s') → s.TakesDemoted u s'

namespace Store

variable {s s' : Store} {u : WorkUnit} {now : Instant} {promoter : PromoterId}

/-- Records are added as they are by a unit that marks none. -/
theorem failures_write (hresolved : u.resolved = []) (hattempted : u.attempted = []) (book : Book) :
    (s.write u book now).failures = s.failures ++ u.failures := by
  simp only [write, hresolved, hattempted, List.foldl_nil]
  rw [foldl_frame failures (by intros; rfl)]
  exact congrArg (· ++ u.failures) (foldl_frame failures (by intros; rfl) u.events _)

end Store

theorem Staging.Demotes.recorded {error : Error} {now : Instant} {ts : List StagedTransition}
    {records : List Failure} (h : Demotes error now ts records) :
    List.Forall₂ StagedTransition.RecordedAs ts records :=
  h.imp fun _ _ ⟨_, hf⟩ => hf ▸ ⟨rfl, rfl, rfl, rfl, rfl, rfl⟩

/-- What is made of a unit whose moves were refused. -/
theorem Staging.demoted_demoteTransitions (s : Staging) (hresolved : s.unit.resolved = [])
    (hattempted : s.unit.attempted = []) (error : Error) (now : Instant) :
    s.unit.Demoted (s.demoteTransitions error now).unit := by
  obtain ⟨records, ids, hdemoted, -, hrecords⟩ := s.demoteTransitions_frame error now
  let u' : WorkUnit := { s.unit with transitions := [], failures := s.unit.failures ++ records }
  have hunit : (s.demoteTransitions error now).unit = u' := by rw [hdemoted]
  rw [hunit]
  refine ⟨rfl, rfl, fun store store' now' receipt hcommit => ?_⟩
  obtain ⟨-, -, book, hmerge, rfl⟩ := Store.commit_of_ok hcommit
  refine ⟨Store.facts_write _ _ _ _, Store.commissions_write _ _ _ _, ?_,
    Store.memberships_write _ _ _ _, records, ?_, hrecords.recorded⟩
  · rw [Store.book_write]
    exact hmerge
  · have hfailures : (store.write u' book now').failures = store.failures ++ u'.failures :=
      Store.failures_write (u := u') hresolved hattempted book
    rw [hfailures, List.append_assoc]

/-! ## Procedures -/

/-- The unit of work that an action commits. -/
def Action.unit? {α : Type} : Action α → Option WorkUnit
  | .commit u => some u
  | _ => none

namespace Procedure

/-- Whatever others do, the procedure stores nothing until it commits a unit that `V` allows. If
that is accepted, it stores nothing more and ends with an answer that `Y` allows; if not, it may
commit such a unit again, or end with an answer that `E` allows. Where it ends without a commit,
`N` allows the answer. -/
def Recommits (V : WorkUnit → Prop) :
    {α : Type} → (WorkUnit → α → Prop) → (α → Prop) → (α → Prop) → Procedure α → Prop
  | _, _, _, N, done a => N a
  | _, Y, E, N, act action next => ∀ w, action.isReady w = true →
      match action.unit? with
      | none => (w.perform action).2.store = w.store ∧
          (next (w.perform action).1).Recommits V Y E N
      | some u => V u ∧
          (∀ receipt, (w.store.commit u w.now).1 = .ok receipt →
            (next (w.perform action).1).Preserves World.store (Y u)) ∧
          ∀ error, (w.store.commit u w.now).1 = .error error →
            (next (w.perform action).1).Recommits V Y E E
  | _, _, _, _, both _ _ _ => False

/-- Wherever the procedure commits a unit whose moves are refused, `C` holds of the unit and what
is left of the procedure then. -/
def AfterRefusal : {α : Type} → (WorkUnit → Procedure α → Prop) → Procedure α → Prop
  | _, _, done _ => True
  | _, C, act action next => ∀ w, action.isReady w = true →
      (∀ u promoter, action.unit? = some u →
        (w.store.commit u w.now).1 = .error (.switchRejected promoter) →
        C u (next (w.perform action).1)) ∧
      (next (w.perform action).1).AfterRefusal C
  | _, _, both _ _ _ => False

variable {α β : Type} {V : WorkUnit → Prop} {Q : α → Prop} {Z : β → Prop}
  {Y : WorkUnit → α → Prop} {E N : α → Prop} {Y₁ : WorkUnit → β → Prop} {E₁ N₁ : β → Prop}
  {C : WorkUnit → Procedure α → Prop} {C₁ : WorkUnit → Procedure β → Prop} {f : β → Procedure α}

/-- An action that leaves the store as it is in every world is no commit: a commit that is set to
fail is counted. -/
theorem unit?_eq_none {action : Action β} (h : ∀ w : World, action.isReady w = true →
    (w.perform action).2.store = w.store) : action.unit? = none := by
  cases action with
  | commit u =>
    let w : World := { World.start ⟨0, 0, by decide, by decide, by decide⟩ ⟨0⟩ with
      store := { Store.empty with failingCommits := 1 } }
    have hcount := congrArg Store.failingCommits (h w rfl)
    cases hcount
  | _ => rfl

theorem Preserves.recommits {p : Procedure β} (h : p.Preserves World.store Z)
    (hf : ∀ b, Z b → (f b).Recommits V Y E N) : (p >>= f).Recommits V Y E N := by
  induction p with
  | done b => exact hf b h
  | act action next ih =>
    have hnone := unit?_eq_none fun w hready => (h w hready).1
    intro w hready
    rw [hnone]
    exact ⟨(h w hready).1, ih _ (h w hready).2 hf⟩
  | both first second next => exact h.elim

theorem Preserves.afterRefusal {p : Procedure β} (h : p.Preserves World.store Z)
    (hf : ∀ b, Z b → (f b).AfterRefusal C) : (p >>= f).AfterRefusal C := by
  induction p with
  | done b => exact hf b h
  | act action next ih =>
    have hnone := unit?_eq_none fun w hready => (h w hready).1
    refine fun w hready => ⟨fun u promoter hunit => ?_, ih _ (h w hready).2 hf⟩
    rw [hnone] at hunit
    cases hunit
  | both first second next => exact h.elim

theorem Preserves.recommits_self {p : Procedure α} (h : p.Preserves World.store E) :
    p.Recommits V Y E E := by
  have hdone : (p >>= done).Recommits V Y E E := h.recommits fun _ ha => ha
  rwa [show p >>= done = p from andThen_done p] at hdone

theorem Preserves.afterRefusal_self {p : Procedure α} (h : p.Preserves World.store Q) :
    p.AfterRefusal C := by
  have hdone : (p >>= done).AfterRefusal C := h.afterRefusal fun _ _ => trivial
  rwa [show p >>= done = p from andThen_done p] at hdone

theorem Recommits.bind {p : Procedure β} (h : p.Recommits V Y₁ E₁ N₁)
    (hY : ∀ u b, Y₁ u b → (f b).Preserves World.store (Y u))
    (hE : ∀ b, E₁ b → (f b).Recommits V Y E E) (hN : ∀ b, N₁ b → (f b).Recommits V Y E N) :
    (p >>= f).Recommits V Y E N := by
  induction p generalizing N with
  | done b => exact hN b h
  | act action next ih =>
    intro w hready
    have hstep := h w hready
    cases hunit : action.unit? with
    | none =>
      rw [hunit] at hstep
      exact ⟨hstep.1, ih _ hstep.2 hY hE hN⟩
    | some u =>
      rw [hunit] at hstep
      obtain ⟨hu, haccepted, hrefused⟩ := hstep
      exact ⟨hu, fun receipt hok => (haccepted receipt hok).bind (hY u),
        fun error herror => ih _ (hrefused error herror) hY hE hE⟩
  | both first second next => exact h.elim

theorem AfterRefusal.bind {p : Procedure β} (h : p.AfterRefusal C₁)
    (hC : ∀ u q, C₁ u q → C u (q >>= f)) (hf : ∀ b, (f b).AfterRefusal C) :
    (p >>= f).AfterRefusal C := by
  induction p with
  | done b => exact hf b
  | act action next ih =>
    intro w hready
    obtain ⟨hrefused, hnext⟩ := h w hready
    exact ⟨fun u promoter hunit herror => hC u _ (hrefused u promoter hunit herror),
      ih _ hnext hC hf⟩
  | both first second next => exact h.elim

theorem AfterRefusal.step {p q : Procedure α} {w w' : World} (h : p.AfterRefusal C)
    (hstep : p.Step w q w') : q.AfterRefusal C := by
  cases hstep with
  | act hready => exact (h w hready).2
  | first => exact h.elim
  | second => exact h.elim
  | join => exact h.elim

theorem afterRefusal_attempt {u : WorkUnit} {f : Except Error Receipt → Procedure α}
    (hrefused : ∀ promoter, u.transitions ≠ [] → C u (f (.error (.switchRejected promoter))))
    (hf : ∀ answer, (f answer).AfterRefusal C) : (perform (.commit u) >>= f).AfterRefusal C := by
  refine fun w _ => ⟨fun u' promoter hunit hanswer => ?_, hf _⟩
  cases hunit
  have hmoves : u.transitions ≠ [] := fun hnone =>
    Store.commit_ne_switchRejected_of_nil hnone _ promoter hanswer
  have hperform : (w.perform (.commit u)).1 = .error (.switchRejected promoter) := hanswer
  rw [hperform]
  exact hrefused promoter hmoves

theorem recommits_attempt {u : WorkUnit} {f : Except Error Receipt → Procedure α} (hu : V u)
    (haccepted : ∀ receipt, (f (.ok receipt)).Preserves World.store (Y u))
    (hrefused : ∀ error, (f (.error error)).Recommits V Y E E) :
    (perform (.commit u) >>= f).Recommits V Y E N := by
  refine fun w _ => ⟨hu, fun receipt hanswer => ?_, fun error hanswer => ?_⟩
  · have hperform : (w.perform (.commit u)).1 = .ok receipt := hanswer
    rw [hperform]
    exact haccepted receipt
  · have hperform : (w.perform (.commit u)).1 = .error error := hanswer
    rw [hperform]
    exact hrefused error

theorem AfterRefusal.withLocks {body : Procedure α} {W : WorkUnit → WorkUnit → Prop}
    (h : body.AfterRefusal fun u q => q.Recommits (W u) Y E fun _ => False) (ks : List LockKey) :
    (withLocks ks body).AfterRefusal fun u q => q.Recommits (W u) Y E fun _ => False := by
  have hrelease : ∀ (task : TaskId) {Q : α → Prop} {a : α}, Q a → (do
      perform (.releaseLocks task ks)
      return a : Procedure α).Preserves World.store Q :=
    fun _ _ _ ha => Preserves.bind (preserves_perform fun _ => rfl) fun _ _ => ha
  unfold Procedure.withLocks
  refine Preserves.afterRefusal (preserves_perform fun _ => rfl) fun task _ => ?_
  refine (preserves_lockAll (fun _ _ => rfl) task ks).afterRefusal fun _ _ => ?_
  refine h.bind (fun u q hq => ?_) fun a => (hrelease task (Q := (· = a)) rfl).afterRefusal_self
  exact hq.bind (fun u' a ha => hrelease task ha)
    (fun a ha => (hrelease task ha).recommits_self) fun _ => False.elim

end Procedure

namespace Service

open Procedure

variable {s : Service} {u : WorkUnit} {V : WorkUnit → Prop}

/-! ## Commits -/

/-- What a commit answers if a move is refused; it is not tried again. -/
def Refuses (u u' : WorkUnit) (q : Procedure (Except Error Receipt)) : Prop :=
  u' = u ∧ u.transitions ≠ [] ∧ ∃ promoter, q = .done (.error (.switchRejected promoter))

theorem afterRefusal_commit (s : Service) (u : WorkUnit) :
    (s.commit u).AfterRefusal (Refuses u) := by
  have hretrying : ∀ retries attempt,
      (commitRetrying s.config.backoff u retries attempt).AfterRefusal (Refuses u) := by
    intro retries
    induction retries with
    | zero =>
      exact fun _ => afterRefusal_attempt (C := Refuses u) (u := u) (f := done)
        (fun promoter hmoves => ⟨rfl, hmoves, promoter, rfl⟩) fun _ => trivial
    | succ retries ih =>
      intro attempt
      unfold commitRetrying
      refine afterRefusal_attempt (fun promoter hmoves => ⟨rfl, hmoves, promoter, rfl⟩) ?_
      intro answer
      split
      · trivial
      split
      · exact (preserves_sleep _).afterRefusal fun _ _ => ih _
      · trivial
  exact hretrying _ _

theorem recommits_commit (s : Service) (hu : V u) :
    (s.commit u).Recommits V (fun u' answer => u' = u ∧ ∃ receipt, answer = .ok receipt)
      (fun answer => ∃ error, answer = .error error) fun _ => False := by
  have hretrying : ∀ (retries attempt : ℕ) (N : Except Error Receipt → Prop),
      (commitRetrying s.config.backoff u retries attempt).Recommits V
        (fun u' answer => u' = u ∧ ∃ receipt, answer = .ok receipt)
        (fun answer => ∃ error, answer = .error error) N := by
    intro retries
    induction retries with
    | zero =>
      exact fun _ _ => recommits_attempt (f := done) hu (fun receipt => ⟨rfl, receipt, rfl⟩)
        fun error => ⟨error, rfl⟩
    | succ retries ih =>
      intro attempt N
      unfold commitRetrying
      refine recommits_attempt hu (fun receipt => ⟨rfl, receipt, rfl⟩) fun error => ?_
      dsimp only
      split
      · exact (preserves_sleep _).recommits fun _ _ => ih _ _
      · exact ⟨error, rfl⟩
  exact hretrying _ _ _

/-- A commit whose moves are refused goes on with a commit of the rest. -/
theorem afterRefusal_commitDemoting (s : Service) (hresolved : u.resolved = [])
    (hattempted : u.attempted = []) :
    (s.commitDemoting u).AfterRefusal fun u' q => u' = u ∧ q.Recommits u.Demoted
      (fun u'' a => a.2 = u'' ∧ ∃ receipt, a.1 = .ok receipt)
      (fun a => ∃ error, a.1 = .error error) fun _ => False := by
  have hdemote : ∀ promoter, (stageWith u fun staging =>
      ((), staging.demoteTransitions (.switchRejected promoter) staging.now)).Preserves
        World.store fun a => u.Demoted a.2 :=
    fun promoter w _ => ⟨rfl, Staging.demoted_demoteTransitions ⟨u, w.permits, w.ids, w.now⟩
      hresolved hattempted (.switchRejected promoter) w.now⟩
  unfold commitDemoting
  refine (s.afterRefusal_commit u).bind ?_ fun answer => ?_
  · rintro u' _ ⟨rfl, hmoves, promoter, rfl⟩
    have hsome : ¬u'.transitions.isEmpty = true := by simpa using hmoves
    refine ⟨rfl, ?_⟩
    dsimp only [bind, andThen]
    rw [if_neg hsome]
    refine (hdemote promoter).recommits fun a ha => ?_
    refine (s.recommits_commit ha).bind ?_ ?_ fun _ => False.elim
    · rintro _ answer ⟨rfl, haccepted⟩
      exact ⟨rfl, haccepted⟩
    · exact fun answer herror => herror
  · split
    · split
      · trivial
      · refine (hdemote _).afterRefusal fun a ha => ?_
        refine (s.afterRefusal_commit a.2).bind ?_ fun _ => trivial
        -- nothing that a unit without moves is refused for is a move
        rintro _ _ ⟨-, hmoves, -⟩
        exact (hmoves ha.2.1).elim
    · trivial

/-! ## Publishing -/

/-- The answer says that the event is recorded, and with it what was committed. -/
def Reports (u : WorkUnit) (answer : Except Error PublishOutcome) : Prop :=
  ∃ report, answer = .ok (.committed report) ∧ report.commissions = u.commissions ∧
    report.transitions = u.transitions.map (·.transition) ∧ report.failures = u.failures

/-- The answer says that the event was not recorded now. -/
def Declines (answer : Except Error PublishOutcome) : Prop :=
  ∀ report, answer ≠ .ok (.committed report)

/-- Work on a fresh unit of work marks no failure record. -/
theorem unmarked_dispatchAt (hbuiltIn : s.extra = []) (store : Store) (e : Event)
    (permits : Permits) (ids : IdSupply) (now : Instant) (calls : List CallRecord) :
    let u := (s.dispatcher.dispatchAt 0 e
      ⟨.start (store.context e.promoterKey), permits, ids, now⟩ calls).staging.unit
    u.resolved = [] ∧ u.attempted = [] := by
  let w : World := { World.start now ids with store, permits, calls }
  have hbelongs := (belongs_dispatched hbuiltIn w e now).2
  exact ⟨hbelongs.resolved, hbelongs.attempted⟩

theorem preserves_settle (e : Event) (dispatch : DispatchReport) (u : WorkUnit)
    (answer : Except Error Receipt) :
    (settle e dispatch u answer).Preserves World.store (· = answerTo e dispatch u answer) := by
  have hfinish : ∀ a : Except Error PublishOutcome, (finish u a).Preserves World.store (· = a) :=
    fun a => Preserves.bind (preserves_perform fun _ => rfl) fun _ _ => rfl
  cases answer with
  | error error => exact hfinish _
  | ok receipt =>
    have hoffer : ∀ report, (do
        perform (.offer u.notifications)
        finish u (.ok (.committed report)) : Procedure (Except Error PublishOutcome)).Preserves
          World.store (· = .ok (.committed report)) :=
      fun report => Preserves.bind (preserves_perform fun _ => rfl)
        fun _ _ => hfinish _
    simp only [settle]
    split
    · exact Preserves.bind (preserves_perform fun _ => rfl)
        fun _ _ => hoffer _
    · exact hoffer _

theorem declines_of_error (e : Event) (dispatch : DispatchReport) (u : WorkUnit) (error : Error) :
    Declines (answerTo e dispatch u (.error error)) := by
  simp only [Declines, answerTo]
  split <;> exact fun _ h => by cases h

/-- Where the moves of a published event are refused, the rest is committed at once. -/
theorem afterRefusal_publish (hbuiltIn : s.extra = []) (e : Event) :
    (s.publish e).AfterRefusal fun u q =>
      q.Recommits u.Demoted Reports Declines fun _ => False := by
  unfold publish
  split
  · trivial
  refine AfterRefusal.withLocks (W := WorkUnit.Demoted) ?_ _
  rw [record_eq]
  refine Preserves.afterRefusal (preserves_perform fun _ => rfl) fun known _ => ?_
  split
  · trivial
  unfold recordNew
  refine Preserves.afterRefusal
    (Z := fun u => ∃ store : Store, u = .start (store.context e.promoterKey))
    (fun w _ => ⟨rfl, w.store, rfl⟩) ?_
  rintro _ ⟨store, rfl⟩
  refine Preserves.afterRefusal
    (Z := fun a : DispatchReport × WorkUnit => a.2.resolved = [] ∧ a.2.attempted = [])
    (fun w _ => ⟨rfl, unmarked_dispatchAt hbuiltIn store e w.permits w.ids w.now w.calls⟩) ?_
  rintro ⟨dispatch, u⟩ ⟨hresolved, hattempted⟩
  refine (s.afterRefusal_commitDemoting hresolved hattempted).bind ?_ fun a =>
    (preserves_settle e dispatch a.2 a.1).afterRefusal_self
  rintro _ q ⟨rfl, hq⟩
  refine hq.bind ?_ ?_ fun _ => False.elim
  · rintro u' ⟨_, _⟩ ⟨rfl, receipt, rfl⟩
    refine (preserves_settle e dispatch _ _).weaken ?_
    rintro _ rfl
    exact ⟨_, rfl, rfl, rfl, rfl⟩
  · rintro ⟨_, u'⟩ ⟨error, rfl⟩
    refine ((preserves_settle e dispatch u' _).weaken ?_).recommits_self
    rintro _ rfl
    exact declines_of_error e dispatch u' error

end Service

end Referral
