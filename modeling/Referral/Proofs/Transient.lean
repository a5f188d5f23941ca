import Referral.Proofs.Dates
import Referral.Proofs.SoundLog

/-!
# Commits that fail for a while

A commit may fail before it is looked at, and is then tried again. A publication that gets through
with its retries comes to exactly what it would have come to on a store that never fails, at the
moments at which its successful commits were made. Where there are more failures than attempts, it
ends with the error and nothing is stored.
-/

namespace Referral

/-- The store as it is, with no commit set to fail. -/
def Store.reliable (s : Store) : Store := { s with failingCommits := 0 }

theorem Store.reliable_of_zero {s : Store} (h : s.failingCommits = 0) : s.reliable = s := by
  rw [reliable, ← h]

namespace World

/-- The world as it is, with no commit set to fail. -/
def reliable (w : World) : World := { w with store := w.store.reliable }

variable {w w' : World}

theorem reliable_of_zero (h : w.store.failingCommits = 0) : w.reliable = w := by
  rw [reliable, Store.reliable_of_zero h]

theorem Passes.reliable (h : w.Passes w') : w.reliable.Passes w'.reliable := by
  cases h
  exact .pass _ _

end World

/-- An action that comes out the same whether or not commits are set to fail. -/
def Action.Blind {α : Type} (action : Action α) : Prop :=
  ∀ w : World, w.reliable.perform action = ((w.perform action).1, (w.perform action).2.reliable)

theorem Action.isReady_reliable {α : Type} (action : Action α) (w : World) :
    action.isReady w.reliable = action.isReady w := by
  cases action <;> rfl

namespace Procedure

variable {α β : Type} {p : Procedure α} {w w' w'' : World} {Q : α → World → Prop}

/-! ## Runs beside runs on a store that does not fail -/

theorem Runs.later {a : α} (h : p.Runs w a w') (hpass : w'.Passes w'') : p.Runs w a w'' := by
  obtain ⟨n, hn⟩ := h
  exact ⟨n, hn.others hpass⟩

theorem Runs.act {action : Action β} {next : β → Procedure α} {a : α}
    (hready : action.isReady w = true)
    (h : (next (w.perform action).1).Runs (w.perform action).2 a w') :
    (Procedure.act action next).Runs w a w' := by
  obtain ⟨n, hn⟩ := h
  exact ⟨1 + n, (Amid.own .start (.act hready)).trans hn⟩

/-- A procedure that comes to an end runs to wherever it comes. -/
theorem Ends.runs (h : p.Ends Q w) : p.Ends (fun a w' => Q a w' ∧ p.Runs w a w') w := by
  have hall : ∀ {w₀ : World} {q : Procedure α} {n : ℕ}, q.Amid World.Passes w₀ n p w →
      p.Ends (fun a w' => Q a w' ∧ q.Runs w₀ a w') w := by
    induction p generalizing w with
    | done a => exact fun hq w' hw' => ⟨h w' hw', _, hq.others hw'⟩
    | act action next ih =>
      intro w₀ q n hq w' hw'
      obtain ⟨hready, hnext⟩ := h w' hw'
      exact ⟨hready, fun hnow => ih _ (hnext hnow) ((hq.others hw').own (.act hnow))⟩
    | both => exact h.elim
  exact hall .start

/-- A procedure that comes to an end, however many commits are set to fail, and to nothing that it
would not come to if none were. -/
def Survives (Q : α → World → Prop) (p : Procedure α) (w : World) : Prop :=
  p.Ends (fun a v => Q a v ∧ p.Runs w.reliable a v.reliable) w

theorem Survives.weaken {Q' : α → World → Prop} (h : p.Survives Q w)
    (hQ : ∀ a v, Q a v → Q' a v) : p.Survives Q' w :=
  Ends.weaken h fun a v h => ⟨hQ a v h.1, h.2⟩

/-- One procedure after another. -/
theorem Survives.bind {Q₁ : β → World → Prop} {p : Procedure β} {f : β → Procedure α}
    (h : p.Survives Q₁ w) (hf : ∀ b v, Q₁ b v → (f b).Survives Q v) :
    (p >>= f).Survives Q w := by
  refine Ends.bind h ?_
  rintro b v ⟨hb, hrun⟩
  refine Ends.weaken (hf b v hb) ?_
  rintro a v' ⟨ha, hrest⟩
  exact ⟨ha, hrun.bind hrest⟩

/-- Where no commit is set to fail to begin with and none is at the end, there is nothing to
compare. -/
theorem Ends.survives_of_zero (h : p.Ends Q w) (hzero : w.store.failingCommits = 0)
    (hQ : ∀ a v, Q a v → v.store.failingCommits = 0) : p.Survives Q w := by
  refine h.runs.weaken ?_
  rintro a v ⟨ha, hrun⟩
  rw [World.reliable_of_zero hzero, World.reliable_of_zero (hQ a v ha)]
  exact ⟨ha, hrun⟩

/-- A procedure all of whose actions are blind to it whether commits are set to fail. -/
def Blind : {α : Type} → Procedure α → Prop
  | _, done _ => True
  | _, act action next => action.Blind ∧ ∀ b, (next b).Blind
  | _, both _ _ _ => False

theorem Blind.bind {p : Procedure β} {f : β → Procedure α} (h : p.Blind) (hf : ∀ b, (f b).Blind) :
    (p >>= f).Blind := by
  induction p with
  | done b => exact hf b
  | act action next ih => exact ⟨h.1, fun b => ih b (h.2 b) hf⟩
  | both => exact h.elim

theorem blind_perform {action : Action α} (h : action.Blind) : (perform action).Blind :=
  ⟨h, fun _ => trivial⟩

theorem blind_sleep (millis : ℕ) : (sleep millis).Blind :=
  ⟨fun _ => rfl, fun _ => ⟨fun _ => rfl, fun _ => trivial⟩⟩

/-- A wait is over after some time, and nothing else. -/
theorem ends_sleep_passes (millis : ℕ) : (sleep millis).Ends (fun _ w' => w.Passes w') w := by
  intro w₁ h₁
  refine ⟨⟨w₁, .refl w₁, rfl⟩, fun _ w₂ h₂ => ?_⟩
  let moment := w₁.momentAfter millis
  have hwait : ∃ w₃, w₂.Passes w₃ ∧ (Action.awaitMoment moment).isReady w₃ = true :=
    ⟨_, .pass moment 0, decide_eq_true (Nat.le_add_left _ _)⟩
  exact ⟨hwait, fun _ w₃ h₃ => (h₁.trans h₂).trans h₃⟩

theorem blind_lockAll (task : TaskId) (ks : List LockKey) : (lockAll task ks).Blind := by
  induction ks with
  | nil => trivial
  | cons k ks ih => exact ⟨fun _ => rfl, fun _ => ⟨fun _ => rfl, fun _ => ih⟩⟩

/-- A blind procedure comes to the same on a store that does not fail, action by action. -/
theorem Blind.survives (hblind : p.Blind) (h : p.Ends Q w) : p.Survives Q w := by
  induction p generalizing w with
  | done a => exact fun w' hw' => ⟨h w' hw', (runs_pure a _).later hw'.reliable⟩
  | act action next ih =>
    intro w' hw'
    obtain ⟨hready, hnext⟩ := h w' hw'
    refine ⟨hready, fun hnow => Ends.weaken (ih _ (hblind.2 _) (hnext hnow)) ?_⟩
    rintro a v ⟨ha, hrun⟩
    refine ⟨ha, .after hw'.reliable (.act ((action.isReady_reliable w').trans hnow) ?_)⟩
    rw [hblind.1 w']
    exact hrun
  | both => exact h.elim

/-- Locks at which there is nobody make no difference. -/
theorem survives_withLocks {body : Procedure α} {R : α → Store → Prop} {ks : List LockKey}
    (hks : ks.Nodup) (hfree : ∀ k ∈ ks, w.locks.queue k = [])
    (hbody : ∀ w', w.Aside w' → body.Survives (fun a v => R a v.store) w') :
    (withLocks ks body).Survives (fun a v => R a v.store) w := by
  have htask : (perform .newTask).Ends (fun _ w' => w.Aside w' ∧ w'.locks = w.locks) w := by
    refine ends_perform (fun _ _ => rfl) fun w' w'' hw' hw'' => ?_
    cases hw'
    cases hw''
    exact ⟨.aside _ _ _ _, rfl⟩
  unfold withLocks
  refine ((blind_perform fun _ => rfl).survives htask).bind fun task w₁ ⟨h₁, hlocks⟩ => ?_
  have hlock := ends_lockAll task hks (hlocks ▸ hfree)
  refine ((blind_lockAll task ks).survives hlock).bind fun _ w₂ h₂ => ?_
  refine (hbody w₂ (h₁.trans h₂)).bind fun a w₃ ha => ?_
  have hrelease : (perform (.releaseLocks task ks)).Ends (fun _ w' => w'.store = w₃.store) w₃ :=
    ends_still (fun _ => rfl) fun _ => rfl
  refine ((blind_perform fun _ => rfl).survives hrelease).bind fun _ w₄ h₄ => ?_
  exact Blind.survives (p := pure a) trivial (ends_pure (h₄ ▸ ha))

end Procedure

namespace Store

variable {s : Store} {u : WorkUnit}

/-- An answer that trying again does not change. -/
def Settled (answer : Except Error Receipt) : Prop :=
  ∀ error, answer = .error error → error.isTransient = false

/-- A store answers to a unit of work with one and the same transient error whatever the time, or
with none ever. -/
theorem commit_settled_or_transient (hzero : s.failingCommits = 0) (u : WorkUnit) :
    (∃ error, error.isTransient = true ∧ ∀ now, s.commit u now = (.error error, s)) ∨
      ∀ now, Settled (s.commit u now).1 := by
  by_cases h : ∃ now error, (s.commit u now).1 = .error error ∧ error.isTransient = true
  · obtain ⟨now, error, hcommit, htransient⟩ := h
    exact .inl ⟨error, htransient, commit_eq_of_error hzero hcommit⟩
  · push Not at h
    exact .inr fun now error hcommit => by simpa using h now error hcommit

/-- A commit that is set to fail does so. -/
theorem commit_of_failing {n : ℕ} (h : s.failingCommits = n + 1) (u : WorkUnit) (now : Instant) :
    s.commit u now = (.error (.store "injected commit failure"), { s with failingCommits := n }) := by
  have hpos : 0 < s.failingCommits := by omega
  rw [commit, if_pos hpos, h]
  rfl

end Store

namespace Service

open Procedure World

variable {s : Service} {w w' : World} {u : WorkUnit} {e : Event}

/-! ## Commits that are tried again -/

theorem perform_commit (w : World) (u : WorkUnit) : w.perform (.commit u) =
    ((w.store.commit u w.now).1, { w with store := (w.store.commit u w.now).2 }) := rfl

/-- A commit that is answered for good is not tried again. -/
theorem runs_commitRetrying {answer : Except Error Receipt} (backoff : ℕ → Duration)
    (h : (perform (.commit u)).Runs w answer w') (hsettled : Store.Settled answer)
    (retries attempt : ℕ) : (commitRetrying backoff u retries attempt).Runs w answer w' := by
  cases retries with
  | zero => exact h
  | succ retries =>
    unfold commitRetrying
    refine h.bind ?_
    cases answer with
    | ok receipt => exact runs_pure _ w'
    | error error =>
      dsimp only
      rw [if_neg (by simp [hsettled error rfl])]
      exact runs_pure _ w'

/-- A commit that is set to fail is tried again after a wait. -/
theorem ends_commitRetrying_of_failing {Q : Except Error Receipt → World → Prop}
    (backoff : ℕ → Duration) {n : ℕ} (hn : w.store.failingCommits = n + 1) (retries attempt : ℕ)
    (h : ∀ w₁, w.Passes w₁ → (sleep (backoff attempt).millisUp >>= fun _ =>
      commitRetrying backoff u retries (attempt + 1)).Ends Q
        { w₁ with store := { w.store with failingCommits := n } }) :
    (commitRetrying backoff u (retries + 1) attempt).Ends Q w := by
  intro w₁ h₁
  refine ⟨⟨w₁, .refl w₁, rfl⟩, fun _ => ?_⟩
  have hnext := h w₁ h₁
  have hfailing : w₁.store.failingCommits = n + 1 := by rw [h₁.store_eq, hn]
  rw [perform_commit, Store.commit_of_failing hfailing, h₁.store_eq]
  exact hnext

section

variable (backoff : ℕ → Duration) (retries attempt : ℕ)

/-- Where no commit is set to fail, what a commit with retries comes to is no surprise. -/
theorem survives_commitRetrying_of_zero (hzero : w.store.failingCommits = 0) :
    (commitRetrying backoff u retries attempt).Survives
      (fun answer v => v.store.failingCommits = 0 ∧
        ∃ now, w.store.commit u now = (answer, v.store)) w := by
  have hends := ends_commitRetrying backoff hzero (u := u) retries attempt (w := w) rfl
  have hstill : ∀ (answer : Except Error Receipt) (v : World),
      (∃ now, w.store.commit u now = (answer, v.store)) → v.store.failingCommits = 0 := by
    rintro answer v ⟨now, h⟩
    have hlater := Store.failingCommits_commit hzero u now
    rwa [h] at hlater
  exact (hends.survives_of_zero hzero hstill).weaken fun a v h => ⟨hstill a v h, h⟩

/-- Attempt by attempt, a store that does not fail is in the same way unable to take the unit. -/
theorem survives_commitRetrying_of_transient {error : Error} (htransient : error.isTransient = true)
    (hrefused : ∀ now, w.store.reliable.commit u now = (.error error, w.store.reliable))
    (hle : w.store.failingCommits ≤ retries) : (commitRetrying backoff u retries attempt).Survives
      (fun _ v => v.store.failingCommits = 0) w := by
  induction retries generalizing w attempt with
  | zero =>
    exact (survives_commitRetrying_of_zero _ _ _ (by omega)).weaken fun _ _ h => h.1
  | succ retries ih =>
    rcases hn : w.store.failingCommits with _ | n
    · exact (survives_commitRetrying_of_zero _ _ _ hn).weaken fun _ _ h => h.1
    refine ends_commitRetrying_of_failing backoff hn retries attempt fun w₁ h₁ => ?_
    let w₂ : World := { w₁ with store := { w.store with failingCommits := n } }
    have hslept := (blind_sleep (backoff attempt).millisUp).survives
      (ends_sleep (w := w₂) (backoff attempt).millisUp)
    have hrest : (sleep (backoff attempt).millisUp >>= fun _ =>
        commitRetrying backoff u retries (attempt + 1)).Survives
          (fun _ v => v.store.failingCommits = 0) w₂ := by
      refine hslept.bind fun _ w₃ h₃ => ih _ ?_ ?_
      · rw [h₃]
        exact hrefused
      · rw [h₃]
        change n ≤ retries
        omega
    refine Ends.weaken hrest ?_
    rintro a v ⟨hzero, hrun⟩
    have hstore : w₁.reliable.store = w.store.reliable := congrArg Store.reliable h₁.store_eq
    have hrefusal : (perform (.commit u)).Runs w₁.reliable (.error error) w₂.reliable := by
      have hanswer := runs_perform (w := w₁.reliable) (.commit u) rfl
      rw [perform_commit, hstore, hrefused] at hanswer
      exact hanswer
    refine ⟨hzero, .after h₁.reliable ?_⟩
    unfold commitRetrying
    refine hrefusal.bind ?_
    dsimp only
    rw [if_pos htransient]
    exact hrun

/-- The unit is taken or refused for good at the first attempt that does not fail, and so it is at
that moment by a store that does not fail. -/
theorem ends_commitRetrying_of_settled
    (hsettled : ∀ now, Store.Settled (w.store.reliable.commit u now).1)
    (hle : w.store.failingCommits ≤ retries) : (commitRetrying backoff u retries attempt).Ends
      (fun answer v => v.store.failingCommits = 0 ∧ Store.Settled answer ∧
        (perform (.commit u)).Runs w.reliable answer v.reliable) w := by
  have hlast : ∀ {w : World}, w.store.failingCommits = 0 →
      (∀ now, Store.Settled (w.store.reliable.commit u now).1) → ∀ retries attempt,
      (commitRetrying backoff u retries attempt).Ends
        (fun answer v => v.store.failingCommits = 0 ∧ Store.Settled answer ∧
          (perform (.commit u)).Runs w.reliable answer v.reliable) w := by
    intro w hzero hsettled retries attempt
    rw [Store.reliable_of_zero hzero] at hsettled
    have hcommit : (perform (.commit u)).Ends
        (fun answer v => v.store.failingCommits = 0 ∧ Store.Settled answer) w := by
      refine ends_perform (fun _ _ => rfl) fun w₁ w₂ h₁ h₂ => ?_
      rw [h₂.store_eq, perform_commit, h₁.store_eq]
      exact ⟨Store.failingCommits_commit hzero u _, hsettled _⟩
    have hruns := hcommit.survives_of_zero hzero fun _ _ h => h.1
    cases retries with
    | zero => exact Ends.weaken hruns fun _ _ h => ⟨h.1.1, h.1.2, h.2⟩
    | succ retries =>
      unfold commitRetrying
      refine Ends.bind hruns ?_
      rintro answer w₁ ⟨⟨hzero₁, hanswer⟩, hrun⟩
      have hend : (pure answer : Procedure (Except Error Receipt)).Ends
          (fun answer v => v.store.failingCommits = 0 ∧ Store.Settled answer ∧
            (perform (.commit u)).Runs w.reliable answer v.reliable) w₁ := fun w₂ h₂ =>
        ⟨h₂.store_eq ▸ hzero₁, hanswer, hrun.later h₂.reliable⟩
      cases answer with
      | ok receipt => exact hend
      | error error =>
        dsimp only
        rw [if_neg (by simp [hanswer error rfl])]
        exact hend
  induction retries generalizing w attempt with
  | zero => exact hlast (by omega) hsettled _ _
  | succ retries ih =>
    rcases hn : w.store.failingCommits with _ | n
    · exact hlast hn hsettled _ _
    refine ends_commitRetrying_of_failing backoff hn retries attempt fun w₁ h₁ => ?_
    let w₂ : World := { w₁ with store := { w.store with failingCommits := n } }
    have hpass : w.reliable.Passes w₂.reliable := by
      have hsame : w₂.reliable = w₁.reliable := by
        rw [reliable, reliable, h₁.store_eq]
        rfl
      rw [hsame]
      exact h₁.reliable
    refine (ends_sleep_passes (w := w₂) _).bind fun _ w₃ h₃ => ?_
    have hstore : w₃.store.reliable = w.store.reliable := by
      rw [h₃.store_eq]
      rfl
    refine Ends.weaken (ih _ (hstore ▸ hsettled) ?_) fun answer v h =>
      ⟨h.1, h.2.1, .after (hpass.trans h₃.reliable) h.2.2⟩
    rw [h₃.store_eq]
    change n ≤ retries
    omega

/-- A unit of work that is committed with as many retries as commits fail comes through. -/
theorem survives_commitRetrying (hle : w.store.failingCommits ≤ retries) :
    (commitRetrying backoff u retries attempt).Survives
      (fun _ v => v.store.failingCommits = 0) w := by
  rcases w.store.reliable.commit_settled_or_transient rfl u with ⟨error, htransient, hrefused⟩ |
    hsettled
  · exact survives_commitRetrying_of_transient backoff retries attempt htransient hrefused hle
  · exact Ends.weaken (ends_commitRetrying_of_settled backoff retries attempt hsettled hle)
      fun answer v ⟨hzero, hanswer, hrun⟩ =>
        ⟨hzero, runs_commitRetrying backoff hrun hanswer retries attempt⟩

end

/-! ## Publications -/

theorem survives_commitDemoting (s : Service) (u : WorkUnit)
    (hle : w.store.failingCommits ≤ s.config.commitRetries.toNat) :
    (s.commitDemoting u).Survives (fun _ _ => True) w := by
  have hpure : ∀ (a : Except Error Receipt × WorkUnit) (v : World),
      (pure a : Procedure _).Survives (fun _ _ => True) v := fun a v =>
    Blind.survives (p := pure a) trivial (fun _ _ => trivial)
  unfold commitDemoting
  refine (survives_commitRetrying _ _ _ hle).bind fun answer w₁ hzero => ?_
  split
  · rename_i promoter
    split
    · exact hpure _ _
    have hstage : (stageWith u fun staging => ((), staging.demoteTransitions
        (.switchRejected promoter) staging.now)).Ends
          (fun _ w' => w'.store = w₁.store) w₁ := ends_still (fun _ => rfl) fun _ => rfl
    refine ((blind_perform fun _ => rfl).survives hstage).bind fun a w₂ h₂ => ?_
    have hagain : w₂.store.failingCommits ≤ s.config.commitRetries.toNat := by
      rw [h₂, hzero]
      exact Nat.zero_le _
    exact (survives_commitRetrying _ _ _ hagain).bind fun _ _ _ => hpure _ _
  · exact hpure _ _

theorem blind_finish {α : Type} (u : WorkUnit) (answer : α) : (finish u answer).Blind :=
  (blind_perform fun _ => rfl).bind fun _ => trivial

theorem blind_settle (e : Event) (dispatch : DispatchReport) (u : WorkUnit)
    (answer : Except Error Receipt) : (settle e dispatch u answer).Blind := by
  cases answer with
  | error error => exact blind_finish u _
  | ok receipt =>
    have hoffer : ∀ report, (do
        perform (.offer u.notifications)
        finish u (.ok (.committed report)) :
          Procedure (Except Error PublishOutcome)).Blind := fun _ =>
      (blind_perform fun _ => rfl).bind fun _ => blind_finish u _
    simp only [settle]
    split
    · exact (blind_perform fun _ => rfl).bind fun _ => hoffer _
    · exact hoffer _

theorem survives_record (s : Service) (e : Event)
    (hle : w.store.failingCommits ≤ s.config.commitRetries.toNat) :
    (s.record e).Survives (fun _ _ => True) w := by
  rw [record_eq]
  refine ((blind_perform fun _ => rfl).survives (ends_read _)).bind fun known w₁ h₁ => ?_
  cases known with
  | true => exact Blind.survives (p := pure _) trivial (fun _ _ => trivial)
  | false =>
    rw [if_neg Bool.false_ne_true]
    unfold recordNew
    have hstart : (startUnit e.promoterKey).Blind := ⟨fun _ => rfl, fun _ => trivial⟩
    refine (hstart.survives (ends_startUnit _)).bind fun u w₂ h₂ => ?_
    have hdispatch : (s.dispatch u 0 e).Ends (fun _ w' => w'.store = w₂.store) w₂ :=
      ends_still (fun _ => rfl) fun _ => rfl
    refine ((blind_perform fun _ => rfl).survives hdispatch).bind fun a w₃ h₃ => ?_
    have hfailing : w₃.store.failingCommits ≤ s.config.commitRetries.toNat := by
      rw [h₃, h₂.2.store_eq, h₁.2.store_eq]
      exact hle
    refine (survives_commitDemoting s a.2 hfailing).bind fun b w₄ _ => ?_
    exact ((blind_settle e a.1 b.2 b.1).survives (ends_settle e a.1 b.2 b.1 w₄)).weaken
      fun _ _ _ => trivial

/-- Whatever the handlers are, a publication whose commits fail no more often than they are tried
again comes to an end, and to nothing that it would not come to if none failed. -/
theorem survives_publish (s : Service) (hlocks : ∀ k ∈ e.lockKeys, w.locks.queue k = [])
    (hle : w.store.failingCommits ≤ s.config.commitRetries.toNat) :
    (s.publish e).Survives (fun _ _ => True) w := by
  unfold publish
  cases accept e with
  | error error => exact Blind.survives (p := pure _) trivial (fun _ _ => trivial)
  | ok _ =>
    refine survives_withLocks (R := fun _ _ => True) (nodup_sortedKeys _) hlocks fun w' hw' => ?_
    exact survives_record s e (hw'.store_eq ▸ hle)

/-! ## More failures than attempts -/

theorem ends_commitRetrying_of_lt (backoff : ℕ → Duration) (retries attempt : ℕ)
    (hlt : retries < w.store.failingCommits) : (commitRetrying backoff u retries attempt).Ends
      (fun answer v => answer = .error (.store "injected commit failure") ∧
        v.store = { w.store with failingCommits := w.store.failingCommits - (retries + 1) }) w := by
  induction retries generalizing w attempt with
  | zero =>
    obtain ⟨n, hn⟩ := Nat.exists_eq_add_of_lt hlt
    refine ends_perform (fun _ _ => rfl) fun w₁ w₂ h₁ h₂ => ?_
    have hfailing : w₁.store.failingCommits = n + 1 := by rw [h₁.store_eq, hn]; omega
    rw [h₂.store_eq, perform_commit, Store.commit_of_failing hfailing, h₁.store_eq, hn]
    exact ⟨rfl, by simp⟩
  | succ retries ih =>
    obtain ⟨n, hn⟩ : ∃ n, w.store.failingCommits = n + 1 :=
      ⟨w.store.failingCommits - 1, by omega⟩
    refine ends_commitRetrying_of_failing backoff hn retries attempt fun w₁ h₁ => ?_
    refine (ends_sleep _).bind fun _ w₂ h₂ => ?_
    have hrest : retries < w₂.store.failingCommits := by
      rw [h₂]
      change retries < n
      omega
    refine (ih (attempt + 1) hrest).weaken ?_
    rintro answer v ⟨rfl, hv⟩
    refine ⟨rfl, ?_⟩
    rw [hv, h₂, hn]
    simp only [Nat.add_sub_add_right]

/-- What is left of a store after more commits failed than were tried. -/
def worn (s : Service) (store : Store) : Store :=
  { store with failingCommits := store.failingCommits - (s.config.commitRetries.toNat + 1) }

/-- An event that is new and in order is not recorded where more commits fail than are tried. -/
theorem ends_publish_of_lt (s : Service) (hlocks : ∀ k ∈ e.lockKeys, w.locks.queue k = [])
    (hvalid : accept e = .ok ()) (hnew : w.store.hasEvent e.id = false)
    (hlt : s.config.commitRetries.toNat < w.store.failingCommits) :
    (s.publish e).Ends (fun answer v => answer = .error (.store "injected commit failure") ∧
      v.store = s.worn w.store) w := by
  unfold publish
  rw [hvalid]
  refine ends_withLocks (R := fun (answer : Except Error PublishOutcome) store =>
    answer = .error (.store "injected commit failure") ∧ store = s.worn w.store)
    (nodup_sortedKeys _) hlocks fun w' hw' => ?_
  rw [record_eq]
  refine (ends_read _).bind ?_
  rintro _ w₁ ⟨rfl, h₁⟩
  have hunknown : w'.store.hasEvent e.id = false := by rw [hw'.store_eq, hnew]
  rw [hunknown, if_neg Bool.false_ne_true]
  unfold recordNew
  refine (ends_startUnit _).bind fun u w₂ ⟨_, h₂⟩ => ?_
  have hdispatch : (s.dispatch u 0 e).Ends (fun _ w' => w'.store = w₂.store) w₂ :=
    ends_still (fun _ => rfl) fun _ => rfl
  refine hdispatch.bind fun a w₃ h₃ => ?_
  have hstore : w₃.store = w.store := by rw [h₃, h₂.store_eq, h₁.store_eq, hw'.store_eq]
  have hcommit : (s.commit a.2).Ends
      (fun answer v => answer = .error (.store "injected commit failure") ∧
        v.store = s.worn w.store) w₃ := by
    rw [worn, ← hstore]
    exact ends_commitRetrying_of_lt _ _ _ (hstore ▸ hlt)
  have hdemoting : (s.commitDemoting a.2).Ends
      (fun b v => b.1 = .error (.store "injected commit failure") ∧ v.store = s.worn w.store) w₃ := by
    unfold commitDemoting
    refine hcommit.bind ?_
    rintro _ w₄ ⟨rfl, h₄⟩
    exact fun w₅ h₅ => ⟨rfl, h₅.store_eq.trans h₄⟩
  refine hdemoting.bind ?_
  rintro ⟨_, u'⟩ w₄ ⟨rfl, h₄⟩
  refine (ends_settle e a.1 u' _ w₄).weaken ?_
  rintro _ v ⟨rfl, hv⟩
  exact ⟨rfl, hv.trans h₄⟩

/-! ## Whatever the number of failures -/

/-- A sound log stays so. -/
theorem ends_publish_sound (hfair : s.Fair) (hsound : w.store.Sound) {Q : _ → World → Prop}
    (h : (s.publish e).Ends Q w) :
    (s.publish e).Ends (fun a v => Q a v ∧ v.store.Sound) w := by
  have hkeeps := (maintains_sound hfair).upholds.abides_publish hsound (e := e) (fun _ _ => trivial)
  have hsince := hkeeps.since (rely_follows _) (fun _ _ _ h => h) ((rely_follows _).refl w)
  refine (h.and_keeps (fun w w' hpass => ?_) hsince).weaken fun a v h => ⟨h.1, h.2.2.keeps hsound⟩
  exact ⟨hpass.store_eq ▸ .refl _, fun hw => hpass.store_eq ▸ hw, by cases hpass; exact le_rfl⟩

/-- What comes of a publication that gets through, but for the dates, is what comes of it whenever
no commit fails. -/
theorem publish_dated_eq (hbuiltIn : s.extra = []) (hfree : e.promoterKey ∉ w.permits.out)
    (hlocks : ∀ k ∈ e.lockKeys, w.locks.queue k = [])
    (hle : w.store.failingCommits ≤ s.config.commitRetries.toNat) (t : Instant) :
    (s.publish e).Ends (fun a v => (s.publish e).Ends (fun a₀ v₀ =>
      a.map (·.dated t) = a₀.map (·.dated t) ∧ v.store.reliable.dated t = v₀.store.dated t)
        w.reliable) w := by
  have hidle : w.reliable.Idle e := ⟨rfl, hlocks, hfree⟩
  cases hvalid : accept e with
  | error error =>
    refine (publish_refuses hvalid).weaken fun a v h => ?_
    refine (publish_refuses hvalid).weaken fun a₀ v₀ h₀ => ?_
    rw [h.1, h₀.1, h.2, h₀.2]
    exact ⟨rfl, rfl⟩
  | ok _ =>
    have hends := publish_concludes hbuiltIn hidle hvalid
    refine Ends.weaken (survives_publish s hlocks hle) ?_
    rintro a v ⟨-, n, hrun⟩
    have hconcludes := (hends.amid hrun) _ (.refl _)
    exact hends.weaken fun a₀ v₀ h₀ =>
      Concludes.dated_eq (w := w.reliable) hbuiltIn hfree h₀ hconcludes t

/-- A publication that has the world to itself, where a number of commits are set to fail. Where they
are no more than the retries, it always comes to an end, and to nothing but what it comes to if no
commit fails: the same answer and the same world, identifiers included, at a run in which the clock
shows the same; the event is in the log once at most; and with the built-in handlers, what it comes
to is, but for dates, what every publication comes to while no commit fails. Where they are more and
the event is new and in order, the answer is the error, one attempt more than the retries is used
up, and nothing else of the store changes. -/
theorem publish_outlasts_failures (s : Service) (w : World) (e : Event)
    (hlocks : ∀ k ∈ e.lockKeys, w.locks.queue k = []) :
    (w.store.failingCommits ≤ s.config.commitRetries.toNat →
      (s.publish e).Ends (fun a v => (s.publish e).Runs w.reliable a v.reliable ∧
        (s.Fair → w.store.Sound → (v.store.facts.map (·.id)).count e.id ≤ 1)) w ∧
      (s.extra = [] → e.promoterKey ∉ w.permits.out → ∀ t, (s.publish e).Ends (fun a v =>
        (s.publish e).Ends (fun a₀ v₀ => a.map (·.dated t) = a₀.map (·.dated t) ∧
          v.store.reliable.dated t = v₀.store.dated t) w.reliable) w)) ∧
    (s.config.commitRetries.toNat < w.store.failingCommits → accept e = .ok () →
      w.store.hasEvent e.id = false → (s.publish e).Ends (fun a v =>
        a = .error (.store "injected commit failure") ∧ v.store = { w.store with failingCommits :=
          w.store.failingCommits - (s.config.commitRetries.toNat + 1) }) w) := by
  refine ⟨fun hle => ⟨?_, fun hbuiltIn hfree t => publish_dated_eq hbuiltIn hfree hlocks hle t⟩,
    fun hlt hvalid hnew => ends_publish_of_lt s hlocks hvalid hnew hlt⟩
  have hsurvives := survives_publish s hlocks hle
  by_cases hsound : s.Fair ∧ w.store.Sound
  · refine (ends_publish_sound hsound.1 hsound.2 hsurvives).weaken ?_
    rintro a v ⟨⟨-, hrun⟩, hv⟩
    exact ⟨hrun, fun _ _ => List.nodup_iff_count_le_one.mp hv.distinct e.id⟩
  · exact Ends.weaken hsurvives fun a v ⟨_, hrun⟩ =>
      ⟨hrun, fun hfair hstore => (hsound ⟨hfair, hstore⟩).elim⟩

/-- A signup gets through two failures, and does not get through five. -/
theorem publish_outlasts_two_failures :
    let now : Instant := ⟨0, 0, by decide, by decide, by decide⟩
    let s := Service.mk .default []
    let e := Event.signup ⟨1⟩ ⟨2⟩ ⟨3⟩ ⟨4⟩ ⟨5⟩ ⟨6⟩ now
    let w (n : ℕ) : World :=
      { World.start now ⟨100⟩ with store := { Store.empty with failingCommits := n } }
    (∀ n, ∀ k ∈ e.lockKeys, (w n).locks.queue k = []) ∧
    (w 2).store.failingCommits ≤ s.config.commitRetries.toNat ∧
    s.Fair ∧ (w 2).store.Sound ∧ s.extra = [] ∧ e.promoterKey ∉ (w 2).permits.out ∧
    (s.publish e).Ends (fun a v => (s.publish e).Runs (w 2).reliable a v.reliable ∧
      (v.store.facts.map (·.id)).count e.id ≤ 1) (w 2) ∧
    (s.publish e).Ends (fun a v => (s.publish e).Ends (fun a₀ v₀ =>
      a.map (·.dated now) = a₀.map (·.dated now) ∧
        v.store.reliable.dated now = v₀.store.dated now) (w 2).reliable) (w 2) ∧
    s.config.commitRetries.toNat < (w 5).store.failingCommits ∧ accept e = .ok () ∧
    (w 5).store.hasEvent e.id = false ∧
    (s.publish e).Ends (fun a v => a = .error (.store "injected commit failure") ∧
      v.store = { (w 5).store with failingCommits := 1 }) (w 5) := by
  intro now s e w
  have hlocks : ∀ n, ∀ k ∈ e.lockKeys, (w n).locks.queue k = [] := fun _ _ _ => rfl
  have hfair : s.Fair := fair_of_builtIn rfl
  have hsound : (w 2).store.Sound := Store.sound_empty.grows (.alter rfl rfl)
  have hvalid : accept e = .ok () := accept_eq_ok (.inl rfl) (by decide +kernel)
  obtain ⟨hthrough, hdated⟩ := (publish_outlasts_failures s (w 2) e (hlocks 2)).1 (by decide)
  have hworn := (publish_outlasts_failures s (w 5) e (hlocks 5)).2 (by decide) hvalid rfl
  exact ⟨hlocks, by decide, hfair, hsound, rfl, List.not_mem_nil,
    hthrough.weaken fun _ _ h => ⟨h.1, h.2 hfair hsound⟩,
    hdated rfl List.not_mem_nil now, by decide, hvalid, rfl, hworn⟩

end Service

end Referral
