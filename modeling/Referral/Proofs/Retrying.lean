import Referral.Proofs.Handling
import Referral.Proofs.Interleaving
import Referral.Proofs.Records

/-!
# Calls that try the same failure again

A call that tries a failure again reads the record first and ends at once if it is resolved. If it
is not, the call goes on to one commit that both marks the record and stores what the retry led to;
it does not look at the record again. So each of several calls that found the record unresolved
stores its own commissions, and a failure is applied once only where no two such calls overlap.
-/

namespace Referral

/-- Answers to a retry. -/
abbrev RetryAnswer := Except Error RetryOutcome

namespace World

/-- Neither the commissions nor the standing of a record have changed. -/
def Quiet (id : FailureId) (w w' : World) : Prop :=
  w'.store.commissions = w.store.commissions ∧
  ∀ standing, w.store.standing? id = some standing → w'.store.standing? id = some standing

/-- Commissions are stored and a record is resolved in one step. -/
def Applies (id : FailureId) (cs : List Commission) (w w' : World) : Prop :=
  w'.store.commissions = w.store.commissions ++ cs ∧
  ∀ standing, w.store.standing? id = some standing →
    w'.store.standing? id = some (standing.1, true)

theorem quiet_of_store {id : FailureId} {w w' : World} (h : w'.store = w.store) :
    Quiet id w w' := by
  rw [Quiet, h]
  exact ⟨rfl, fun _ h => h⟩

/-- A commit is refused and leaves all as it was, or it applies the unit. -/
theorem commit_quiet_or_applies {id : FailureId} {u : WorkUnit} (hresolved : id ∈ u.resolved)
    (w : World) :
    ((∃ error, (w.perform (.commit u)).1 = .error error) ∧ Quiet id w (w.perform (.commit u)).2) ∨
    ((∃ receipt, (w.perform (.commit u)).1 = .ok receipt) ∧
      Applies id u.commissions w (w.perform (.commit u)).2) := by
  simp only [perform]
  rcases w.store.commit_cases u w.now with ⟨-, h⟩ | ⟨-, error, -, h⟩ | ⟨-, -, book, -, h⟩
  · rw [h]
    exact .inl ⟨⟨_, rfl⟩, rfl, fun _ h => h⟩
  · rw [h]
    exact .inl ⟨⟨_, rfl⟩, rfl, fun _ h => h⟩
  · rw [h]
    refine .inr ⟨⟨_, rfl⟩, Store.commissions_write _ _ _ _, fun standing hstanding => ?_⟩
    simp [Store.standing?_write _ _ _ _ hstanding, hresolved]

/-- A commit that only counts an attempt. -/
theorem commit_quiet {id : FailureId} {u : WorkUnit} (hresolved : u.resolved = [])
    (hcommissions : u.commissions = []) (w : World) : Quiet id w (w.perform (.commit u)).2 := by
  simp only [perform]
  rcases w.store.commit_store u w.now with ⟨n, h⟩ | ⟨-, book, -, h⟩
  · rw [h]
    exact ⟨rfl, fun _ h => h⟩
  · rw [h]
    refine ⟨by simp [hcommissions], fun standing hstanding => ?_⟩
    simp [Store.standing?_write _ _ _ _ hstanding, hresolved]

end World

namespace Procedure

open World (Quiet Applies quiet_of_store)

variable {id : FailureId} {α β : Type}

/-- Whatever the world, the procedure does not touch the record and stores no commission, and it
ends with an answer that `Q` allows. -/
def StaysQuiet (id : FailureId) : {α : Type} → (α → Prop) → Procedure α → Prop
  | _, Q, done a => Q a
  | _, Q, act action next => ∀ w, action.isReady w = true →
      Quiet id w (w.perform action).2 ∧ (next (w.perform action).1).StaysQuiet id Q
  | _, _, both _ _ _ => False

/-- The procedure may apply some commissions in one step. If it does, its answer is one that `Y`
allows for these; if it does not, one that `N` allows. -/
def AppliesOnce (id : FailureId) : {α : Type} → (α → Prop) → (List Commission → α → Prop) →
    Procedure α → Prop
  | _, N, _, done a => N a
  | _, N, Y, act action next => ∀ w, action.isReady w = true →
      (Quiet id w (w.perform action).2 ∧ (next (w.perform action).1).AppliesOnce id N Y) ∨
      ∃ cs, Applies id cs w (w.perform action).2 ∧
        (next (w.perform action).1).StaysQuiet id (Y cs)
  | _, _, _, both _ _ _ => False

variable {Q N : α → Prop} {V N₁ : β → Prop} {Y : List Commission → α → Prop}
  {Z : List Commission → β → Prop} {f : β → Procedure α}

theorem StaysQuiet.bind {p : Procedure β} (h : p.StaysQuiet id V)
    (hf : ∀ b, V b → (f b).StaysQuiet id Q) : (p >>= f).StaysQuiet id Q := by
  induction p with
  | done b => exact hf b h
  | act action next ih => exact fun w hready => ⟨(h w hready).1, ih _ (h w hready).2 hf⟩
  | both first second next => exact h.elim

theorem StaysQuiet.appliesOnce {p : Procedure α} (h : p.StaysQuiet id N) :
    p.AppliesOnce id N Y := by
  induction p with
  | done a => exact h
  | act action next ih => exact fun w hready => .inl ⟨(h w hready).1, ih _ (h w hready).2⟩
  | both first second next => exact h.elim

theorem AppliesOnce.bind {p : Procedure β} (h : p.AppliesOnce id N₁ Z)
    (hN : ∀ b, N₁ b → (f b).AppliesOnce id N Y)
    (hY : ∀ cs b, Z cs b → (f b).StaysQuiet id (Y cs)) : (p >>= f).AppliesOnce id N Y := by
  induction p with
  | done b => exact hN b h
  | act action next ih =>
    intro w hready
    rcases h w hready with ⟨hquiet, hnext⟩ | ⟨cs, happlies, hnext⟩
    · exact .inl ⟨hquiet, ih _ hnext hN hY⟩
    · exact .inr ⟨cs, happlies, hnext.bind (hY cs)⟩
  | both first second next => exact h.elim

/-- A quiet part before the rest. -/
theorem StaysQuiet.bind_appliesOnce {p : Procedure β} (h : p.StaysQuiet id V)
    (hf : ∀ b, V b → (f b).AppliesOnce id N Y) : (p >>= f).AppliesOnce id N Y :=
  AppliesOnce.bind (Z := fun _ _ => False) h.appliesOnce hf fun _ _ h => h.elim

theorem StaysQuiet.step {p q : Procedure α} {w w' : World} (h : p.StaysQuiet id Q)
    (hstep : p.Step w q w') : Quiet id w w' ∧ q.StaysQuiet id Q := by
  cases hstep with
  | act hready => exact h w hready
  | first => exact h.elim
  | second => exact h.elim
  | join => exact h.elim

theorem AppliesOnce.step {p q : Procedure α} {w w' : World} (h : p.AppliesOnce id N Y)
    (hstep : p.Step w q w') :
    (Quiet id w w' ∧ q.AppliesOnce id N Y) ∨ ∃ cs, Applies id cs w w' ∧ q.StaysQuiet id (Y cs) := by
  cases hstep with
  | act hready => exact h w hready
  | first => exact h.elim
  | second => exact h.elim
  | join => exact h.elim

theorem staysQuiet_perform {action : Action α}
    (h : ∀ w : World, (w.perform action).2.store = w.store) :
    (perform action).StaysQuiet id fun _ => True :=
  fun w _ => ⟨quiet_of_store (h w), trivial⟩

theorem staysQuiet_sleep (millis : ℕ) : (sleep millis).StaysQuiet id fun _ => True :=
  fun _ _ => ⟨quiet_of_store rfl, fun _ _ => ⟨quiet_of_store rfl, trivial⟩⟩

theorem staysQuiet_lockAll (task : TaskId) (ks : List LockKey) :
    (lockAll task ks).StaysQuiet id fun _ => True := by
  induction ks with
  | nil => trivial
  | cons k ks ih =>
    exact fun _ _ => ⟨quiet_of_store rfl, fun _ _ => ⟨quiet_of_store rfl, ih⟩⟩

theorem AppliesOnce.withLocks {body : Procedure α} (h : body.AppliesOnce id N Y)
    (ks : List LockKey) : (withLocks ks body).AppliesOnce id N Y := by
  unfold Procedure.withLocks
  refine (staysQuiet_perform fun _ => rfl).bind_appliesOnce fun task _ => ?_
  refine (staysQuiet_lockAll task ks).bind_appliesOnce fun _ _ => ?_
  have hrelease : ∀ {Q : α → Prop} a, Q a → (do
      perform (.releaseLocks task ks)
      return a : Procedure α).StaysQuiet id Q :=
    fun _ ha => (staysQuiet_perform fun _ => rfl).bind fun _ _ => ha
  exact h.bind (fun a ha => (hrelease a ha).appliesOnce) fun _ a ha => hrelease a ha

end Procedure

namespace Service

open Procedure World

variable {s : Service} {id : FailureId}

/-! ## The commit -/

theorem commitRetrying_appliesOnce (backoff : ℕ → Duration) {u : WorkUnit}
    (hresolved : id ∈ u.resolved) (retries attempt : ℕ) :
    (commitRetrying backoff u retries attempt).AppliesOnce id (fun a => ∃ error, a = .error error)
      fun cs a => (∃ receipt, a = .ok receipt) ∧ cs = u.commissions := by
  have hcommit : (Procedure.perform (.commit u)).AppliesOnce id
      (fun a => ∃ error, a = .error error)
      fun cs a => (∃ receipt, a = .ok receipt) ∧ cs = u.commissions := by
    intro w _
    rcases commit_quiet_or_applies hresolved w with ⟨herror, hquiet⟩ | ⟨hok, happlies⟩
    · exact .inl ⟨hquiet, herror⟩
    · exact .inr ⟨_, happlies, hok, rfl⟩
  induction retries generalizing attempt with
  | zero => exact hcommit
  | succ retries ih =>
    unfold commitRetrying
    refine hcommit.bind ?_ ?_
    · rintro _ ⟨error, rfl⟩
      simp only []
      split
      · exact (staysQuiet_sleep _).bind_appliesOnce fun _ _ => ih _
      · exact ⟨error, rfl⟩
    · rintro cs _ ⟨⟨receipt, rfl⟩, rfl⟩
      exact ⟨⟨receipt, rfl⟩, rfl⟩

theorem commit_staysQuiet (s : Service) {u : WorkUnit} (hresolved : u.resolved = [])
    (hcommissions : u.commissions = []) : (s.commit u).StaysQuiet id fun _ => True := by
  have hcommit : (Procedure.perform (.commit u)).StaysQuiet id fun _ => True :=
    fun w _ => ⟨commit_quiet hresolved hcommissions w, trivial⟩
  have hretrying : ∀ retries attempt,
      (commitRetrying s.config.backoff u retries attempt).StaysQuiet id fun _ => True := by
    intro retries
    induction retries with
    | zero => exact fun _ => hcommit
    | succ retries ih =>
      intro attempt
      unfold commitRetrying
      refine hcommit.bind fun answer _ => ?_
      split
      · trivial
      · split
        · exact (staysQuiet_sleep _).bind fun _ _ => ih _
        · trivial
  exact hretrying _ _

theorem resolved_demoteTransitions (staging : Staging) (error : Error) (now : Instant) :
    (staging.demoteTransitions error now).unit.resolved = staging.unit.resolved := by
  obtain ⟨records, ids, hdemoted, -⟩ := staging.demoteTransitions_frame error now
  rw [hdemoted]

/-- A commit with what the retry led to: the answer says whether it was stored, and the unit that
comes with it says what. -/
theorem commitDemoting_appliesOnce (s : Service) {u : WorkUnit} (hresolved : id ∈ u.resolved) :
    (s.commitDemoting u).AppliesOnce id (fun a => ∃ error, a.1 = .error error)
      fun cs a => (∃ receipt, a.1 = .ok receipt) ∧ cs = a.2.commissions := by
  unfold commitDemoting
  refine (commitRetrying_appliesOnce _ hresolved _ _).bind ?_ ?_
  · rintro _ ⟨error, rfl⟩
    split
    · rename_i promoter _
      split
      · exact ⟨_, rfl⟩
      · refine StaysQuiet.bind_appliesOnce (V := fun a => id ∈ a.2.resolved) ?_ ?_
        · refine fun w _ => ⟨quiet_of_store rfl, ?_⟩
          exact (congrArg (id ∈ ·) (resolved_demoteTransitions _ _ _)).mpr hresolved
        · rintro ⟨_, u'⟩ hu'
          refine (commitRetrying_appliesOnce _ hu' _ _).bind ?_ ?_
          · rintro _ ⟨error, rfl⟩
            exact ⟨error, rfl⟩
          · rintro cs _ ⟨⟨receipt, rfl⟩, rfl⟩
            exact ⟨⟨receipt, rfl⟩, rfl⟩
    · exact ⟨_, rfl⟩
  · rintro cs _ ⟨⟨receipt, rfl⟩, rfl⟩
    exact ⟨⟨receipt, rfl⟩, rfl⟩

/-! ## The retry -/

/-- The commissions of an answer that says that the failure was applied. -/
def applied? : RetryAnswer → Option (List Commission)
  | .ok (.resolved cs _) => some cs
  | _ => none

/-- The answer says that the failure was applied, with these commissions. -/
def Resolves (a : RetryAnswer) (cs : List Commission) : Prop := applied? a = some cs

/-- The answer does not say that the failure was applied. -/
def LeavesOpen (a : RetryAnswer) : Prop := applied? a = none

theorem leavesOpen_error (error : Error) : LeavesOpen (.error error) := rfl

theorem finish_staysQuiet {α : Type} {Q : α → Prop} (u : WorkUnit) {a : α} (ha : Q a) :
    (finish u a).StaysQuiet id Q :=
  (staysQuiet_perform fun _ => rfl).bind fun _ _ => ha

theorem stillFailing_staysQuiet (s : Service) (f : Failure) (error : Error) :
    (s.stillFailing f error).StaysQuiet id LeavesOpen := by
  unfold stillFailing
  refine StaysQuiet.bind (V := fun u => u.resolved = [] ∧ u.commissions = []) ?_ ?_
  · exact fun _ _ => ⟨quiet_of_store rfl, rfl, rfl⟩
  · rintro u ⟨hresolved, hcommissions⟩
    have hcommit : (s.commit (u.recordAttempt f.id)).StaysQuiet id fun _ => True :=
      s.commit_staysQuiet hresolved hcommissions
    refine hcommit.bind fun answer _ => ?_
    cases answer <;> rfl

theorem dispatchEach_staysQuiet (s : Service) (depth : Depth) (es : List Event) (u : WorkUnit) :
    (s.dispatchEach depth es u).StaysQuiet id fun _ => True := by
  induction es generalizing u with
  | nil => trivial
  | cons e es ih =>
    unfold dispatchEach
    exact StaysQuiet.bind (staysQuiet_perform fun _ => rfl) fun _ _ => ih _

theorem sourceEvent_staysQuiet (f : Failure) : (sourceEvent f).StaysQuiet id fun _ => True := by
  unfold sourceEvent
  split
  · trivial
  · refine (staysQuiet_perform fun _ => rfl).bind fun stored _ => ?_
    cases stored <;> trivial

theorem settleRetry_appliesOnce (s : Service) (f : Failure) (result : Except Error (List Event))
    (u : WorkUnit) :
    (s.settleRetry f result u).AppliesOnce f.id LeavesOpen fun cs a => Resolves a cs := by
  unfold settleRetry
  cases result with
  | error error =>
    refine (s.stillFailing_staysQuiet f error).bind_appliesOnce fun answer hanswer => ?_
    exact (finish_staysQuiet u hanswer).appliesOnce
  | ok children =>
    refine (s.dispatchEach_staysQuiet _ children u).bind_appliesOnce fun u' _ => ?_
    have hresolved : f.id ∈ (u'.resolveFailure f.id).resolved :=
      List.mem_append_right _ List.mem_cons_self
    refine (s.commitDemoting_appliesOnce hresolved).bind ?_ ?_
    · rintro ⟨answer, u''⟩ ⟨error, rfl⟩
      exact (finish_staysQuiet u'' (leavesOpen_error error)).appliesOnce
    · rintro cs ⟨answer, u''⟩ ⟨⟨receipt, rfl⟩, rfl⟩
      refine (staysQuiet_perform fun _ => rfl).bind fun _ _ => ?_
      exact finish_staysQuiet u'' rfl

theorem retryEffect_appliesOnce (s : Service) (f : Failure) :
    (s.retryEffect f).AppliesOnce f.id LeavesOpen fun cs a => Resolves a cs := by
  unfold retryEffect
  split
  · refine (sourceEvent_staysQuiet f).bind_appliesOnce fun source _ => ?_
    cases source with
    | error error => exact rfl
    | ok e =>
      refine AppliesOnce.withLocks ?_ _
      refine StaysQuiet.bind_appliesOnce (V := fun _ => True)
        (fun _ _ => ⟨quiet_of_store rfl, trivial⟩) fun u _ => ?_
      refine StaysQuiet.bind_appliesOnce (staysQuiet_perform fun _ => rfl) fun a _ => ?_
      exact s.settleRetry_appliesOnce f _ _
  · exact rfl

theorem retryHandler_appliesOnce (s : Service) (f : Failure) (name : String) :
    (s.retryHandler f name).AppliesOnce f.id LeavesOpen fun cs a => Resolves a cs := by
  unfold retryHandler
  split
  · exact rfl
  · refine (sourceEvent_staysQuiet f).bind_appliesOnce fun source _ => ?_
    cases source with
    | error error => exact rfl
    | ok e =>
      refine AppliesOnce.withLocks ?_ _
      refine StaysQuiet.bind_appliesOnce (V := fun _ => True)
        (fun _ _ => ⟨quiet_of_store rfl, trivial⟩) fun u _ => ?_
      refine StaysQuiet.bind_appliesOnce (staysQuiet_perform fun _ => rfl) fun a _ => ?_
      exact s.settleRetry_appliesOnce f _ _

/-- The failures whose retry fires an effect or calls the handler of rules again. -/
def Refires (origin : Origin) : Prop := origin = .effect ∨ origin = .handler "rules"

/-- What a retry does after it read the record. -/
def afterRead (s : Service) (id : FailureId) : Option Failure → Procedure RetryAnswer
  | none => return .error (.failureNotFound id)
  | some f =>
    if f.resolved then return .ok .alreadyResolved
    else match f.origin with
    | .cascadeLimit =>
      return .error (.validation ("failure " ++ id.display ++
        " was refused by the cascade limit and cannot be retried"))
    | .manualSwitch => s.retrySwitch f
    | .handler name =>
      if name = aggregatesHandler.name then s.retryByRebuild f else s.retryHandler f name
    | .effect => s.retryEffect f

theorem retry_eq (s : Service) (id : FailureId) :
    s.retry id = .act (.read fun store => store.failure? id) (s.afterRead id) := by
  unfold retry
  refine congrArg (Procedure.act _) (funext fun stored => ?_)
  cases stored with
  | none => rfl
  | some f => rfl

/-- A call that found the record unresolved applies it once at most. -/
theorem afterRead_appliesOnce (s : Service) {f : Failure} (hid : f.id = id)
    (hopen : f.resolved = false) (horigin : Refires f.origin) :
    (s.afterRead id (some f)).AppliesOnce id LeavesOpen fun cs a => Resolves a cs := by
  subst hid
  simp only [afterRead, hopen, Bool.false_eq_true, if_false]
  rcases horigin with h | h
  · rw [h]
    exact s.retryEffect_appliesOnce f
  · rw [h]
    simp only []
    rw [if_neg (by simp [aggregatesHandler])]
    exact s.retryHandler_appliesOnce f _

/-- A call that found the record resolved has ended. -/
theorem afterRead_resolved (s : Service) {f : Failure} (h : f.resolved = true) :
    s.afterRead id (some f) = .done (.ok .alreadyResolved) := by
  simp only [afterRead, h, if_true]
  rfl

end Service

/-! ## Several calls -/

/-- Several calls that try one failure again: which of them have read its record, and what is left
of each. -/
structure Retrial (n : ℕ) : Type 1 where
  world : World
  begun : Fin n → Bool
  rest : Fin n → Procedure RetryAnswer

namespace Retrial

open Procedure World Service

variable {n : ℕ} {s : Service} {id : FailureId} {w₀ : World} {t t' : Retrial n} {i j : Fin n}

/-- No call has begun. -/
def start (s : Service) (id : FailureId) (w : World) : Retrial n where
  world := w
  begun _ := false
  rest _ := s.retry id

/-- What can happen next: a call does an action, time passes, or the store begins or ceases to fail
commits or to be slow. -/
inductive Next : Retrial n → Retrial n → Prop
  | act {w : World} {begun : Fin n → Bool} {rest : Fin n → Procedure RetryAnswer} {i : Fin n}
      {p : Procedure RetryAnswer} {w' : World} (step : (rest i).Step w p w') :
      Next ⟨w, begun, rest⟩ ⟨w', Function.update begun i true, Function.update rest i p⟩
  | pass {w : World} {begun : Fin n → Bool} {rest : Fin n → Procedure RetryAnswer}
      (millis turns : ℕ) : Next ⟨w, begun, rest⟩
        ⟨{ w with elapsed := w.elapsed + millis, turns := w.turns + turns }, begun, rest⟩
  | disturb {w : World} {begun : Fin n → Bool} {rest : Fin n → Procedure RetryAnswer}
      (failingCommits scanDelay : ℕ) : Next ⟨w, begun, rest⟩
        ⟨{ w with store := { w.store with failingCommits, scanDelay } }, begun, rest⟩

/-- A run of the calls, with the states that it went through before the present one. -/
inductive Run (s : Service) (id : FailureId) (w₀ : World) : List (Retrial n) → Retrial n → Prop
  | start : Run s id w₀ [] (.start s id w₀)
  | next {past : List (Retrial n)} {t t' : Retrial n} (run : Run s id w₀ past t)
      (step : t.Next t') : Run s id w₀ (t :: past) t'

/-- The call has read the record and has not ended. -/
def UnderWay (t : Retrial n) (i : Fin n) : Prop := t.begun i = true ∧ ∀ a, t.rest i ≠ done a

/-- The call has ended with an answer. -/
def Answers (t : Retrial n) (i : Fin n) (a : RetryAnswer) : Prop := t.rest i = done a

/-- The call has ended and applied the failure. -/
def Applied (t : Retrial n) (i : Fin n) : Prop := ∃ a cs, t.Answers i a ∧ Resolves a cs

/-- How far a call is: it has not begun, it may still apply the failure, or it has stored some
commissions. `ledger` names the calls that have done so. -/
def Phase (s : Service) (id : FailureId) (ledger : List (Fin n × List Commission))
    (t : Retrial n) (i : Fin n) : Prop :=
  (t.begun i = false ∧ t.rest i = s.retry id ∧ ∀ cs, (i, cs) ∉ ledger) ∨
  (t.begun i = true ∧ (t.rest i).AppliesOnce id LeavesOpen (fun cs a => Resolves a cs) ∧
    ∀ cs, (i, cs) ∉ ledger) ∨
  ∃ cs, t.begun i = true ∧ (t.rest i).StaysQuiet id (Resolves · cs) ∧ (i, cs) ∈ ledger

/-- What holds in each state of a run. -/
structure Inv (s : Service) (id : FailureId) (w₀ : World) (origin : Origin)
    (ledger : List (Fin n × List Commission)) (past : List (Retrial n)) (t : Retrial n) : Prop where
  commissions : t.world.store.commissions = w₀.store.commissions ++ ledger.flatMap (·.2)
  standing : t.world.store.standing? id = some (origin, !ledger.isEmpty)
  nodup : (ledger.map (·.1)).Nodup
  phase : ∀ i, Phase s id ledger t i
  /-- Just before the first of the calls stored its commissions, all that did so since and all that
  still may were under way. -/
  together : ledger ≠ [] → ∃ t' ∈ past, (∀ i ∈ ledger.map (·.1), t'.UnderWay i) ∧
    ∀ i, t.UnderWay i → t'.UnderWay i

theorem ne_done_of_step {p q : Procedure RetryAnswer} {w w' : World} (h : p.Step w q w')
    (a : RetryAnswer) : p ≠ done a := by
  rintro rfl
  cases h

section Update

variable {w w' : World} {begun : Fin n → Bool} {rest : Fin n → Procedure RetryAnswer}
  {p : Procedure RetryAnswer} {ledger : List (Fin n × List Commission)}

/-- A call that acts was under way, unless it only begins. -/
theorem underWay_of_update (hbegun : begun i = true) (hstep : (rest i).Step w p w')
    (h : UnderWay ⟨w', Function.update begun i true, Function.update rest i p⟩ j) :
    UnderWay ⟨w, begun, rest⟩ j := by
  by_cases hij : j = i
  · subst hij
    exact ⟨hbegun, ne_done_of_step hstep⟩
  · simpa [UnderWay, hij] using h

/-- How far all calls are once one of them has acted. -/
theorem phase_update (h : ∀ j, j ≠ i → Phase s id ledger ⟨w, begun, rest⟩ j)
    (hi : Phase s id ledger ⟨w', Function.update begun i true, Function.update rest i p⟩ i)
    (j : Fin n) :
    Phase s id ledger ⟨w', Function.update begun i true, Function.update rest i p⟩ j := by
  by_cases hij : j = i
  · exact hij ▸ hi
  · simpa [Phase, hij] using h j hij

end Update

theorem inv_start {origin : Origin} (h : w₀.store.standing? id = some (origin, false)) :
    Inv s id w₀ origin [] [] (start s id w₀ : Retrial n) where
  commissions := by simp [start]
  standing := h
  nodup := List.nodup_nil
  phase _ := .inl ⟨rfl, rfl, fun _ => List.not_mem_nil⟩
  together h := (h rfl).elim

/-- A state in which nobody has acted since. -/
theorem Inv.of_quiet {origin : Origin} {ledger : List (Fin n × List Commission)}
    {past : List (Retrial n)} (h : Inv s id w₀ origin ledger past t)
    (hquiet : Quiet id t.world t'.world) (hphase : ∀ i, Phase s id ledger t' i)
    (hunderWay : ∀ i, ledger ≠ [] → t'.UnderWay i → t.UnderWay i) :
    Inv s id w₀ origin ledger (t :: past) t' where
  commissions := hquiet.1.trans h.commissions
  standing := hquiet.2 _ h.standing
  nodup := h.nodup
  phase := hphase
  together hne := by
    obtain ⟨t₁, hpast, hledger, hstill⟩ := h.together hne
    exact ⟨t₁, List.mem_cons_of_mem _ hpast, hledger,
      fun i hi => hstill i (hunderWay i hne hi)⟩

/-- A call stores its commissions. -/
theorem Inv.of_applies {origin : Origin} {ledger : List (Fin n × List Commission)}
    {past : List (Retrial n)} {cs : List Commission} (h : Inv s id w₀ origin ledger past t)
    (happlies : Applies id cs t.world t'.world) (hnew : ∀ cs, (i, cs) ∉ ledger)
    (hphase : ∀ j, Phase s id (ledger ++ [(i, cs)]) t' j) (hi : t.UnderWay i)
    (hunderWay : ∀ j, t'.UnderWay j → t.UnderWay j) :
    Inv s id w₀ origin (ledger ++ [(i, cs)]) (t :: past) t' where
  commissions := by
    rw [happlies.1, h.commissions, List.append_assoc, List.flatMap_append]
    simp
  standing := by
    have hsome : (ledger ++ [(i, cs)]).isEmpty = false := by simp
    rw [hsome]
    exact happlies.2 _ h.standing
  nodup := by
    rw [List.map_append, List.nodup_append]
    refine ⟨h.nodup, List.nodup_singleton _, fun k hk l hl hkl => ?_⟩
    obtain ⟨⟨k', cs'⟩, hmem, rfl⟩ := List.mem_map.mp hk
    cases List.mem_singleton.mp hl
    have hk' : k' = i := hkl
    exact hnew cs' (hk' ▸ hmem)
  phase := hphase
  together _ := by
    by_cases hne : ledger = []
    · subst hne
      refine ⟨t, List.mem_cons_self, fun k hk => ?_, hunderWay⟩
      cases List.mem_singleton.mp hk
      exact hi
    · obtain ⟨t₁, hpast, hledger, hstill⟩ := h.together hne
      refine ⟨t₁, List.mem_cons_of_mem _ hpast, fun k hk => ?_,
        fun k hk => hstill k (hunderWay k hk)⟩
      rw [List.map_append] at hk
      rcases List.mem_append.mp hk with hk | hk
      · exact hledger k hk
      · cases List.mem_singleton.mp hk
        exact hstill i hi

/-- The record of a run, as a call finds it. -/
theorem Inv.record {origin : Origin} {ledger : List (Fin n × List Commission)}
    {past : List (Retrial n)} (h : Inv s id w₀ origin ledger past t) :
    ∃ f, t.world.store.failure? id = some f ∧ f.id = id ∧ f.origin = origin ∧
      f.resolved = !ledger.isEmpty := by
  obtain ⟨f, hf, hstanding⟩ := Option.map_eq_some_iff.mp h.standing
  obtain ⟨horigin, hresolved⟩ := Prod.mk.inj hstanding
  exact ⟨f, hf, by simpa using List.find?_some hf, horigin, hresolved⟩

section Act

variable {w w' : World} {begun : Fin n → Bool} {rest : Fin n → Procedure RetryAnswer}
  {p : Procedure RetryAnswer} {origin : Origin} {ledger : List (Fin n × List Commission)}
  {past : List (Retrial n)}

/-- A call begins: it reads the record, and has ended if that is resolved. -/
theorem Inv.reads (horigin : Refires origin) (h : Inv s id w₀ origin ledger past ⟨w, begun, rest⟩)
    (hrest : rest i = s.retry id) (hnew : ∀ cs, (i, cs) ∉ ledger)
    (hstep : (rest i).Step w p w') : Inv s id w₀ origin ledger (⟨w, begun, rest⟩ :: past)
      ⟨w', Function.update begun i true, Function.update rest i p⟩ := by
  obtain ⟨f, hf, hid, rfl, hresolved⟩ := h.record
  have hread : p = s.afterRead id (some f) ∧ w' = w := by
    rw [hrest, retry_eq] at hstep
    cases hstep
    exact ⟨congrArg (s.afterRead id) hf, rfl⟩
  obtain ⟨rfl, rfl⟩ := hread
  have hended : ledger ≠ [] → s.afterRead id (some f) = done (.ok .alreadyResolved) :=
    fun hne => s.afterRead_resolved (by simpa [hresolved] using hne)
  have happlies : (s.afterRead id (some f)).AppliesOnce id LeavesOpen
      fun cs a => Resolves a cs := by
    by_cases hne : ledger = []
    · exact s.afterRead_appliesOnce hid (by simpa [hresolved] using hne) horigin
    · rw [hended hne]
      exact rfl
  refine h.of_quiet (quiet_of_store rfl) (phase_update (fun j _ => h.phase j)
    (.inr (.inl ⟨by simp, by simpa, hnew⟩))) fun j hne hj => ?_
  by_cases hij : j = i
  · subst hij
    have := hj.2 (.ok .alreadyResolved)
    simp [hended hne] at this
  · simpa [UnderWay, hij] using hj

/-- A call that may still apply the failure goes on: it leaves it open, or it applies it and the
ledger names it from now on. -/
theorem Inv.applies (h : Inv s id w₀ origin ledger past ⟨w, begun, rest⟩) (hbegun : begun i = true)
    (hrest : (rest i).AppliesOnce id LeavesOpen fun cs a => Resolves a cs)
    (hnew : ∀ cs, (i, cs) ∉ ledger) (hstep : (rest i).Step w p w') :
    ∃ ledger', Inv s id w₀ origin ledger' (⟨w, begun, rest⟩ :: past)
      ⟨w', Function.update begun i true, Function.update rest i p⟩ := by
  rcases AppliesOnce.step hrest hstep with ⟨hquiet, hp⟩ | ⟨cs, happlies, hp⟩
  · refine ⟨ledger, h.of_quiet hquiet (phase_update (fun j _ => h.phase j) ?_)
      fun j _ => underWay_of_update hbegun hstep⟩
    exact .inr (.inl ⟨by simp, by simpa, hnew⟩)
  · have hothers : ∀ j, j ≠ i → Phase s id (ledger ++ [(i, cs)]) ⟨w, begun, rest⟩ j :=
      fun j hij => by simpa [Phase, hij] using h.phase j
    refine ⟨ledger ++ [(i, cs)], h.of_applies happlies hnew (phase_update hothers ?_)
      ⟨hbegun, ne_done_of_step hstep⟩ fun j => underWay_of_update hbegun hstep⟩
    exact .inr (.inr ⟨cs, by simp, by simpa, by simp⟩)

/-- A call that the ledger names goes on. -/
theorem Inv.staysQuiet {cs : List Commission} (h : Inv s id w₀ origin ledger past ⟨w, begun, rest⟩)
    (hbegun : begun i = true) (hrest : (rest i).StaysQuiet id (Resolves · cs))
    (hmem : (i, cs) ∈ ledger) (hstep : (rest i).Step w p w') :
    Inv s id w₀ origin ledger (⟨w, begun, rest⟩ :: past)
      ⟨w', Function.update begun i true, Function.update rest i p⟩ := by
  obtain ⟨hquiet, hp⟩ := StaysQuiet.step hrest hstep
  refine h.of_quiet hquiet (phase_update (fun j _ => h.phase j) ?_)
    fun j _ => underWay_of_update hbegun hstep
  exact .inr (.inr ⟨cs, by simp, by simpa, hmem⟩)

end Act

/-- One step of a run. -/
theorem Inv.next {origin : Origin} (horigin : Refires origin)
    {ledger : List (Fin n × List Commission)} {past : List (Retrial n)}
    (h : Inv s id w₀ origin ledger past t) (hstep : t.Next t') :
    ∃ ledger', Inv s id w₀ origin ledger' (t :: past) t' := by
  cases hstep with
  | pass millis turns =>
    exact ⟨ledger, h.of_quiet (quiet_of_store rfl) h.phase fun _ _ hi => hi⟩
  | disturb failingCommits scanDelay =>
    exact ⟨ledger, h.of_quiet ⟨rfl, fun _ h => h⟩ h.phase fun _ _ hi => hi⟩
  | @act w begun rest i p w' hstep =>
    rcases h.phase i with ⟨-, hrest, hnew⟩ | ⟨hbegun, hrest, hnew⟩ | ⟨cs, hbegun, hrest, hmem⟩
    · exact ⟨ledger, h.reads horigin hrest hnew hstep⟩
    · exact h.applies hbegun hrest hnew hstep
    · exact ⟨ledger, h.staysQuiet hbegun hrest hmem hstep⟩

theorem Run.inv {past : List (Retrial n)} (hrun : Run s id w₀ past t) {origin : Origin}
    (hrecord : w₀.store.standing? id = some (origin, false)) (horigin : Refires origin) :
    ∃ ledger, Inv s id w₀ origin ledger past t := by
  induction hrun with
  | start => exact ⟨[], inv_start hrecord⟩
  | next _ hstep ih =>
    obtain ⟨ledger, h⟩ := ih
    exact h.next horigin hstep

/-- The ledger names the calls that have ended with the failure applied, and those that are about
to. -/
theorem Inv.mem_ledger_iff {origin : Origin} {ledger : List (Fin n × List Commission)}
    {past : List (Retrial n)} (h : Inv s id w₀ origin ledger past t) {a : RetryAnswer}
    (ha : t.Answers i a) (cs : List Commission) : (i, cs) ∈ ledger ↔ Resolves a cs := by
  rcases h.phase i with ⟨-, hrest, -⟩ | ⟨-, hrest, hnew⟩ | ⟨cs', -, hrest, hmem⟩
  · rw [ha, retry_eq] at hrest
    cases hrest
  · rw [ha] at hrest
    have hopen : applied? a = none := hrest
    exact ⟨fun hmem => (hnew cs hmem).elim, fun hres => by simp [Resolves, hopen] at hres⟩
  · rw [ha] at hrest
    have hres : applied? a = some cs' := hrest
    constructor
    · intro hcs
      have heq := List.inj_on_of_nodup_map h.nodup hcs hmem rfl
      cases heq
      exact hres
    · intro hcs
      rw [Resolves, hres, Option.some.injEq] at hcs
      exact hcs ▸ hmem

/-- A call that the ledger names has begun. -/
theorem Inv.begun_of_mem {origin : Origin} {ledger : List (Fin n × List Commission)}
    {past : List (Retrial n)} (h : Inv s id w₀ origin ledger past t) {cs : List Commission}
    (hmem : (i, cs) ∈ ledger) : t.begun i = true := by
  rcases h.phase i with ⟨-, -, hnew⟩ | ⟨hbegun, -⟩ | ⟨-, hbegun, -⟩
  · exact (hnew cs hmem).elim
  · exact hbegun
  · exact hbegun

/-- Once all calls that began have ended, and only one of them applied the failure, the ledger names
that one alone. -/
theorem Inv.ledger_eq_singleton {origin : Origin} {ledger : List (Fin n × List Commission)}
    {past : List (Retrial n)} (h : Inv s id w₀ origin ledger past t)
    (honce : ∀ i j, t.Applied i → t.Applied j → i = j)
    (hended : ∀ i, t.begun i = true → ∃ a, t.Answers i a) {a : RetryAnswer} {cs : List Commission}
    (ha : t.Answers i a) (hcs : Resolves a cs) : ledger = [(i, cs)] := by
  have hmem := (h.mem_ledger_iff ha cs).mpr hcs
  have hcalls : ∀ j ∈ ledger.map (·.1), j = i := by
    intro j hj
    obtain ⟨⟨k, cs'⟩, hcall, hkj⟩ := List.mem_map.mp hj
    cases hkj
    obtain ⟨a', ha'⟩ := hended k (h.begun_of_mem hcall)
    have hcs' := (h.mem_ledger_iff ha' cs').mp hcall
    exact honce k i ⟨a', cs', ha', hcs'⟩ ⟨a, cs, ha, hcs⟩
  obtain ⟨first, rest, rfl⟩ := List.exists_cons_of_ne_nil (List.ne_nil_of_mem hmem)
  rw [List.map_cons, List.forall_mem_cons] at hcalls
  have hrest : rest = [] := by
    rw [← List.map_eq_nil_iff, List.eq_nil_iff_forall_not_mem]
    intro j hj
    rw [(hcalls.2 j hj).trans hcalls.1.symm] at hj
    exact (List.nodup_cons.mp h.nodup).1 hj
  subst hrest
  rw [List.mem_singleton.mp hmem]

/-- Whatever the interleaving of any number of calls, what is stored is what those that answer with
a resolution report, each its own commissions. At most one does so exactly if no two of those that
do were ever under way together, and then, once all calls have ended, the commissions of that one
call are stored. -/
theorem retries_apply_once_iff {past : List (Retrial n)} (hrun : Run s id w₀ past t)
    {origin : Origin} (hrecord : w₀.store.standing? id = some (origin, false))
    (horigin : Refires origin) :
    (∃ ledger : List (Fin n × List Commission), (ledger.map (·.1)).Nodup ∧
      t.world.store.commissions = w₀.store.commissions ++ ledger.flatMap (·.2) ∧
      t.world.store.standing? id = some (origin, !ledger.isEmpty) ∧
      ∀ i a, t.Answers i a → ∀ cs, (i, cs) ∈ ledger ↔ Resolves a cs) ∧
    ((∀ i j, t.Applied i → t.Applied j → i = j) ↔ ∀ t' ∈ past, ∀ i j,
      t.Applied i → t.Applied j → t'.UnderWay i → t'.UnderWay j → i = j) ∧
    ((∀ i j, t.Applied i → t.Applied j → i = j) →
      (∀ i, t.begun i = true → ∃ a, t.Answers i a) → ∀ i a cs, t.Answers i a → Resolves a cs →
        t.world.store.commissions = w₀.store.commissions ++ cs) := by
  obtain ⟨ledger, h⟩ := hrun.inv hrecord horigin
  refine ⟨⟨ledger, h.nodup, h.commissions, h.standing, fun i a ha cs => h.mem_ledger_iff ha cs⟩,
    ⟨fun honce t' _ i j hi hj _ _ => honce i j hi hj, fun hapart i j hi hj => ?_⟩, ?_⟩
  · obtain ⟨a, cs, ha, hcs⟩ := hi
    obtain ⟨a', cs', ha', hcs'⟩ := hj
    have hmem := (h.mem_ledger_iff ha cs).mpr hcs
    have hmem' := (h.mem_ledger_iff ha' cs').mpr hcs'
    obtain ⟨t', hpast, hledger, -⟩ := h.together (List.ne_nil_of_mem hmem)
    exact hapart t' hpast i j ⟨a, cs, ha, hcs⟩ ⟨a', cs', ha', hcs'⟩
      (hledger i (List.mem_map_of_mem hmem)) (hledger j (List.mem_map_of_mem hmem'))
  · intro honce hended i a cs ha hcs
    rw [h.commissions, h.ledger_eq_singleton honce hended ha hcs]
    simp

/-- Several actions of one call that has begun. -/
theorem Run.steps {past : List (Retrial n)} {w w' : World} {begun : Fin n → Bool}
    {rest : Fin n → Procedure RetryAnswer} {p : Procedure RetryAnswer}
    (hrun : Run s id w₀ past ⟨w, begun, rest⟩) (hbegun : begun i = true)
    (hsteps : (rest i).Steps w p w') :
    ∃ past', Run s id w₀ past' ⟨w', begun, Function.update rest i p⟩ := by
  induction hsteps with
  | none => exact ⟨past, by rwa [Function.update_eq_self]⟩
  | @more q q' w' w'' _ step ih =>
    obtain ⟨past', hpast⟩ := ih
    have hstep : (Function.update rest i q i).Step w' q' w'' := by rwa [Function.update_self]
    have hnext := hpast.next (.act hstep)
    rw [Function.update_idem, ← hbegun, Function.update_eq_self] at hnext
    exact ⟨_, hnext⟩

theorem applied_of_answer? (h : ((t.rest i).answer?.bind applied?).isSome = true) :
    t.Applied i := by
  obtain ⟨cs, hcs⟩ := Option.isSome_iff_exists.mp h
  obtain ⟨a, ha, hres⟩ := Option.bind_eq_some_iff.mp hcs
  refine ⟨a, cs, ?_, hres⟩
  unfold Answers
  cases hrest : t.rest i <;> simp_all [answer?]

/-- Two calls read the record of a failed reward of a signup before either has applied it: each of
them rewards the signup. -/
theorem exists_overlap : ∃ (w₀ : World) (past : List (Retrial 2)) (t : Retrial 2),
    Run ⟨.default, []⟩ ⟨7⟩ w₀ past t ∧
    (w₀.store.failure? ⟨7⟩).map (fun f => (f.standing, f.event)) =
      some ((.effect, false), some ⟨1⟩) ∧
    w₀.store.hasEvent ⟨1⟩ = true ∧ w₀.store.commissions = [] ∧ (∀ i, t.Applied i) ∧
    t.world.store.commissions.length = 2 := by
  let s : Service := ⟨.default, []⟩
  let now : Instant := ⟨0, 0, by decide, by decide, by decide⟩
  let e : Event := .signup ⟨1⟩ ⟨2⟩ ⟨3⟩ ⟨4⟩ ⟨5⟩ ⟨6⟩ now
  let f : Failure := .ofError ⟨7⟩ (some e.id) e.program e.promoter (some ⟨8⟩)
    (some (.generateCommission (.fixed ⟨50000, by decide, by decide⟩))) .effect
    (.cascadeLimit 1 0) 0 now
  let u : WorkUnit := { WorkUnit.start (Store.empty.context e.promoterKey) with
    events := [e], failures := [f] }
  let w : World := { World.start now ⟨100⟩ with store := (Store.empty.commit u now).2 }
  let p := s.afterRead ⟨7⟩ (some f)
  let w' := (p.goOn w).2
  have hread : (s.retry ⟨7⟩).Step w p w := by
    have hf : w.store.failure? ⟨7⟩ = some f := by decide +kernel
    have hstep : (s.retry ⟨7⟩).Step w (s.afterRead ⟨7⟩ (w.store.failure? ⟨7⟩)) w := by
      rw [retry_eq]
      exact .act rfl
    rwa [hf] at hstep
  have hstart : Run s ⟨7⟩ w [] (.start s ⟨7⟩ w : Retrial 2) := .start
  have hfirst := hstart.next (.act (i := 0) hread)
  have hsecond := hfirst.next (.act (i := 1) hread)
  obtain ⟨past, hone⟩ := hsecond.steps (i := 0) rfl (steps_goOn p w)
  obtain ⟨past', hboth⟩ := hone.steps (i := 1) rfl (steps_goOn p w')
  refine ⟨w, past', _, hboth, by decide +kernel, by decide +kernel, by decide +kernel, ?_,
    by decide +kernel⟩
  intro i
  refine applied_of_answer? ?_
  fin_cases i
  · decide +kernel
  · decide +kernel

/-- So a failure may be applied more than once. -/
theorem retries_may_apply_twice : ¬ ∀ (s : Service) (id : FailureId) (w₀ : World) (n : ℕ)
    (past : List (Retrial n)) (t : Retrial n) (f : Failure) (event : EventId),
    w₀.store.failure? id = some f → f.resolved = false → Refires f.origin →
    f.event = some event → w₀.store.hasEvent event = true → Run s id w₀ past t →
    ∀ i j, t.Applied i → t.Applied j → i = j := by
  intro honce
  obtain ⟨w₀, past, t, hrun, hrecord, hlogged, -, happlied, -⟩ := exists_overlap
  obtain ⟨f, hf, hview⟩ := Option.map_eq_some_iff.mp hrecord
  obtain ⟨hstanding, hevent⟩ := Prod.mk.inj hview
  obtain ⟨horigin, hopen⟩ := Prod.mk.inj hstanding
  have h := honce _ _ w₀ 2 past t f _ hf hopen (.inl horigin) hevent hlogged hrun 0 1
    (happlied 0) (happlied 1)
  exact absurd h (by decide)

/-- In the run with both rewards the two calls were under way together. -/
theorem underWay_of_two_rewards : ∃ (past : List (Retrial 2)) (t : Retrial 2),
    t.world.store.commissions.length = 2 ∧ ∃ t' ∈ past, t'.UnderWay 0 ∧ t'.UnderWay 1 := by
  obtain ⟨w₀, past, t, hrun, hrecord, -, -, happlied, hlength⟩ := exists_overlap
  have hstanding : w₀.store.standing? ⟨7⟩ = some (.effect, false) := by
    have hfirst := congrArg (Option.map Prod.fst) hrecord
    simpa [Store.standing?, Function.comp_def] using hfirst
  refine ⟨past, t, hlength, ?_⟩
  by_contra hapart
  have hiff := (retries_apply_once_iff hrun hstanding (.inl rfl)).2.1
  have honce := hiff.mpr fun t' hpast i j _ _ hi hj => by
    by_contra hij
    refine hapart ⟨t', hpast, ?_⟩
    fin_cases i <;> fin_cases j <;> first | exact absurd rfl hij | exact ⟨hi, hj⟩ | exact ⟨hj, hi⟩
  exact absurd (honce 0 1 (happlied 0) (happlied 1)) (by decide)

end Retrial

end Referral
