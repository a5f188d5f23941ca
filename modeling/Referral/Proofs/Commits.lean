import Referral.Proofs.Alone
import Referral.Proofs.Limits
import Referral.Proofs.Rebuild

/-!
# Commits that are refused

A unit of work is refused for one of five causes, and then all that is stored stays as it was. So an
event that is published without anything else going on either is recorded or leaves no trace in the
store, however often its commit was tried.
-/

namespace Referral

namespace Store

variable {s s' s'' : Store} {u : WorkUnit}

/-- The causes for which a unit of work is refused. -/
inductive Refuses (s : Store) (u : WorkUnit) : Prop
  /-- The commit is set to fail. -/
  | injected (h : 0 < s.failingCommits)
  /-- A staged event is in the log. -/
  | duplicate {e : Event} (he : e ∈ u.events) (hlogged : e.id ∈ s.facts.map (·.id))
  /-- A move does not start from the circle that the moves before it lead to. -/
  | stale {before after : List Transition} {t : Transition}
    (hmoves : u.transitions.map (·.transition) = before ++ t :: after)
    (hsource : t.source ≠ s.circleAfter ⟨t.program, t.promoter⟩ before)
  /-- A failure to be marked has no record. -/
  | unknown {id : FailureId} (hid : id ∈ u.resolved ++ u.attempted)
    (hnone : ∀ f ∈ s.failures, f.id ≠ id)
  | overflow (h : s.book.Overflows u.delta)

/-- A move is stale exactly if it does not start where the moves before it lead. -/
theorem staleMove?_ne_none_iff {s : Store} {before ts : List Transition} :
    s.staleMove? before ts ≠ none ↔ ∃ (first last : List Transition) (t : Transition),
      ts = first ++ t :: last ∧
        t.source ≠ s.circleAfter ⟨t.program, t.promoter⟩ (before ++ first) := by
  induction ts generalizing before with
  | nil => simp [staleMove?]
  | cons t ts ih =>
    rw [staleMove?]
    by_cases hsource : s.circleAfter ⟨t.program, t.promoter⟩ before = t.source
    · rw [if_pos hsource, ih]
      constructor
      · rintro ⟨first, last, t', rfl, h⟩
        exact ⟨t :: first, last, t', rfl, by simpa using h⟩
      · rintro ⟨first, last, t', heq, h⟩
        cases first with
        | nil =>
          obtain ⟨rfl, rfl⟩ := List.cons.inj heq
          exact (h (by simpa using hsource.symm)).elim
        | cons t₁ first =>
          obtain ⟨rfl, rfl⟩ := List.cons.inj heq
          exact ⟨first, last, t', rfl, by simpa using h⟩
    · rw [if_neg hsource]
      have hstale : t.source ≠ s.circleAfter ⟨t.program, t.promoter⟩ (before ++ []) := by
        rw [List.append_nil]
        exact Ne.symm hsource
      exact ⟨fun _ => ⟨[], ts, t, rfl, hstale⟩, fun _ => by simp⟩

/-- The checks refuse a unit for what it stages. -/
theorem check_eq_error_iff (hindexed : s.Indexed) : (∃ error, s.check u = .error error) ↔
    (∃ e ∈ u.events, e.id ∈ s.facts.map (·.id)) ∨
    s.staleMove? [] (u.transitions.map (·.transition)) ≠ none ∨
    ∃ id ∈ u.resolved ++ u.attempted, ∀ f ∈ s.failures, f.id ≠ id := by
  have hduplicate : (u.events.find? fun e => s.hasEvent e.id) ≠ none ↔
      ∃ e ∈ u.events, e.id ∈ s.facts.map (·.id) := by
    simp only [ne_eq, List.find?_eq_none, not_forall, not_not]
    constructor
    · rintro ⟨e, he, hlogged⟩
      exact ⟨e, he, (hindexed e.id).mp hlogged⟩
    · rintro ⟨e, he, hlogged⟩
      exact ⟨e, he, (hindexed e.id).mpr hlogged⟩
  have hunknown : ((u.resolved ++ u.attempted).find?
      fun id => !s.failures.any (·.id = id)) ≠ none ↔
      ∃ id ∈ u.resolved ++ u.attempted, ∀ f ∈ s.failures, f.id ≠ id := by
    simp only [ne_eq, List.find?_eq_none, not_forall, not_not, exists_prop, Bool.not_eq_true',
      List.any_eq_false, decide_eq_true_eq, not_exists, not_and]
  rw [← hduplicate, ← hunknown]
  unfold check
  cases u.events.find? fun e => s.hasEvent e.id with
  | some e => simp
  | none =>
    cases s.staleMove? [] (u.transitions.map (·.transition)) with
    | some promoter => simp
    | none =>
      cases (u.resolved ++ u.attempted).find? fun id => !s.failures.any (·.id = id) <;> simp

/-- A commit fails exactly for one of the causes. -/
theorem commit_eq_error_iff (hindexed : s.Indexed) (now : Instant) :
    (∃ error, (s.commit u now).1 = .error error) ↔ s.Refuses u := by
  have hcauses : s.Refuses u ↔ 0 < s.failingCommits ∨ (∃ error, s.check u = .error error) ∨
      ∃ error, s.book.merge u.delta = .error error := by
    rw [check_eq_error_iff hindexed, Book.merge_eq_error_iff, staleMove?_ne_none_iff]
    constructor
    · intro h
      cases h with
      | injected h => exact .inl h
      | duplicate he hlogged => exact .inr (.inl (.inl ⟨_, he, hlogged⟩))
      | stale hmoves hsource => exact .inr (.inl (.inr (.inl ⟨_, _, _, hmoves, hsource⟩)))
      | unknown hid hnone => exact .inr (.inl (.inr (.inr ⟨_, hid, hnone⟩)))
      | overflow h => exact .inr (.inr h)
    · rintro (h | (⟨e, he, hlogged⟩ | ⟨first, last, t, hmoves, hsource⟩ | ⟨id, hid, hnone⟩) | h)
      · exact .injected h
      · exact .duplicate he hlogged
      · exact .stale hmoves hsource
      · exact .unknown hid hnone
      · exact .overflow h
  rw [hcauses]
  rcases s.commit_cases u now with ⟨hfailing, h⟩ | ⟨hfailing, error, hcause, h⟩ |
    ⟨hfailing, hcheck, book, hmerge, h⟩
  · simp [h, hfailing]
  · rcases hcause with hcheck | ⟨-, hmerge⟩
    · simp [h, hcheck]
    · simp [h, hmerge]
  · simp [h, hcheck, hmerge, hfailing]

/-- A commit that fails changes nothing but the number of commits that are set to fail. -/
theorem commit_of_error {error : Error} {now : Instant} (h : (s.commit u now).1 = .error error) :
    (s.commit u now).2 = { s with failingCommits := s.failingCommits - 1 } := by
  rcases s.commit_cases u now with ⟨-, hcommit⟩ | ⟨hzero, _, -, hcommit⟩ |
    ⟨-, -, book, -, hcommit⟩
  · rw [hcommit]
  · have hsame : s.failingCommits - 1 = s.failingCommits := by omega
    rw [hcommit, hsame]
  · rw [hcommit] at h
    cases h

/-- A commit that is taken was not set to fail, and writes the unit with the sum of the totals. -/
theorem commit_of_ok {receipt : Receipt} {now : Instant}
    (h : s.commit u now = (.ok receipt, s')) : s.failingCommits = 0 ∧ s.check u = .ok () ∧
      ∃ book, s.book.merge u.delta = .ok book ∧ s' = s.write u book now := by
  rcases s.commit_cases u now with ⟨-, hcommit⟩ | ⟨-, _, -, hcommit⟩ |
    ⟨hzero, hcheck, book, hmerge, hcommit⟩
  · rw [hcommit] at h
    cases h
  · rw [hcommit] at h
    cases h
  · rw [hcommit] at h
    cases h
    exact ⟨hzero, hcheck, book, hmerge, rfl⟩

theorem failingCommits_write (s : Store) (u : WorkUnit) (book : Book) (now : Instant) :
    (s.write u book now).failingCommits = s.failingCommits := by
  rw [write_frame s u book now failingCommits (fun _ _ => rfl) (fun _ _ => rfl) fun _ _ => rfl]
  exact foldl_frame failingCommits (by intros; rfl) _ _

/-- Two stores differ in nothing but that the second has fewer commits set to fail. -/
def Spared (s s' : Store) : Prop :=
  ∃ failing ≤ s.failingCommits, s' = { s with failingCommits := failing }

namespace Spared

theorem refl (s : Store) : s.Spared s := ⟨s.failingCommits, le_refl _, rfl⟩

theorem trans (h : s.Spared s') (h' : s'.Spared s'') : s.Spared s'' := by
  obtain ⟨failing, hle, rfl⟩ := h
  obtain ⟨failing', hle', rfl⟩ := h'
  exact ⟨failing', hle'.trans hle, rfl⟩

theorem commit {error : Error} {now : Instant} (h : (s.commit u now).1 = .error error) :
    s.Spared (s.commit u now).2 :=
  ⟨s.failingCommits - 1, Nat.sub_le _ _, commit_of_error h⟩

theorem refuse {error : Error} {now : Instant} (h : s.Spared s')
    (hcommit : s'.commit u now = (.error error, s'')) : s.Spared s'' := by
  have hsame := commit (congrArg Prod.fst hcommit)
  rw [hcommit] at hsame
  exact h.trans hsame

/-- Where no commit is set to fail nothing differs. -/
theorem eq_of_zero (h : s.Spared s') (hzero : s.failingCommits = 0) : s' = s := by
  obtain ⟨failing, hle, rfl⟩ := h
  rw [hzero, Nat.le_zero] at hle
  rw [hle, ← hzero]

end Spared

end Store

namespace Procedure

open World (Passes rely_passes)

variable {α β : Type} {w : World} {store : Store}

/-- Without anything else going on, the procedure changes nothing in a store but the number of
commits that are set to fail, unless it ends with an answer that `Q` allows. -/
abbrev Spares {α : Type} (store : Store) (Q : α → Prop) (p : Procedure α) (w : World) : Prop :=
  p.Keeps Passes (fun _ _ _ => True) (fun a w' => Q a ∨ store.Spared w'.store) w

variable {Q : α → Prop} {Q₁ : β → Prop}

theorem Spares.bind {p : Procedure β} {f : β → Procedure α} (h : p.Spares store Q₁ w)
    (hf : ∀ b w', Q₁ b ∨ store.Spared w'.store → (f b).Spares store Q w') :
    (p >>= f).Spares store Q w :=
  Keeps.bind rely_passes h (fun _ _ _ _ => trivial) hf

/-- A first part that always spares the store. -/
theorem Spares.then {p : Procedure β} {f : β → Procedure α}
    (h : p.Spares store (fun _ => False) w)
    (hf : ∀ b w', store.Spared w'.store → (f b).Spares store Q w') :
    (p >>= f).Spares store Q w :=
  h.bind fun b w' hw' => hf b w' (hw'.resolve_left id)

theorem spares_pure {a : α} (h : Q a ∨ store.Spared w.store) :
    (pure a : Procedure α).Spares store Q w := by
  intro w' hw'
  rw [hw'.store_eq]
  exact h

theorem spares_perform {action : Action α} (hw : store.Spared w.store)
    (h : ∀ w : World, (w.perform action).2.store = w.store) :
    (perform action).Spares store (fun _ => False) w := by
  refine keeps_perform fun w' hw' _ => ⟨trivial, fun w'' hw'' => .inr ?_⟩
  rw [hw''.store_eq, h, hw'.store_eq]
  exact hw

theorem spares_sleep (hw : store.Spared w.store) (millis : ℕ) :
    (sleep millis).Spares store (fun _ => False) w := by
  have hmoment : (perform (.momentAfter millis)).Spares store (fun _ => False) w :=
    spares_perform hw fun _ => rfl
  exact hmoment.then fun moment w' hw' => spares_perform hw' fun _ => rfl

theorem spares_lockAll (hw : store.Spared w.store) (task : TaskId) (ks : List LockKey) :
    (lockAll task ks).Spares store (fun _ => False) w := by
  induction ks generalizing w with
  | nil => exact spares_pure (.inr hw)
  | cons k ks ih =>
    have hreach : (perform (.reachLock task k)).Spares store (fun _ => False) w :=
      spares_perform hw fun _ => rfl
    have hawait : ∀ w', store.Spared w'.store →
        (perform (.awaitLock task k)).Spares store (fun _ => False) w' :=
      fun w' hw' => spares_perform hw' fun _ => rfl
    exact hreach.then fun _ w₁ hw₁ => (hawait w₁ hw₁).then fun _ w₂ hw₂ => ih hw₂

/-- The last action of a part of which either the answer is as it should be or the store is
spared. -/
theorem spares_last {action : Action β} {a : α} (h : Q a ∨ store.Spared w.store)
    (haction : ∀ w : World, (w.perform action).2.store = w.store) :
    (do
      let _ ← perform action
      return a : Procedure α).Spares store Q w := by
  intro w' hw' _
  refine ⟨trivial, spares_pure ?_⟩
  rw [haction, hw'.store_eq]
  exact h

theorem Spares.withLocks {body : Procedure α} (hw : store.Spared w.store)
    (h : ∀ w', store.Spared w'.store → body.Spares store Q w') (ks : List LockKey) :
    (withLocks ks body).Spares store Q w := by
  unfold Procedure.withLocks
  refine (spares_perform hw fun _ => rfl).then fun task w₁ hw₁ => ?_
  refine (spares_lockAll hw₁ task ks).then fun _ w₂ hw₂ => ?_
  exact (h w₂ hw₂).bind fun a w₃ hw₃ => spares_last hw₃ fun _ => rfl

end Procedure

namespace Service

open Procedure World

variable {s : Service} {store : Store} {w : World} {u : WorkUnit}

/-- The answer of a commit that was taken. -/
def Taken (answer : Except Error Receipt) : Prop := ∃ receipt, answer = .ok receipt

theorem commitRetrying_spares (backoff : ℕ → Duration) (hw : store.Spared w.store)
    (retries attempt : ℕ) : (commitRetrying backoff u retries attempt).Spares store Taken w := by
  have hcommit : ∀ {w : World}, store.Spared w.store →
      (perform (.commit u)).Spares store Taken w := by
    intro w hw
    refine keeps_perform fun w' hw' _ => ⟨trivial, fun w'' hw'' => ?_⟩
    rw [hw''.store_eq]
    cases hanswer : (w'.perform (.commit u)).1 with
    | ok receipt => exact .inl ⟨receipt, rfl⟩
    | error error => exact .inr (hw.trans (hw'.store_eq ▸ Store.Spared.commit hanswer))
  induction retries generalizing w attempt with
  | zero => exact hcommit hw
  | succ retries ih =>
    unfold commitRetrying
    refine (hcommit hw).bind fun answer w₁ hw₁ => ?_
    cases answer with
    | ok receipt => exact spares_pure (.inl ⟨receipt, rfl⟩)
    | error error =>
      have hspared : store.Spared w₁.store := hw₁.resolve_left fun ⟨_, h⟩ => by cases h
      dsimp only
      split
      · exact (spares_sleep hspared _).then fun _ w₂ hw₂ => ih hw₂ _
      · exact spares_pure (.inr hspared)

theorem commitDemoting_spares (hw : store.Spared w.store) :
    (s.commitDemoting u).Spares store (fun a => Taken a.1) w := by
  have hfirst : (s.commit u).Spares store Taken w := commitRetrying_spares _ hw _ _
  unfold commitDemoting
  refine hfirst.bind fun answer w₁ hw₁ => ?_
  split
  · rename_i promoter
    have hspared : store.Spared w₁.store := hw₁.resolve_left fun ⟨_, h⟩ => by cases h
    split
    · exact spares_pure (.inr hspared)
    · refine (spares_perform hspared fun _ => rfl).then fun a w₂ hw₂ => ?_
      have hsecond : (s.commit a.2).Spares store Taken w₂ := commitRetrying_spares _ hw₂ _ _
      exact hsecond.bind fun answer w₃ hw₃ => spares_pure hw₃
  · exact spares_pure hw₁

/-- The answer to an event that was recorded. -/
def Committed (answer : Except Error PublishOutcome) : Prop :=
  ∃ report, answer = .ok (.committed report)

theorem record_spares (hw : store.Spared w.store) (e : Event) :
    (s.record e).Spares store Committed w := by
  unfold record
  refine (spares_perform hw fun _ => rfl).then fun known w₁ hw₁ => ?_
  split
  · exact spares_pure (.inr hw₁)
  have hstart : (startUnit e.promoterKey).Spares store (fun _ => False) w₁ :=
    fun w' hw' _ => ⟨trivial, spares_pure (.inr (hw'.store_eq ▸ hw₁))⟩
  refine hstart.then fun u w₂ hw₂ => ?_
  refine (spares_perform hw₂ fun _ => rfl).then fun a w₃ hw₃ => ?_
  refine (commitDemoting_spares hw₃).bind fun a w₄ hw₄ => ?_
  obtain ⟨answer, u⟩ := a
  cases answer with
  | error error => exact spares_last (.inr (hw₄.resolve_left fun ⟨_, h⟩ => by cases h)) fun _ => rfl
  | ok receipt =>
    have hoffer : ∀ w report, (do
        perform (.offer u.notifications)
        finish u (.ok (.committed report)) :
          Procedure (Except Error PublishOutcome)).Spares store Committed w :=
      fun w report _ _ _ => ⟨trivial, spares_last (.inl ⟨report, rfl⟩) fun _ => rfl⟩
    dsimp only
    split
    · exact fun _ _ _ => ⟨trivial, hoffer _ _⟩
    · exact hoffer _ _

/-- Nothing is stored of an event whose publication fails or that turns out to be known. -/
theorem publish_spares (w : World) (e : Event) : (s.publish e).Spares w.store Committed w := by
  unfold publish
  split
  · exact spares_pure (.inr (.refl _))
  · exact Spares.withLocks (.refl _) (fun w' hw' => record_spares hw' e) _

end Service

/-! ## What is refused -/

/-- A store that operations of any kind have led to, from an empty one. -/
def Store.Arises (s : Store) : Prop := Relation.ReflTransGen Store.Change .empty s

theorem Store.Arises.indexed {s : Store} (h : s.Arises) : s.Indexed := by
  induction h with
  | refl => exact fun id => by simp [Store.hasEvent, Store.facts, Store.empty]
  | tail _ hchange ih => exact hchange.later.indexed ih

/-- A commit fails exactly for one of five causes, and then nothing that is stored has changed. So
an event that is published while nothing else goes on is recorded, or the store stays as it was but
for the number of commits that are set to fail. -/
theorem Service.refused_leaves_no_trace {store : Store} (hstore : store.Arises) :
    (∀ u now, (∃ error, (store.commit u now).1 = .error error) ↔ store.Refuses u) ∧
    (∀ u now error, (store.commit u now).1 = .error error →
      (store.commit u now).2 = { store with failingCommits := store.failingCommits - 1 }) ∧
    ∀ (s : Service) (e : Event) (w w' : World) (n : ℕ) (answer : Except Error PublishOutcome),
      w.store = store → (s.publish e).Amid World.Passes w n (.done answer) w' →
      (∀ report, answer ≠ .ok (.committed report)) →
      ∃ failing ≤ store.failingCommits, w'.store = { store with failingCommits := failing } := by
  refine ⟨fun u now => store.commit_eq_error_iff hstore.indexed now,
    fun u now error h => Store.commit_of_error h, ?_⟩
  rintro s e w w' n answer rfl hrun hanswer
  have hend := Procedure.Keeps.amid World.rely_passes (s.publish_spares w e) hrun
  rcases hend w' (.refl w') with ⟨report, hreport⟩ | hspared
  · exact (hanswer report hreport).elim
  · exact hspared

/-- A signup that is recorded already: a unit with it is refused, and publishing it once more stores
nothing. -/
theorem Service.refused_second_signup : ∃ (e : Event) (u : WorkUnit) (w w' : World) (n : ℕ),
    w.store.Arises ∧ w.store.facts = [e] ∧
    (w.store.commit u w.now).1 = .error (.duplicateEvent e.id) ∧ w.store.Refuses u ∧
    (w.store.commit u w.now).2 = { w.store with failingCommits := w.store.failingCommits - 1 } ∧
    ((Service.mk .default []).publish e).Amid World.Passes w n
      (.done (.ok (.duplicate e.id))) w' ∧
    ∃ failing ≤ w.store.failingCommits, w'.store = { w.store with failingCommits := failing } := by
  let now : Instant := ⟨0, 0, by decide, by decide, by decide⟩
  let e : Event := .signup ⟨1⟩ ⟨2⟩ ⟨3⟩ ⟨4⟩ ⟨5⟩ ⟨6⟩ now
  let u : WorkUnit := { WorkUnit.start (Store.empty.context e.promoterKey) with events := [e] }
  let w : World := { World.start now ⟨100⟩ with store := (Store.empty.commit u now).2 }
  let w' : World := (((Service.mk .default []).publish e).goOn w).2
  have harises : w.store.Arises := .single (.commit u now)
  have hrefused : (w.store.commit u w.now).1 = .error (.duplicateEvent e.id) := by decide +kernel
  have hrun : ∃ n, ((Service.mk .default []).publish e).Amid World.Passes w n
      (.done (.ok (.duplicate e.id))) w' := Procedure.amid_of_answer? (by decide +kernel)
  obtain ⟨n, hn⟩ := hrun
  obtain ⟨hcauses, hsame, hspared⟩ := refused_leaves_no_trace harises
  exact ⟨e, u, w, w', n, harises, by decide +kernel, hrefused, (hcauses u w.now).mp ⟨_, hrefused⟩,
    hsame u w.now _ hrefused, hn, hspared _ e w w' n _ rfl hn fun _ h => by cases h⟩

end Referral
