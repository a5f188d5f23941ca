import Referral.Proofs.CheckedRules
import Referral.Proofs.Concert
import Referral.Proofs.SoundLog

/-!
# Events that are delivered again

An event that is in the log is not recorded again, however often and with whatever contents it is
published. Of calls that publish under one name at the same time one at most is answered that its
event was committed: such an answer takes an action that puts the name into the log, and once it is
there, no other action can do so.
-/

namespace Referral

/-- The name of an event that was logged stays known. -/
theorem Store.Later.hasEvent {s s' : Store} (h : s.Later s') (hindexed : s.Indexed) {id : EventId}
    (hid : s.hasEvent id = true) : s'.hasEvent id = true :=
  (h.indexed hindexed id).mpr ((h.facts.map _).subset ((hindexed id).mp hid))

/-- Others change whatever they like, but to the log they only append. -/
def World.Appends (w w' : World) : Prop := w.store.Later w'.store

theorem World.rely_appends : Procedure.Rely Appends where
  refl _ := .refl _
  trans _ _ _ h h' := Store.Later.trans h h'
  later _ _ h := h

/-! ## What is known already -/

namespace Procedure

open World (Passes Appends rely_appends)

variable {α β : Type} {w : World}

/-- An action that leaves the store as it is. -/
theorem quietly_perform {R : World → World → Prop} {action : Action α}
    (h : ∀ w : World, (w.perform action).2.store = w.store) :
    (perform action).Quietly R (fun _ _ => True) (fun _ _ => True) w :=
  keeps_perform fun w' _ _ => ⟨⟨trivial, h w'⟩, fun _ _ => trivial⟩

/-- Whatever others do, locks are taken and given back without a change of the store. -/
theorem quietly_withLocks {body : Procedure α} {Q : α → World → Prop} (ks : List LockKey)
    (hbody : ∀ w', Appends w w' → body.Quietly Appends (fun _ _ => True) Q w')
    (hlasts : ∀ a w' w'', Appends w' w'' → Q a w' → Q a w'') :
    (withLocks ks body).Quietly Appends (fun _ _ => True) Q w := by
  have hlockAll : ∀ (task : TaskId) (ks : List LockKey) (w : World),
      (lockAll task ks).Quietly Appends (fun _ _ => True) (fun _ _ => True) w := by
    intro task ks
    induction ks with
    | nil => exact fun _ _ _ => trivial
    | cons k ks ih =>
      exact fun _ _ _ _ => ⟨⟨trivial, rfl⟩, fun _ _ _ => ⟨⟨trivial, rfl⟩, ih _⟩⟩
  have hsince : ∀ {β : Type} {p : Procedure β} {Q₁ : β → World → Prop} {w₁ : World},
      p.Quietly Appends (fun _ _ => True) Q₁ w₁ → Appends w w₁ →
      p.Quietly Appends (fun _ _ => True) (fun b w' => Q₁ b w' ∧ Appends w w') w₁ :=
    fun h hw => h.since rely_appends (fun w w' _ hstep => by
      rw [Appends, hstep.2]
      exact .refl _) hw
  unfold withLocks
  refine Quietly.bind rely_appends (hsince (quietly_perform fun _ => rfl) (rely_appends.refl w))
    fun task w₁ h₁ => ?_
  refine Quietly.bind rely_appends (hsince (hlockAll task ks w₁) h₁.2) fun _ w₂ h₂ => ?_
  refine Quietly.bind rely_appends (hbody w₂ h₂.2) fun a w₃ ha w₄ h₄ _ => ?_
  exact ⟨⟨trivial, rfl⟩, fun w₅ h₅ => hlasts a _ _ h₅ (hlasts a _ _ h₄ ha)⟩

/-- Locks at which there is nobody are taken one after the other. -/
theorem ends_lockAll_queues (task : TaskId) {ks : List LockKey} (hks : ks.Nodup)
    (hfree : ∀ k ∈ ks, w.locks.queue k = []) :
    (lockAll task ks).Ends (fun _ w' => w'.store = w.store ∧ ∀ j, w'.locks.queue j =
      if j ∈ ks then w.locks.queue j ++ [task] else w.locks.queue j) w := by
  induction ks generalizing w with
  | nil => exact fun w' hw' => ⟨hw'.store_eq, by simp [hw'.locks_eq]⟩
  | cons k ks ih =>
    rw [List.nodup_cons] at hks
    rw [List.forall_mem_cons] at hfree
    refine fun w₁ h₁ => ⟨⟨w₁, .refl w₁, rfl⟩, fun _ w₂ h₂ => ?_⟩
    have hqueue : ∀ j, w₂.locks.queue j =
        if j = k then w.locks.queue k ++ [task] else w.locks.queue j := by
      intro j
      rw [h₂.locks_eq]
      simp only [World.perform, LockTable.queue_reach, h₁.locks_eq]
    have hstore : w₂.store = w.store := h₂.store_eq.trans h₁.store_eq
    have hholds : (Action.awaitLock task k).isReady w₂ = true := by
      simp [Action.isReady, LockTable.holds, hqueue, hfree.1]
    refine ⟨⟨w₂, .refl w₂, hholds⟩, fun _ => ?_⟩
    have hrest : ∀ j ∈ ks, w₂.locks.queue j = [] := by
      intro j hj
      have hne : j ≠ k := fun heq => hks.1 (heq ▸ hj)
      rw [hqueue, if_neg hne]
      exact hfree.2 j hj
    have hend : ∀ w' : World, (w'.store = w₂.store ∧ ∀ j, w'.locks.queue j =
        if j ∈ ks then w₂.locks.queue j ++ [task] else w₂.locks.queue j) →
        w'.store = w.store ∧ ∀ j, w'.locks.queue j =
          if j ∈ k :: ks then w.locks.queue j ++ [task] else w.locks.queue j := by
      rintro w' ⟨hsame, hqueues⟩
      refine ⟨hsame.trans hstore, fun j => ?_⟩
      rw [hqueues, hqueue]
      by_cases hj : j = k
      · subst hj
        simp [hks.1]
      · simp [hj]
    exact (ih (w := w₂) hks.2 hrest).weaken fun _ => hend

/-- A procedure that takes locks at which there is nobody, and gives them back. -/
theorem ends_withLocks_queues {body : Procedure α} {Q : α → Prop} {ks : List LockKey}
    (hks : ks.Nodup) (hfree : ∀ k ∈ ks, w.locks.queue k = [])
    (hbody : ∀ w', w'.store = w.store →
      body.Ends (fun a w'' => Q a ∧ w''.store = w'.store ∧ w''.locks = w'.locks) w') :
    (withLocks ks body).Ends (fun a w' => Q a ∧ w'.store = w.store ∧
      ∀ j, w'.locks.queue j = w.locks.queue j) w := by
  have htask : (perform .newTask).Ends
      (fun _ w' => w'.store = w.store ∧ w'.locks = w.locks) w := by
    refine ends_perform (fun _ _ => rfl) fun w' w'' hw' hw'' => ?_
    cases hw'
    cases hw''
    exact ⟨rfl, rfl⟩
  unfold withLocks
  refine htask.bind fun task w₁ ⟨hstore₁, hlocks₁⟩ => ?_
  refine (ends_lockAll_queues task hks (hlocks₁ ▸ hfree)).bind fun _ w₂ ⟨hstore₂, hqueues₂⟩ => ?_
  refine (hbody w₂ (hstore₂.trans hstore₁)).bind fun a w₃ ⟨ha, hstore₃, hlocks₃⟩ => ?_
  have hrelease : (perform (.releaseLocks task ks)).Ends (fun _ w' => w'.store = w₃.store ∧
      w'.locks = w₃.locks.release task ks) w₃ := by
    refine ends_perform (fun _ _ => rfl) fun w' w'' hw' hw'' => ?_
    cases hw'
    cases hw''
    exact ⟨rfl, rfl⟩
  refine hrelease.bind fun _ w₄ ⟨hstore₄, hlocks₄⟩ w₅ hw₅ => ⟨ha, ?_, fun j => ?_⟩
  · rw [hw₅.store_eq, hstore₄, hstore₃, hstore₂, hstore₁]
  · rw [hw₅.locks_eq, hlocks₄, LockTable.queue_release _ _ hks, hlocks₃, hqueues₂, hlocks₁]
    by_cases hj : j ∈ ks
    · simp [hj, hfree j hj]
    · simp [hj]

end Procedure

namespace Service

open Procedure World

variable {s : Service} {w : World} {e : Event}

/-- The answer to an event that is in the log. -/
abbrev known (e : Event) : PublishAnswer := .ok (.duplicate e.id)

theorem quietly_publish_known (hvalid : accept e = .ok ()) (hindexed : w.store.Indexed)
    (hknown : w.store.hasEvent e.id = true) :
    (s.publish e).Quietly Appends (fun _ _ => True) (fun a _ => a = known e) w := by
  unfold publish
  rw [hvalid]
  refine quietly_withLocks _ (fun w₁ h₁ w₂ h₂ _ => ⟨⟨trivial, rfl⟩, ?_⟩) fun _ _ _ _ h => h
  have hstill : w₂.store.hasEvent e.id = true :=
    (Store.Later.trans h₁ h₂).hasEvent hindexed hknown
  simp only [World.perform, hstill]
  exact fun _ _ => rfl

theorem ends_publish_known (hvalid : accept e = .ok ()) (hknown : w.store.hasEvent e.id = true)
    (hfree : ∀ k ∈ e.lockKeys, w.locks.queue k = []) :
    (s.publish e).Ends (fun a w' => a = known e ∧ w'.store = w.store ∧
      ∀ j, w'.locks.queue j = w.locks.queue j) w := by
  unfold publish
  rw [hvalid]
  refine ends_withLocks_queues (nodup_sortedKeys _) hfree fun w₁ h₁ w₂ h₂ => ?_
  refine ⟨⟨w₂, .refl w₂, rfl⟩, fun _ => ?_⟩
  have hstill : w₂.store.hasEvent e.id = true := by rw [h₂.store_eq, h₁, hknown]
  simp only [World.perform, hstill]
  intro w₃ h₃
  exact ⟨rfl, h₃.store_eq.trans h₂.store_eq, h₃.locks_eq.trans h₂.locks_eq⟩

/-- Publishes events one after the other. -/
def publishEach (s : Service) : List Event → Procedure (List PublishAnswer)
  | [] => return []
  | e :: es => do
    let a ← s.publish e
    let rest ← s.publishEach es
    return a :: rest

/-- An event that may come from a producer under a name that is in the log. -/
structure Redelivers (store : Store) (e : Event) : Prop where
  kind : e.kind = .signup ∨ e.kind = .purchase
  valid : e.validate = .ok ()
  logged : e.id ∈ store.facts.map (·.id)

theorem quietly_publishEach {es : List Event} (hindexed : w.store.Indexed)
    (hes : ∀ e ∈ es, Redelivers w.store e) :
    (s.publishEach es).Quietly Appends (fun _ _ => True) (fun as _ => as = es.map known) w := by
  induction es generalizing w with
  | nil => exact fun _ _ => rfl
  | cons e es ih =>
    rw [List.forall_mem_cons] at hes
    have hfirst := quietly_publish_known (s := s) (accept_eq_ok hes.1.kind hes.1.valid) hindexed
      ((hindexed _).mpr hes.1.logged)
    have hsince := hfirst.since rely_appends (fun w w' _ hstep => by
      rw [Appends, hstep.2]
      exact .refl _) (rely_appends.refl w)
    unfold publishEach
    refine Quietly.bind rely_appends hsince fun a w₁ ⟨ha, h₁⟩ => ?_
    have hrest : ∀ e ∈ es, Redelivers w₁.store e := fun e he =>
      ⟨(hes.2 e he).kind, (hes.2 e he).valid, (Store.Later.facts h₁).map _ |>.subset
        (hes.2 e he).logged⟩
    refine Quietly.bind rely_appends (ih (Store.Later.indexed h₁ hindexed) hrest)
      fun as w₂ has => quietly_pure fun _ _ => ?_
    rw [ha, has, List.map_cons]

theorem ends_publishEach {es : List Event} (hindexed : w.store.Indexed)
    (hes : ∀ e ∈ es, Redelivers w.store e)
    (hfree : ∀ e ∈ es, ∀ k ∈ e.lockKeys, w.locks.queue k = []) :
    (s.publishEach es).Ends (fun as w' => as = es.map known ∧ w'.store = w.store) w := by
  induction es generalizing w with
  | nil => exact fun w' hw' => ⟨rfl, hw'.store_eq⟩
  | cons e es ih =>
    rw [List.forall_mem_cons] at hes hfree
    have hfirst := ends_publish_known (s := s) (accept_eq_ok hes.1.kind hes.1.valid)
      ((hindexed _).mpr hes.1.logged) hfree.1
    unfold publishEach
    refine hfirst.bind fun a w₁ ⟨ha, hstore₁, hqueues⟩ => ?_
    rw [← hstore₁] at hindexed hes
    simp only [← hqueues] at hfree
    refine (ih hindexed hes.2 hfree.2).bind fun as w₂ ⟨has, hstore₂⟩ w₃ h₃ => ?_
    exact ⟨by rw [ha, has, List.map_cons], by rw [h₃.store_eq, hstore₂, hstore₁]⟩

end Service

/-! ## Who puts a name into the log -/

namespace Procedure

open World (Appends rely_appends)

variable {α β : Type} {id : EventId} {Q : α → World → Prop} {Q₁ : β → World → Prop}
  {w w' : World}

/-- Whatever others do, the procedure puts a name into the log by one of its actions, or it ends
with an answer that `Q` allows. -/
def Claims (id : EventId) : {α : Type} → (α → World → Prop) → Procedure α → World → Prop
  | _, Q, done a, w => ∀ w', Appends w w' → Q a w'
  | _, Q, act action next, w => ∀ w', Appends w w' → action.isReady w' = true →
      (w'.store.hasEvent id = false ∧ (w'.perform action).2.store.hasEvent id = true) ∨
      (next (w'.perform action).1).Claims id Q (w'.perform action).2
  | _, _, both _ _ _, _ => False

theorem Claims.later {p : Procedure α} (h : p.Claims id Q w) (hw : Appends w w') :
    p.Claims id Q w' := by
  cases p with
  | done a => exact fun w'' hw'' => h w'' (rely_appends.trans _ _ _ hw hw'')
  | act action next => exact fun w'' hw'' => h w'' (rely_appends.trans _ _ _ hw hw'')
  | both first second next => exact h

/-- A step puts the name into the log, or what is left of the procedure still has to. -/
theorem Claims.step {p q : Procedure α} (h : p.Claims id Q w) (hstep : p.Step w q w') :
    (w.store.hasEvent id = false ∧ w'.store.hasEvent id = true) ∨ q.Claims id Q w' := by
  cases hstep with
  | act hready => exact h w (rely_appends.refl w) hready
  | first => exact h.elim
  | second => exact h.elim
  | join => exact h.elim

theorem Claims.bind {p : Procedure β} {f : β → Procedure α} (h : p.Claims id Q₁ w)
    (hf : ∀ b w', Q₁ b w' → (f b).Claims id Q w') : (p >>= f).Claims id Q w := by
  induction p generalizing w with
  | done b => exact hf b w (h w (rely_appends.refl w))
  | act action next ih =>
    exact fun w' hw' hready => (h w' hw' hready).imp_right fun hnext => ih _ hnext hf
  | both first second next => exact h.elim

/-- An action that has nothing to do with the log comes first. -/
theorem claims_then {action : Action β} {f : β → Procedure α}
    (hf : ∀ w' : World, (f (w'.perform action).1).Claims id Q (w'.perform action).2) :
    (perform action >>= f).Claims id Q w :=
  fun w' _ _ => .inr (hf w')

/-- Locks have nothing to do with the log. -/
theorem Claims.withLocks {body : Procedure α} {Q : α → Prop} (ks : List LockKey)
    (hbody : ∀ w', body.Claims id (fun a _ => Q a) w') :
    (withLocks ks body).Claims id (fun a _ => Q a) w := by
  have hlockAll : ∀ (task : TaskId) (ks : List LockKey) (w : World),
      (lockAll task ks).Claims id (fun _ _ => True) w := by
    intro task ks
    induction ks with
    | nil => exact fun _ _ _ => trivial
    | cons k ks ih => exact fun _ _ _ _ => .inr fun _ _ _ => .inr (ih _)
  unfold Procedure.withLocks
  refine claims_then fun w₁ => Claims.bind (hlockAll _ ks _) fun _ w₂ _ => ?_
  exact Claims.bind (hbody w₂) fun a w₃ ha => claims_then fun w₄ _ _ => ha

end Procedure

namespace Store

variable {s : Store} {u : WorkUnit} {now : Instant}

/-- A unit that is committed puts the names of its events into the log. -/
theorem claims_commit {receipt : Receipt} (h : (s.commit u now).1 = .ok receipt) {e : Event}
    (he : e ∈ u.events) :
    s.hasEvent e.id = false ∧ (s.commit u now).2.hasEvent e.id = true := by
  have hcommit : s.commit u now = (.ok receipt, (s.commit u now).2) := Prod.ext h rfl
  obtain ⟨-, hcheck, book, -, hstore⟩ := commit_of_ok hcommit
  rw [hstore, hasEvent_write]
  exact ⟨hasEvent_eq_false_of_check hcheck he, .inr (List.mem_map_of_mem he)⟩

end Store

namespace Service

open Procedure World

variable {s : Service} {w : World} {e : Event} {u : WorkUnit}

/-- The answer of a commit that was refused. -/
abbrev Refused (answer : Except Error Receipt) : Prop := ∃ error, answer = .error error

theorem claims_commitRetrying (backoff : ℕ → Duration) (he : e ∈ u.events) (retries attempt : ℕ) :
    (commitRetrying backoff u retries attempt).Claims e.id (fun answer _ => Refused answer) w := by
  have hcommit : ∀ w, (perform (.commit u)).Claims e.id (fun answer _ => Refused answer) w := by
    intro w w' _ _
    cases hanswer : (w'.store.commit u w'.now).1 with
    | ok receipt => exact .inl (Store.claims_commit hanswer he)
    | error error => exact .inr fun _ _ => ⟨error, hanswer⟩
  induction retries generalizing w attempt with
  | zero => exact hcommit w
  | succ retries ih =>
    unfold commitRetrying
    refine Claims.bind (hcommit w) ?_
    rintro answer w₁ ⟨error, rfl⟩
    dsimp only
    split
    · exact fun _ _ _ => .inr fun _ _ _ => .inr (ih _)
    · exact fun _ _ => ⟨error, rfl⟩

theorem claims_commitDemoting (he : e ∈ u.events) :
    (s.commitDemoting u).Claims e.id (fun a _ => Refused a.1) w := by
  have hcommit : (s.commit u).Claims e.id (fun answer _ => Refused answer) w :=
    claims_commitRetrying _ he _ _
  unfold commitDemoting
  refine Claims.bind hcommit ?_
  rintro answer w₁ ⟨error, rfl⟩
  split
  · split
    · exact fun _ _ => ⟨_, rfl⟩
    · rename_i promoter _ _
      -- a unit whose moves became records has the events that it had
      refine claims_then fun w₂ => ?_
      have hedits := (⟨u, w₂.permits, w₂.ids, w₂.now⟩ : Staging).edits_demoteTransitions
        (.switchRejected promoter)
      have he' := hedits.unit.events.subset he
      exact Claims.bind (claims_commitRetrying _ he' _ _) fun answer w₃ hrefused _ _ => hrefused
  · exact fun _ _ => ⟨error, rfl⟩

/-- An answer other than that the event was committed. -/
def Uncommitted (answer : PublishAnswer) : Prop := ∀ report, answer ≠ .ok (.committed report)

/-- Any dispatch stages the event that it is for. -/
theorem mem_events_dispatchAt (hs : s.Fair) (c : Context) (permits : Permits) (ids : IdSupply)
    (now : Instant) (calls : List CallRecord) :
    e ∈ (s.dispatcher.dispatchAt 0 e ⟨.start c, permits, ids, now⟩ calls).staging.unit.events := by
  let c₀ : Cascade := ⟨⟨.start c, permits, ids, now⟩, calls, .start⟩
  have hfirst : e ∈ (Cascade.handleEvent s.dispatcher 0 c₀ e).1.staging.unit.events := by
    have hroom : ¬ s.dispatcher.maxDepth < 0 := not_lt.mpr (Fin.zero_le _)
    have hstage : c₀.staging.unit.stageEvent? e =
        some { WorkUnit.start c with events := [e] } := rfl
    have hcalls := Cascade.edits_callAll ⟨e, 0⟩ hs.handlers
      (c₀.accept { WorkUnit.start c with events := [e] } 0 e) 0
    unfold Cascade.handleEvent
    simp only [if_neg hroom, hstage]
    exact hcalls.unit.events.subset List.mem_cons_self
  obtain ⟨left, hstaged⟩ := Dispatcher.dispatchAt_keeps
    (I := fun c _ => e ∈ c.staging.unit.events) hfirst fun c depth g _ h =>
      (Cascade.edits_handleEvent hs.handlers depth c g).unit.events.subset h
  exact hstaged

theorem claims_record (hs : s.Fair) :
    (s.record e).Claims e.id (fun answer _ => Uncommitted answer) w := by
  rw [record_eq]
  refine claims_then fun w₁ => ?_
  split
  · exact fun _ _ _ h => by cases h
  have hstart : (startUnit e.promoterKey).Claims e.id (fun u _ => ∃ c, u = .start c)
      (w₁.perform (.read fun store => store.hasEvent e.id)).2 :=
    fun _ _ _ => .inr fun _ _ => ⟨_, rfl⟩
  refine Claims.bind hstart ?_
  rintro u w₂ ⟨c, rfl⟩
  refine claims_then fun w₃ => ?_
  have hstaged := mem_events_dispatchAt (e := e) hs c w₃.permits w₃.ids w₃.now w₃.calls
  refine Claims.bind (claims_commitDemoting hstaged) fun a w₄ hrefused => ?_
  obtain ⟨answer, u⟩ := a
  obtain ⟨error, rfl⟩ := hrefused
  refine claims_then fun w₅ _ _ report h => ?_
  simp only [answerTo] at h
  split at h <;> cases h

theorem claims_publish (hs : s.Fair) (w : World) (e : Event) :
    (s.publish e).Claims e.id (fun answer _ => Uncommitted answer) w := by
  unfold publish
  split
  · exact fun _ _ _ h => by cases h
  · exact Claims.withLocks _ fun _ => claims_record hs

end Service

/-! ## Calls under one name -/

/-- What a regular procedure does, it does without a loss of what was logged. -/
theorem Procedure.IsRegular.appends {α : Type} {p q : Procedure α} {w w' : World}
    (hstep : p.Step w q w') (h : p.IsRegular) : q.IsRegular ∧ w.Appends w' := by
  obtain ⟨hq, hsame | hchange⟩ := h.change hstep
  · rw [World.Appends, hsame]
    exact ⟨hq, .refl _⟩
  · exact ⟨hq, hchange.later⟩

namespace Concert

open Procedure World Service

variable {n : ℕ} {t t' : Concert n} {id : EventId}

/-- Calls at several services are about to begin. -/
def startAt (s : Fin n → Service) (w : World) (e : Fin n → Event) : Concert n :=
  ⟨w, fun i => (s i).publish (e i)⟩

/-- What can happen next where others use the store as well: a call goes on by one action, or others
do something. -/
inductive NextAmid : Concert n → Concert n → Prop
  | act {w w' : World} {rest : Fin n → Procedure PublishAnswer} {i : Fin n}
      {p : Procedure PublishAnswer} (step : (rest i).Step w p w') :
      NextAmid ⟨w, rest⟩ ⟨w', Function.update rest i p⟩
  | other {w w' : World} {rest : Fin n → Procedure PublishAnswer} (change : w.Appends w') :
      NextAmid ⟨w, rest⟩ ⟨w', rest⟩

/-- The states that a run may go through. -/
abbrev ReachesAmid : Concert n → Concert n → Prop := Relation.ReflTransGen NextAmid

/-- All calls but one at most have yet to put the name into the log before they can be answered that
their event was committed, and if there is such a one, the name is in the log. -/
structure Contested (id : EventId) (t : Concert n) : Prop where
  indexed : t.world.store.Indexed
  regular : ∀ i, (t.rest i).IsRegular
  claimed : ∃ winner : Option (Fin n), (∀ i, winner = some i → t.world.store.hasEvent id = true) ∧
    ∀ i, winner ≠ some i → (t.rest i).Claims id (fun answer _ => Uncommitted answer) t.world

theorem contested_start {s : Fin n → Service} {w : World} {e : Fin n → Event}
    (hindexed : w.store.Indexed) (hfair : ∀ i, (s i).Fair) (hid : ∀ i, (e i).id = id) :
    Contested id (startAt s w e) where
  indexed := hindexed
  regular i := isRegular_publish (s i) (e i)
  claimed := ⟨none, ⟨fun _ h => (Option.some_ne_none _ h.symm).elim,
    fun i _ => hid i ▸ claims_publish (hfair i) w (e i)⟩⟩

/-- Whatever happens next, no second call puts the name into the log. -/
theorem Contested.next (h : Contested id t) (hnext : t.NextAmid t') : Contested id t' := by
  obtain ⟨hindexed, hregular, winner, hlogged, hclaims⟩ := h
  cases hnext with
  | other change =>
    exact ⟨Store.Later.indexed change hindexed, hregular, winner,
      fun i hi => change.hasEvent hindexed (hlogged i hi), fun i hi => (hclaims i hi).later change⟩
  | @act w w' rest i p hstep =>
    obtain ⟨hp, happends⟩ := (hregular i).appends hstep
    have hregular' : ∀ j, (Function.update rest i p j).IsRegular := by
      intro j
      by_cases hj : j = i
      · subst hj
        rwa [Function.update_self]
      · rw [Function.update_of_ne hj]
        exact hregular j
    have hothers : ∀ j, j ≠ i → winner ≠ some j →
        (Function.update rest i p j).Claims id (fun answer _ => Uncommitted answer) w' := by
      intro j hj hwinner
      rw [Function.update_of_ne hj]
      exact (hclaims j hwinner).later happends
    have hlogged' : ∀ j, winner = some j → w'.store.hasEvent id = true :=
      fun j hj => happends.hasEvent hindexed (hlogged j hj)
    refine ⟨happends.indexed hindexed, hregular', ?_⟩
    by_cases hwinner : winner = some i
    · refine ⟨winner, hlogged', fun j hj => hothers j ?_ hj⟩
      rintro rfl
      exact hj hwinner
    rcases (hclaims i hwinner).step hstep with ⟨hnew, hnow⟩ | hleft
    · -- the name was not in the log, so nobody had put it there
      have hnone : ∀ j, winner ≠ some j := by
        intro j hj
        have hold := hlogged j hj
        rw [hnew] at hold
        cases hold
      refine ⟨some i, fun _ _ => hnow, fun j hj => hothers j ?_ (hnone j)⟩
      rintro rfl
      exact hj rfl
    · refine ⟨winner, hlogged', fun j hj => ?_⟩
      by_cases hji : j = i
      · subst hji
        have hupdate : Function.update rest j p j = p := Function.update_self _ _ _
        change (Function.update rest j p j).Claims id _ w'
        rwa [hupdate]
      · exact hothers j hji hj

/-- Of the calls that publish under one name, one at most is answered that its event was
committed. -/
theorem Contested.eq_of_committed (h : Contested id t) {i j : Fin n}
    {report report' : PublishReport}
    (hi : t.rest i = done (.ok (.committed report)))
    (hj : t.rest j = done (.ok (.committed report'))) : i = j := by
  obtain ⟨-, -, winner, -, hclaims⟩ := h
  have hwins : ∀ (k : Fin n) (report : PublishReport),
      t.rest k = done (.ok (.committed report)) → winner = some k := by
    intro k report hk
    by_contra hne
    have hclaim := hclaims k hne
    rw [hk] at hclaim
    exact hclaim t.world (rely_appends.refl _) report rfl
  exact Option.some_inj.mp ((hwins i report hi).symm.trans (hwins j report' hj))

theorem ReachesAmid.contested (h : Contested id t) (hrun : t.ReachesAmid t') : Contested id t' := by
  induction hrun with
  | refl => exact h
  | tail _ hnext ih => exact ih.next hnext

/-- Whatever happens to calls that have the store to themselves may happen to them among others. -/
theorem Reaches.amid (h : t.Reaches t') : t.ReachesAmid t' := by
  induction h with
  | refl => exact .refl
  | tail _ hnext ih =>
    cases hnext with
    | act step => exact ih.tail (.act step)
    | pass => exact ih.tail (.other (rely_appends.refl _))

end Concert

/-! ## Once at most -/

/-- Whatever services and others do from an empty store on, each entry of the log has its place as
its number, no name occurs twice, the index gives the place of each name in the log and of no other,
and the log only ever grows at its end. So events that are published again under names of the log,
however many and with whatever contents, are answered as duplicates and change nothing that is
stored, whatever others do meanwhile; left alone they do get these answers. And of any number of
calls under one name, at any services, at the same time and among others, one at most is answered
that its event was committed. -/
theorem Service.events_recorded_once :
    (∀ (services : List (Service × Instant)) (ids : IdSupply) (f f' : Fleet),
      (∀ m ∈ services, m.1.Fair) → (Fleet.start services ids).ReachesAmid f →
      f.ReachesAmid f' → f.store.Sound ∧ f.store.log <+: f'.store.log) ∧
    (∀ (s : Service) (w : World) (es : List Event), w.store.Sound →
      (∀ e ∈ es, Redelivers w.store e) →
      (∀ n p w', (s.publishEach es).Amid World.Appends w n p w' →
        (∀ answers, p = .done answers → answers = es.map fun e => .ok (.duplicate e.id)) ∧
        ∀ p' w'', p.Step w' p' w'' → w''.store = w'.store) ∧
      ((∀ e ∈ es, ∀ k ∈ e.lockKeys, w.locks.queue k = []) → (s.publishEach es).Ends
        (fun answers w' => (answers = es.map fun e => .ok (.duplicate e.id)) ∧
          w'.store = w.store) w)) ∧
    ∀ (n : ℕ) (s : Fin n → Service) (e : Fin n → Event) (id : EventId) (w : World) (t : Concert n)
      (i j : Fin n) (report report' : PublishReport), w.store.Sound → (∀ i, (s i).Fair) →
      (∀ i, (e i).id = id) → (Concert.startAt s w e).ReachesAmid t →
      t.rest i = .done (.ok (.committed report)) → t.rest j = .done (.ok (.committed report')) →
      i = j := by
  refine ⟨?_, ?_, ?_⟩
  · intro services ids f f' hfair hrun hrun'
    obtain ⟨hholds, -⟩ := hrun.sound (Fleet.holds_sound_start hfair ids)
    obtain ⟨-, hlater⟩ := hrun'.sound hholds
    exact ⟨hholds.shared { World.start ⟨0, 0, by decide, by decide, by decide⟩ f.ids with
      store := f.store } rfl rfl, hlater.log⟩
  · intro s w es hsound hes
    refine ⟨fun n p w' hrun => ?_, fun hfree => ends_publishEach hsound.indexed hes hfree⟩
    have hquiet := Procedure.Keeps.amid World.rely_appends
      (quietly_publishEach (s := s) hsound.indexed hes) hrun
    refine ⟨?_, fun p' w'' hstep => (hquiet.step World.rely_appends hstep).1.2⟩
    rintro answers rfl
    exact hquiet w' (World.rely_appends.refl w')
  · intro n s e id w t i j report report' hsound hfair hid hrun hi hj
    exact (hrun.contested (Concert.contested_start hsound.indexed hfair hid)).eq_of_committed hi hj

/-- A signup is recorded. Its name with another contact is published twice more, and both are
answered as duplicates; of two services that publish under a new name at the same time the first at
the locks has its event committed, and no other has. -/
theorem Service.signup_recorded_once : ∃ (s : Service) (f : Fleet) (w : World) (e e' : Event)
    (t : Concert 2) (report : PublishReport),
    f.store.Sound ∧ f.store.facts = [e] ∧ w.store = f.store ∧ e'.id = e.id ∧ e' ≠ e ∧
    (s.publishEach [e', e']).Ends (fun answers w' =>
      answers = [.ok (.duplicate e.id), .ok (.duplicate e.id)] ∧ w'.store = w.store) w ∧
    t.rest 0 = .done (.ok (.committed report)) ∧
    ∀ j report', t.rest j = .done (.ok (.committed report')) → 0 = j := by
  let now : Instant := ⟨0, 0, by decide, by decide, by decide⟩
  let e : Event := .signup ⟨1⟩ ⟨2⟩ ⟨3⟩ ⟨4⟩ ⟨5⟩ ⟨6⟩ now
  let e' : Event := { e with contact := ⟨15⟩ }
  let s : Service := ⟨.default, []⟩
  let published := (s.serve (.publish e)).goOn (.start now ⟨100⟩)
  let w : World := published.2
  let t₁ : Traffic := ⟨w, [] ++ [⟨.publish e, published.1⟩]⟩
  let f : Fleet := ⟨t₁.world.store, t₁.world.ids, [] ++ (s, t₁) :: []⟩
  have hfair : s.Fair := fun h hmem => by cases hmem
  have hrun : (Fleet.start [(s, now)] ⟨100⟩).Reaches f :=
    Fleet.Reaches.member rfl (Reaches.alone s (.start now ⟨100⟩) [] (.publish e))
  obtain ⟨hlog, hagain, honce⟩ := events_recorded_once
  obtain ⟨hsound, -⟩ := hlog [(s, now)] ⟨100⟩ f f
    (fun m hm => by rw [List.mem_singleton.mp hm]; exact hfair) hrun.amid .refl
  have hredelivers : Redelivers w.store e' := {
    kind := .inl (by decide)
    valid := by decide +kernel
    logged := by
      have hfacts : w.store.facts.map (·.id) = [e.id] := by decide +kernel
      rw [hfacts]
      exact List.mem_singleton.mpr rfl }
  have hfree : ∀ k ∈ e'.lockKeys, w.locks.queue k = [] := by decide +kernel
  have hstore : w.store = f.store := by simp only [f, t₁]
  obtain ⟨-, hends⟩ := hagain s w [e', e'] (hstore ▸ hsound) (by simpa using hredelivers)
  -- two services publish under one name that is not in the log
  let calls : Fin 2 → Event := fun i => { e with id := ⟨16⟩, contact := ⟨i + 20⟩ }
  let t : Concert 2 :=
    (List.replicate 20 (0 : Fin 2)).foldl Concert.advance (.startAt (fun _ => s) w calls)
  have hcontest : (Concert.startAt (fun _ => s) w calls).ReachesAmid t :=
    (Concert.reaches_foldl_advance _ _).amid
  obtain ⟨report, hreport, -⟩ := eq_done_of_committed? (fun _ => true)
    (by decide +kernel : ((t.rest 0).answer?.bind committed?).any (fun _ => true) = true)
  refine ⟨s, f, w, e, e', t, report, hsound, by decide +kernel, hstore, rfl, by decide, ?_, hreport,
    fun j report' hj => ?_⟩
  · exact hends (by simpa using hfree)
  · exact honce 2 (fun _ => s) calls ⟨16⟩ w t 0 j report report' (hstore ▸ hsound) (fun _ => hfair)
      (fun _ => rfl) hcontest hreport hj

end Referral
