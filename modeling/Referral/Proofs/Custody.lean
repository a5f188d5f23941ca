import Referral.Proofs.Permitted

/-!
# The custody of permits

A permit is in the hands of the request that took it until that request gives it back. A procedure
is shown to give back what it holds and nothing else, whatever others do in between, and to hold
nothing when it ends.
-/

namespace Referral

/-- What is in the hands of a request after one of its actions: those permits that are still out,
and those that came out. -/
def Permits.handed (before after : Permits) (held : List PromoterKey) : List PromoterKey :=
  (held.filter fun k => k ∈ after.out) ++ after.out.filter fun k => k ∉ before.out

namespace Permits

variable {before after : Permits} {held rest : List PromoterKey}

theorem mem_handed {k : PromoterKey} : k ∈ before.handed after held ↔
    k ∈ after.out ∧ (k ∈ held ∨ k ∉ before.out) := by
  simp only [handed, List.mem_append, List.mem_filter, decide_eq_true_eq]
  tauto

theorem handed_self (h : ∀ k ∈ held, k ∈ before.out) : before.handed before held = held := by
  have hkept : (held.filter fun k => k ∈ before.out) = held := by
    simpa [List.filter_eq_self] using h
  have hnone : (before.out.filter fun k => k ∉ before.out) = [] := by simp [List.filter_eq_nil_iff]
  rw [handed, hkept, hnone, List.append_nil]

/-- If a request gives back only what it holds, every permit that is out is still in the hands of
one request. -/
theorem handed_append (hnodup : (held ++ rest).Nodup)
    (hout : ∀ k, k ∈ before.out ↔ k ∈ held ++ rest)
    (hback : ∀ k ∈ before.out, k ∉ after.out → k ∈ held) :
    (before.handed after held ++ rest).Nodup ∧
      ∀ k, k ∈ after.out ↔ k ∈ before.handed after held ++ rest := by
  obtain ⟨hheld, hrest, hapart⟩ := List.nodup_append.mp hnodup
  have hbefore : ∀ {k}, k ∈ rest → k ∈ before.out := fun hk =>
    (hout _).mpr (List.mem_append_right _ hk)
  have hstays : ∀ {k}, k ∈ rest → k ∈ after.out := by
    intro k hk
    by_contra hgone
    exact hapart k (hback k (hbefore hk) hgone) k hk rfl
  constructor
  · refine List.nodup_append.mpr ⟨?_, hrest, ?_⟩
    · refine List.nodup_append.mpr ⟨hheld.filter _, after.nodup.filter _, ?_⟩
      rintro k hk _ hnew rfl
      have hk' := (hout k).mpr (List.mem_append_left _ (List.mem_of_mem_filter hk))
      simp [hk'] at hnew
    · rintro k hk _ hother rfl
      obtain ⟨-, hmine | hnew⟩ := mem_handed.mp hk
      · exact hapart k hmine k hother rfl
      · exact hnew (hbefore hother)
  · intro k
    rw [List.mem_append, mem_handed]
    constructor
    · intro hk
      by_cases hold : k ∈ before.out
      · rcases List.mem_append.mp ((hout k).mp hold) with hmine | hother
        · exact .inl ⟨hk, .inl hmine⟩
        · exact .inr hother
      · exact .inl ⟨hk, .inr hold⟩
    · rintro (⟨hk, -⟩ | hother)
      · exact hk
      · exact hstays hother

end Permits

/-! ## Procedures -/

namespace Procedure

/-- Whatever the world, no action changes a part of it, and the answer is one that `Q` allows. -/
def Preserves {β : Type} (part : World → β) : {α : Type} → (α → Prop) → Procedure α → Prop
  | _, Q, done a => Q a
  | _, Q, act action next => ∀ w, action.isReady w = true →
      part (w.perform action).2 = part w ∧ (next (w.perform action).1).Preserves part Q
  | _, _, both _ _ _ => False

/-- Whatever others do, a procedure that holds some permits gives back none but these and those
that it takes, and it ends with permits and an answer that `Q` allows. -/
def Carries : {α : Type} → (List PromoterKey → α → Prop) → List PromoterKey → Procedure α → Prop
  | _, Q, held, done a => Q held a
  | _, Q, held, act action next => ∀ w, action.isReady w = true →
      (∀ k ∈ held, k ∈ w.permits.out) →
      (∀ k ∈ w.permits.out, k ∉ (w.perform action).2.permits.out → k ∈ held) ∧
      (next (w.perform action).1).Carries Q (w.permits.handed (w.perform action).2.permits held)
  | _, _, _, both _ _ _ => False

variable {α β γ : Type} {part : World → γ} {V : β → Prop} {Q : α → Prop}
  {held : List PromoterKey} {H : List PromoterKey → β → Prop} {K : List PromoterKey → α → Prop}
  {f : β → Procedure α}

/-! ### What is left alone -/

theorem Preserves.bind {p : Procedure β} (h : p.Preserves part V)
    (hf : ∀ b, V b → (f b).Preserves part Q) : (p >>= f).Preserves part Q := by
  induction p with
  | done b => exact hf b h
  | act action next ih => exact fun w hready => ⟨(h w hready).1, ih _ (h w hready).2 hf⟩
  | both first second next => exact h.elim

theorem Preserves.weaken {Q' : α → Prop} {p : Procedure α} (h : p.Preserves part Q)
    (hQ : ∀ a, Q a → Q' a) : p.Preserves part Q' := by
  induction p with
  | done a => exact hQ a h
  | act action next ih => exact fun w hready => ⟨(h w hready).1, ih _ (h w hready).2 hQ⟩
  | both first second next => exact h.elim

theorem Preserves.step {p q : Procedure α} {w w' : World} (h : p.Preserves part Q)
    (hstep : p.Step w q w') : part w' = part w ∧ q.Preserves part Q := by
  cases hstep with
  | act hready => exact h w hready
  | first => exact h.elim
  | second => exact h.elim
  | join => exact h.elim

theorem preserves_perform {action : Action β} (h : ∀ w, part (w.perform action).2 = part w) :
    (perform action).Preserves part fun _ => True := fun w _ => ⟨h w, trivial⟩

theorem preserves_sleep (millis : ℕ) : (sleep millis).Preserves part fun _ => True :=
  fun _ _ => ⟨rfl, fun _ _ => ⟨rfl, trivial⟩⟩

theorem preserves_pause : pause.Preserves part fun _ => True :=
  fun _ _ => ⟨rfl, fun _ _ => ⟨rfl, trivial⟩⟩

theorem preserves_lockAll (hpart : ∀ (w : World) locks, part { w with locks } = part w)
    (task : TaskId) (ks : List LockKey) : (lockAll task ks).Preserves part fun _ => True := by
  induction ks with
  | nil => trivial
  | cons k ks ih => exact fun w _ => ⟨hpart w _, fun _ _ => ⟨rfl, ih⟩⟩

/-! ### What is carried -/

theorem Carries.bind {p : Procedure β} (h : p.Carries H held)
    (hf : ∀ held' b, H held' b → (f b).Carries K held') : (p >>= f).Carries K held := by
  induction p generalizing held with
  | done b => exact hf held b h
  | act action next ih =>
    exact fun w hready hheld => ⟨(h w hready hheld).1, ih _ (h w hready hheld).2 hf⟩
  | both first second next => exact h.elim

theorem Carries.step {p q : Procedure α} {w w' : World} (h : p.Carries K held)
    (hheld : ∀ k ∈ held, k ∈ w.permits.out) (hstep : p.Step w q w') :
    (∀ k ∈ w.permits.out, k ∉ w'.permits.out → k ∈ held) ∧
      q.Carries K (w.permits.handed w'.permits held) := by
  cases hstep with
  | act hready => exact h w hready hheld
  | first => exact h.elim
  | second => exact h.elim
  | join => exact h.elim

/-- A procedure that leaves all permits alone, before the rest. -/
theorem Preserves.carries {p : Procedure β} (h : p.Preserves World.permits V)
    (hf : ∀ b, V b → (f b).Carries K held) : (p >>= f).Carries K held := by
  induction p with
  | done b => exact hf b h
  | act action next ih =>
    intro w hready hheld
    obtain ⟨hsame, hnext⟩ := h w hready
    rw [hsame, Permits.handed_self hheld]
    exact ⟨fun k hk hgone => (hgone hk).elim, ih _ hnext hf⟩
  | both first second next => exact h.elim

/-- A procedure that leaves all permits alone, by itself. -/
theorem Preserves.carries_self {p : Procedure α} (h : p.Preserves World.permits Q) :
    p.Carries (fun held' _ => held' = held) held := by
  have hdone : (p >>= done).Carries (fun held' _ => held' = held) held := h.carries fun _ _ => rfl
  rwa [show p >>= done = p from andThen_done p] at hdone

/-- The last action of a use of permits. -/
theorem carries_releasePermits {ks : List PromoterKey} (hks : ∀ k, k ∈ held ↔ k ∈ ks) :
    (perform (.releasePermits ks)).Carries (fun held' _ => held' = []) held := by
  intro w _ _
  refine ⟨fun k hk hgone => ?_, List.eq_nil_iff_forall_not_mem.mpr fun k hk => ?_⟩
  · have hback : ¬(k ∉ ks ∧ k ∈ w.permits.out) := fun h => hgone (Permits.mem_releaseAll.mpr h)
    exact (hks k).mpr (by tauto)
  · obtain ⟨hout, hmine⟩ := Permits.mem_handed.mp hk
    have hstays : k ∉ ks ∧ k ∈ w.permits.out := Permits.mem_releaseAll.mp hout
    have hheld := hks k
    tauto

theorem carries_acquirePermit (k : PromoterKey) :
    (perform (.acquirePermit k)).Carries
      (fun held acquired => held = if acquired then [k] else []) [] := by
  intro w _ _
  simp only [World.perform]
  cases hacquire : w.permits.acquire? k with
  | none => exact ⟨fun j hj hgone => (hgone hj).elim, Permits.handed_self (by simp)⟩
  | some permits =>
    obtain ⟨hout, hfree⟩ := Permits.out_acquire hacquire
    refine ⟨fun j hj hgone => (hgone (hout ▸ List.mem_cons_of_mem _ hj)).elim, ?_⟩
    simp [Carries, Permits.handed, hout, hfree]

theorem Carries.withLocks {body : Procedure α} (h : body.Carries K held) (ks : List LockKey) :
    (withLocks ks body).Carries K held := by
  unfold Procedure.withLocks
  refine Preserves.carries (preserves_perform fun _ => rfl) fun task _ => ?_
  refine Preserves.carries (preserves_lockAll (fun _ _ => rfl) task ks) fun _ _ => ?_
  refine h.bind fun held' a ha => ?_
  exact Preserves.carries (preserves_perform fun _ => rfl) fun _ _ => ha

end Procedure

/-! ## Work on a unit -/

/-- The permits in hand are those of a unit of work. -/
def WorkUnit.Holds (u : WorkUnit) (held : List PromoterKey) : Prop := ∀ k, k ∈ held ↔ k ∈ u.permits

namespace Service

open Procedure Staging

variable {s : Service} {u : WorkUnit} {held : List PromoterKey}

/-- Work on a unit that holds all permits in hand, which it still does afterwards. -/
theorem carries_stage {α : Type} {f : Desk → (α × WorkUnit) × Desk} (hu : u.Holds held)
    (hf : ∀ d : Desk, ∃ staging : Staging, Acquires ⟨u, d.permits, d.ids, d.now⟩ staging ∧
      (f d).1.2 = staging.unit ∧ (f d).2.permits = staging.permits) :
    (perform (.stage f)).Carries (fun held' a => a.2.Holds held') held := by
  intro w _ hheld
  obtain ⟨staging, hacquires, hunit, hpermits⟩ := hf w.desk
  have hout : (w.perform (.stage f)).2.permits = staging.permits := hpermits
  have hanswer : (w.perform (.stage f)).1.2 = staging.unit := hunit
  rw [hout]
  refine ⟨fun k hk hgone => (hgone (hacquires.kept k hk)).elim, fun k => ?_⟩
  have hmem : k ∈ staging.unit.permits ↔
      k ∈ u.permits ∨ k ∈ staging.permits.out ∧ k ∉ w.permits.out := hacquires.mem k
  have hkept : k ∈ w.permits.out → k ∈ staging.permits.out := hacquires.kept k
  have hmine := hheld k
  rw [hanswer, Permits.mem_handed, hmem, ← hu k]
  tauto

theorem carries_dispatch (hbuiltIn : s.extra = []) (hu : u.Holds held) (depth : Depth) (e : Event) :
    (s.dispatch u depth e).Carries (fun held' a => a.2.Holds held') held :=
  carries_stage hu fun d => ⟨_, acquires_dispatchAt hbuiltIn depth e _ d.calls, rfl, rfl⟩

theorem carries_dispatchEach (hbuiltIn : s.extra = []) (hu : u.Holds held) (depth : Depth)
    (es : List Event) :
    (s.dispatchEach depth es u).Carries (fun held' u' => u'.Holds held') held := by
  induction es generalizing u held with
  | nil => exact hu
  | cons e es ih =>
    unfold dispatchEach
    exact (carries_dispatch hbuiltIn hu depth e).bind fun _ _ hu' => ih hu'

theorem carries_finish {α : Type} (hu : u.Holds held) (answer : α) :
    (finish u answer).Carries (fun held' _ => held' = []) held :=
  (carries_releasePermits hu).bind fun _ _ hnone => hnone

/-! ## What takes no permits -/

/-- What a commit leaves alone, its attempts leave alone. -/
theorem preserves_commit_of {β : Type} {part : World → β} (s : Service) {u : WorkUnit}
    (hcommit : ∀ w : World, part (w.perform (.commit u)).2 = part w) :
    (s.commit u).Preserves part fun _ => True := by
  have hretrying : ∀ retries attempt, (commitRetrying s.config.backoff u retries attempt).Preserves
      part fun _ => True := by
    intro retries
    induction retries with
    | zero => exact fun _ => preserves_perform hcommit
    | succ retries ih =>
      intro attempt
      unfold commitRetrying
      refine (preserves_perform hcommit).bind fun answer _ => ?_
      split
      · trivial
      split
      · exact (preserves_sleep _).bind fun _ _ => ih _
      · trivial
  exact hretrying _ _

theorem preserves_commit (s : Service) (u : WorkUnit) :
    (s.commit u).Preserves World.permits fun _ => True := s.preserves_commit_of fun _ => rfl

theorem preserves_startUnit (k : PromoterKey) :
    (startUnit k).Preserves World.permits fun u => u.permits = [] := fun _ _ => ⟨rfl, rfl⟩

theorem preserves_stillFailing (s : Service) (f : Failure) (error : Error) :
    (s.stillFailing f error).Preserves World.permits fun _ => True := by
  unfold stillFailing
  exact (preserves_startUnit _).bind fun _ _ => (s.preserves_commit _).bind fun _ _ => trivial

theorem preserves_resolveOnly (s : Service) (f : Failure) (ts : List Transition) :
    (s.resolveOnly f ts).Preserves World.permits fun _ => True := by
  unfold resolveOnly
  exact (preserves_startUnit _).bind fun _ _ => (s.preserves_commit _).bind fun _ _ => trivial

theorem preserves_sourceEvent (f : Failure) :
    (sourceEvent f).Preserves World.permits fun _ => True := by
  unfold sourceEvent
  split
  · trivial
  · refine Preserves.bind (V := fun _ => True) (preserves_perform fun _ => rfl) fun stored _ => ?_
    cases stored <;> trivial

theorem preserves_bookOfLog (config : Config) {cancelled : Procedure Bool}
    (hcancelled : cancelled.Preserves World.permits fun _ => True) (scope : Scope)
    (watermark : ℕ) :
    (bookOfLog config cancelled scope watermark).Preserves World.permits fun _ => True := by
  have hfold : ∀ batches after book folded, (foldLog cancelled scope config.batchSize.toNat
      watermark batches after book folded).Preserves World.permits fun _ => True := by
    intro batches
    induction batches with
    | zero => exact fun _ _ _ => trivial
    | succ batches ih =>
      intro after book folded
      have hscan : (scan scope after config.batchSize.toNat).Preserves World.permits
          fun _ => True :=
        (preserves_perform fun _ => rfl).bind fun _ _ =>
          (preserves_sleep _).bind fun _ _ => preserves_perform fun _ => rfl
      unfold foldLog
      refine hcancelled.bind fun stop _ => ?_
      split
      · trivial
      refine hscan.bind fun batch _ => ?_
      dsimp only
      split
      · trivial
      split
      · trivial
      split
      · exact preserves_pause.bind fun _ _ => ih _ _ _
      · trivial
  exact hfold _ _ _ _

theorem permits_replaceTotals (w : World) (scope : Scope) (book : Book) (asOf : ℕ) :
    (w.perform (.replaceTotals scope book asOf)).2.permits = w.permits := by
  simp only [World.perform]
  split <;> rfl

theorem preserves_rebuild (config : Config) {cancelled : Procedure Bool}
    (hcancelled : cancelled.Preserves World.permits fun _ => True) (scope : Scope) :
    (rebuild config cancelled scope).Preserves World.permits fun _ => True := by
  unfold rebuild
  refine Preserves.bind (V := fun _ => True) (preserves_perform fun _ => rfl) fun watermark _ => ?_
  refine (preserves_bookOfLog config hcancelled scope watermark).bind fun answer _ => ?_
  split
  · trivial
  refine hcancelled.bind fun stop _ => ?_
  split
  · trivial
  · exact (preserves_perform fun w => permits_replaceTotals w _ _ _).bind fun _ _ => trivial

theorem preserves_verify (config : Config) (scope : Scope) :
    (verify config scope).Preserves World.permits fun _ => True := by
  have hcancelled : (pure false : Procedure Bool).Preserves World.permits fun _ => True := trivial
  unfold verify
  refine Preserves.bind (V := fun _ => True) (preserves_perform fun _ => rfl) fun snapshot _ => ?_
  refine (preserves_bookOfLog config hcancelled scope _).bind fun answer _ => ?_
  split
  · trivial
  dsimp only
  split
  · trivial
  · refine (preserves_perform fun w => permits_replaceTotals w _ _ _).bind fun answer _ => ?_
    split <;> trivial

/-! ## Requests -/

theorem carries_commitDemoting (s : Service) (hu : u.Holds held) :
    (s.commitDemoting u).Carries (fun held' a => a.2.Holds held') held := by
  unfold commitDemoting
  refine (s.preserves_commit u).carries fun answer _ => ?_
  split
  · split
    · exact hu
    · refine (carries_stage hu fun d => ?_).bind fun _ a hu' => ?_
      · obtain ⟨records, ids, hdemoted, -⟩ :=
          demoteTransitions_frame ⟨u, d.permits, d.ids, d.now⟩ _ d.now
        exact ⟨_, .of_eq (congrArg (·.unit.permits) hdemoted) (congrArg (·.permits) hdemoted),
          rfl, rfl⟩
      · exact (s.preserves_commit a.2).carries fun _ _ => hu'
  · exact hu

theorem carries_publish (hbuiltIn : s.extra = []) (e : Event) :
    (s.publish e).Carries (fun held' _ => held' = []) [] := by
  unfold publish
  split
  · exact rfl
  refine Carries.withLocks ?_ _
  unfold record
  refine Preserves.carries (preserves_perform fun _ => rfl) fun known _ => ?_
  split
  · exact rfl
  refine (preserves_startUnit _).carries fun u hu => ?_
  have hnone : u.Holds [] := fun k => by rw [hu]
  refine (carries_dispatch hbuiltIn hnone 0 e).bind fun _ a ha => ?_
  refine (s.carries_commitDemoting ha).bind fun _ a' ha' => ?_
  dsimp only
  split
  · exact carries_finish ha' _
  have hoffer : ∀ (ns : List Notification) (answer : Except Error PublishOutcome),
      (do
        perform (.offer ns)
        finish a'.2 answer : Procedure (Except Error PublishOutcome)).Carries
          (fun held' _ => held' = []) _ :=
    fun _ answer => Preserves.carries (preserves_perform fun _ => rfl) fun _ _ =>
      carries_finish ha' answer
  split
  · exact Preserves.carries (preserves_perform fun _ => rfl) fun _ _ => hoffer _ _
  · exact hoffer _ _

theorem carries_switchCircle (s : Service) (k : PromoterKey) (target : CircleId) :
    (s.switchCircle k target).Carries (fun held' _ => held' = []) [] := by
  unfold switchCircle
  refine (carries_acquirePermit k).bind fun held acquired hheld => ?_
  cases acquired with
  | false => exact hheld
  | true =>
    have hone : held = [k] := hheld
    subst hone
    refine Preserves.carries (preserves_perform fun _ => rfl) fun c _ => ?_
    refine Preserves.carries (preserves_perform fun _ => rfl) fun now _ => ?_
    have hrelease : ∀ answer : Except Error SwitchOutcome, (do
        perform (.releasePermits [k])
        return answer : Procedure (Except Error SwitchOutcome)).Carries
          (fun held' _ => held' = []) [k] :=
      fun answer => (carries_releasePermits fun _ => Iff.rfl).bind fun _ _ hnone => hnone
    split
    · exact hrelease _
    · rename_i t _
      let u : WorkUnit := ((WorkUnit.start c).holdPermit k).stageTransition ⟨t, none, none, 0⟩
      have hu : u.Holds [k] := fun _ => Iff.rfl
      unfold commitSwitch
      refine (s.preserves_commit _).carries fun answer _ => ?_
      split
      · exact carries_finish hu _
      · exact Preserves.carries (preserves_perform fun _ => rfl) fun _ _ => carries_finish hu _
    · exact hrelease _
    · exact hrelease _

theorem carries_settleRetry (hbuiltIn : s.extra = []) (hu : u.Holds held) (f : Failure)
    (result : Except Error (List Event)) :
    (s.settleRetry f result u).Carries (fun held' _ => held' = []) held := by
  unfold settleRetry
  cases result with
  | error error => exact (s.preserves_stillFailing f error).carries fun _ _ => carries_finish hu _
  | ok children =>
    refine (carries_dispatchEach hbuiltIn hu _ children).bind fun _ u' hu' => ?_
    have hresolving : (u'.resolveFailure f.id).Holds _ := hu'
    refine (s.carries_commitDemoting hresolving).bind fun _ a ha => ?_
    dsimp only
    split
    · exact carries_finish ha _
    · exact Preserves.carries (preserves_perform fun _ => rfl) fun _ _ => carries_finish ha _

theorem carries_retryEffect (hbuiltIn : s.extra = []) (f : Failure) :
    (s.retryEffect f).Carries (fun held' _ => held' = []) [] := by
  unfold retryEffect
  split
  · refine (preserves_sourceEvent f).carries fun source _ => ?_
    cases source with
    | error error => exact rfl
    | ok e =>
      refine Carries.withLocks ?_ _
      refine (preserves_startUnit _).carries fun u hu => ?_
      have hnone : u.Holds [] := fun k => by rw [hu]
      refine (carries_stage hnone fun d => ⟨_, ?_, rfl, rfl⟩).bind fun _ a ha =>
        carries_settleRetry hbuiltIn ha f _
      exact (handles_fire _ s.config e f.depth _ _ (fun _ _ => True) trivial).acquires
  · exact rfl

theorem carries_retryHandler (hbuiltIn : s.extra = []) (f : Failure) {name : String}
    (hname : name ≠ aggregatesHandler.name) :
    (s.retryHandler f name).Carries (fun held' _ => held' = []) [] := by
  unfold retryHandler
  split
  · exact rfl
  rename_i position h hfind
  obtain rfl := eq_rulesHandler hbuiltIn hname hfind
  refine (preserves_sourceEvent f).carries fun source _ => ?_
  cases source with
  | error error => exact rfl
  | ok e =>
    refine Carries.withLocks ?_ _
    refine (preserves_startUnit _).carries fun u hu => ?_
    have hnone : u.Holds [] := fun k => by rw [hu]
    refine (carries_stage hnone fun d => ⟨_, ?_, rfl, rfl⟩).bind fun _ a ha =>
      carries_settleRetry hbuiltIn ha f _
    exact (handles_react _ s.config (callsOf position d.calls) ⟨e, f.depth⟩).acquires

theorem carries_retrySwitch (s : Service) (f : Failure) :
    (s.retrySwitch f).Carries (fun held' _ => held' = []) [] := by
  unfold retrySwitch
  split
  · refine (s.carries_switchCircle _ _).bind ?_
    rintro _ answer rfl
    split
    · exact (s.preserves_resolveOnly f _).carries_self
    · exact (s.preserves_resolveOnly f _).carries_self
    · exact (s.preserves_stillFailing f _).carries_self
    · exact (s.preserves_stillFailing f _).carries_self
    · exact rfl
  · exact rfl

theorem carries_retryByRebuild (s : Service) (f : Failure) :
    (s.retryByRebuild f).Carries (fun held' _ => held' = []) [] := by
  have hcancelled : (pure false : Procedure Bool).Preserves World.permits fun _ => True := trivial
  unfold retryByRebuild
  refine (preserves_rebuild s.config hcancelled _).carries fun answer _ => ?_
  split
  · exact (s.preserves_stillFailing f _).carries_self
  · exact (s.preserves_resolveOnly f _).carries_self

theorem carries_retry (hbuiltIn : s.extra = []) (id : FailureId) :
    (s.retry id).Carries (fun held' _ => held' = []) [] := by
  unfold retry
  refine Preserves.carries (preserves_perform fun _ => rfl) fun stored _ => ?_
  split
  · exact rfl
  rename_i f
  split
  · exact rfl
  split
  · exact rfl
  · exact s.carries_retrySwitch f
  · split
    · exact s.carries_retryByRebuild f
    · exact carries_retryHandler hbuiltIn f (by assumption)
  · exact carries_retryEffect hbuiltIn f

/-- A rebuild in the background takes no permit, so it may be given up at any time. -/
theorem preserves_rebuildApart (s : Service) (task : TaskId) (scope : Scope) :
    (s.serve (.rebuildApart task scope)).Preserves World.permits fun _ => True :=
  preserves_rebuild s.config (preserves_perform fun _ => rfl) scope

/-- A request gives back exactly the permits that it took. -/
theorem carries_serve (hbuiltIn : s.extra = []) (r : Request) :
    (s.serve r).Carries (fun held' _ => held' = []) [] := by
  have hsetUp : ∀ {α : Type} {action : Action α},
      (∀ w : World, (w.perform action).2.permits = w.permits) →
      (perform action).Carries (fun held' _ => held' = []) [] :=
    fun h => (preserves_perform h).carries_self
  have hupdate : ∀ (w : World) (store : Except Error Store),
      (w.updateStore store).2.permits = w.permits := fun w store => by cases store <;> rfl
  cases r with
  | putRule r => exact hsetUp fun w => hupdate w _
  | putCircle c => exact hsetUp fun w => hupdate w _
  | assignCircle k circle => exact hsetUp fun w => hupdate w _
  | publish e => exact carries_publish hbuiltIn e
  | retry failure => exact carries_retry hbuiltIn failure
  | switchCircle k target => exact s.carries_switchCircle k target
  | rebuild scope =>
    have hcancelled : (pure false : Procedure Bool).Preserves World.permits fun _ => True := trivial
    exact (preserves_rebuild s.config hcancelled scope).carries_self
  | rebuildApart task scope => exact (s.preserves_rebuildApart task scope).carries_self
  | cancelRebuild task => exact hsetUp fun _ => rfl
  | verify scope => exact (preserves_verify s.config scope).carries_self

end Service

end Referral
