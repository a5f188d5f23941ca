import Referral.Proofs.Amends
import Referral.Proofs.Retrying
import Referral.Proofs.Verification

/-!
# How a retry ends

A retry that has the store to itself fails, finds the record resolved, counts one more attempt, or
resolves the record. What comes of an effect that is applied again, or of a handler that is called
again, is committed in one step with the mark on the record. A switch made by hand and a rebuild
have a step of their own before the mark; after a switch that was taken the mark cannot fail.
-/

namespace Referral

/-! ## Marks on records -/

namespace Failure

/-- The record with one more attempt, counted in 32 bits. -/
def tried (f : Failure) : Failure := { f with attempts := f.attempts + 1 }

/-- The record, marked as resolved. -/
def settled (f : Failure) : Failure := { f with resolved := true }

/-- The event of the log that a record is about. -/
def IsAbout (f : Failure) (store : Store) (e : Event) : Prop :=
  ∃ id stored, f.event = some id ∧ store.event? id = some stored ∧ stored.event = e

end Failure

/-- Where the failures are from whose effect is applied, or whose handler is called, once more. -/
def Origin.IsRedone : Origin → Prop
  | .effect => True
  | .handler name => name ≠ aggregatesHandler.name
  | _ => False

namespace Store

variable {s s' : Store} {u u' : WorkUnit} {id : FailureId} {change : Failure → Failure}
  {receipt : Receipt} {now : Instant}

/-- Nothing differs but one record and that fewer commits may be set to fail. -/
def Marked (id : FailureId) (change : Failure → Failure) (s s' : Store) : Prop :=
  ∃ failing ≤ s.failingCommits, s' = { s with
    failures := modifyFirst (·.id = id) change s.failures
    failingCommits := failing }

theorem Marked.of_spared (h : s.Spared s') : s.Marked id change (s'.changeFailure id change) := by
  obtain ⟨failing, hle, rfl⟩ := h
  exact ⟨failing, hle, rfl⟩

theorem any_of_failure? {f : Failure} (h : s.failure? id = some f) :
    s.failures.any (·.id = id) = true := by
  have hid := List.find?_some h
  exact List.any_eq_true.mpr ⟨f, List.mem_of_find?_eq_some h, hid⟩

/-- A unit of work that only marks records of the store is taken, unless its commit is set to
fail. -/
theorem commit_marks (c : Context) (resolved attempted : List FailureId)
    (hzero : s.failingCommits = 0)
    (hknown : ∀ id ∈ resolved ++ attempted, s.failures.any (·.id = id) = true) (now : Instant) :
    ∃ receipt, s.commit { WorkUnit.start c with resolved, attempted } now = (.ok receipt,
      attempted.foldl (fun s id => s.changeFailure id Failure.tried)
        (resolved.foldl (fun s id => s.changeFailure id Failure.settled) s)) := by
  let u : WorkUnit := { WorkUnit.start c with resolved, attempted }
  have hnone : (resolved ++ attempted).find? (fun id => !s.failures.any (·.id = id)) = none := by
    rw [List.find?_eq_none]
    intro id hid
    simp [hknown id hid]
  have hcheck : s.check u = .ok () := by
    simp only [check, u, WorkUnit.start, List.find?_nil, List.map_nil, staleMove?, hnone]
  have hmerge : s.book.merge u.delta = .ok s.book := rfl
  have hwrite : s.write u s.book now =
      attempted.foldl (fun s id => s.changeFailure id Failure.tried)
        (resolved.foldl (fun s id => s.changeFailure id Failure.settled) s) := by
    simp only [write, u, WorkUnit.start, List.foldl_nil, List.map_nil, List.append_nil]
    rfl
  rcases s.commit_cases u now with ⟨hfailing, -⟩ | ⟨-, error, hcause, -⟩ |
    ⟨-, -, book, hbook, hcommit⟩
  · omega
  · rcases hcause with hrefused | ⟨-, hrefused⟩
    · rw [hcheck] at hrefused
      cases hrefused
    · rw [hmerge] at hrefused
      cases hrefused
  · rw [hmerge] at hbook
    cases hbook
    exact ⟨_, hwrite ▸ hcommit⟩

/-- A commit that resolves one record changes no other that was there, and adds those of its
unit. -/
theorem failures_of_commit (h : s.commit u now = (.ok receipt, s')) (hresolved : u.resolved = [id])
    (hattempted : u.attempted = []) (hknown : s.failures.any (·.id = id) = true) :
    s'.failures = modifyFirst (·.id = id) Failure.settled s.failures ++ u.failures := by
  obtain ⟨-, -, book, -, rfl⟩ := commit_of_ok h
  rw [← modifyFirst_append Failure.settled u.failures hknown]
  simp only [write, hresolved, hattempted, List.foldl_nil, List.foldl_cons, changeFailure]
  rw [foldl_frame failures (by intros; rfl)]
  exact congrArg (fun fs => modifyFirst (·.id = id) Failure.settled (fs ++ u.failures))
    (foldl_frame failures (by intros; rfl) u.events _)

/-- What a store takes of a unit of work: all of it, or, where its moves are refused, all but these
and a record in the place of each. -/
inductive Accepts (s : Store) (u : WorkUnit) : WorkUnit → Prop
  | whole : Accepts s u u
  | demoted {s' : Store} {now : Instant} {promoter : PromoterId} (staging : Staging)
      (spared : s.Spared s') (refused : (s'.commit u now).1 = .error (.switchRejected promoter))
      (hunit : staging.unit = u) :
      Accepts s u (staging.demoteTransitions (.switchRejected promoter) staging.now).unit

/-- The marks are taken as they are. -/
theorem Accepts.marks_eq (h : s.Accepts u u') :
    u'.resolved = u.resolved ∧ u'.attempted = u.attempted := by
  cases h with
  | whole => exact ⟨rfl, rfl⟩
  | demoted staging _ _ hunit =>
    obtain ⟨records, ids, hdemoted, -, -⟩ := staging.demoteTransitions_frame _ _
    rw [hdemoted, ← hunit]
    exact ⟨rfl, rfl⟩

/-- The events are taken as they are. -/
theorem Accepts.events_eq (h : s.Accepts u u') : u'.events = u.events := by
  cases h with
  | whole => rfl
  | demoted staging _ _ hunit =>
    obtain ⟨records, ids, hdemoted, -, -⟩ := staging.demoteTransitions_frame _ _
    rw [hdemoted, ← hunit]

/-- Moves of which each starts where the promoter is are taken. -/
theorem Accepts.eq_of_unbroken (h : s.Accepts u u') {k : PromoterKey}
    (hmovers : ∀ t ∈ u.transitions.map (·.transition), (⟨t.program, t.promoter⟩ : PromoterKey) = k)
    (hunbroken : s.staleMove? [] (u.transitions.map (·.transition)) = none) : u' = u := by
  cases h with
  | whole => rfl
  | @demoted s' now promoter _ hspared hrefused _ =>
    have hcircle : s'.currentCircle k = s.currentCircle k := by
      obtain ⟨failing, -, rfl⟩ := hspared
      rfl
    have hmoves : s'.staleMove? [] (u.transitions.map (·.transition)) = none :=
      (staleMove?_congr hcircle hmovers).trans hunbroken
    exact (commit_ne_switchRejected_of_unbroken hmoves now promoter hrefused).elim

end Store

/-! ## What is done once more -/

/-- No failure record is marked. -/
def WorkUnit.Unmarked (u : WorkUnit) : Prop := u.resolved = [] ∧ u.attempted = []

/-- A handler that leaves the marks on failure records to the service. -/
def Handler.MarksNone (h : Handler) : Prop := Cascade.IsKeptBy (·.unit.Unmarked) h

theorem marksNone_aggregatesHandler : aggregatesHandler.MarksNone := by
  intro calls call s hs
  simp only [aggregatesHandler]
  split <;> exact hs

/-- Rules mark no failure record. -/
theorem Staging.Handles.unmarked {config : Config} {e : Event} {depth : Depth}
    {allowed : RuleId → Effect → Prop} {s s' : Staging} {new : List Event}
    (h : s.Handles config e depth allowed new s') (hs : s.unit.Unmarked) : s'.unit.Unmarked := by
  refine h.keeps' (I := (·.unit.Unmarked)) ?_ hs
  intro s s' new step hs
  cases step with
  | permit hpermit =>
    obtain ⟨held, permits, rfl⟩ := ensurePermit?_frame hpermit
    exact hs
  | _ => exact hs

theorem marksNone_rulesHandler (config : Config) : (rulesHandler config).MarksNone :=
  fun calls call s => (s.handles_react config calls call).unmarked

/-- The handlers that scripts describe mark nothing. -/
theorem Script.marksNone_handler (script : Script) : script.handler.MarksNone := by
  intro calls call s hs
  simp only [handler]
  split
  · rename_i r _
    cases hresponse : r.response <;> exact hs
  · exact hs

namespace Service

open Procedure World

variable {s : Service} {w w' : World} {f : Failure} {id : FailureId} {depth : Depth}
  {es : List Event} {u u' : WorkUnit} {d : Desk}

/-- No handler marks failure records. -/
def MarksNone (s : Service) : Prop := ∀ h ∈ s.extra, h.MarksNone

theorem marksNone_of_builtIn (hbuiltIn : s.extra = []) : s.MarksNone := by
  rw [MarksNone, hbuiltIn]
  exact List.forall_mem_nil _

theorem MarksNone.handlers (hs : s.MarksNone) : ∀ h ∈ s.dispatcher.handlers, h.MarksNone := by
  intro h hmem
  rcases List.mem_cons.mp hmem with rfl | hmem
  · exact marksNone_aggregatesHandler
  rcases List.mem_cons.mp hmem with rfl | hmem
  · exact marksNone_rulesHandler _
  · exact hs h hmem

/-- Events are dispatched on a unit of work one after the other, each with all that follows from it,
while time passes. -/
inductive Dispatches (s : Service) (depth : Depth) : List Event → WorkUnit → Desk → WorkUnit → Prop
  | none {u : WorkUnit} {d : Desk} : Dispatches s depth [] u d u
  | next {e : Event} {es : List Event} {u u' : WorkUnit} {d : Desk} {c : Cascade} (now : Instant)
      (hc : c = s.dispatcher.dispatchAt depth e ⟨u, d.permits, d.ids, now⟩ d.calls)
      (rest : Dispatches s depth es c.staging.unit
        ⟨c.staging.permits, c.staging.ids, c.calls, now⟩ u') :
      Dispatches s depth (e :: es) u d u'

theorem Dispatches.unmarked (hs : s.MarksNone) (h : s.Dispatches depth es u d u')
    (hu : u.Unmarked) : u'.Unmarked := by
  induction h with
  | none => exact hu
  | next now hc rest ih =>
    refine ih ?_
    rw [hc]
    refine s.dispatcher.keeps_dispatchAt (P := (·.unit.Unmarked)) (fun _ _ h => h) hs.handlers ?_
      _ _ _ _ hu
    intro s e unit hunit hs
    unfold WorkUnit.stageEvent? at hunit
    split at hunit
    · cases hunit
    · cases hunit
      exact hs

/-- An event that belongs to another is dispatched, with all that follows from it. -/
theorem belongs_dispatchAt (hbuiltIn : s.extra = []) {store : Store} {root e : Event} {first : ℕ}
    {staging : Staging} {rest : List Event} (h : staging.Belongs store root first (e :: rest))
    (depth : Depth) (calls : List CallRecord) :
    (s.dispatcher.dispatchAt depth e staging calls).staging.Belongs store root first rest := by
  let I : Cascade → List Event → Prop := fun c queue =>
    c.staging.Belongs store root first (queue ++ rest)
  have hevent : ∀ c depth e queue, I c (e :: queue) →
      I (Cascade.handleEvent s.dispatcher depth c e).1
        (queue ++ (Cascade.handleEvent s.dispatcher depth c e).2) := by
    intro c depth e queue hc
    have htaken : Staging.Belongs store root first _ (queue ++ rest ++ _) :=
      hc.takes (Cascade.takes_handleEvent hbuiltIn c depth e)
    refine htaken.weaken (le_refl _) fun g hg => ?_
    simp only [List.mem_append] at hg ⊢
    tauto
  have hstart : I ⟨staging, calls, .start⟩ [e] := h
  obtain ⟨left, hleft⟩ := Dispatcher.dispatchAt_keeps (hevent _ depth e [] hstart) hevent
  refine hleft.weaken (le_refl _) fun g hg => ?_
  simp only [List.mem_append] at hg ⊢
  tauto

/-- So are several, one after the other. -/
theorem Dispatches.belongs (hbuiltIn : s.extra = []) {store : Store} {root : Event} {first : ℕ}
    (h : s.Dispatches depth es u d u')
    (hu : Staging.Belongs store root first ⟨u, d.permits, d.ids, d.now⟩ es) :
    ∃ d' : Desk, Staging.Belongs store root first ⟨u', d'.permits, d'.ids, d'.now⟩ [] := by
  induction h with
  | @none _ d => exact ⟨d, hu⟩
  | @next e es u _ d c now hc rest ih =>
    have hlater : Staging.Belongs store root first ⟨u, d.permits, d.ids, now⟩ (e :: es) :=
      { hu with }
    have hfirst := belongs_dispatchAt hbuiltIn hlater depth d.calls
    rw [← hc] at hfirst
    exact ih { hfirst with }

/-- A fresh unit of work for the promoter of an event, with permits and identifiers at hand. -/
def stagingFor (w : World) (e : Event) (now : Instant) : Staging :=
  ⟨.start (w.store.context e.promoterKey), w.permits, w.ids, now⟩

/-- What a failure leads to when its effect is applied or its handler is called once more: what that
stages, and all that follows from it. -/
inductive Redoes (s : Service) (w : World) (f : Failure) : WorkUnit → Prop
  | effect {effect : Effect} {rule : RuleId} {e : Event} {now : Instant} {emitted : Option Event}
      {staging : Staging} {u : WorkUnit} (origin : f.origin = .effect)
      (heffect : f.effect = some effect) (hrule : f.rule = some rule) (about : f.IsAbout w.store e)
      (fired : (stagingFor w e now).fire s.config e rule effect f.depth = (.ok emitted, staging))
      (dispatched : s.Dispatches f.depth.next emitted.toList staging.unit
        ⟨staging.permits, staging.ids, w.calls, now⟩ u) : Redoes s w f u
  | handler {name : String} {position : ℕ} {h : Handler} {e : Event} {now : Instant}
      {children : List Event} {staging : Staging} {u : WorkUnit} (origin : f.origin = .handler name)
      (other : name ≠ aggregatesHandler.name)
      (found : s.dispatcher.find? name = some (position, h)) (about : f.IsAbout w.store e)
      (reacted : h.react (callsOf position w.calls) ⟨e, f.depth⟩ (stagingFor w e now) =
        (.ok children, staging))
      (dispatched : s.Dispatches f.depth.next children staging.unit
        ⟨staging.permits, staging.ids, w.calls ++ [⟨position, ⟨e, f.depth⟩⟩], now⟩ u) :
      Redoes s w f u

theorem Redoes.unmarked (hs : s.MarksNone) (h : s.Redoes w f u) : u.Unmarked := by
  cases h with
  | @effect effect rule e now emitted staging _ _ _ _ _ hfired hdispatched =>
    refine hdispatched.unmarked hs ?_
    have hhandles := (stagingFor w e now).handles_fire s.config e f.depth rule effect
      (fun _ _ => True) trivial
    rw [hfired] at hhandles
    exact hhandles.unmarked ⟨rfl, rfl⟩
  | @handler name position h e now children staging _ _ _ hfound _ hreacted hdispatched =>
    refine hdispatched.unmarked hs ?_
    have hkept := hs.handlers h (Dispatcher.mem_of_find? hfound).1 (callsOf position w.calls)
      ⟨e, f.depth⟩ (stagingFor w e now) ⟨rfl, rfl⟩
    rwa [hreacted] at hkept

/-- With the built-in handlers alone, the moves that a failure leads to start where the promoter
is. -/
theorem Redoes.unbroken (hbuiltIn : s.extra = []) (h : s.Redoes w f u) :
    w.store.staleMove? [] (u.transitions.map (·.transition)) = none ∧
    ∃ k, ∀ t ∈ u.transitions.map (·.transition), (⟨t.program, t.promoter⟩ : PromoterKey) = k := by
  have hstart : ∀ (e : Event) (now : Instant),
      (stagingFor w e now).Belongs w.store e w.ids.next [] := fun e now =>
    (Staging.Belongs.start w.store e w.permits w.ids now).weaken (le_refl _) fun _ hg =>
      List.mem_append_left _ (by rwa [List.append_nil] at hg)
  have hend : ∀ {e : Event} {now : Instant} {config : Config} {depth : Depth}
      {allowed : RuleId → Effect → Prop} {children : List Event} {staging : Staging}
      {calls : List CallRecord},
      (stagingFor w e now).Handles config e depth allowed children staging →
      s.Dispatches f.depth.next children staging.unit ⟨staging.permits, staging.ids, calls, now⟩ u →
      w.store.staleMove? [] (u.transitions.map (·.transition)) = none ∧ ∃ k,
        ∀ t ∈ u.transitions.map (·.transition), (⟨t.program, t.promoter⟩ : PromoterKey) = k := by
    intro e now _ _ _ children staging calls hhandles hdispatched
    have hbelongs := hhandles.keeps (Staging.Belongs.does rfl) [] (hstart e now)
    obtain ⟨d, hlast⟩ := hdispatched.belongs hbuiltIn { hbelongs with }
    exact ⟨hlast.unbroken, _, hlast.movers⟩
  cases h with
  | @effect effect rule e now emitted staging _ _ _ _ _ hfired hdispatched =>
    have hhandles := (stagingFor w e now).handles_fire s.config e f.depth rule effect
      (fun _ _ => True) trivial
    rw [hfired] at hhandles
    exact hend hhandles hdispatched
  | @handler name position h e now children staging _ _ hother hfound _ hreacted hdispatched =>
    obtain rfl := eq_rulesHandler hbuiltIn hother hfound
    have hhandles := (stagingFor w e now).handles_react s.config (callsOf position w.calls)
      ⟨e, f.depth⟩
    rw [hreacted] at hhandles
    exact hend hhandles hdispatched

/-! ## What a retry leaves -/

/-- All that a failure leads to when it is done once more is committed in one step, with the mark on
its record. The answer names what was committed. With the built-in handlers alone nothing of it is
refused. -/
inductive AppliesAtOnce (s : Service) (w : World) (f : Failure) :
    List Commission → List Transition → Store → Prop
  | applies {u u' : WorkUnit} {after : Store} {receipt : Receipt} (redone : s.Redoes w f u)
      (accepted : w.store.Accepts (u.resolveFailure f.id) u')
      (whole : s.extra = [] → u' = u.resolveFailure f.id)
      (committed : w.store.Answers u' (.ok receipt) after) :
      AppliesAtOnce s w f u'.commissions (u'.transitions.map (·.transition)) after

/-- What a retry leaves of the store, according to its answer. If it fails, only totals may have
changed, and only where it was to rebuild them. If it fails again, the record has one more attempt.
If it resolves the record, that changes no other record that was there. -/
def Leaves (s : Service) (w : World) (id : FailureId) (after : Store) : RetryAnswer → Prop
  | .error _ => ∃ book, ({ w.store with book }).Spared after ∧ (book ≠ w.store.book →
      ∃ f, w.store.failure? id = some f ∧ f.origin = .handler aggregatesHandler.name)
  | .ok .alreadyResolved =>
    after = w.store ∧ ∃ f, w.store.failure? id = some f ∧ f.resolved = true
  | .ok (.stillFailing _) => w.store.Marked id Failure.tried after ∧
      ∃ f, w.store.failure? id = some f ∧ f.resolved = false
  | .ok (.resolved cs ts) => ∃ f, w.store.failure? id = some f ∧ f.resolved = false ∧
      (∃ new, after.failures = modifyFirst (·.id = id) Failure.settled w.store.failures ++ new) ∧
      (f.origin.IsRedone → s.AppliesAtOnce w f cs ts after)

/-! ## The parts of a retry -/

section Parts

variable {store : Store} {change : Failure → Failure} {outcome : RetryOutcome} {α : Type}

theorem leaves_error (h : w.store.Spared w'.store) (error : Error) :
    s.Leaves w id w'.store (.error error) :=
  ⟨w.store.book, h, fun hne => (hne rfl).elim⟩

theorem ends_error (h : w.store.Spared w'.store) (error : Error) :
    (pure (.error error) : Procedure RetryAnswer).Ends
      (fun answer w' => s.Leaves w id w'.store answer) w' :=
  ends_pure (R := fun answer after => s.Leaves w id after answer) (leaves_error h error)

/-- How a commit that only changes one record ends. -/
inductive MarkEnds (store : Store) (id : FailureId) (change : Failure → Failure)
    (outcome : RetryOutcome) : RetryAnswer → Store → Prop
  | failed {error : Error} {after : Store} (injected : 0 < store.failingCommits)
      (spared : store.Spared after) : MarkEnds store id change outcome (.error error) after
  | marked {after : Store} (h : store.Marked id change after) :
      MarkEnds store id change outcome (.ok outcome) after

theorem ends_mark (k : PromoterKey) (mark : WorkUnit → WorkUnit)
    (hmark : ∀ c mid now, store.Spared mid → mid.failingCommits = 0 →
      ∃ receipt, mid.commit (mark (.start c)) now = (.ok receipt, mid.changeFailure id change))
    (hw : store.Spared w.store) : (do
      let u ← startUnit k
      let answer ← s.commit (mark u)
      return answer.map fun _ => outcome : Procedure RetryAnswer).Ends
        (fun answer w' => MarkEnds store id change outcome answer w'.store) w := by
  refine (ends_startUnit k).bind ?_
  rintro _ w₁ ⟨rfl, h₁⟩
  refine (ends_commitRetrying_spared _ _ _ (h₁.store_eq ▸ hw)).bind ?_
  rintro answer w₂ ⟨mid, now, hmid, h₂⟩
  refine ends_pure (R := fun answer after => MarkEnds store id change outcome answer after) ?_
  by_cases hzero : mid.failingCommits = 0
  · obtain ⟨receipt, hcommit⟩ := hmark (w.store.context k) mid now hmid hzero
    obtain ⟨rfl, hstore⟩ := Prod.mk.inj (hcommit.symm.trans h₂)
    rw [← hstore]
    exact .marked (.of_spared hmid)
  · have hinjected : 0 < store.failingCommits := by
      obtain ⟨failing, hle, rfl⟩ := hmid
      exact (Nat.pos_of_ne_zero hzero).trans_le hle
    cases answer with
    | ok receipt => exact absurd (Store.commit_of_ok h₂).1 hzero
    | error error => exact .failed hinjected (hmid.refuse h₂)

theorem ends_stillFailing (hrecord : w.store.failure? f.id = some f) (hopen : f.resolved = false)
    (error : Error) {w₁ : World} (hw : w.store.Spared w₁.store) : (s.stillFailing f error).Ends
      (fun answer w' => s.Leaves w f.id w'.store answer) w₁ := by
  have hknown := Store.any_of_failure? hrecord
  have hmark : ∀ c mid now, w.store.Spared mid → mid.failingCommits = 0 → ∃ receipt,
      mid.commit ((WorkUnit.start c).recordAttempt f.id) now =
        (.ok receipt, mid.changeFailure f.id Failure.tried) := by
    rintro c _ now ⟨failing, -, rfl⟩ hzero
    exact Store.commit_marks c [] [f.id] hzero (by simpa using hknown) now
  refine (ends_mark ⟨f.program, f.promoter⟩ (·.recordAttempt f.id) hmark hw).weaken ?_
  rintro answer w₂ h₂
  cases h₂ with
  | failed _ hsame => exact leaves_error hsame _
  | marked hmarked => exact ⟨hmarked, f, hrecord, hopen⟩

theorem ends_resolveOnly (hknown : store.failures.any (·.id = f.id) = true) (ts : List Transition)
    (hw : store.Spared w.store) : (s.resolveOnly f ts).Ends (fun answer w' =>
      MarkEnds store f.id Failure.settled (.resolved [] ts) answer w'.store) w := by
  refine ends_mark _ (·.resolveFailure f.id) ?_ hw
  rintro c _ now ⟨failing, -, rfl⟩ hzero
  exact Store.commit_marks c [f.id] [] hzero (by simpa using hknown) now

/-- However often it is tried, a commit whose moves may be refused comes out as the store answers to
what it takes of the unit. -/
theorem ends_commitDemoting_spared (hw : store.Spared w.store) : (s.commitDemoting u).Ends
    (fun a w' => store.Accepts u a.2 ∧ store.Answers a.2 a.1 w'.store) w := by
  have hpure : ∀ {answer : Except Error Receipt} {u' : WorkUnit} {w' : World}, store.Accepts u u' →
      store.Answers u' answer w'.store → (pure (answer, u') : Procedure _).Ends
        (fun a w' => store.Accepts u a.2 ∧ store.Answers a.2 a.1 w'.store) w' :=
    fun hu' h => ends_pure (R := fun (a : Except Error Receipt × WorkUnit) after =>
      store.Accepts u a.2 ∧ store.Answers a.2 a.1 after) ⟨hu', h⟩
  have hcommit : ∀ {u' : WorkUnit} {w₁ : World}, store.Spared w₁.store →
      (s.commit u').Ends (fun answer w' => store.Answers u' answer w'.store) w₁ :=
    fun h => ends_commitRetrying_spared _ _ _ h
  unfold commitDemoting
  refine (hcommit hw).bind ?_
  rintro answer w₁ ⟨mid, now, hmid, h₁⟩
  split
  · rename_i promoter
    split
    · exact hpure .whole ⟨mid, now, hmid, h₁⟩
    have hrefused : (mid.commit u now).1 = .error (.switchRejected promoter) := by rw [h₁]
    have hspared : store.Spared w₁.store := hmid.refuse h₁
    intro w₂ h₂
    refine ⟨⟨w₂, .refl w₂, rfl⟩, fun _ => ?_⟩
    refine (hcommit (h₂.store_eq ▸ hspared)).bind fun answer w₃ h₃ => ?_
    exact hpure (.demoted ⟨u, _, _, _⟩ hmid hrefused rfl) h₃
  · exact hpure .whole ⟨mid, now, hmid, h₁⟩

/-! ### Doing it once more -/

/-- The permits, the identifiers and the calls of a world are those of a desk. -/
structure Supplies (w : World) (d : Desk) : Prop where
  permits : w.permits = d.permits
  ids : w.ids = d.ids
  calls : w.calls = d.calls

/-- Work on a unit is done at some time, with what is at hand. -/
theorem ends_stage (f : Desk → α × Desk) (hw : Supplies w d) : (perform (.stage f)).Ends
    (fun a w' => ∃ now, a = (f { d with now }).1 ∧ Supplies w' (f { d with now }).2 ∧
      w'.store = w.store) w := by
  refine ends_perform (fun _ _ => rfl) fun w₁ w₂ h₁ h₂ => ⟨w₁.now, ?_⟩
  have hdesk : w₁.desk = { d with now := w₁.now } := by
    cases h₁
    rw [desk, hw.permits, hw.ids, hw.calls]
  rw [← hdesk]
  cases h₁
  cases h₂
  exact ⟨rfl, ⟨rfl, rfl, rfl⟩, rfl⟩

theorem ends_dispatchEach (s : Service) (depth : Depth) (es : List Event) (u : WorkUnit)
    (hw : Supplies w d) : (s.dispatchEach depth es u).Ends
      (fun u' w' => s.Dispatches depth es u d u' ∧ w'.store = w.store) w := by
  induction es generalizing u d w with
  | nil => exact fun w' hw' => ⟨.none, hw'.store_eq⟩
  | cons e es ih =>
    unfold dispatchEach
    refine (ends_stage _ hw).bind ?_
    rintro _ w₁ ⟨now, rfl, h₁, hstore⟩
    refine (ih _ h₁).weaken ?_
    rintro u' w₂ ⟨hrest, h₂⟩
    exact ⟨.next now rfl hrest, h₂.trans hstore⟩

/-- A commit of all that a failure leads to resolves its record. -/
theorem leaves_resolved (hs : s.MarksNone) (hrecord : w.store.failure? f.id = some f)
    (hopen : f.resolved = false) (hredone : s.Redoes w f u) {after : Store} {receipt : Receipt}
    (haccepts : w.store.Accepts (u.resolveFailure f.id) u')
    (hanswers : w.store.Answers u' (.ok receipt) after) : s.Leaves w f.id after
      (.ok (.resolved u'.commissions (u'.transitions.map (·.transition)))) := by
  obtain ⟨mid, now, hmid, hcommit⟩ := hanswers
  obtain ⟨hresolved, hattempted⟩ := hredone.unmarked hs
  obtain ⟨hresolved', hattempted'⟩ := haccepts.marks_eq
  have hone : u'.resolved = [f.id] := by
    rw [hresolved', WorkUnit.resolveFailure, hresolved, List.nil_append]
  have hfailures : mid.failures = w.store.failures := by
    obtain ⟨failing, -, rfl⟩ := hmid
    rfl
  have hknown : mid.failures.any (·.id = f.id) = true :=
    hfailures ▸ Store.any_of_failure? hrecord
  refine ⟨f, hrecord, hopen, ⟨u'.failures, ?_⟩,
    fun _ => .applies hredone haccepts ?_ ⟨mid, now, hmid, hcommit⟩⟩
  · rw [← hfailures]
    exact Store.failures_of_commit hcommit hone (hattempted'.trans hattempted) hknown
  · intro hbuiltIn
    obtain ⟨hunbroken, k, hmovers⟩ := hredone.unbroken hbuiltIn
    exact haccepts.eq_of_unbroken hmovers hunbroken

/-- What the result of doing a failure once more leaves, if all that it leads to is known. -/
theorem ends_settleRetry (hs : s.MarksNone) (hrecord : w.store.failure? f.id = some f)
    (hopen : f.resolved = false) (u : WorkUnit) (result : Except Error (List Event)) {w₁ : World}
    (hw : w₁.store = w.store) (hd : Supplies w₁ d)
    (hredoes : ∀ children, result = .ok children → ∀ u',
      s.Dispatches f.depth.next children u d u' → s.Redoes w f u') :
    (s.settleRetry f result u).Ends (fun answer w' => s.Leaves w f.id w'.store answer) w₁ := by
  have hspared : w.store.Spared w₁.store := hw ▸ .refl _
  have hfinish : ∀ {u : WorkUnit} {answer : RetryAnswer} {w₂ : World},
      s.Leaves w f.id w₂.store answer →
      (finish u answer).Ends (fun answer w' => s.Leaves w f.id w'.store answer) w₂ :=
    fun h => ends_finish (R := fun answer after => s.Leaves w f.id after answer) h
  unfold settleRetry
  cases result with
  | error error =>
    exact (ends_stillFailing hrecord hopen error hspared).bind fun answer w₂ h₂ => hfinish h₂
  | ok children =>
    refine (s.ends_dispatchEach f.depth.next children u hd).bind ?_
    rintro u' w₂ ⟨hdispatched, h₂⟩
    have hredone := hredoes children rfl u' hdispatched
    refine (ends_commitDemoting_spared (h₂ ▸ hspared)).bind ?_
    rintro ⟨answer, accepted⟩ w₃ ⟨haccepts, hanswers⟩
    cases answer with
    | error error =>
      obtain ⟨mid, now, hmid, h₃⟩ := hanswers
      exact hfinish (leaves_error (hmid.refuse h₃) error)
    | ok receipt =>
      have hoffer : (perform (.offer accepted.notifications)).Ends
          (fun _ w' => w'.store = w₃.store) w₃ := ends_still (fun _ => rfl) fun _ => rfl
      refine hoffer.bind fun _ w₄ h₄ => hfinish ?_
      rw [h₄]
      exact leaves_resolved hs hrecord hopen hredone haccepts hanswers

theorem ends_sourceEvent (f : Failure) : (sourceEvent f).Ends
    (fun answer w' => w.Passes w' ∧ ∀ e, answer = .ok e → f.IsAbout w.store e) w := by
  have hfail : ∀ (error : Error) {w₁ : World}, w.Passes w₁ →
      (pure (.error error) : Procedure (Except Error Event)).Ends
        (fun answer w' => w.Passes w' ∧ ∀ e, answer = .ok e → f.IsAbout w.store e) w₁ := by
    refine fun error w₁ h₁ w₂ h₂ => ⟨h₁.trans h₂, fun e h => ?_⟩
    cases h
  unfold sourceEvent
  cases hevent : f.event with
  | none => exact hfail _ (.refl _)
  | some id =>
    refine (ends_read _).bind ?_
    rintro (_ | stored) w₁ ⟨hstored, hpassed⟩
    · exact hfail _ hpassed
    · intro w₂ h₂
      refine ⟨hpassed.trans h₂, fun e he => ⟨id, stored, hevent, hstored.symm, ?_⟩⟩
      exact Except.ok.inj he

/-- Something is done once more, on a unit of work of its own, while the locks of the event are
held. -/
theorem ends_redo {β : Type} (hs : s.MarksNone) (hfree : ∀ k, w.locks.queue k = [])
    (hrecord : w.store.failure? f.id = some f) (hopen : f.resolved = false) (e : Event)
    (act : WorkUnit → Desk → (β × WorkUnit) × Desk) (result : β → Except Error (List Event))
    {w₁ : World} (hpassed : w.Passes w₁)
    (hredoes : ∀ now answer u d children u',
      act (.start (w.store.context e.promoterKey)) ⟨w.permits, w.ids, w.calls, now⟩ =
        ((answer, u), d) →
      result answer = .ok children → s.Dispatches f.depth.next children u d u' →
        s.Redoes w f u') :
    (withLocks e.lockKeys (do
      let u ← startUnit e.promoterKey
      let (answer, u) ← perform (.stage (act u))
      s.settleRetry f (result answer) u)).Ends
        (fun answer w' => s.Leaves w f.id w'.store answer) w₁ := by
  refine ends_withLocks (R := fun answer after => s.Leaves w f.id after answer) (nodup_sortedKeys _)
    (fun k _ => hpassed.locks_eq ▸ hfree k) fun w₂ h₂ => ?_
  refine (ends_startUnit e.promoterKey).bind ?_
  rintro _ w₃ ⟨rfl, h₃⟩
  have haside : w.Aside w₃ := (hpassed.aside.trans h₂).trans h₃.aside
  have hcontext : w₂.store = w.store := h₂.store_eq.trans hpassed.store_eq
  have hsupplies : Supplies w₃ ⟨w.permits, w.ids, w.calls, w.now⟩ := by
    cases haside
    exact ⟨rfl, rfl, rfl⟩
  rw [hcontext]
  refine (ends_stage _ hsupplies).bind ?_
  rintro _ w₄ ⟨now, rfl, h₄, hstore⟩
  exact ends_settleRetry hs hrecord hopen _ _ (hstore.trans haside.store_eq) h₄
    fun children hchildren u' => hredoes now _ _ _ children u' rfl hchildren

theorem ends_retryEffect (hs : s.MarksNone) (hfree : ∀ k, w.locks.queue k = [])
    (hrecord : w.store.failure? f.id = some f) (hopen : f.resolved = false)
    (horigin : f.origin = .effect) : (s.retryEffect f).Ends
      (fun answer w' => s.Leaves w f.id w'.store answer) w := by
  unfold retryEffect
  split
  · rename_i effect rule heffect hrule
    refine (ends_sourceEvent f).bind ?_
    rintro (error | e) w₁ ⟨hpassed, habout⟩
    · exact ends_error (hpassed.store_eq ▸ .refl _) error
    refine ends_redo hs hfree hrecord hopen e _ (fun fired : Except Refusal (Option Event) =>
      (fired.mapError Refusal.toError).map Option.toList) hpassed ?_
    rintro now fired _ _ children u' hact hchildren hdispatched
    obtain ⟨hfirst, rfl⟩ := Prod.mk.inj hact
    obtain ⟨hfired, rfl⟩ := Prod.mk.inj hfirst
    cases fired with
    | error refusal => cases hchildren
    | ok emitted =>
      obtain rfl := Except.ok.inj hchildren
      exact .effect horigin heffect hrule (habout e rfl) (Prod.ext hfired rfl) hdispatched
  · exact ends_error (.refl _) _

theorem ends_retryHandler (hs : s.MarksNone) (hfree : ∀ k, w.locks.queue k = [])
    (hrecord : w.store.failure? f.id = some f) (hopen : f.resolved = false) {name : String}
    (horigin : f.origin = .handler name) (hother : name ≠ aggregatesHandler.name) :
    (s.retryHandler f name).Ends (fun answer w' => s.Leaves w f.id w'.store answer) w := by
  unfold retryHandler
  split
  · exact ends_error (.refl _) _
  · rename_i position h hfound
    refine (ends_sourceEvent f).bind ?_
    rintro (error | e) w₁ ⟨hpassed, habout⟩
    · exact ends_error (hpassed.store_eq ▸ .refl _) error
    refine ends_redo hs hfree hrecord hopen e _ (fun answer => answer) hpassed ?_
    rintro now _ _ _ children u' hact hchildren hdispatched
    obtain ⟨hfirst, rfl⟩ := Prod.mk.inj hact
    obtain ⟨rfl, rfl⟩ := Prod.mk.inj hfirst
    exact .handler horigin hother hfound (habout e rfl) (Prod.ext hchildren rfl) hdispatched

/-! ### Rebuilds and switches by hand -/

/-- A mark that comes in a step of its own. -/
theorem leaves_marked (hrecord : w.store.failure? f.id = some f) (hopen : f.resolved = false)
    (hnot : ¬ f.origin.IsRedone) (ts : List Transition) {after : Store}
    (hfailures : store.failures = w.store.failures)
    (hmarked : store.Marked f.id Failure.settled after) :
    s.Leaves w f.id after (.ok (.resolved [] ts)) := by
  obtain ⟨failing, -, rfl⟩ := hmarked
  refine ⟨f, hrecord, hopen, ⟨[], ?_⟩, fun h => (hnot h).elim⟩
  rw [← hfailures, List.append_nil]

/-- A rebuild fails and leaves the store as it was, or it changes nothing but totals. -/
theorem ends_rebuildNow (config : Config) (scope : Scope) : (rebuildNow config scope).Ends
    (fun answer w' => ((∃ error, answer = .error error) ∧ w'.store = w.store) ∨
      (∃ report, answer = .ok report) ∧ ∃ book, w'.store = { w.store with book }) w := by
  change (rebuild config (pure false) scope).Ends _ w
  rw [rebuild_eq]
  refine (ends_read _).bind fun watermark w₁ h₁ => ?_
  have hfold := ends_foldLog (.inl rfl) scope config.batchSize.toNat watermark (watermark + 1) 0 ∅ 0
    h₁.2.store_eq
  refine hfold.bind fun answer w₂ h₂ => ?_
  cases answer with
  | error error => exact fun w₃ h₃ => .inl ⟨⟨error, rfl⟩, h₃.store_eq.trans h₂⟩
  | ok a =>
    intro w₃ h₃
    refine ⟨⟨w₃, .refl w₃, rfl⟩, fun _ => ?_⟩
    have hstore : w₃.store = w.store := h₃.store_eq.trans h₂
    cases hswap : w₃.store.replaceTotals scope a.1 watermark with
    | error error =>
      simp only [World.perform, hswap]
      exact fun w₄ h₄ => .inl ⟨⟨error, rfl⟩, h₄.store_eq.trans hstore⟩
    | ok swap =>
      obtain ⟨book, -, -, hbook⟩ := Store.replaceTotals_eq_ok.mp hswap
      simp only [World.perform, hswap]
      refine fun w₄ h₄ => .inr ⟨⟨_, rfl⟩, w.store.book.replaceScope scope book, ?_⟩
      rw [h₄.store_eq, hbook, hstore]

/-- A rebuild in place of a handler that keeps the totals. -/
theorem ends_retryByRebuild (hrecord : w.store.failure? f.id = some f) (hopen : f.resolved = false)
    (horigin : f.origin = .handler aggregatesHandler.name) : (s.retryByRebuild f).Ends
      (fun answer w' => s.Leaves w f.id w'.store answer) w := by
  have hnot : ¬ f.origin.IsRedone := fun h => by
    rw [horigin] at h
    exact h rfl
  unfold retryByRebuild
  refine (ends_rebuildNow s.config _).bind ?_
  rintro (error | report) w₁ (⟨⟨_, hanswer⟩, h₁⟩ | ⟨⟨_, hanswer⟩, book, h₁⟩)
  · exact ends_stillFailing hrecord hopen error (h₁ ▸ .refl _)
  · cases hanswer
  · cases hanswer
  · let rebuilt : Store := { w.store with book }
    have hsame : w₁.store = rebuilt := h₁
    have hknown : rebuilt.failures.any (·.id = f.id) = true := Store.any_of_failure? hrecord
    refine (ends_resolveOnly hknown [] (hsame ▸ .refl rebuilt)).weaken ?_
    rintro answer w₂ h₂
    cases h₂ with
    | failed _ hspared => exact ⟨book, hspared, fun _ => ⟨f, hrecord, horigin⟩⟩
    | marked hmarked =>
      have hfailures : rebuilt.failures = w.store.failures := rfl
      exact leaves_marked hrecord hopen hnot [] hfailures hmarked

/-- What a switch made by hand leaves, according to its answer. -/
def SwitchLeaves (store after : Store) : Except Error SwitchOutcome → Prop
  | .error _ => store.Spared after
  | .ok (.stayed _) => after = store
  | .ok (.switched _) => after.failures = store.failures ∧ after.failingCommits = 0

theorem ends_switchCircle (k : PromoterKey) (target : CircleId) : (s.switchCircle k target).Ends
    (fun answer w' => SwitchLeaves w.store w'.store answer) w := by
  have hacquire : (perform (.acquirePermit k)).Ends (fun _ w' => w'.store = w.store) w :=
    ends_still (fun _ => rfl) fun w' => by
      simp only [World.perform]
      split <;> rfl
  unfold switchCircle
  refine hacquire.bind fun acquired w₁ h₁ => ?_
  split
  · exact fun w₂ h₂ => (h₂.store_eq.trans h₁) ▸ Store.Spared.refl _
  refine (ends_read _).bind fun c w₂ h₂ => ?_
  have hclock : (perform .now).Ends (fun _ w' => w'.store = w₂.store) w₂ :=
    ends_still (fun _ => rfl) fun _ => rfl
  refine hclock.bind fun now w₃ h₃ => ?_
  have hstore : w₃.store = w.store := (h₃.trans h₂.2.store_eq).trans h₁
  have hrelease : ∀ answer : Except Error SwitchOutcome, SwitchLeaves w.store w.store answer → (do
      perform (.releasePermits [k])
      return answer : Procedure (Except Error SwitchOutcome)).Ends
        (fun answer w' => SwitchLeaves w.store w'.store answer) w₃ := by
    intro answer h
    have hgive : (perform (.releasePermits [k])).Ends (fun _ w' => w'.store = w₃.store) w₃ :=
      ends_still (fun _ => rfl) fun _ => rfl
    exact hgive.bind fun _ w₄ h₄ =>
      ends_pure (R := fun answer after => SwitchLeaves w.store after answer)
        ((h₄.trans hstore) ▸ h)
  split
  · exact hrelease _ (.refl _)
  · rename_i t _
    have hspared : w.store.Spared w₃.store := hstore ▸ .refl _
    unfold commitSwitch
    refine (ends_commitRetrying_spared _ _ _ hspared).bind ?_
    rintro (error | receipt) w₄ ⟨mid, _, hmid, h₄⟩
    · exact ends_finish (R := fun answer after => SwitchLeaves w.store after answer)
        (hmid.refuse h₄)
    · have hleaves : SwitchLeaves w.store w₄.store (.ok (.switched t)) := by
        obtain ⟨hzero, -, book, -, hafter⟩ := Store.commit_of_ok h₄
        obtain ⟨failing, -, rfl⟩ := hmid
        rw [hafter]
        exact ⟨(Store.failures_write rfl rfl book).trans (List.append_nil _),
          (Store.failingCommits_write _ _ _ _).trans hzero⟩
      have hoffer : ∀ ns, (perform (.offer ns)).Ends (fun _ w' => w'.store = w₄.store) w₄ :=
        fun _ => ends_still (fun _ => rfl) fun _ => rfl
      exact (hoffer _).bind fun _ w₅ h₅ =>
        ends_finish (R := fun answer after => SwitchLeaves w.store after answer) (h₅ ▸ hleaves)
  · exact hrelease _ rfl
  · exact hrelease _ (.refl _)

/-- A switch made by hand, once more. After one that was taken no commit is set to fail, so the mark
is taken too. -/
theorem ends_retrySwitch (hrecord : w.store.failure? f.id = some f) (hopen : f.resolved = false)
    (horigin : f.origin = .manualSwitch) : (s.retrySwitch f).Ends
      (fun answer w' => s.Leaves w f.id w'.store answer) w := by
  have hknown := Store.any_of_failure? hrecord
  have hnot : ¬ f.origin.IsRedone := fun h => by
    rw [horigin] at h
    exact h
  unfold retrySwitch
  split
  · rename_i target _
    refine (ends_switchCircle _ target).bind fun answer w₁ h₁ => ?_
    split
    · obtain ⟨hfailures, hzero⟩ := h₁
      refine (ends_resolveOnly (hfailures ▸ hknown) _ (.refl w₁.store)).weaken ?_
      rintro answer w₂ h₂
      cases h₂ with
      | failed hinjected _ => omega
      | marked hmarked => exact leaves_marked hrecord hopen hnot _ hfailures hmarked
    · have hsame : w₁.store = w.store := h₁
      refine (ends_resolveOnly hknown [] (hsame ▸ .refl w.store)).weaken ?_
      rintro answer w₂ h₂
      cases h₂ with
      | failed _ hsame => exact leaves_error hsame _
      | marked hmarked => exact leaves_marked hrecord hopen hnot [] rfl hmarked
    · exact ends_stillFailing hrecord hopen _ h₁
    · exact ends_stillFailing hrecord hopen _ h₁
    · exact ends_error h₁ _
  · exact ends_error (.refl _) _

end Parts

/-! ## Whole retries -/

/-- The record of a failure that was resolved is found as such. -/
theorem failure?_of_settled {store after : Store} {new : List Failure}
    (hrecord : store.failure? id = some f)
    (h : after.failures = modifyFirst (·.id = id) Failure.settled store.failures ++ new) :
    after.failure? id = some f.settled := by
  have hfirst : (modifyFirst (·.id = id) Failure.settled store.failures).find? (·.id = id) =
      some f.settled := by
    rw [Store.find?_modifyFirst Failure.id id id Failure.settled fun _ => rfl, if_pos rfl]
    exact congrArg (Option.map Failure.settled) hrecord
  rw [Store.failure?, h, List.find?_append, hfirst]
  rfl

/-- A retry of a failure that is resolved changes nothing. -/
theorem ends_retry_of_resolved (s : Service) (hrecord : w.store.failure? id = some f)
    (hresolved : f.resolved = true) : (s.retry id).Ends
      (fun answer w' => answer = .ok .alreadyResolved ∧ w'.store = w.store) w := by
  rw [retry_eq]
  change ((read fun store => store.failure? id) >>= s.afterRead id).Ends _ w
  refine (ends_read _).bind ?_
  rintro _ w₁ ⟨rfl, h₁⟩
  rw [hrecord, s.afterRead_resolved hresolved]
  exact fun w₂ h₂ => ⟨rfl, h₂.store_eq.trans h₁.store_eq⟩

/-- What a retry leaves, whatever its record says. -/
theorem ends_retry (hs : s.MarksNone) (hfree : ∀ k, w.locks.queue k = []) (id : FailureId) :
    (s.retry id).Ends (fun answer w' => s.Leaves w id w'.store answer) w := by
  have hrest : (s.afterRead id (w.store.failure? id)).Ends
      (fun answer w' => s.Leaves w id w'.store answer) w := by
    cases hrecord : w.store.failure? id with
    | none => exact ends_error (.refl _) _
    | some f =>
      obtain rfl : f.id = id := by simpa using List.find?_some hrecord
      by_cases hresolved : f.resolved = true
      · rw [s.afterRead_resolved hresolved]
        exact fun w' hw' => ⟨hw'.store_eq, f, hrecord, hresolved⟩
      have hopen : f.resolved = false := by simpa using hresolved
      simp only [afterRead, hopen, Bool.false_eq_true, if_false]
      cases horigin : f.origin with
      | effect => exact ends_retryEffect hs hfree hrecord hopen horigin
      | handler name =>
        by_cases hname : name = aggregatesHandler.name
        · simp only [if_pos hname]
          exact ends_retryByRebuild hrecord hopen (hname ▸ horigin)
        · simp only [if_neg hname]
          exact ends_retryHandler hs hfree hrecord hopen horigin hname
      | cascadeLimit => exact ends_error (.refl _) _
      | manualSwitch => exact ends_retrySwitch hrecord hopen horigin
  rw [retry_eq]
  change ((read fun store => store.failure? id) >>= s.afterRead id).Ends _ w
  refine (ends_read _).bind ?_
  rintro _ w₁ ⟨rfl, hpassed⟩
  exact hrest.later hpassed

/-- A retry that has the store to itself always comes to an answer, however many commits are set to
fail, and the answer says what it leaves. It says that the record was resolved already exactly if it
was. Once it says that the record is resolved, one more retry says that it was, and changes
nothing. -/
theorem retry_ends_in_four_ways (hs : s.MarksNone) (hfree : ∀ k, w.locks.queue k = [])
    (id : FailureId) : (s.retry id).Ends (fun answer w' =>
      s.Leaves w id w'.store answer ∧
      (answer = .ok .alreadyResolved ↔ ∃ f, w.store.failure? id = some f ∧ f.resolved = true) ∧
      ∀ cs ts, answer = .ok (.resolved cs ts) → (s.retry id).Ends
        (fun again w'' => again = .ok .alreadyResolved ∧ w''.store = w'.store) w') w := by
  have hagain : ∀ {answer : RetryAnswer} {w' : World}, s.Leaves w id w'.store answer →
      ∀ cs ts, answer = .ok (.resolved cs ts) → (s.retry id).Ends
        (fun again w'' => again = .ok .alreadyResolved ∧ w''.store = w'.store) w' := by
    rintro _ w' hleaves cs ts rfl
    obtain ⟨f, hrecord, -, ⟨new, hfailures⟩, -⟩ := hleaves
    exact s.ends_retry_of_resolved (failure?_of_settled hrecord hfailures) rfl
  by_cases hresolved : ∃ f, w.store.failure? id = some f ∧ f.resolved = true
  · obtain ⟨f, hrecord, hf⟩ := hresolved
    refine (s.ends_retry_of_resolved hrecord hf).weaken ?_
    rintro _ w' ⟨rfl, hsame⟩
    exact ⟨⟨hsame, f, hrecord, hf⟩, ⟨fun _ => ⟨f, hrecord, hf⟩, fun _ => rfl⟩,
      fun _ _ h => by cases h⟩
  · refine (ends_retry hs hfree id).weaken fun answer w' hleaves => ⟨hleaves, ?_, hagain hleaves⟩
    refine ⟨?_, fun h => (hresolved h).elim⟩
    rintro rfl
    exact hleaves.2

/-- A reward that was refused when its event was recorded: the retry commits the commission with the
mark on the record, and one more retry does nothing. -/
theorem retry_resolves_refused_reward : ∃ (w w' : World) (f : Failure) (c : Commission) (n : ℕ),
    (Service.mk .default []).MarksNone ∧ (∀ k, w.locks.queue k = []) ∧
    w.store.failure? ⟨7⟩ = some f ∧ f.origin = .effect ∧ f.resolved = false ∧
    ((Service.mk .default []).retry ⟨7⟩).Amid World.Passes w n (.done (.ok (.resolved [c] []))) w' ∧
    (Service.mk .default []).AppliesAtOnce w f [c] [] w'.store ∧
    ((Service.mk .default []).retry ⟨7⟩).Ends
      (fun again w'' => again = .ok .alreadyResolved ∧ w''.store = w'.store) w' := by
  let s : Service := ⟨.default, []⟩
  let now : Instant := ⟨0, 0, by decide, by decide, by decide⟩
  let e : Event := .signup ⟨1⟩ ⟨2⟩ ⟨3⟩ ⟨4⟩ ⟨5⟩ ⟨6⟩ now
  let reward : CommissionSpec := .fixed ⟨50000, by decide, by decide⟩
  let f : Failure := .ofError ⟨7⟩ (some e.id) e.program e.promoter (some ⟨8⟩)
    (some (.generateCommission reward)) .effect (.cascadeLimit 1 0) 0 now
  let u : WorkUnit := { WorkUnit.start (Store.empty.context e.promoterKey) with
    events := [e], failures := [f] }
  let w : World := { World.start now ⟨100⟩ with store := (Store.empty.commit u now).2 }
  let w' : World := ((s.retry ⟨7⟩).goOn w).2
  let c : Commission := Staging.earned ⟨u, w.permits, w.ids, now⟩ e ⟨8⟩ reward
    ⟨50000, by decide, by decide⟩
  have hrecord : w.store.failure? ⟨7⟩ = some f := by decide +kernel
  have hrun : ∃ n, (s.retry ⟨7⟩).Amid World.Passes w n (.done (.ok (.resolved [c] []))) w' :=
    amid_of_answer? (by decide +kernel)
  obtain ⟨n, hn⟩ := hrun
  have hends := retry_ends_in_four_ways (s := s) (w := w) (marksNone_of_builtIn rfl)
    (fun _ => rfl) ⟨7⟩
  obtain ⟨hleaves, -, hagain⟩ := (hends.amid hn) w' (.refl w')
  obtain ⟨f', hrecord', -, -, happlies⟩ := hleaves
  obtain rfl : f = f' := Option.some.inj (hrecord.symm.trans hrecord')
  exact ⟨w, w', f, c, n, marksNone_of_builtIn rfl, fun _ => rfl, hrecord, rfl, rfl, hn,
    happlies trivial, hagain _ _ rfl⟩

end Service

end Referral
