import Referral.Notification
import Referral.Proofs.Announcing
import Referral.Proofs.Commissions
import Referral.Proofs.Courses
import Referral.Proofs.Custody
import Referral.Proofs.Recording

/-!
# What requests commit and hand over

A request is gone through deed by deed: its messages and the units of work that it commits are those
of its parts. While an event is dispatched, and between the dispatches of several, all commissions
keep their reports, whatever goes on meanwhile.
-/

namespace Referral

open Procedure

/-! ## What deeds come to -/

/-- The unit of work, unless its commit was answered with an error. -/
def WorkUnit.accepted (u : WorkUnit) : Except Error Receipt → List WorkUnit
  | .ok _ => [u]
  | .error _ => []

theorem WorkUnit.flatMap_accepted {β : Type} {f : WorkUnit → List β} {u : WorkUnit} (h : f u = [])
    (answer : Except Error Receipt) : (u.accepted answer).flatMap f = [] := by
  cases answer with
  | ok receipt => rw [accepted, List.flatMap_singleton, h]
  | error error => rfl

namespace Deed

/-- The messages that are handed over. -/
def messages : Deed → List Notification
  | ⟨_, .offer ns⟩ => ns
  | _ => []

/-- The unit of work that is committed, if the store accepts it. -/
def committed : Deed → List WorkUnit
  | ⟨w, .commit u⟩ => u.accepted (w.store.commit u w.now).1
  | _ => []

end Deed

/-- In these deeds the messages are handed over and the units of work committed, in this order. -/
structure Brings (deeds : List Deed) (ns : List Notification) (us : List WorkUnit) : Prop where
  messages : deeds.flatMap Deed.messages = ns
  committed : deeds.flatMap Deed.committed = us

namespace Brings

variable {first second : List Deed} {ns ns' : List Notification} {us us' : List WorkUnit}

theorem nil : Brings [] [] [] := ⟨rfl, rfl⟩

theorem append (h : Brings first ns us) (h' : Brings second ns' us') :
    Brings (first ++ second) (ns ++ ns') (us ++ us') := by
  obtain ⟨rfl, rfl⟩ := h
  obtain ⟨rfl, rfl⟩ := h'
  exact ⟨List.flatMap_append, List.flatMap_append⟩

theorem before (h : Brings first [] []) (h' : Brings second ns us) :
    Brings (first ++ second) ns us := h.append h'

theorem after (h : Brings first ns us) (h' : Brings second [] []) :
    Brings (first ++ second) ns us := by
  have hall := h.append h'
  rwa [List.append_nil, List.append_nil] at hall

end Brings

/-- Whether an action neither commits a unit of work nor hands over messages. -/
def Action.IsSilent {α : Type} : Action α → Prop
  | .commit _ | .offer _ => False
  | _ => True

theorem Action.IsUpkeep.isSilent {α : Type} {action : Action α} (h : action.IsUpkeep) :
    action.IsSilent := by
  cases action with
  | commit | offer => exact h.elim
  | _ => trivial

theorem Action.IsSilent.brings {α : Type} {action : Action α} (h : action.IsSilent) (w : World) :
    Brings [⟨w, action⟩] [] [] := by
  cases action with
  | commit | offer => exact h.elim
  | _ => exact ⟨rfl, rfl⟩

namespace Procedure

/-- No action of a procedure commits or hands over anything. -/
abbrev IsSilent {α : Type} (p : Procedure α) : Prop := p.Only fun _ action => action.IsSilent

variable {R : World → World → Prop} {α : Type} {w w' : World} {deeds : List Deed} {a : α}

theorem IsSilent.brings {p q : Procedure α} (hp : p.IsSilent) (h : p.Comes R w deeds q w') :
    q.IsSilent ∧ Brings deeds [] [] := by
  induction h with
  | start => exact ⟨hp, .nil⟩
  | others _ _ ih => exact ih
  | own _ _ ih =>
    obtain ⟨⟨haction, hnext⟩, hbrings⟩ := ih
    exact ⟨hnext _, hbrings.before (haction.brings _)⟩

theorem brings_silent {p : Procedure α} (hp : p.IsSilent) (h : p.Finishes R w deeds a w') :
    Brings deeds [] [] := (hp.brings h).2

theorem brings_perform {action : Action α} (h : (perform action).Finishes R w deeds a w')
    (haction : action.IsSilent) : Brings deeds [] [] := brings_silent (only_perform haction) h

end Procedure

/-! ## What others leave alone -/

/-- The log finds its events by their names, and neither these names nor those that handlers were
passed are still to come. -/
structure World.IsFresh (r : Numbers) (w : World) : Prop where
  located : w.store.Located
  logged : ∀ e ∈ w.store.facts, r.Spent w.ids.next e.id
  called : ∀ x ∈ w.calls, r.Spent w.ids.next x.call.event.id

/-- The log grows, identifiers are used up, and those that are made are new. -/
structure World.Renews (r : Numbers) (w w' : World) : Prop where
  later : w.store.Later w'.store
  ids : w.ids.next ≤ w'.ids.next
  fresh : w.IsFresh r → w'.IsFresh r

namespace World

variable {r : Numbers} {w w' : World}

theorem rely_renews (r : Numbers) : Rely (Renews r) where
  refl _ := ⟨.refl _, le_rfl, id⟩
  trans _ _ _ h h' := ⟨h.later.trans h'.later, h.ids.trans h'.ids, fun hw => h'.fresh (h.fresh hw)⟩
  later _ _ h := h.later

/-- The parts of the world that freshness is about. -/
def names (w : World) : Store × IdSupply × List CallRecord := (w.store, w.ids, w.calls)

theorem renews_of_names (h : w'.names = w.names) : Renews r w w' := by
  obtain ⟨hstore, hrest⟩ := Prod.mk.inj h
  obtain ⟨hids, hcalls⟩ := Prod.mk.inj hrest
  refine ⟨hstore ▸ .refl _, hids ▸ le_rfl, fun hw => ⟨?_, ?_, ?_⟩⟩
  · rw [hstore]
    exact hw.located
  · rw [hstore, hids]
    exact hw.logged
  · rw [hids, hcalls]
    exact hw.called

end World

namespace Procedure

open World (Renews rely_renews renews_of_names names)

variable {r : Numbers} {α β : Type} {w w' : World} {deeds : List Deed} {a : α} {Q : α → Prop}

/-- A course is of what others do and of actions that leave a part of the world alone. -/
theorem Preserves.follows {part : World → β} {R T : World → World → Prop} (hrefl : ∀ w, T w w)
    (htrans : ∀ w w' w'', T w w' → T w' w'' → T w w'') (hothers : ∀ w w', R w w' → T w w')
    (hown : ∀ w w', part w' = part w → T w w') {p q : Procedure α} (hp : p.Preserves part Q)
    (h : p.Comes R w deeds q w') : q.Preserves part Q ∧ T w w' := by
  induction h with
  | start => exact ⟨hp, hrefl w⟩
  | others _ change ih => exact ⟨ih.1, htrans _ _ _ ih.2 (hothers _ _ change)⟩
  | own _ ready ih =>
    obtain ⟨hsame, hnext⟩ := ih.1 _ ready
    exact ⟨hnext, htrans _ _ _ ih.2 (hown _ _ hsame)⟩

/-- A procedure that leaves all names alone. -/
theorem Preserves.renews {p : Procedure α} (hp : p.Preserves names Q)
    (h : p.Finishes (Renews r) w deeds a w') : Renews r w w' :=
  (hp.follows (rely_renews r).refl (rely_renews r).trans (fun _ _ => id)
    (fun _ _ => renews_of_names) h).2

/-- A procedure that uses no identifiers up. -/
theorem Preserves.ids_le {p : Procedure α} (hp : p.Preserves World.ids Q)
    (h : p.Finishes (Renews r) w deeds a w') : w.ids.next ≤ w'.ids.next :=
  (hp.follows (T := fun w w' => w.ids.next ≤ w'.ids.next) (fun _ => le_rfl) (fun _ _ _ => le_trans)
    (fun _ _ => Renews.ids) (fun _ _ hsame => (congrArg IdSupply.next hsame).ge) h).2

/-- Locks are held around a procedure. -/
theorem brings_withLocks {ks : List LockKey} {body : Procedure α}
    (h : (withLocks ks body).Finishes (Renews r) w deeds a w') :
    ∃ v v' mine, body.Finishes (Renews r) v mine a v' ∧ Renews r w v ∧ Renews r v' w' ∧
      ∀ ns us, Brings mine ns us → Brings deeds ns us := by
  have hR := rely_renews r
  unfold withLocks at h
  obtain ⟨task, w₁, first, rest, rfl, hfirst, hrest⟩ := Finishes.of_bind h
  obtain ⟨_, w₂, second, rest, rfl, hsecond, hrest⟩ := Finishes.of_bind hrest
  obtain ⟨b, w₃, mine, rest, rfl, hmine, hrest⟩ := Finishes.of_bind hrest
  obtain ⟨_, w₄, third, rest, rfl, hthird, hrest⟩ := Finishes.of_bind hrest
  obtain ⟨rfl, rfl, hw'⟩ := Finishes.of_done hR hrest
  have htask : (perform .newTask).Preserves names fun _ => True := preserves_perform fun _ => rfl
  have hlocks : (lockAll task ks).Preserves names fun _ => True :=
    preserves_lockAll (fun _ _ => rfl) task ks
  have hrelease : (perform (.releaseLocks task ks)).Preserves names fun _ => True :=
    preserves_perform fun _ => rfl
  refine ⟨w₂, w₃, mine, hmine, hR.trans _ _ _ (htask.renews hfirst) (hlocks.renews hsecond),
    hR.trans _ _ _ (hrelease.renews hthird) hw', fun ns us hbrings => ?_⟩
  have hlocked : Brings second [] [] :=
    brings_silent (only_lockAll task ks (fun _ => trivial) fun _ => trivial) hsecond
  exact (brings_perform hfirst trivial).before
    (hlocked.before (hbrings.after ((brings_perform hthird trivial).before .nil)))

end Procedure

/-! ## The parts of requests -/

namespace Service

open World (Renews rely_renews names)

variable {s : Service} {r : Numbers} {w w' : World} {deeds : List Deed} {u u' : WorkUnit}
  {α : Type} {a : α}

/-- A change to a unit of work, with identifiers at hand. -/
theorem brings_stageWith {f : Staging → α × Staging} {a : α × WorkUnit}
    (hids : ∀ staging : Staging, staging.ids.next ≤ (f staging).2.ids.next)
    (h : (stageWith u f).Finishes (Renews r) w deeds a w') :
    Brings deeds [] [] ∧ Renews r w w' ∧ ∃ v, Renews r w v ∧
      a = ((f ⟨u, v.permits, v.ids, v.now⟩).1, (f ⟨u, v.permits, v.ids, v.now⟩).2.unit) ∧
      (f ⟨u, v.permits, v.ids, v.now⟩).2.ids.next ≤ w'.ids.next := by
  have hR := rely_renews r
  obtain ⟨v, hdeeds, hv, ha, hw'⟩ := Finishes.of_perform hR h
  have hused := hids ⟨u, v.permits, v.ids, v.now⟩
  refine ⟨brings_perform h trivial, ?_, v, hv, ha, hw'.ids⟩
  let staged : Staging := (f ⟨u, v.permits, v.ids, v.now⟩).2
  have hown : Renews r v { v with permits := staged.permits, ids := staged.ids } :=
    ⟨.refl _, hused, fun hfresh => ⟨hfresh.located, fun e he => (hfresh.logged e he).mono hused,
      fun x hx => (hfresh.called x hx).mono hused⟩⟩
  exact hR.trans _ _ _ hv (hR.trans _ _ _ hown hw')

/-- Of the attempts to commit a unit of work, the last one alone may be accepted. -/
theorem brings_commit {answer : Except Error Receipt}
    (h : (s.commit u).Finishes (Renews r) w deeds answer w') :
    Brings deeds [] (u.accepted answer) ∧ w.ids.next ≤ w'.ids.next := by
  have hR := rely_renews r
  refine ⟨?_, (s.preserves_commit_of fun _ => rfl).ids_le h⟩
  unfold commit at h
  generalize s.config.commitRetries.toNat = retries at h
  generalize (1 : ℕ) = attempt at h
  have hone : ∀ v : World, Brings [⟨v, .commit u⟩] [] (u.accepted (v.store.commit u v.now).1) :=
    fun v => ⟨rfl, List.append_nil _⟩
  -- an attempt after which another one follows was not accepted
  induction retries generalizing attempt w deeds with
  | zero =>
    obtain ⟨v, rfl, -, rfl, -⟩ := Finishes.of_perform hR h
    exact hone v
  | succ retries ih =>
    unfold commitRetrying at h
    obtain ⟨b, w₁, first, rest, rfl, hfirst, hrest⟩ := Finishes.of_bind h
    obtain ⟨v, rfl, -, hb, -⟩ := Finishes.of_perform hR hfirst
    have hb : b = (v.store.commit u v.now).1 := hb
    have hbrings := hone v
    rw [← hb] at hbrings
    have hlast : (done b).Finishes (Renews r) w₁ rest answer w' →
        Brings ([⟨v, .commit u⟩] ++ rest) [] (u.accepted answer) := by
      intro hdone
      obtain ⟨rfl, rfl, -⟩ := Finishes.of_done hR hdone
      exact hbrings.after .nil
    cases b with
    | ok receipt => exact hlast hrest
    | error error =>
      dsimp only at hrest
      split at hrest
      · obtain ⟨_, w₂, second, last, rfl, hsecond, hlast⟩ := Finishes.of_bind hrest
        have hwait := brings_silent (only_sleep (fun h => h.isSilent) _) hsecond
        exact hbrings.before (hwait.before (ih _ hlast))
      · exact hlast hrest

/-- A unit whose moves are refused may be committed without them. -/
theorem brings_commitDemoting {answer : Except Error Receipt}
    (h : (s.commitDemoting u).Finishes (Renews r) w deeds (answer, u') w') :
    Brings deeds [] (u'.accepted answer) ∧ w.ids.next ≤ w'.ids.next ∧
      u'.commissions = u.commissions ∧ u'.events = u.events := by
  have hR := rely_renews r
  unfold commitDemoting at h
  obtain ⟨b, w₁, first, rest, rfl, hfirst, hrest⟩ := Finishes.of_bind h
  obtain ⟨hbrings, hids⟩ := brings_commit hfirst
  have hsame : ∀ b', (done (b', u)).Finishes (Renews r) w₁ rest (answer, u') w' →
      Brings first [] (u.accepted b') → Brings (first ++ rest) [] (u'.accepted answer) ∧
        w.ids.next ≤ w'.ids.next ∧ u'.commissions = u.commissions ∧ u'.events = u.events := by
    intro b' hdone hb'
    obtain ⟨rfl, heq, hw'⟩ := Finishes.of_done hR hdone
    cases heq
    exact ⟨hb'.after .nil, hids.trans hw'.ids, rfl, rfl⟩
  split at hrest
  · rename_i promoter
    split at hrest
    · exact hsame _ hrest hbrings
    · obtain ⟨⟨_, u₁⟩, w₂, second, rest, rfl, hsecond, hrest⟩ := Finishes.of_bind hrest
      obtain ⟨answer₁, w₃, third, last, rfl, hthird, hlast⟩ := Finishes.of_bind hrest
      obtain ⟨rfl, heq, hw'⟩ := Finishes.of_done hR hlast
      cases heq
      have hused : ∀ staging : Staging, staging.ids.next ≤
          (staging.demoteTransitions (.switchRejected promoter) staging.now).ids.next :=
        fun staging => (Staging.edits_demoteTransitions staging _).ids
      obtain ⟨hsilent, hw₂, v, -, hu₁, -⟩ := brings_stageWith hused hsecond
      obtain ⟨hbrings', hids'⟩ := brings_commit hthird
      obtain ⟨records, ids, hframe, -⟩ := Staging.demoteTransitions_frame
        ⟨u, v.permits, v.ids, v.now⟩ (.switchRejected promoter) v.now
      have hunit := congrArg Prod.snd hu₁
      simp only [hframe] at hunit
      refine ⟨hbrings.before (hsilent.before (hbrings'.after .nil)), ?_, ?_, ?_⟩
      · exact hids.trans (hw₂.ids.trans (hids'.trans hw'.ids))
      · rw [hunit]
      · rw [hunit]
  · exact hsame _ hrest hbrings

theorem isSilent_dispatchEach (depth : Depth) (es : List Event) (u : WorkUnit) :
    (s.dispatchEach depth es u).IsSilent := by
  induction es generalizing u with
  | nil => trivial
  | cons e es ih => exact ⟨trivial, fun _ => ih _⟩

section Dispatches

variable (hlimit : s.config.maxDepth.val < 255) (hextra : ∀ h ∈ s.extra, h.Observes r)

include hextra

/-- An event is dispatched, with all that follows from it. -/
theorem brings_dispatch {depth : Depth} {e : Event} {a : DispatchReport × WorkUnit}
    (h : (s.dispatch u depth e).Finishes (Renews r) w deeds a w') :
    Brings deeds [] [] ∧ ∃ v, Renews r w v ∧ ∃ c : Cascade,
      c = s.dispatcher.dispatchAt depth e ⟨u, v.permits, v.ids, v.now⟩ v.calls ∧
      a = (c.report, c.staging.unit) ∧ v.ids.next ≤ c.staging.ids.next ∧
      c.staging.ids.next ≤ w'.ids.next ∧
      ((∀ x ∈ c.calls, r.Spent c.staging.ids.next x.call.event.id) → Renews r w w') := by
  have hR := rely_renews r
  obtain ⟨v, hdeeds, hv, ha, hw'⟩ := Finishes.of_perform hR h
  let c : Cascade := s.dispatcher.dispatchAt depth e ⟨u, v.permits, v.ids, v.now⟩ v.calls
  have hused : v.ids.next ≤ c.staging.ids.next :=
    (Dispatcher.edits_dispatchAt (fair_of_observes hextra).handlers depth e
      ⟨u, v.permits, v.ids, v.now⟩ v.calls).ids
  refine ⟨brings_perform h trivial, v, hv, c, rfl, ha, hused, hw'.ids, fun hcalls => ?_⟩
  have hown : Renews r v
      { v with permits := c.staging.permits, ids := c.staging.ids, calls := c.calls } :=
    ⟨.refl _, hused, fun hfresh => ⟨hfresh.located, fun e he => (hfresh.logged e he).mono hused,
      hcalls⟩⟩
  exact hR.trans _ _ _ hv (hR.trans _ _ _ hown hw')

theorem edits_dispatch {depth : Depth} {e : Event} {a : DispatchReport × WorkUnit}
    (h : (s.dispatch u depth e).Finishes (Renews r) w deeds a w') : u.Edits a.2 := by
  obtain ⟨-, v, -, c, hc, ha, -⟩ := brings_dispatch hextra h
  rw [ha, hc]
  exact (Dispatcher.edits_dispatchAt (fair_of_observes hextra).handlers depth e
    ⟨u, v.permits, v.ids, v.now⟩ v.calls).unit

/-- What every dispatch keeps of a unit of work, several keep. -/
theorem dispatchEach_keeps {P : WorkUnit → Prop} {depth : Depth}
    (hP : ∀ e staging calls, P staging.unit →
      P (s.dispatcher.dispatchAt depth e staging calls).staging.unit)
    {es : List Event} (hu : P u)
    (h : (s.dispatchEach depth es u).Finishes (Renews r) w deeds u' w') :
    P u' ∧ w.ids.next ≤ w'.ids.next := by
  induction es generalizing u w deeds with
  | nil =>
    obtain ⟨-, rfl, hw'⟩ := Finishes.of_done (rely_renews r) h
    exact ⟨hu, hw'.ids⟩
  | cons e es ih =>
    obtain ⟨⟨_, u₁⟩, w₁, first, rest, rfl, hfirst, hrest⟩ := Finishes.of_bind h
    obtain ⟨-, v, hv, c, hc, ha, hused, hids, -⟩ := brings_dispatch hextra hfirst
    have hsame : u₁ = c.staging.unit := congrArg Prod.snd ha
    have hu₁ : P u₁ := by
      rw [hsame, hc]
      exact hP e ⟨u, v.permits, v.ids, v.now⟩ v.calls hu
    obtain ⟨hu', hids'⟩ := ih hu₁ hrest
    exact ⟨hu', hv.ids.trans (hused.trans (hids.trans hids'))⟩

theorem edits_dispatchEach {depth : Depth} {es : List Event}
    (h : (s.dispatchEach depth es u).Finishes (Renews r) w deeds u' w') :
    u.Edits u' ∧ w.ids.next ≤ w'.ids.next :=
  dispatchEach_keeps hextra (fun e staging calls hu => hu.trans
    (Dispatcher.edits_dispatchAt (fair_of_observes hextra).handlers depth e staging calls).unit)
    .refl h

include hlimit

/-- A dispatch leaves each commission with its report; of the events that wait for a dispatch of
their own none is a report, or no commission was earned and nothing but reports is staged. -/
theorem reported_dispatch {depth : Depth} {e : Event} {later : List Event}
    {a : DispatchReport × WorkUnit} (hroom : e.isReport = true → depth ≤ s.config.maxDepth)
    (hw : w.IsFresh r) (hu : u.Reported r w.ids.next [] (e :: later))
    (h : (s.dispatch u depth e).Finishes (Renews r) w deeds a w') (hnumbers : w'.ids.next ≤ r.limit)
    (hstaged : (∀ g ∈ e :: later, g.isReport = false) ∨ ∀ f ∈ u.events, f.isReport = true)
    (hsettles : (∀ g ∈ later, g.isReport = false) ∨
      a.2.commissions.length ≤ u.commissions.length ∧ ∀ f ∈ a.2.events, f.isReport = true) :
    a.2.Reported r w'.ids.next [] later ∧ w'.IsFresh r := by
  obtain ⟨-, v, hv, c, hc, ha, -, hids, hrenews⟩ := brings_dispatch hextra h
  have hunit : a.2 = c.staging.unit := congrArg Prod.snd ha
  have hsettled : c.staging.Settles r u.commissions.length later :=
    ⟨hids.trans hnumbers, hunit ▸ hsettles⟩
  have hstart : Cascade.Reported r u.commissions.length later
      ⟨⟨u, v.permits, v.ids, v.now⟩, v.calls, .start⟩ [e] :=
    ⟨⟨le_rfl, fun _ => (hu.congr hv.ids rfl rfl).next_dispatch hstaged⟩,
      fun _ => (hv.fresh hw).called⟩
  have hreported := reported_dispatchAt hlimit hextra hroom hstart
  rw [← hc] at hreported
  rw [hunit]
  exact ⟨(hreported.staging.unit hsettled).congr hids rfl rfl,
    (hrenews (hreported.calls hsettled)).fresh hw⟩

/-- Events are dispatched one after the other. Each commission that is earned has its report, if no
more than one of the events is one, or nothing else but these comes of it. -/
theorem reported_dispatchEach {depth : Depth} {es : List Event}
    (hroom : ∀ g ∈ es, g.isReport = true → depth ≤ s.config.maxDepth) (hw : w.IsFresh r)
    (hu : u.Reported r w.ids.next [] es)
    (h : (s.dispatchEach depth es u).Finishes (Renews r) w deeds u' w')
    (hnumbers : w'.ids.next ≤ r.limit)
    (hfew : (∀ g ∈ es, g.isReport = false) ∨ es.length ≤ 1 ∧ u.events = [] ∨
      u'.commissions.length ≤ u.commissions.length ∧ ∀ f ∈ u'.events, f.isReport = true) :
    u'.Reported r w'.ids.next [] [] := by
  induction es generalizing u w deeds with
  | nil =>
    obtain ⟨-, rfl, hw'⟩ := Finishes.of_done (rely_renews r) h
    exact hu.congr hw'.ids rfl rfl
  | cons e es ih =>
    rw [List.forall_mem_cons] at hroom
    obtain ⟨⟨_, u₁⟩, w₁, first, rest, rfl, hfirst, hrest⟩ := Finishes.of_bind h
    have hedits₁ := edits_dispatch hextra hfirst
    obtain ⟨hedits, hids⟩ := edits_dispatchEach hextra hrest
    have hlast : (∀ g ∈ es, g.isReport = false) ∨ u'.commissions.length ≤ u.commissions.length ∧
        ∀ f ∈ u'.events, f.isReport = true := by
      rcases hfew with hnone | ⟨hone, -⟩ | hall
      · exact .inl fun g hg => hnone g (List.mem_cons_of_mem _ hg)
      · have hempty : es = [] := List.length_eq_zero_iff.mp <| by
          rw [List.length_cons] at hone
          omega
        exact .inl (hempty ▸ List.forall_mem_nil _)
      · exact .inr hall
    have hstaged : (∀ g ∈ e :: es, g.isReport = false) ∨ ∀ f ∈ u.events, f.isReport = true := by
      rcases hfew with hnone | ⟨-, hevents⟩ | ⟨-, hall⟩
      · exact .inl hnone
      · exact .inr (hevents ▸ List.forall_mem_nil _)
      · exact .inr fun f hf => hall f (hedits.events.subset (hedits₁.events.subset hf))
    -- what comes of all events is so after each of them
    obtain ⟨hnext, hfresh⟩ := reported_dispatch hlimit hextra hroom.1 hw hu hfirst
      (hids.trans hnumbers) hstaged <| hlast.imp_right fun ⟨hbase, hall⟩ =>
        ⟨hedits.commissions.length_le.trans hbase, fun f hf => hall f (hedits.events.subset hf)⟩
    exact ih hroom.2 hfresh hnext hrest <| hlast.imp_right fun ⟨hbase, hall⟩ =>
      .inr ⟨hbase.trans hedits₁.commissions.length_le, hall⟩

end Dispatches

end Service

end Referral
