import Referral.Proofs.Offers

/-!
# Messages about what is committed

A request hands over messages about the units of work that it commits, and no others, whatever else
goes on meanwhile. The messages pair the commissions of a unit with its reports by their places, and
this is right because the two are staged in the same order. This is shown here of events that are
published and of switches by hand.
-/

namespace Referral

open Procedure

/-! ## Messages about a unit of work -/

namespace WorkUnit

variable {r : Numbers} {next next' : ℕ} {u : WorkUnit} {ns : List Notification}

/-- A message about a commission, with the name and the correlation of the event that reports it. -/
def Announces (r : Numbers) (next : ℕ) (u : WorkUnit) (c : Commission) (n : Notification) : Prop :=
  ∃ g ∈ u.events, Paired r next c g ∧ n = .commissionGenerated c g.id g.correlation

/-- One message for each commission, in the order in which these were staged, and then one for each
move. -/
def IsToldBy (r : Numbers) (next : ℕ) (u : WorkUnit) (ns : List Notification) : Prop :=
  ∃ ms, List.Forall₂ (u.Announces r next) u.commissions ms ∧
    ns = ms ++ u.transitions.map fun t => .circleSwitched t.transition

theorem IsToldBy.mono (h : u.IsToldBy r next ns) (hnext : next ≤ next') :
    u.IsToldBy r next' ns := by
  obtain ⟨ms, hms, rfl⟩ := h
  exact ⟨ms, hms.imp fun _ _ ⟨g, hg, hpaired, hm⟩ => ⟨g, hg, hpaired.mono hnext, hm⟩, rfl⟩

theorem announces_zip {cs : List Commission} {gs : List Event}
    (h : List.Forall₂ (Paired r next) cs gs) (hgs : ∀ g ∈ gs, g ∈ u.events) :
    List.Forall₂ (u.Announces r next) cs
      ((cs.zip gs).map fun (c, g) => .commissionGenerated c g.id g.correlation) := by
  induction h with
  | nil => exact .nil
  | cons hpaired _ ih =>
    rw [List.forall_mem_cons] at hgs
    exact .cons ⟨_, hgs.1, hpaired, rfl⟩ (ih hgs.2)

/-- Whether a message about a commission names an event of the unit with its amount. -/
def Confirms (u : WorkUnit) : Notification → Bool
  | .commissionGenerated c id _ => u.events.any fun g => g.id = id ∧ g.amount = some c.amount
  | .circleSwitched _ => true

theorem IsToldBy.confirms (h : u.IsToldBy r next ns) {n : Notification} (hn : n ∈ ns) :
    u.Confirms n = true := by
  obtain ⟨ms, hms, rfl⟩ := h
  rcases List.mem_append.mp hn with hm | hm
  · clear hn
    generalize u.commissions = cs at hms
    induction hms with
    | nil => cases hm
    | cons hone _ ih =>
      rcases List.mem_cons.mp hm with rfl | hm
      · obtain ⟨g, hg, hpaired, rfl⟩ := hone
        exact List.any_eq_true.mpr ⟨g, hg, by simp [hpaired.reports.amount]⟩
      · exact ih hm
  · obtain ⟨t, -, rfl⟩ := List.mem_map.mp hm
    rfl

/-- If each commission has its report, the messages are right. -/
theorem Reported.isToldBy (h : u.Reported r next [] []) : u.IsToldBy r next u.notifications := by
  have hpaired := h.paired
  rw [List.append_nil, List.append_nil] at hpaired
  exact ⟨_, announces_zip hpaired fun g hg => List.mem_of_mem_filter hg, rfl⟩

theorem isToldBy_of_no_commissions (r : Numbers) (next : ℕ) (h : u.commissions = []) :
    u.IsToldBy r next u.notifications := by
  refine ⟨[], h ▸ .nil, ?_⟩
  rw [notifications, h]
  rfl

/-- If the rules are tried again for an event, its commissions are in order with their reports as
long as there is no more than one, or nothing but reports follows from them. -/
def IsPlain (source : EventId) (u : WorkUnit) : Prop :=
  (u.commissions.filter (·.source = source)).length ≤ 1 ∨
    (∀ c ∈ u.commissions, c.source = source) ∧ ∀ f ∈ u.events, f.isReport = true

end WorkUnit

/-- The messages at whose places sending fails are lost, and no others. -/
theorem deliver_eq (fails : ℕ → Bool) (position : ℕ) (ns : List Notification) :
    deliver fails position ns =
      ((ns.zipIdx position).filter fun (_, i) => !fails i).map Prod.fst := by
  induction ns generalizing position with
  | nil => rfl
  | cons n ns ih =>
    rw [deliver, List.zipIdx_cons]
    cases hfails : fails position <;> simp [hfails, ih]

/-! ## What a request tells -/

/-- What an answer says was earned and which moves were made. -/
def PublishOutcome.told : PublishOutcome → List Commission × List Transition
  | duplicate _ => ([], [])
  | committed report => (report.commissions, report.transitions)

@[inherit_doc PublishOutcome.told]
def SwitchOutcome.told : SwitchOutcome → List Commission × List Transition
  | stayed _ => ([], [])
  | switched t => ([], [t])

@[inherit_doc PublishOutcome.told]
def RetryOutcome.told : RetryOutcome → List Commission × List Transition
  | resolved cs ts => (cs, ts)
  | alreadyResolved | stillFailing _ => ([], [])

namespace Request

/-- What the answer to a request says was earned and which moves were made. It says that there was
nothing unless it speaks of an event, a switch or a retry; but a retry that fails may have made its
move before. -/
def told : (req : Request) → req.Answer → Option (List Commission × List Transition)
  | publish _, (answer : Except Error PublishOutcome) =>
    some ((answer.map PublishOutcome.told).toOption.getD ([], []))
  | switchCircle _ _, (answer : Except Error SwitchOutcome) =>
    some ((answer.map SwitchOutcome.told).toOption.getD ([], []))
  | retry _, (answer : Except Error RetryOutcome) => (answer.map RetryOutcome.told).toOption
  | _, _ => some ([], [])

/-- A condition on units of work only where a request tries the rules again for an event. A retry
begins with a look at its record. -/
def Orders (config : Config) : Request → List Deed → WorkUnit → Prop
  | retry id, d :: _, u => ∀ f, d.world.store.failure? id = some f →
      f.origin = .handler (rulesHandler config).name → ∀ source ∈ f.event, u.IsPlain source
  | _, _, _ => True

end Request

/-- Messages are handed over about the units of work that are committed, and about nothing else;
the units that meet a condition are told of rightly; and what an answer tells was committed. -/
structure Tells (r : Numbers) (next : ℕ) (orderly : WorkUnit → Prop) (deeds : List Deed)
    (told : Option (List Commission × List Transition)) : Prop where
  messages : deeds.flatMap Deed.messages =
    (deeds.flatMap Deed.committed).flatMap WorkUnit.notifications
  units : ∀ u ∈ deeds.flatMap Deed.committed, orderly u → u.IsToldBy r next u.notifications
  answer : ∀ x ∈ told, (deeds.flatMap Deed.committed).flatMap (·.commissions) = x.1 ∧
    (deeds.flatMap Deed.committed).flatMap (fun u => u.transitions.map (·.transition)) = x.2

namespace Tells

variable {r : Numbers} {next next' : ℕ} {orderly : WorkUnit → Prop} {first second deeds : List Deed}
  {u : WorkUnit} {us : List WorkUnit} {answer : Except Error Receipt}
  {told : Option (List Commission × List Transition)}

theorem of_brings (h : Brings deeds (us.flatMap WorkUnit.notifications) us)
    (hus : ∀ u ∈ us, orderly u → u.IsToldBy r next u.notifications)
    (htold : ∀ x ∈ told, us.flatMap (·.commissions) = x.1 ∧
      us.flatMap (fun u => u.transitions.map (·.transition)) = x.2) :
    Tells r next orderly deeds told := by
  obtain ⟨hmessages, rfl⟩ := h
  exact ⟨hmessages, hus, htold⟩

theorem nothing (h : Brings deeds [] []) : Tells r next orderly deeds (some ([], [])) := by
  have hnone : Brings deeds ([].flatMap WorkUnit.notifications) [] := h
  refine .of_brings hnone (List.forall_mem_nil _) fun x hx => ?_
  cases hx
  exact ⟨rfl, rfl⟩

/-- The same messages and units of work, when more numbers are used up. -/
theorem mono (h : Tells r next orderly first told) (hnext : next ≤ next')
    (hsame : ∀ ns us, Brings first ns us → Brings second ns us) :
    Tells r next' orderly second told :=
  .of_brings (hsame _ _ ⟨h.messages, rfl⟩) (fun u hu hv => (h.units u hu hv).mono hnext) h.answer

theorem unsaid (h : Tells r next orderly deeds told) : Tells r next orderly deeds none :=
  ⟨h.messages, h.units, fun _ hx => by cases hx⟩

/-- The answer of a retry, if it is not an error. -/
theorem answered {outcome : RetryOutcome} {a : Except Error RetryOutcome} (id : FailureId)
    (h : Tells r next orderly deeds (some outcome.told))
    (ha : a = .ok outcome ∨ ∃ error, a = .error error) :
    Tells r next orderly deeds ((Request.retry id).told a) := by
  rcases ha with rfl | ⟨error, rfl⟩
  · exact h
  · exact h.unsaid

/-- One after the other. -/
theorem append {cs cs' : List Commission} {ts ts' : List Transition}
    (h : Tells r next orderly first (some (cs, ts)))
    (h' : Tells r next orderly second (some (cs', ts'))) :
    Tells r next orderly (first ++ second) (some (cs ++ cs', ts ++ ts')) := by
  refine .of_brings ⟨?_, List.flatMap_append⟩ (fun u hu => ?_) fun x hx => ?_
  · rw [List.flatMap_append, List.flatMap_append, h.messages, h'.messages]
  · rcases List.mem_append.mp hu with hu | hu
    · exact h.units u hu
    · exact h'.units u hu
  · cases hx
    obtain ⟨hcommissions, hmoves⟩ := h.answer _ rfl
    obtain ⟨hcommissions', hmoves'⟩ := h'.answer _ rfl
    rw [List.flatMap_append, List.flatMap_append, hcommissions, hcommissions', hmoves, hmoves']
    exact ⟨rfl, rfl⟩

theorem before (h : Brings first [] []) (h' : Tells r next orderly second told) :
    Tells r next orderly (first ++ second) told := h'.mono le_rfl fun _ _ => h.before

/-- A unit of work is committed, and if it is accepted, messages about it are handed over. -/
theorem of_commit (hfirst : Brings first [] (u.accepted answer))
    (hsecond : Brings second ((u.accepted answer).flatMap WorkUnit.notifications) [])
    (hu : orderly u → u.IsToldBy r next u.notifications)
    (htold : ∀ x ∈ told, (u.accepted answer).flatMap (·.commissions) = x.1 ∧
      (u.accepted answer).flatMap (fun u => u.transitions.map (·.transition)) = x.2) :
    Tells r next orderly (first ++ second) told := by
  have hall := hfirst.append hsecond
  rw [List.append_nil, List.nil_append] at hall
  refine .of_brings hall (fun u' hu' => ?_) htold
  cases answer with
  | ok receipt =>
    rw [List.mem_singleton.mp hu']
    exact hu
  | error error => cases hu'

/-- If nothing was earned and no move was made, there are no messages. -/
theorem silent (h : Tells r next orderly deeds (some ([], []))) :
    deeds.flatMap Deed.messages = [] := by
  obtain ⟨hcommissions, hmoves⟩ := h.answer _ rfl
  rw [List.flatMap_eq_nil_iff] at hcommissions hmoves
  rw [h.messages, List.flatMap_eq_nil_iff]
  intro u hu
  rw [WorkUnit.notifications, hcommissions u hu, List.map_eq_nil_iff.mp (hmoves u hu)]
  rfl

end Tells

/-! ## The requests -/

namespace Service

open World (Renews rely_renews)

variable {s : Service} {r : Numbers} {next : ℕ} {orderly : WorkUnit → Prop} {w w' : World}
  {deeds : List Deed} {u u' : WorkUnit} {α : Type} {a : α}

theorem brings_startUnit {k : PromoterKey}
    (h : (startUnit k).Finishes (Renews r) w deeds u w') :
    Brings deeds [] [] ∧ Renews r w w' ∧ ∃ c, u = .start c := by
  have hR := rely_renews r
  obtain ⟨c, w₁, first, rest, rfl, hfirst, hrest⟩ := Finishes.of_bind h
  obtain ⟨v, -, hv, -, hw₁⟩ := Finishes.of_perform hR hfirst
  obtain ⟨rfl, rfl, hw'⟩ := Finishes.of_done hR hrest
  exact ⟨(brings_perform hfirst trivial).after .nil,
    hR.trans _ _ _ hv (hR.trans _ _ _ hw₁ hw'), c, rfl⟩

theorem brings_finish {b : α} (h : (finish u a).Finishes (Renews r) w deeds b w') :
    Brings deeds [] [] ∧ b = a ∧ w.ids.next ≤ w'.ids.next := by
  have hR := rely_renews r
  obtain ⟨_, w₁, first, rest, rfl, hfirst, hrest⟩ := Finishes.of_bind h
  obtain ⟨v, -, hv, -, hw₁⟩ := Finishes.of_perform hR hfirst
  obtain ⟨rfl, rfl, hw'⟩ := Finishes.of_done hR hrest
  exact ⟨(brings_perform hfirst trivial).after .nil, rfl,
    hv.ids.trans (hw₁.ids.trans hw'.ids)⟩

/-- The messages about a unit of work are handed over before its permits are given back. -/
theorem brings_offer {b : α} (h : (do
      perform (.offer u.notifications)
      finish u a : Procedure α).Finishes (Renews r) w deeds b w') :
    Brings deeds u.notifications [] ∧ b = a ∧ w.ids.next ≤ w'.ids.next := by
  have hR := rely_renews r
  obtain ⟨_, w₁, first, rest, rfl, hfirst, hrest⟩ := Finishes.of_bind h
  obtain ⟨v, rfl, hv, -, hw₁⟩ := Finishes.of_perform hR hfirst
  obtain ⟨hsilent, rfl, hw'⟩ := brings_finish hrest
  have hoffer : Brings [⟨v, .offer u.notifications⟩] u.notifications [] :=
    ⟨List.append_nil _, rfl⟩
  exact ⟨hoffer.after hsilent, rfl, hv.ids.trans (hw₁.ids.trans hw')⟩

/-- An event whose commit was answered: the messages are handed over if it was accepted. -/
theorem brings_settle {e : Event} {dispatch : DispatchReport} {answer : Except Error Receipt}
    {a : Except Error PublishOutcome}
    (h : (settle e dispatch u answer).Finishes (Renews r) w deeds a w') :
    Brings deeds ((u.accepted answer).flatMap WorkUnit.notifications) [] ∧
      a = answerTo e dispatch u answer ∧ w.ids.next ≤ w'.ids.next := by
  have hR := rely_renews r
  cases answer with
  | error error => exact brings_finish h
  | ok receipt =>
    have hnotes : (u.accepted (.ok receipt)).flatMap WorkUnit.notifications = u.notifications :=
      List.append_nil _
    rw [hnotes]
    simp only [settle] at h
    split at h
    · obtain ⟨_, w₁, first, rest, rfl, hfirst, hrest⟩ := Finishes.of_bind h
      obtain ⟨v, -, hv, -, hw₁⟩ := Finishes.of_perform hR hfirst
      obtain ⟨hoffer, rfl, hw'⟩ := brings_offer hrest
      exact ⟨(brings_perform hfirst trivial).before hoffer, rfl,
        hv.ids.trans (hw₁.ids.trans hw')⟩
    · exact brings_offer h

/-- What the answer to an event tells was committed with it. -/
theorem told_answerTo {e : Event} {dispatch : DispatchReport} {answer : Except Error Receipt} :
    ∀ x ∈ (Request.publish e).told (answerTo e dispatch u answer),
      (u.accepted answer).flatMap (·.commissions) = x.1 ∧
      (u.accepted answer).flatMap (fun u => u.transitions.map (·.transition)) = x.2 := by
  intro x hx
  cases answer with
  | ok receipt =>
    cases hx
    exact ⟨List.append_nil _, List.append_nil _⟩
  | error error =>
    have hx : ([], []) = x := by
      simp only [answerTo] at hx
      split at hx <;> exact Option.some.inj hx
    rw [← hx]
    exact ⟨rfl, rfl⟩

/-- An event from a producer is recorded. -/
theorem tells_record (hlimit : s.config.maxDepth.val < 255) (hextra : ∀ h ∈ s.extra, h.Observes r)
    {e : Event} (hspent : r.Spares e.id) (hother : e.isReport = false)
    (hfirst : r.first ≤ w.ids.next) (hw : w.IsFresh r) {a : Except Error PublishOutcome}
    (h : (s.record e).Finishes (Renews r) w deeds a w') (hnumbers : w'.ids.next ≤ r.limit) :
    Tells r w'.ids.next orderly deeds ((Request.publish e).told a) := by
  have hR := rely_renews r
  rw [record_eq] at h
  obtain ⟨known, w₁, first, rest, rfl, hread, hrest⟩ := Finishes.of_bind h
  obtain ⟨v, -, hv, -, hv'⟩ := Finishes.of_perform hR hread
  have hw₁ : Renews r w w₁ := hR.trans _ _ _ hv hv'
  refine .before (brings_perform hread trivial) ?_
  cases known with
  | true =>
    obtain ⟨rfl, rfl, -⟩ := Finishes.of_done hR hrest
    exact .nothing .nil
  | false =>
    rw [if_neg Bool.false_ne_true] at hrest
    obtain ⟨u, w₂, first, rest, rfl, hstart, hrest⟩ := Finishes.of_bind hrest
    obtain ⟨hsilent₁, hw₂, c, rfl⟩ := brings_startUnit hstart
    obtain ⟨⟨dispatch, u₁⟩, w₃, second, rest, rfl, hdispatch, hrest⟩ := Finishes.of_bind hrest
    obtain ⟨hsilent₂, -⟩ := brings_dispatch hextra hdispatch
    obtain ⟨⟨answer, u₂⟩, w₄, third, rest, rfl, hcommit, hrest⟩ := Finishes.of_bind hrest
    obtain ⟨hcommitted, hw₄, hcommissions, hevents⟩ := brings_commitDemoting hcommit
    obtain ⟨hoffer, rfl, hw'⟩ := brings_settle hrest
    have hfirst₂ : r.first ≤ w₂.ids.next := hfirst.trans (hw₁.ids.trans hw₂.ids)
    have hstart : (WorkUnit.start c).Reported r w₂.ids.next [] [e] :=
      .start rfl rfl hfirst₂ (List.forall_mem_singleton.mpr (hspent.spent hfirst₂))
        (List.forall_mem_singleton.mpr hother)
    obtain ⟨hreported, -⟩ := reported_dispatch hlimit hextra (by simp [hother])
      (hw₂.fresh (hw₁.fresh hw)) hstart hdispatch (hw₄.trans (hw'.trans hnumbers))
      (.inr (List.forall_mem_nil _)) (.inl (List.forall_mem_nil _))
    refine .before hsilent₁ (.before hsilent₂ (.of_commit hcommitted hoffer (fun _ => ?_)
      told_answerTo))
    exact (hreported.congr (hw₄.trans hw') hcommissions hevents).isToldBy

/-! ### Switches by hand -/

/-- A move made by hand is committed. -/
theorem tells_commitSwitch {c : Context} {k : PromoterKey} {t : Transition}
    {a : Except Error SwitchOutcome} {target : CircleId}
    (h : (s.commitSwitch c k t).Finishes (Renews r) w deeds a w') :
    Tells r next orderly deeds ((Request.switchCircle k target).told a) := by
  obtain ⟨answer, w₁, first, rest, rfl, hcommit, hrest⟩ := Finishes.of_bind h
  obtain ⟨hcommitted, -⟩ := brings_commit hcommit
  have htold := WorkUnit.isToldBy_of_no_commissions r next
    (rfl : (((WorkUnit.start c).holdPermit k).stageTransition ⟨t, none, none, 0⟩).commissions = [])
  cases answer with
  | error error =>
    obtain ⟨hsilent, rfl, -⟩ := brings_finish hrest
    refine .of_commit hcommitted hsilent (fun _ => htold) fun x hx => ?_
    cases hx
    exact ⟨rfl, rfl⟩
  | ok receipt =>
    obtain ⟨hoffer, rfl, -⟩ := brings_offer hrest
    refine .of_commit hcommitted ?_ (fun _ => htold) fun x hx => ?_
    · exact hoffer
    · cases hx
      exact ⟨rfl, rfl⟩

theorem tells_switchCircle {k : PromoterKey} {target : CircleId} {a : Except Error SwitchOutcome}
    (h : (s.switchCircle k target).Finishes (Renews r) w deeds a w') :
    Tells r next orderly deeds ((Request.switchCircle k target).told a) := by
  have hR := rely_renews r
  have hrelease : ∀ {w₁ : World} {rest : List Deed} {answer : Except Error SwitchOutcome},
      (do
        perform (.releasePermits [k])
        return answer : Procedure (Except Error SwitchOutcome)).Finishes (Renews r) w₁ rest a w' →
      Brings rest [] [] ∧ a = answer := by
    intro w₁ rest answer hrest
    obtain ⟨_, _, first, last, rfl, hfirst, hlast⟩ := Finishes.of_bind hrest
    obtain ⟨rfl, ha, -⟩ := Finishes.of_done hR hlast
    exact ⟨(brings_perform hfirst trivial).after .nil, ha⟩
  obtain ⟨acquired, w₁, first, rest, rfl, hacquire, hrest⟩ := Finishes.of_bind h
  refine .before (brings_perform hacquire trivial) ?_
  cases acquired with
  | false =>
    obtain ⟨rfl, rfl, -⟩ := Finishes.of_done hR hrest
    exact .nothing .nil
  | true =>
    obtain ⟨c, w₂, second, rest, rfl, hread, hrest⟩ := Finishes.of_bind hrest
    obtain ⟨now, w₃, third, rest, rfl, hnow, hrest⟩ := Finishes.of_bind hrest
    refine .before (brings_perform hread trivial) (.before (brings_perform hnow trivial) ?_)
    split at hrest
    · obtain ⟨hsilent, rfl⟩ := hrelease hrest
      exact .nothing hsilent
    · exact tells_commitSwitch hrest
    · obtain ⟨hsilent, rfl⟩ := hrelease hrest
      exact .nothing hsilent
    · obtain ⟨hsilent, rfl⟩ := hrelease hrest
      exact .nothing hsilent

end Service

end Referral
