import Referral.Intake
import Referral.Proofs.Identifiers
import Referral.Proofs.RetryEndings
import Referral.Wire.Event

/-!
# Messages from outside

A message comes under a subject that names a program, and has bytes that may or may not be those of
an event. Whatever the root of the subjects is, the program of a subject is found again. A message
does nothing at all unless its bytes are an event of that program that may be published, and changes
nothing that is stored unless that event is committed.
-/

namespace Referral

/-! ## Subjects -/

namespace Subjects

variable {subjects : Subjects} {p : ProgramId}

/-- A program is found in a subject just if its identifier stands between the root with a point and
another point. -/
theorem programOf?_eq_some {subject : String} : subjects.programOf? subject = some p ↔
    ∃ name rest, subject.toList = subjects.root.toList ++ '.' :: (name ++ '.' :: rest) ∧
      p.Written name := by
  simp only [programOf?, Option.bind_eq_bind, Option.bind_eq_some_iff, Text.dropLead?_eq_some,
    Id.read?_eq_some]
  constructor
  · rintro ⟨afterRoot, hroot, afterPoint, hpoint, ⟨name, rest⟩, hcut, hname⟩
    obtain ⟨rfl, -⟩ := Text.cutAt?_eq_some hcut
    exact ⟨name, rest, by rw [hroot, hpoint, List.singleton_append], hname⟩
  · rintro ⟨name, rest, hsubject, hname⟩
    exact ⟨_, hsubject, _, rfl, (name, rest), Text.cutAt?_append hname.not_mem_point, hname⟩

theorem programOf?_subject (subjects : Subjects) (p : ProgramId) (topic : Topic) :
    subjects.programOf? (subjects.subject p topic) = some p :=
  programOf?_eq_some.mpr ⟨p.text, topic.text.toList, by simp [subject, Id.display], p.written_text⟩

end Subjects

/-! ## Procedures whose answer is changed -/

namespace Procedure

variable {α β : Type} {w w' : World} {R : World → World → Prop}

/-- A step of a procedure whose answer will be changed is one of the procedure itself. -/
theorem Step.of_map {f : α → β} {p : Procedure α} {q : Procedure β}
    (h : (f <$> p).Step w q w') : ∃ p', p.Step w p' w' ∧ q = f <$> p' := by
  cases p with
  | done a => cases h
  | act action next =>
    cases h with
    | act hready => exact ⟨_, .act hready, rfl⟩
  | both first second next =>
    cases h with
    | first hstep => exact ⟨_, .first hstep, rfl⟩
    | second hstep => exact ⟨_, .second hstep, rfl⟩
    | join => exact ⟨_, .join, rfl⟩

theorem Amid.of_map {f : α → β} {p : Procedure α} {q : Procedure β} {n : ℕ}
    (h : (f <$> p).Amid R w n q w') : ∃ p', p.Amid R w n p' w' ∧ q = f <$> p' := by
  induction h with
  | start => exact ⟨p, .start, rfl⟩
  | others _ hchange ih =>
    obtain ⟨p', hrun, hq⟩ := ih
    exact ⟨p', .others hrun hchange, hq⟩
  | own _ hstep ih =>
    obtain ⟨p', hrun, rfl⟩ := ih
    obtain ⟨p'', hown, hq⟩ := hstep.of_map
    exact ⟨p'', .own hrun hown, hq⟩

/-- What has ended with a changed answer has ended with an answer. -/
theorem eq_done_of_map {f : α → β} {p : Procedure α} {b : β} (h : f <$> p = .done b) :
    ∃ a, p = .done a := by
  cases p with
  | done a => exact ⟨a, rfl⟩
  | act action next => cases h
  | both first second next => cases h

end Procedure

namespace Service

open Procedure World

variable {s : Service} {w : World} {e : Event}

/-! ## Publishing comes to an end -/

/-- With the built-in handlers alone, all that is staged for an event is of its program. -/
theorem ends_dispatch (s : Service) (w : World) (e : Event) :
    (s.dispatch (.start (w.store.context e.promoterKey)) 0 e).Ends (fun a w' =>
      (s.extra = [] → ∀ g ∈ a.2.events, g.program = e.program) ∧ w'.store = w.store) w := by
  refine ends_perform (fun _ _ => rfl) fun w₁ w₂ h₁ h₂ => ⟨fun hbuiltIn g hg => ?_, ?_⟩
  · have hlinks := (belongs_dispatched hbuiltIn w₁ e w₁.now).2.links
    rw [← h₁.store_eq] at hg
    exact congrArg LinkKey.program (hlinks g (List.mem_append_left _ hg))
  · exact h₂.store_eq.trans h₁.store_eq

/-- With the built-in handlers alone, all that was logged in between is of the program. -/
def LogsOnly (s : Service) (p : ProgramId) (store store' : Store) : Prop :=
  s.extra = [] → ∀ g ∈ store'.facts, g ∈ store.facts ∨ g.program = p

theorem logsOnly_of_facts_eq {p : ProgramId} {store store' : Store}
    (h : store'.facts = store.facts) : s.LogsOnly p store store' := fun _ _ hg => .inl (h ▸ hg)

/-- However the store answers to a commit, only the events of the unit are logged. -/
theorem logsOnly_of_answers {p : ProgramId} {store store' : Store} {u : WorkUnit}
    {answer : Except Error Receipt} (hstaged : s.extra = [] → ∀ g ∈ u.events, g.program = p)
    (h : store.Answers u answer store') : s.LogsOnly p store store' := by
  obtain ⟨mid, now, hmid, hcommit⟩ := h
  have hfacts : mid.facts = store.facts := by
    obtain ⟨failing, -, rfl⟩ := hmid
    rfl
  cases answer with
  | error error =>
    obtain ⟨failing, -, rfl⟩ := hmid.refuse hcommit
    exact logsOnly_of_facts_eq rfl
  | ok receipt =>
    obtain ⟨-, -, book, -, rfl⟩ := Store.commit_of_ok hcommit
    intro hbuiltIn g hg
    rw [Store.facts_write, hfacts] at hg
    exact (List.mem_append.mp hg).imp_right (hstaged hbuiltIn g)

theorem ends_record_logsOnly (s : Service) (w : World) (e : Event) : (s.record e).Ends
    (fun _ w' => s.LogsOnly e.program w.store w'.store) w := by
  rw [record_eq]
  refine (ends_read _).bind ?_
  rintro known w₁ ⟨-, h₁⟩
  rw [← h₁.store_eq]
  cases known with
  | true =>
    exact ends_pure (R := fun _ store' => s.LogsOnly e.program w₁.store store')
      (logsOnly_of_facts_eq rfl)
  | false =>
    rw [if_neg Bool.false_ne_true]
    unfold recordNew
    refine (ends_startUnit e.promoterKey).bind ?_
    rintro _ w₂ ⟨rfl, h₂⟩
    rw [← h₂.store_eq]
    refine (s.ends_dispatch w₂ e).bind ?_
    rintro ⟨report, u⟩ w₃ ⟨hstaged, h₃⟩
    rw [← h₃]
    refine (ends_commitDemoting_spared (.refl _)).bind ?_
    rintro ⟨answer, u'⟩ w₄ ⟨haccepts, hanswers⟩
    refine (ends_settle e report u' answer w₄).weaken ?_
    rintro _ w₅ ⟨-, h₅⟩
    rw [h₅]
    exact logsOnly_of_answers (fun h => haccepts.events_eq ▸ hstaged h) hanswers

/-- While nobody holds or awaits the locks of an event, its publication comes to an end. -/
theorem ends_publish_logsOnly (s : Service) (hlocks : ∀ k ∈ e.lockKeys, w.locks.queue k = []) :
    (s.publish e).Ends (fun _ w' => s.LogsOnly e.program w.store w'.store) w := by
  unfold publish
  split
  · exact ends_pure (R := fun _ store' => s.LogsOnly e.program w.store store')
      (logsOnly_of_facts_eq rfl)
  · refine ends_withLocks (R := fun _ store' => s.LogsOnly e.program w.store store')
      (nodup_sortedKeys _) hlocks fun w' hw' => ?_
    rw [← hw'.store_eq]
    exact s.ends_record_logsOnly w' e

/-! ## Messages -/

variable {p : ProgramId}

theorem receive_of_program (s : Service) (hp : e.program = p) :
    s.receive (some p) (some e) = (fun _ => ()) <$> s.publish e := by
  simp [receive, hp]

/-- Nothing is done about a message without an event of its program that may be published. -/
theorem receive_eq_pure (s : Service) {event : Option Event}
    (h : ¬ ∃ e, event = some e ∧ e.program = p ∧ accept e = .ok ()) :
    s.receive (some p) event = pure () := by
  cases event with
  | none => rfl
  | some e =>
    by_cases hp : e.program = p
    · cases haccept : accept e with
      | ok _ => exact absurd ⟨e, rfl, hp, haccept⟩ h
      | error error =>
        rw [s.receive_of_program hp, publish, haccept]
        rfl
    · simp [receive, Ne.symm hp]

/-- Whatever the root is, the program of a subject is found again, and a program is found only
between the root with a point and another point, as one of the texts of its identifier. So a message
under the subject of a program, with any bytes, does nothing, even among others, unless they are an
event of that program that may be published; left to itself it changes nothing that is stored unless
that event is committed; and it comes to an end once the locks of the event are free, after which
the built-in handlers have logged nothing of any other program. -/
theorem receive_keeps_to_program (subjects : Subjects) :
    (∀ p topic, subjects.programOf? (subjects.subject p topic) = some p) ∧
    (∀ subject p, subjects.programOf? subject = some p ↔
      ∃ name rest, subject.toList = subjects.root.toList ++ '.' :: (name ++ '.' :: rest) ∧
        p.Written name) ∧
    ∀ (s : Service) (p : ProgramId) (payload : List UInt8) (w : World),
      let message := s.receive (subjects.programOf? (subjects.subject p .ingest))
        (Event.ofBytes? payload)
      ((¬ ∃ e, Event.ofBytes? payload = some e ∧ e.program = p ∧ accept e = .ok ()) →
        message = pure ()) ∧
      (∀ n w', message.Amid World.Passes w n (.done ()) w' →
        w.store.Spared w'.store ∨
        ∃ e report, Event.ofBytes? payload = some e ∧ e.program = p ∧
          (s.publish e).Amid World.Passes w n (.done (.ok (.committed report))) w') ∧
      ((∀ e, Event.ofBytes? payload = some e → ∀ k ∈ e.lockKeys, w.locks.queue k = []) →
        message.Ends (fun _ w' => s.LogsOnly p w.store w'.store) w) := by
  refine ⟨subjects.programOf?_subject, fun subject p => Subjects.programOf?_eq_some, ?_⟩
  intro s p payload w message
  have hmessage : message = s.receive (some p) (Event.ofBytes? payload) := by
    simp only [message, Subjects.programOf?_subject]
  clear_value message
  subst hmessage
  by_cases hevent : ∃ e, Event.ofBytes? payload = some e ∧ e.program = p ∧ accept e = .ok ()
  · obtain ⟨e, hread, hp, haccept⟩ := hevent
    rw [hread, s.receive_of_program hp]
    refine ⟨fun h => absurd ⟨e, rfl, hp, haccept⟩ h, fun n w' hrun => ?_, fun hlocks => ?_⟩
    · obtain ⟨rest, hpublish, hdone⟩ := hrun.of_map
      obtain ⟨answer, rfl⟩ := eq_done_of_map hdone.symm
      rcases (publish_spares w e).amid rely_passes hpublish w' (.refl w')
        with ⟨report, rfl⟩ | hspared
      · exact .inr ⟨e, report, rfl, hp, hpublish⟩
      · exact .inl hspared
    · refine (s.ends_publish_logsOnly (hlocks e rfl)).bind fun _ w' hw' => ?_
      exact ends_pure (R := fun _ store' => s.LogsOnly p w.store store') (hp ▸ hw')
  · rw [s.receive_eq_pure hevent]
    have hends : (pure () : Procedure Unit).Ends (fun _ w' => w'.store = w.store) w :=
      ends_pure (R := fun _ store' => store' = w.store) rfl
    refine ⟨fun _ => rfl, fun n w' hrun => ?_, fun _ => hends.weaken fun _ w' hw' => ?_⟩
    · have hsame : w'.store = w.store := hends.amid hrun w' (.refl w')
      exact .inl (hsame ▸ .refl _)
    · exact logsOnly_of_facts_eq (hw' ▸ rfl)

/-- Under a root that looks like a subject itself, bytes that are no event are dropped. -/
theorem receive_keeps_to_program_number :
    let subjects : Subjects := ⟨"events.00000000-0000-0000-0000-000000000001.x"⟩
    subjects.programOf? (subjects.subject ⟨2⟩ .ingest) = some ⟨2⟩ ∧
      Event.ofBytes? [0x37] = none ∧
      (Service.mk .default []).receive (subjects.programOf? (subjects.subject ⟨2⟩ .ingest))
        (Event.ofBytes? [0x37]) = pure () := by
  intro subjects
  obtain ⟨hsubject, -, hmessages⟩ := receive_keeps_to_program subjects
  have hnone : Event.ofBytes? [0x37] = none := by decide +kernel
  have hmessage := hmessages ⟨.default, []⟩ ⟨2⟩ [0x37]
    (.start ⟨0, 0, by decide, by decide, by decide⟩ ⟨100⟩)
  refine ⟨hsubject ⟨2⟩ .ingest, hnone, hmessage.1 ?_⟩
  rintro ⟨e, he, -⟩
  rw [hnone] at he
  cases he

end Service

end Referral
