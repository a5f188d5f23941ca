import Referral.Proofs.Identifiers
import Referral.Proofs.Instants
import Referral.Proofs.Members
import Referral.Wire.Failure
import Referral.Wire.Notification

/-!
# Wire forms are read back

Every record and variant is read back from its wire form, with the members of all objects in any
order, as long as its amounts and times have texts that are read back: those of the lowest amount
and of years without four digits are not. An event may lack what it does not carry, and the present
version; a failure record may lack the origin if that is an effect.
-/

namespace Referral

open Json

/-! ## Plain values -/

theorem Id.readsAs {e : Entity} (a : Id e) : a.toJson.ReadsAs Id.ofJson? a :=
  readsAs_str (by simp [Id.ofJson?, chars?, string?, Id.display])

/-- An amount whose text is read back. -/
def Money.Writable (m : Money) : Prop := m.units ≠ -9223372036854775808

theorem Money.readsAs {m : Money} (h : m.Writable) : m.toJson.ReadsAs Money.ofJson? m := by
  apply readsAs_str
  rw [Money.ofJson?, Money.read?, Money.display, String.toList_ofList, Money.read_text, if_neg h]
  rfl

theorem Percentage.readsAs (p : Percentage) : p.toJson.ReadsAs Percentage.ofJson? p := by
  have hwritable : p.percent.Writable := by
    simp only [Money.Writable, Percentage.percent]
    omega
  intro j hj
  rw [Percentage.ofJson?, Money.readsAs hwritable j hj, Option.map_some,
    Percentage.ofPercent_percent]

/-- An instant whose text is read back. -/
def Instant.Writable (i : Instant) : Prop := 0 ≤ i.year ∧ i.year ≤ 9999

theorem Instant.readsAs {i : Instant} (h : i.Writable) : i.toJson.ReadsAs Instant.ofJson? i :=
  readsAs_str (by simp [Instant.ofJson?, chars?, string?, Instant.display, read?_text h.1 h.2])

theorem EventKind.readsAs (k : EventKind) : k.toJson.ReadsAs EventKind.ofJson? k := by
  apply readsAs_str
  cases k <;> decide

theorem CommissionKind.readsAs (k : CommissionKind) (buffered : Bool) :
    k.toJson.ReadsAs (CommissionKind.ofJson? buffered) k := by
  apply readsAs_str
  cases k <;> cases buffered <;> decide

/-! ## Circles and moves -/

theorem Circle.readsAs (c : Circle) : c.toJson.ReadsAs Circle.ofJson? c := by
  intro j hj
  refine Fields.bind_of?_all rfl (by decide) hj fun f h => ?_
  simp only [Option.bind_eq_bind, Option.bind_some,
    h.kept "circle_id" (by simp) c.id.readsAs,
    h.kept "program_id" (by simp) c.program.readsAs,
    h.kept "name" (by simp) (readsAs_string c.name),
    h.kept "is_default" (by simp) (readsAs_bool c.isDefault)]

/-- An identifier that may be missing. -/
theorem readsAs_ofId {e : Entity} (o : Option (Id e)) :
    (ofOption Id.toJson o).ReadsAs (Fields.nullable Id.ofJson?) o :=
  readsAs_ofOption rfl fun a _ => a.readsAs

theorem Transition.readsAs {t : Transition} (htime : t.time.Writable) :
    t.toJson.ReadsAs Transition.ofJson? t := by
  intro j hj
  refine Fields.bind_of?_all rfl (by decide) hj fun f h => ?_
  simp only [Option.bind_eq_bind, Option.bind_some,
    h.kept "program_id" (by simp) t.program.readsAs,
    h.kept "promoter_id" (by simp) t.promoter.readsAs,
    h.optional "from" (by simp) List.not_mem_nil (readsAs_ofId t.source),
    h.kept "to" (by simp) t.target.readsAs,
    h.kept "at" (by simp) (Instant.readsAs htime)]

theorem Tagged.name?_str {names : List String} {tag : String} (h : tag ∈ names) (buffered : Bool)
    (rest : Json) : Tagged.name? names buffered ⟨.str tag, rest⟩ = some tag := by
  simp [Tagged.name?, h]

/-! ## Rules -/

theorem Parameter.readsAs (p : Parameter) :
    (str p.name).ReadsAs (fun j => (j.variantName? false).bind Parameter.ofName?) p := by
  apply readsAs_str
  cases p <;> decide

theorem Operator.readsAs (o : Operator) :
    (str o.name).ReadsAs (fun j => (j.variantName? false).bind Operator.ofName?) o := by
  apply readsAs_str
  cases o <;> decide

theorem Condition.readsAs (c : Condition) : c.toJson.ReadsAs Condition.ofJson? c := by
  intro j hj
  refine Fields.bind_of?_all rfl (by decide) hj fun f h => ?_
  simp only [Option.bind_eq_bind, Option.bind_some,
    h.kept "parameter" (by simp) c.parameter.readsAs,
    h.kept "operator" (by simp) c.operator.readsAs,
    h.kept "value" (by simp) (readsAs_string c.value)]

/-- A specification whose amount has a text that is read back. -/
def CommissionSpec.Writable : CommissionSpec → Prop
  | percentage _ => True
  | fixed amount => amount.Writable

theorem CommissionSpec.readsAs {s : CommissionSpec} (hs : s.Writable) (buffered : Bool) :
    s.toJson.ReadsAs (CommissionSpec.ofJson? buffered) s := by
  intro j hj
  cases s with
  | percentage share =>
    have hform : (obj [("type", .str "PERCENTAGE"), ("value", share.toJson)]).Alike j := hj
    refine Tagged.bind_of? (by simp) (by simp [Percentage.toJson, Money.toJson, isReadable]) hform
      fun rest hrest => ?_
    refine Fields.bind_of?_all rfl (by decide) hrest fun f h => ?_
    rw [Tagged.name?_str (by simp), Option.bind_eq_bind, Option.bind_some,
      h.kept "value" (by simp) share.readsAs]
    rfl
  | fixed amount =>
    have hform : (obj [("type", .str "FIXED"), ("value", amount.toJson)]).Alike j := hj
    refine Tagged.bind_of? (by simp) (by simp [Money.toJson, isReadable]) hform fun rest hrest => ?_
    refine Fields.bind_of?_all rfl (by decide) hrest fun f h => ?_
    rw [Tagged.name?_str (by simp), Option.bind_eq_bind, Option.bind_some,
      h.kept "value" (by simp) (Money.readsAs hs)]
    rfl

theorem CommissionSpec.isReadable_toJson (s : CommissionSpec) : s.toJson.isReadable = true := by
  cases s <;> simp [toJson, CommissionKind.toJson, Percentage.toJson, Money.toJson, isReadable,
    areReadableMembers]

/-- An effect whose amount, if it has one, has a text that is read back. -/
def Effect.Writable : Effect → Prop
  | generateCommission spec => spec.Writable
  | switchCircle _ => True

theorem Effect.readsAs {e : Effect} (he : e.Writable) : e.toJson.ReadsAs Effect.ofJson? e := by
  intro j hj
  cases e with
  | generateCommission spec =>
    refine Tagged.bind_of? (by simp) (by simp [CommissionSpec.isReadable_toJson]) hj
      fun rest hrest => ?_
    rw [Tagged.name?_str (by simp)]
    refine Fields.bind_of?_all rfl (by decide) hrest fun f h => ?_
    rw [h.kept "commission" (by simp) (CommissionSpec.readsAs he true)]
    rfl
  | switchCircle target =>
    refine Tagged.bind_of? (by simp) (by simp [Id.toJson, isReadable]) hj fun rest hrest => ?_
    rw [Tagged.name?_str (by simp)]
    refine Fields.bind_of?_all rfl (by decide) hrest fun f h => ?_
    rw [h.kept "target_circle_id" (by simp) target.readsAs]
    rfl

theorem readsAs_conditions (cs : List Condition) :
    (ofList Condition.toJson cs).ReadsAs (listOf? Condition.ofJson?) cs :=
  readsAs_ofList fun c _ => c.readsAs

/-- A rule whose effect can be written. -/
def Rule.Writable (r : Rule) : Prop := r.effect.Writable

theorem Rule.readsAs {r : Rule} (hr : r.Writable) : r.toJson.ReadsAs Rule.ofJson? r := by
  intro j hj
  refine Fields.bind_of?_all rfl (by decide) hj fun f h => ?_
  simp only [Option.bind_eq_bind, Option.bind_some,
    h.kept "rule_id" (by simp) r.id.readsAs,
    h.kept "program_id" (by simp) r.program.readsAs,
    h.kept "name" (by simp) (readsAs_string r.name),
    h.kept "trigger" (by simp) r.trigger.readsAs,
    h.optional "circle_id" (by simp) List.not_mem_nil (readsAs_ofId r.circle),
    h.kept "conditions" (by simp) (readsAs_conditions r.conditions),
    h.kept "effect" (by simp) (Effect.readsAs hr),
    h.kept "active" (by simp) (readsAs_bool r.active)]

/-! ## Events -/

/-- An event whose amounts and time have texts that are read back. -/
structure Event.Writable (e : Event) : Prop where
  amount : ∀ m, e.amount = some m → m.Writable
  revenue : ∀ m, e.revenue = some m → m.Writable
  occurredAt : e.occurredAt.Writable

/-- The members that the wire form of an event may lack: what the event does not carry, and the
present version. -/
def Event.MayOmit (e : Event) : String → Prop
  | "event_version" => e.version = currentVersion
  | "amount" => e.amount = none
  | "revenue" => e.revenue = none
  | "external_id" => e.externalId = none
  | "item_id" => e.itemId = none
  | "triggered_by" => e.triggeredBy = none
  | "causation_id" => e.causation = none
  | _ => False

theorem Event.readsAs {e : Event} (he : e.Writable) {dropped : List String}
    (hdropped : ∀ name ∈ dropped, e.MayOmit name) :
    (e.toJson.without dropped).ReadsAs Event.ofJson? e := by
  intro j hj
  have hkept : ∀ name, ¬ e.MayOmit name → name ∉ dropped :=
    fun name hnot hmem => hnot (hdropped name hmem)
  refine Fields.bind_of? rfl (by decide) hj fun f h => ?_
  have hversion : f.withDefault "event_version" currentVersion word? = some e.version :=
    h.withDefault _ (by simp) (fun hname => (hdropped _ hname).symm) (readsAs_word e.version)
  have hamount := h.withNone "amount" (by simp) (hdropped _)
    (readsAs_ofOption rfl fun m hm => Money.readsAs (he.amount m hm))
  have hrevenue := h.withNone "revenue" (by simp) (hdropped _)
    (readsAs_ofOption rfl fun m hm => Money.readsAs (he.revenue m hm))
  have hexternalId := h.withNone "external_id" (by simp) (hdropped _)
    (readsAs_ofOption rfl fun s (_ : e.externalId = some s) => readsAs_string s)
  have hitemId := h.withNone "item_id" (by simp) (hdropped _)
    (readsAs_ofOption rfl fun s (_ : e.itemId = some s) => readsAs_string s)
  have htriggeredBy := h.withNone "triggered_by" (by simp) (hdropped _)
    (readsAs_ofOption rfl fun k (_ : e.triggeredBy = some k) => k.readsAs)
  have hcausation := h.withNone "causation_id" (by simp) (hdropped _) (readsAs_ofId e.causation)
  simp only [Option.bind_eq_bind, Option.bind_some, hversion, hamount, hrevenue, hexternalId,
    hitemId, htriggeredBy, hcausation,
    h.required "event_id" (by simp) (hkept _ (by simp [MayOmit])) e.id.readsAs,
    h.required "event_type" (by simp) (hkept _ (by simp [MayOmit])) e.kind.readsAs,
    h.required "program_id" (by simp) (hkept _ (by simp [MayOmit])) e.program.readsAs,
    h.required "promoter_id" (by simp) (hkept _ (by simp [MayOmit])) e.promoter.readsAs,
    h.required "contact_id" (by simp) (hkept _ (by simp [MayOmit])) e.contact.readsAs,
    h.required "link_id" (by simp) (hkept _ (by simp [MayOmit])) e.link.readsAs,
    h.required "correlation_id" (by simp) (hkept _ (by simp [MayOmit])) e.correlation.readsAs,
    h.required "occurred_at" (by simp) (hkept _ (by simp [MayOmit]))
      (Instant.readsAs he.occurredAt)]

/-! ## Commissions -/

/-- A commission whose amount and time have texts that are read back. -/
structure Commission.Writable (c : Commission) : Prop where
  amount : c.amount.Writable
  createdAt : c.createdAt.Writable

theorem Commission.readsAs {c : Commission} (hc : c.Writable) (buffered : Bool) :
    c.toJson.ReadsAs (Commission.ofJson? buffered) c := by
  intro j hj
  refine Fields.bind_of?_all rfl (by decide) hj fun f h => ?_
  simp only [Option.bind_eq_bind, Option.bind_some,
    h.kept "commission_id" (by simp) c.id.readsAs,
    h.kept "program_id" (by simp) c.program.readsAs,
    h.kept "promoter_id" (by simp) c.promoter.readsAs,
    h.kept "contact_id" (by simp) c.contact.readsAs,
    h.kept "link_id" (by simp) c.link.readsAs,
    h.kept "rule_id" (by simp) c.rule.readsAs,
    h.kept "source_event_id" (by simp) c.source.readsAs,
    h.kept "amount" (by simp) (Money.readsAs hc.amount),
    h.kept "kind" (by simp) (c.kind.readsAs buffered),
    h.kept "created_at" (by simp) (Instant.readsAs hc.createdAt)]

/-! ## Failure records -/

theorem Tagged.isBare_of_alike {tag : Json} {ms : List (String × Json)} {rest : Json}
    (h : (obj ms).Alike rest) : Tagged.isBare ⟨tag, rest⟩ = true := by
  obtain ⟨ms', rfl, -⟩ := alike_obj_iff.mp h
  rfl

theorem Origin.readsAs (o : Origin) : o.toJson.ReadsAs Origin.ofJson? o := by
  intro j hj
  cases o with
  | handler name =>
    refine Tagged.bind_of? (by simp) (by simp [isReadable]) hj fun rest hrest => ?_
    rw [Tagged.name?_str (by simp)]
    refine Fields.bind_of?_all rfl (by decide) hrest fun f h => ?_
    rw [h.kept "name" (by simp) (readsAs_string name)]
    rfl
  | _ =>
    refine Tagged.bind_of? (by simp) (by simp) hj fun rest hrest => ?_
    rw [Tagged.name?_str (by simp), Option.bind_eq_bind, Option.bind_some]
    exact if_pos (Tagged.isBare_of_alike hrest)

/-- A failure record whose effect and time can be written. -/
structure Failure.Writable (f : Failure) : Prop where
  effect : ∀ effect, f.effect = some effect → effect.Writable
  recordedAt : f.recordedAt.Writable

theorem Failure.readsAs {x : Failure} (hx : x.Writable) {dropped : List String}
    (hdropped : ∀ name ∈ dropped, name = "origin" ∧ x.origin = .effect) :
    (x.toJson.without dropped).ReadsAs Failure.ofJson? x := by
  intro j hj
  have hkept : ∀ name, name ≠ "origin" → name ∉ dropped :=
    fun name hne hmem => hne (hdropped name hmem).1
  refine Fields.bind_of? rfl (by decide) hj fun f h => ?_
  have horigin : f.withDefault "origin" .effect Origin.ofJson? = some x.origin :=
    h.withDefault _ (by simp) (fun hn => (hdropped _ hn).2.symm) x.origin.readsAs
  have heffect := h.optional "effect" (by simp) (hkept _ (by simp))
    (readsAs_ofOption rfl fun effect heffect => Effect.readsAs (hx.effect effect heffect))
  simp only [Option.bind_eq_bind, Option.bind_some, horigin, heffect,
    h.required "failure_id" (by simp) (hkept _ (by simp)) x.id.readsAs,
    h.optional "event_id" (by simp) (hkept _ (by simp)) (readsAs_ofId x.event),
    h.required "program_id" (by simp) (hkept _ (by simp)) x.program.readsAs,
    h.required "promoter_id" (by simp) (hkept _ (by simp)) x.promoter.readsAs,
    h.optional "rule_id" (by simp) (hkept _ (by simp)) (readsAs_ofId x.rule),
    h.required "kind" (by simp) (hkept _ (by simp)) (readsAs_string x.kind),
    h.required "message" (by simp) (hkept _ (by simp)) (readsAs_string x.message),
    h.required "depth" (by simp) (hkept _ (by simp)) (readsAs_depth x.depth),
    h.required "recorded_at" (by simp) (hkept _ (by simp)) (Instant.readsAs hx.recordedAt),
    h.required "attempts" (by simp) (hkept _ (by simp)) (readsAs_word x.attempts),
    h.required "resolved" (by simp) (hkept _ (by simp)) (readsAs_bool x.resolved)]

/-! ## Notifications -/

/-- A message about what can be written. -/
def Notification.Writable : Notification → Prop
  | commissionGenerated c _ _ => c.Writable
  | circleSwitched t => t.time.Writable

theorem Commission.isReadable_toJson (c : Commission) : c.toJson.isReadable = true := by
  simp [toJson, Id.toJson, Money.toJson, Instant.toJson, CommissionKind.toJson, isReadable,
    areReadableMembers]

theorem Transition.isReadable_toJson (t : Transition) : t.toJson.isReadable = true := by
  cases hsource : t.source <;>
    simp [toJson, hsource, Id.toJson, Instant.toJson, ofOption, isReadable, areReadableMembers]

theorem Notification.readsAs {n : Notification} (hn : n.Writable) :
    n.toJson.ReadsAs Notification.ofJson? n := by
  intro j hj
  cases n with
  | commissionGenerated c event correlation =>
    refine Tagged.bind_of? (by simp)
      (by simp [Commission.isReadable_toJson, Id.toJson, isReadable]) hj fun rest hrest => ?_
    rw [Tagged.name?_str (by simp)]
    refine Fields.bind_of?_all rfl (by decide) hrest fun f h => ?_
    rw [h.kept "commission" (by simp) (Commission.readsAs hn true),
      h.kept "event_id" (by simp) event.readsAs,
      h.kept "correlation_id" (by simp) correlation.readsAs]
    rfl
  | circleSwitched t =>
    refine Tagged.bind_of? (by simp) (by simp [Transition.isReadable_toJson]) hj
      fun rest hrest => ?_
    rw [Tagged.name?_str (by simp)]
    refine Fields.bind_of?_all rfl (by decide) hrest fun f h => ?_
    rw [h.kept "transition" (by simp) (Transition.readsAs hn)]
    rfl

/-! ## All records -/

/-- Events, rules, circles, commissions, failure records and messages are read back from their wire
forms if their amounts and times have texts that are read back. Members may stand in any order, and
an event or a failure record may lack what is read as it is when missing. -/
theorem wire_forms_read_back :
    (∀ e : Event, e.Writable → ∀ dropped, (∀ name ∈ dropped, e.MayOmit name) →
      ∀ j, (e.toJson.without dropped).Alike j → Event.ofJson? j = some e) ∧
    (∀ r : Rule, r.Writable → ∀ j, r.toJson.Alike j → Rule.ofJson? j = some r) ∧
    (∀ c : Circle, ∀ j, c.toJson.Alike j → Circle.ofJson? j = some c) ∧
    (∀ c : Commission, c.Writable → ∀ buffered j, c.toJson.Alike j →
      Commission.ofJson? buffered j = some c) ∧
    (∀ x : Failure, x.Writable → ∀ dropped,
      (∀ name ∈ dropped, name = "origin" ∧ x.origin = .effect) →
      ∀ j, (x.toJson.without dropped).Alike j → Failure.ofJson? j = some x) ∧
    (∀ n : Notification, n.Writable → ∀ j, n.toJson.Alike j → Notification.ofJson? j = some n) :=
  ⟨fun _ he _ => Event.readsAs he, fun _ => Rule.readsAs, Circle.readsAs,
    fun _ => Commission.readsAs, fun _ hx _ => Failure.readsAs hx, fun _ => Notification.readsAs⟩

/-- A purchase of the present version that names an item and nothing else is read without its other
members, with the time first. -/
theorem wire_forms_read_back_purchase :
    let time : Instant := ⟨951782399, 1500000000, by decide, by decide, by decide⟩
    let purchase : Event := { Event.plain .purchase ⟨1⟩ ⟨2⟩ ⟨3⟩ ⟨4⟩ ⟨5⟩ ⟨6⟩ time with
      itemId := some "book" }
    let written : Json := .obj [("occurred_at", .str "2000-02-28T23:59:60.500Z"),
      ("event_id", (⟨1⟩ : EventId).toJson), ("event_type", .str "PURCHASE"),
      ("program_id", (⟨3⟩ : ProgramId).toJson), ("promoter_id", (⟨4⟩ : PromoterId).toJson),
      ("contact_id", (⟨5⟩ : ContactId).toJson), ("link_id", (⟨6⟩ : LinkId).toJson),
      ("item_id", .str "book"), ("correlation_id", (⟨2⟩ : CorrelationId).toJson)]
    purchase.Writable ∧ Event.ofJson? written = some purchase := by
  intro time purchase written
  have htime : time.Writable := ⟨by decide, by decide⟩
  have hwritable : purchase.Writable := by
    refine ⟨?_, ?_, htime⟩ <;> simp [purchase, Event.plain]
  let dropped := ["event_version", "amount", "revenue", "external_id", "triggered_by",
    "causation_id"]
  have hdropped : ∀ name ∈ dropped, purchase.MayOmit name := by
    simp [dropped, Event.MayOmit, purchase, Event.plain]
  have hleft : purchase.toJson.without dropped = .obj ([("event_id", (⟨1⟩ : EventId).toJson),
      ("event_type", .str "PURCHASE"), ("program_id", (⟨3⟩ : ProgramId).toJson),
      ("promoter_id", (⟨4⟩ : PromoterId).toJson), ("contact_id", (⟨5⟩ : ContactId).toJson),
      ("link_id", (⟨6⟩ : LinkId).toJson), ("item_id", .str "book"),
      ("correlation_id", (⟨2⟩ : CorrelationId).toJson)] ++
        [("occurred_at", .str "2000-02-28T23:59:60.500Z")]) := by
    have htext : time.display = "2000-02-28T23:59:60.500Z" := by decide
    simp [without, purchase, Event.plain, Event.toJson, Event.currentVersion, dropped,
      Instant.toJson, htext, EventKind.toJson, EventKind.name, ofOption]
  have halike : (purchase.toJson.without dropped).Alike written := by
    rw [hleft]
    exact .obj rfl (List.forall₂_same.mpr fun j _ => .refl j) List.perm_append_comm
  exact ⟨hwritable, wire_forms_read_back.1 purchase hwritable dropped hdropped written halike⟩

end Referral
