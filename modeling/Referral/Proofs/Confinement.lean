import Referral.Proofs.Publishing
import Referral.Proofs.Records
import Referral.Proofs.Recording

/-!
# What a publication leaves alone

All that a publication adds to the store belongs to the program and the promoter of its event, and
what it adds to the log has the link, the contact and the correlation of that event too. The totals
of others, their memberships, and all earlier records stay as they are.
-/

namespace Referral

/-! ## Merged books -/

/-- Values that are added at some keys leave the other keys alone. -/
theorem OrderedMap.get?_addAll {κ ν : Type} [Ranked κ] [DecidableEq κ] [Summable ν]
    {name : κ → String} {es : List (κ × ν)} {m m' : OrderedMap κ ν} {k : κ}
    (h : m.addAll name es = .ok m') (hk : ∀ e ∈ es, e.1 ≠ k) : m'.get? k = m.get? k := by
  induction es generalizing m with
  | nil =>
    cases h
    rfl
  | cons e es ih =>
    obtain ⟨j, v⟩ := e
    rw [List.forall_mem_cons] at hk
    unfold addAll at h
    split at h
    · rename_i m₁ hadd
      obtain ⟨sum, -, rfl⟩ := Option.map_eq_some_iff.mp hadd
      rw [ih h hk.2, get?_insert, if_neg (Ne.symm hk.1)]
    · cases h

/-- Two books agree on all totals that are not those of an event. -/
structure Book.AgreeBeside (e : Event) (b b' : Book) : Prop where
  promoters : ∀ k, k ≠ e.promoterKey → b'.promoters.get? k = b.promoters.get? k
  promoterDays : ∀ k, k.1 ≠ e.promoterKey → b'.promoterDays.get? k = b.promoterDays.get? k
  links : ∀ k, k ≠ e.linkKey → b'.links.get? k = b.links.get? k
  linkDays : ∀ k, k.1 ≠ e.linkKey → b'.linkDays.get? k = b.linkDays.get? k

theorem Book.Confined.agreeBeside {b b' delta : Book} {e : Event} (h : delta.Confined e)
    (hmerge : b.merge delta = .ok b') : b.AgreeBeside e b' := by
  obtain ⟨hpromoters, hpromoterDays, hlinks, hlinkDays⟩ := merge_eq_ok.mp hmerge
  constructor
  · refine fun k hk => OrderedMap.get?_addAll hpromoters fun entry hentry heq => hk ?_
    exact heq ▸ h.promoters _ _ (OrderedMap.mem_entries.mp hentry)
  · refine fun k hk => OrderedMap.get?_addAll hpromoterDays fun entry hentry heq => hk ?_
    exact heq ▸ h.promoterDays _ _ (OrderedMap.mem_entries.mp hentry)
  · refine fun k hk => OrderedMap.get?_addAll hlinks fun entry hentry heq => hk ?_
    exact heq ▸ h.links _ _ (OrderedMap.mem_entries.mp hentry)
  · refine fun k hk => OrderedMap.get?_addAll hlinkDays fun entry hentry heq => hk ?_
    exact heq ▸ h.linkDays _ _ (OrderedMap.mem_entries.mp hentry)

theorem Book.AgreeBeside.promoter {b b' : Book} {e : Event} (h : b.AgreeBeside e b')
    {k : PromoterKey} (hk : k ≠ e.promoterKey) : b'.promoter k = b.promoter k := by
  rw [Book.promoter, Book.promoter, OrderedMap.total, OrderedMap.total, h.promoters k hk]

/-! ## Stagings -/

namespace Staging

/-- The staged events and those still to come are about the contact of the event `root` and have its
correlation, and what else is staged is about its promoter. -/
structure Stays (root : Event) (s : Staging) (queue : List Event) : Prop where
  events : ∀ g ∈ s.unit.events ++ queue,
    g.contact = root.contact ∧ g.correlation = root.correlation
  commissions : ∀ c ∈ s.unit.commissions,
    (⟨c.program, c.promoter⟩ : PromoterKey) = root.promoterKey
  failures : ∀ f ∈ s.unit.failures, (⟨f.program, f.promoter⟩ : PromoterKey) = root.promoterKey

namespace Stays

variable {root e : Event} {s s' : Staging} {queue new : List Event} {config : Config}
  {depth : Depth} {allowed : RuleId → Effect → Prop}

theorem recordError (h : Stays root s queue) (hkey : e.promoterKey = root.promoterKey)
    (event : Option EventId) (rule : Option RuleId) (effect : Option Effect) (origin : Origin)
    (error : Error) (depth : Depth) :
    Stays root (s.recordError event e.program e.promoter rule effect origin error depth) queue := by
  refine { h with failures := fun f hf => ?_ }
  rcases List.mem_append.mp hf with hf | hf
  · exact h.failures f hf
  · rw [List.mem_singleton.mp hf]
    exact hkey

theorem does (hkey : e.promoterKey = root.promoterKey)
    (he : e.contact = root.contact ∧ e.correlation = root.correlation)
    (step : s.Does config e depth allowed new s') (h : Stays root s queue) :
    Stays root s' (queue ++ new) := by
  cases step with
  | mark =>
    rw [List.append_nil]
    exact { h with }
  | permit hpermit =>
    rw [List.append_nil]
    obtain ⟨held, permits, rfl⟩ := ensurePermit?_frame hpermit
    exact { h with }
  | reward =>
    constructor
    · intro g hg
      rw [← List.append_assoc] at hg
      rcases List.mem_append.mp hg with hg | hg
      · exact h.events g hg
      · rw [List.mem_singleton.mp hg]
        exact he
    · intro c hc
      rcases List.mem_append.mp hc with hc | hc
      · exact h.commissions c hc
      · rw [List.mem_singleton.mp hc]
        exact hkey
    · exact h.failures
  | move =>
    rw [List.append_nil]
    exact { h with }
  | refuse =>
    rw [List.append_nil]
    exact h.recordError hkey _ _ _ _ _ _
  | fail =>
    rw [List.append_nil]
    exact h.recordError hkey _ _ _ _ _ _

theorem takes (h : Stays root s (e :: queue)) (hkey : e.promoterKey = root.promoterKey)
    (htakes : s.Takes config e depth new s') : Stays root s' (queue ++ new) := by
  have hrest : Stays root s queue := { h with
    events := fun g hg => h.events g <| by
      rcases List.mem_append.mp hg with hg | hg
      · exact List.mem_append_left _ hg
      · exact List.mem_append_right _ (List.mem_cons_of_mem _ hg) }
  cases htakes with
  | reject =>
    rw [List.append_nil]
    exact hrest.recordError hkey _ _ _ _ _ _
  | skip =>
    rw [List.append_nil]
    exact hrest
  | @handle _ s₁ _ _ _ henters hhandles =>
    have he := h.events e (by simp)
    have hstaged : Stays root
        { s with unit := { s.unit with events := s.unit.events ++ [e] } } queue := { h with
      events := fun g hg => h.events g (by rwa [List.append_assoc] at hg) }
    have hentered : Stays root s₁ queue := by
      cases henters with
      | counted => exact { hstaged with }
      | uncounted => exact hstaged.recordError hkey _ _ _ _ _ _
    exact hhandles.keeps (does hkey he) _ hentered

end Stays

end Staging

theorem Service.stays_dispatched {s : Service} (hbuiltIn : s.extra = []) (w : World) (e : Event)
    (now : Instant) : (s.dispatched w e now).staging.Stays e [] := by
  let I : Cascade → List Event → Prop := fun c queue =>
    c.staging.Stays e queue ∧ c.staging.Belongs w.store e w.ids.next queue
  have hstart : I ⟨⟨.start (w.store.context e.promoterKey), w.permits, w.ids, now⟩, w.calls, .start⟩
      [e] :=
    ⟨⟨by simp [WorkUnit.start], by simp [WorkUnit.start], by simp [WorkUnit.start]⟩,
      .start _ _ _ _ _⟩
  have hevent : ∀ c depth g rest, I c (g :: rest) →
      I (Cascade.handleEvent s.dispatcher depth c g).1
        (rest ++ (Cascade.handleEvent s.dispatcher depth c g).2) := by
    rintro c depth g rest ⟨hstays, hbelongs⟩
    have htakes := Cascade.takes_handleEvent hbuiltIn c depth g
    have hkey : g.promoterKey = e.promoterKey :=
      congrArg LinkKey.owner (hbelongs.links g (by simp))
    exact ⟨hstays.takes hkey htakes, hbelongs.takes htakes⟩
  have hlast : ∃ left, (s.dispatched w e now).staging.Stays e left :=
    ⟨_, (Cascade.run_keeps hevent hstart).1⟩
  obtain ⟨left, hstays⟩ := hlast
  refine { hstays with events := fun g hg => hstays.events g (List.mem_append_left _ ?_) }
  rwa [List.append_nil] at hg

/-! ## Stores -/

/-- What the second store has beyond the first, or otherwise, belongs to an event. -/
structure Store.Adds (store : Store) (e : Event) (store' : Store) : Prop where
  log : ∃ entries, store'.log = store.log ++ entries ∧ ∀ entry ∈ entries,
    entry.event.linkKey = e.linkKey ∧ entry.event.contact = e.contact ∧
      entry.event.correlation = e.correlation
  index : ∀ id, store.hasEvent id = true → store'.index.get? id = store.index.get? id
  commissions : ∃ new, store'.commissions = store.commissions ++ new ∧
    ∀ c ∈ new, (⟨c.program, c.promoter⟩ : PromoterKey) = e.promoterKey
  failures : ∃ new, store'.failures = store.failures ++ new ∧
    ∀ f ∈ new, (⟨f.program, f.promoter⟩ : PromoterKey) = e.promoterKey
  memberships : ∀ k, k ≠ e.promoterKey → store'.memberships.get? k = store.memberships.get? k
  book : store.book.AgreeBeside e store'.book
  rules : store'.rules = store.rules
  circles : store'.circles = store.circles

namespace Store

variable {store : Store} {e : Event} {staging : Staging} {first : ℕ}

theorem Adds.refl (store : Store) (e : Event) : store.Adds e store where
  log := ⟨[], by simp, by simp⟩
  index _ _ := rfl
  commissions := ⟨[], by simp, by simp⟩
  failures := ⟨[], by simp, by simp⟩
  memberships _ _ := rfl
  book := ⟨fun _ _ => rfl, fun _ _ => rfl, fun _ _ => rfl, fun _ _ => rfl⟩
  rules := rfl
  circles := rfl

/-- What is written of a unit that was staged for an event. -/
theorem write_of_belongs (h : staging.Belongs store e first []) (book : Book) (now : Instant) :
    store.write staging.unit book now = { store with
      log := store.log ++ stamped now store.head staging.unit.events
      index := (staging.unit.events.foldl (fun s g => s.append g now) store).index
      memberships :=
        match staging.moves.getLast? with
        | some t => store.memberships.insert e.promoterKey t.membership
        | none => store.memberships
      book
      commissions := store.commissions ++ staging.unit.commissions
      failures := store.failures ++ staging.unit.failures } := by
  have hmoves : ∀ s : Store, (staging.unit.transitions.map (·.transition)).foldl move s = { s with
      memberships :=
        match staging.moves.getLast? with
        | some t => s.memberships.insert e.promoterKey t.membership
        | none => s.memberships } := fun s => s.foldl_move h.movers
  dsimp only [write]
  rw [h.resolved, h.attempted, hmoves, foldl_append_with, log_appendAll]
  rfl

/-- Names of the log keep their positions when others are appended. -/
theorem index_appendAll {es : List Event} {id : EventId} (now : Instant) (store : Store)
    (hid : ∀ g ∈ es, g.id ≠ id) :
    (es.foldl (fun s g => s.append g now) store).index.get? id = store.index.get? id := by
  induction es generalizing store with
  | nil => rfl
  | cons g es ih =>
    rw [List.forall_mem_cons] at hid
    rw [List.foldl_cons, ih _ hid.2]
    simp only [append, OrderedMap.get?_insert, if_neg (Ne.symm hid.1)]

theorem get?_memberships_write (h : staging.Belongs store e first []) {k : PromoterKey}
    (hk : k ≠ e.promoterKey) (book : Book) (now : Instant) :
    (store.write staging.unit book now).memberships.get? k = store.memberships.get? k := by
  rw [write_of_belongs h]
  dsimp only
  split
  · rw [OrderedMap.get?_insert, if_neg hk]
  · rfl

/-- What is stored of another promoter than that of the event stays as it is. -/
theorem context_commit (h : staging.Belongs store e first []) {k : PromoterKey}
    (hk : k ≠ e.promoterKey) (now : Instant) :
    (store.commit staging.unit now).2.context k = store.context k := by
  rcases store.commit_store staging.unit now with ⟨n, hstore⟩ | ⟨-, book, hmerge, hstore⟩
  · rw [hstore]
    rfl
  · rw [hstore, context, context, rules_write, circles_write, book_write,
      get?_memberships_write h hk, (h.delta.agreeBeside hmerge).promoter hk]

theorem Adds.commit (h : staging.Belongs store e first []) (hstays : staging.Stays e [])
    (now : Instant) : store.Adds e (store.commit staging.unit now).2 := by
  rcases store.commit_store staging.unit now with ⟨n, hstore⟩ | ⟨hcheck, book, hmerge, hstore⟩
  · rw [hstore]
    exact { Adds.refl store e with }
  · rw [hstore]
    have hlinks : ∀ g ∈ staging.unit.events, g.linkKey = e.linkKey ∧ g.contact = e.contact ∧
        g.correlation = e.correlation := fun g hg =>
      ⟨h.links g (List.mem_append_left _ hg), hstays.events g (List.mem_append_left _ hg)⟩
    constructor
    · refine ⟨_, store.log_write _ _ _, fun entry hentry => hlinks _ ?_⟩
      have hevent := List.mem_map_of_mem (f := (·.event)) hentry
      rwa [map_event_stamped] at hevent
    · intro id hid
      rw [write_of_belongs h]
      refine index_appendAll now store fun g hg heq => ?_
      rw [← heq, hasEvent_eq_false_of_check hcheck hg] at hid
      cases hid
    · exact ⟨_, store.commissions_write _ _ _, hstays.commissions⟩
    · exact ⟨_, by rw [write_of_belongs h], hstays.failures⟩
    · exact fun k hk => get?_memberships_write h hk book now
    · rw [book_write]
      exact h.delta.agreeBeside hmerge
    · exact store.rules_write _ _ _
    · exact store.circles_write _ _ _

end Store

end Referral
