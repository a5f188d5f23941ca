import Mathlib.Tactic
import Referral.Store

/-!
# The log

What a commit does to the store, in one place: it appends its events, numbered on from the end of
the log, and changes nothing that was logged before. A log whose entries bear their places as
numbers keeps them, and the index keeps naming exactly the events of the log.
-/

namespace Referral

namespace Store

/-- The recorded events, in order. -/
def facts (s : Store) : List Event := s.log.map (·.event)

/-- Each entry of the log has its place, counted from one, as its number. -/
def Numbered (s : Store) : Prop :=
  ∀ (i : ℕ) (e : StoredEvent), s.log[i]? = some e → e.sequence = i + 1

/-- The index names the events of the log and no others. -/
def Indexed (s : Store) : Prop := ∀ id, s.hasEvent id = true ↔ id ∈ s.facts.map (·.id)

/-- The index gives for each name the place of the event that bears it. -/
def Located (s : Store) : Prop :=
  ∀ id i, s.index.get? id = some i → s.log[i]?.map (·.event.id) = some id

/-- The end of a log that is numbered is its length. -/
theorem Numbered.head_eq {s : Store} (h : s.Numbered) : s.head = s.log.length := by
  unfold head
  rw [List.getLast?_eq_getElem?]
  cases hlog : s.log[s.log.length - 1]? with
  | none =>
    rw [List.getElem?_eq_none_iff] at hlog
    simp only [Option.map_none, Option.getD_none]
    omega
  | some e =>
    have hseq := h _ e hlog
    have hlt := (List.getElem?_eq_some_iff.mp hlog).1
    simp only [Option.map_some, Option.getD_some]
    omega

/-- The events up to the end of a log that is numbered are all. -/
theorem Numbered.take_facts {s : Store} (h : s.Numbered) : s.facts.take s.head = s.facts :=
  List.take_of_length_le (by rw [facts, List.length_map, h.head_eq])

/-! ## Writing -/

/-- The log entries for events, numbered on from `last`. -/
def stamped (now : Instant) (last : ℕ) : List Event → List StoredEvent
  | [] => []
  | e :: es => ⟨last + 1, e, now⟩ :: stamped now (last + 1) es

@[simp] theorem map_event_stamped (now : Instant) (last : ℕ) (es : List Event) :
    (stamped now last es).map (·.event) = es := by
  induction es generalizing last with
  | nil => rfl
  | cons e es ih => simp [stamped, ih]

theorem sequence_stamped {now : Instant} {last : ℕ} {es : List Event} {i : ℕ} {e : StoredEvent}
    (h : (stamped now last es)[i]? = some e) : e.sequence = last + i + 1 := by
  induction es generalizing last i with
  | nil => simp [stamped] at h
  | cons f es ih =>
    cases i with
    | zero =>
      cases h
      rfl
    | succ i =>
      have := ih h
      omega

theorem head_append (s : Store) (e : Event) (now : Instant) :
    (s.append e now).head = s.head + 1 := by
  simp [append, head]

/-- What a sequence of changes leaves alone is left alone by each. -/
theorem foldl_frame {α β : Type} (view : Store → β) {change : Store → α → Store}
    (h : ∀ s a, view (change s a) = view s) (as : List α) (s : Store) :
    view (as.foldl change s) = view s := by
  induction as generalizing s with
  | nil => rfl
  | cons a as ih => rw [List.foldl_cons, ih, h]

theorem log_appendAll (es : List Event) (now : Instant) (s : Store) :
    (es.foldl (fun s e => s.append e now) s).log = s.log ++ stamped now s.head es := by
  induction es generalizing s with
  | nil => simp [stamped]
  | cons e es ih =>
    rw [List.foldl_cons, ih, head_append]
    simp [append, stamped]

theorem hasEvent_appendAll (es : List Event) (now : Instant) (s : Store) (id : EventId) :
    (es.foldl (fun s e => s.append e now) s).hasEvent id = true ↔
      s.hasEvent id = true ∨ id ∈ es.map (·.id) := by
  induction es generalizing s with
  | nil => simp
  | cons e es ih =>
    have hstep : (s.append e now).hasEvent id = true ↔ s.hasEvent id = true ∨ id = e.id := by
      simp only [hasEvent, append, OrderedMap.contains, OrderedMap.get?_insert]
      by_cases h : id = e.id <;> simp [h]
    rw [List.foldl_cons, ih, hstep, List.map_cons, List.mem_cons, or_assoc]

theorem Located.appendAll {s : Store} (h : s.Located) (es : List Event) (now : Instant) :
    (es.foldl (fun s e => s.append e now) s).Located := by
  induction es generalizing s with
  | nil => exact h
  | cons e es ih =>
    refine ih fun id i hi => ?_
    simp only [append, OrderedMap.get?_insert] at hi
    by_cases hid : id = e.id
    · rw [if_pos hid, Option.some.injEq] at hi
      simp [append, ← hi, hid]
    · rw [if_neg hid] at hi
      have hold := h id i hi
      obtain ⟨stored, hstored, -⟩ := Option.map_eq_some_iff.mp hold
      have hlt := (List.getElem?_eq_some_iff.mp hstored).1
      simpa [append, List.getElem?_append_left hlt] using hold

/-- What is found under a name is in the log and bears the name. -/
theorem Located.event? {s : Store} (h : s.Located) {id : EventId} {stored : StoredEvent}
    (hstored : s.event? id = some stored) : stored.event ∈ s.facts ∧ stored.event.id = id := by
  obtain ⟨i, hi, hlog⟩ := Option.bind_eq_some_iff.mp hstored
  have hid := h id i hi
  rw [hlog, Option.map_some, Option.some.injEq] at hid
  exact ⟨List.mem_map_of_mem (List.mem_of_getElem? hlog), hid⟩

section Write

variable (s : Store) (u : WorkUnit) (book : Book) (now : Instant)

/-- The part of a write that changes the log, and the rest of it. -/
theorem write_frame {β : Type} (view : Store → β)
    (hc : ∀ s cs, view { s with commissions := cs } = view s)
    (hm : ∀ s ms, view { s with memberships := ms } = view s)
    (hf : ∀ s fs, view { s with failures := fs } = view s) :
    view (s.write u book now) =
      view (u.events.foldl (fun s e => s.append e now) { s with book }) := by
  have hchange : ∀ (s : Store) id f, view (s.changeFailure id f) = view s := fun s _ _ => hf s _
  have hmove : ∀ (s : Store) t, view (s.move t) = view s := fun s _ => hm s _
  dsimp only [write]
  rw [foldl_frame view fun s id => hchange s id _, foldl_frame view fun s id => hchange s id _, hf,
    foldl_frame view hmove, hc]

@[simp] theorem log_write : (s.write u book now).log = s.log ++ stamped now s.head u.events := by
  rw [write_frame s u book now log (fun _ _ => rfl) (fun _ _ => rfl) fun _ _ => rfl,
    log_appendAll]
  rfl

@[simp] theorem facts_write : (s.write u book now).facts = s.facts ++ u.events := by
  simp [facts]

@[simp] theorem book_write : (s.write u book now).book = book := by
  rw [write_frame s u book now Store.book (fun _ _ => rfl) (fun _ _ => rfl) fun _ _ => rfl]
  exact foldl_frame Store.book (by intros; rfl) _ _

@[simp] theorem rules_write : (s.write u book now).rules = s.rules := by
  rw [write_frame s u book now rules (fun _ _ => rfl) (fun _ _ => rfl) fun _ _ => rfl]
  exact foldl_frame rules (by intros; rfl) _ _

@[simp] theorem circles_write : (s.write u book now).circles = s.circles := by
  rw [write_frame s u book now circles (fun _ _ => rfl) (fun _ _ => rfl) fun _ _ => rfl]
  exact foldl_frame circles (by intros; rfl) _ _

/-- A record keeps whatever neither resolving nor trying it again changes. -/
theorem map_failures_write {β : Type} (view : Failure → β)
    (hresolve : ∀ f, view { f with resolved := true } = view f)
    (hattempt : ∀ (f : Failure) n, view { f with attempts := n } = view f) :
    (s.write u book now).failures.map view = (s.failures ++ u.failures).map view := by
  have hchange : ∀ (change : Failure → Failure), (∀ f, view (change f) = view f) →
      ∀ (s : Store) id, (s.changeFailure id change).failures.map view = s.failures.map view := by
    intro change h s id
    unfold changeFailure
    induction s.failures with
    | nil => rfl
    | cons f fs ih =>
      simp only [modifyFirst] at ih ⊢
      split
      · simp [h]
      · simp [ih]
  dsimp only [write]
  rw [foldl_frame (fun s => s.failures.map view) fun s id => hchange _ (fun f => hattempt f _) s id,
    foldl_frame (fun s => s.failures.map view) fun s id => hchange _ hresolve s id]
  simp only [List.map_append]
  congr 1
  have hmove : ∀ (s : Store) t, (s.move t).failures = s.failures := fun _ _ => rfl
  rw [foldl_frame failures hmove]
  exact congrArg _ (foldl_frame failures (by intros; rfl) _ _)

theorem hasEvent_write (id : EventId) : (s.write u book now).hasEvent id = true ↔
    s.hasEvent id = true ∨ id ∈ u.events.map (·.id) := by
  rw [write_frame s u book now (fun s => s.hasEvent id) (fun _ _ => rfl) (fun _ _ => rfl)
    fun _ _ => rfl, hasEvent_appendAll]
  rfl

end Write

/-! ## Committing -/

/-- A unit that passes the checks has no event of the log. -/
theorem hasEvent_eq_false_of_check {s : Store} {u : WorkUnit} (h : s.check u = .ok ()) {e : Event}
    (he : e ∈ u.events) : s.hasEvent e.id = false := by
  unfold check at h
  split at h
  · cases h
  · rename_i hnone
    simpa using List.find?_eq_none.mp hnone e he

/-- What a commit may lead to: it fails because it was set to, it is refused by the checks or by the
limits of totals, or all of the unit is written. -/
theorem commit_cases (s : Store) (u : WorkUnit) (now : Instant) :
    (0 < s.failingCommits ∧ s.commit u now =
      (.error (.store "injected commit failure"),
        { s with failingCommits := s.failingCommits - 1 })) ∨
    (s.failingCommits = 0 ∧ ∃ error, (s.check u = .error error ∨
      (s.check u = .ok () ∧ s.book.merge u.delta = .error error)) ∧
      s.commit u now = (.error error, s)) ∨
    (s.failingCommits = 0 ∧ s.check u = .ok () ∧ ∃ book, s.book.merge u.delta = .ok book ∧
      s.commit u now = (.ok ((s.write u book now).receipt u), s.write u book now)) := by
  unfold commit
  by_cases hfail : 0 < s.failingCommits
  · exact .inl ⟨hfail, by rw [if_pos hfail]⟩
  have hzero : s.failingCommits = 0 := by omega
  rw [if_neg hfail]
  cases hcheck : s.check u with
  | error error => exact .inr (.inl ⟨hzero, error, .inl rfl, rfl⟩)
  | ok _ =>
    cases hmerge : s.book.merge u.delta with
    | error error => exact .inr (.inl ⟨hzero, error, .inr ⟨rfl, rfl⟩, by simp⟩)
    | ok book => exact .inr (.inr ⟨hzero, rfl, book, rfl, by simp⟩)

/-- What a commit leaves behind is the store as it was, apart from the count of commits set to fail,
or the store with all of the unit. -/
theorem commit_store (s : Store) (u : WorkUnit) (now : Instant) :
    (∃ n, (s.commit u now).2 = { s with failingCommits := n }) ∨
    (s.check u = .ok () ∧ ∃ book, s.book.merge u.delta = .ok book ∧
      (s.commit u now).2 = s.write u book now) := by
  rcases s.commit_cases u now with ⟨-, h⟩ | ⟨-, error, -, h⟩ | ⟨-, hcheck, book, hmerge, h⟩
  · exact .inl ⟨_, by rw [h]⟩
  · exact .inl ⟨s.failingCommits, by rw [h]⟩
  · exact .inr ⟨hcheck, book, hmerge, by rw [h]⟩

theorem replaceTotals_eq_ok {s : Store} {scope : Scope} {rebuilt : Book} {asOf count : ℕ}
    {s' : Store} : s.replaceTotals scope rebuilt asOf = .ok (count, s') ↔
    ∃ book, rebuilt.addAll ((s.facts.drop asOf).filter scope.includes) = .ok book ∧
      count = ((s.facts.drop asOf).filter scope.includes).length ∧
      s' = { s with book := s.book.replaceScope scope book } := by
  have hlater : ((s.log.drop asOf).filter fun e => scope.includes e.event).map (·.event) =
      (s.facts.drop asOf).filter scope.includes := by
    rw [facts, ← List.map_drop, List.filter_map]
    rfl
  dsimp only [replaceTotals]
  rw [hlater]
  cases rebuilt.addAll ((s.facts.drop asOf).filter scope.includes) with
  | error e => simp [Except.map]
  | ok book => simp [Except.map, eq_comm]

/-! ## Setting up -/

theorem mem_modifyFirst {α : Type} {p : α → Bool} {f : α → α} {as : List α} {b : α}
    (h : b ∈ modifyFirst p f as) : b ∈ as ∨ ∃ a ∈ as, p a = true ∧ b = f a := by
  induction as with
  | nil => cases h
  | cons a as ih =>
    rw [modifyFirst] at h
    by_cases hp : p a = true
    · rw [if_pos hp] at h
      rcases List.mem_cons.mp h with rfl | h
      · exact .inr ⟨a, List.mem_cons_self, hp, rfl⟩
      · exact .inl (List.mem_cons_of_mem _ h)
    · rw [if_neg hp] at h
      rcases List.mem_cons.mp h with rfl | h
      · exact .inl List.mem_cons_self
      · rcases ih h with h | ⟨a', ha', hpa', rfl⟩
        · exact .inl (List.mem_cons_of_mem _ h)
        · exact .inr ⟨a', List.mem_cons_of_mem _ ha', hpa', rfl⟩

theorem putRule_eq_ok {s s' : Store} {r : Rule} (h : s.putRule r = .ok s') :
    r.validate = .ok () ∧ ∃ rules, s' = { s with rules } ∧
      ∀ r' ∈ rules, r' ∈ s.rules ∨ r' = r := by
  unfold putRule at h
  cases hvalid : r.validate with
  | error error =>
    rw [hvalid] at h
    cases h
  | ok _ =>
    rw [hvalid] at h
    cases h
    refine ⟨rfl, ?_⟩
    split
    · refine ⟨_, rfl, fun r' hr' => ?_⟩
      rcases mem_modifyFirst hr' with hr' | ⟨-, -, -, hr'⟩
      · exact .inl hr'
      · exact .inr hr'
    · exact ⟨_, rfl, fun r' hr' => by simpa using hr'⟩

theorem putCircle_eq_ok {s s' : Store} {c : Circle} (h : s.putCircle c = .ok s') :
    s' = { s with circles := (s.circles.filter (·.id ≠ c.id)) ++ [c] } := by
  unfold putCircle at h
  split at h
  · cases h
  · cases h
    rfl

theorem assignCircle_eq_ok {s s' : Store} {k : PromoterKey} {circle : CircleId} {now : Instant}
    (h : s.assignCircle k circle now = .ok s') :
    (s.circles.any fun c => c.isOf k.program circle) = true ∧
    s' = { s with memberships := s.memberships.insert k ⟨k.program, k.promoter, circle, now⟩ } := by
  unfold assignCircle at h
  split at h
  · rename_i hcircle
    cases h
    exact ⟨hcircle, rfl⟩
  · cases h

/-! ## What all operations keep -/

/-- The store may come later than another: nothing that was logged is gone or changed, and a log
that was numbered and indexed still is. -/
structure Later (s s' : Store) : Prop where
  log : s.log <+: s'.log
  numbered : s.Numbered → s'.Numbered
  indexed : s.Indexed → s'.Indexed
  located : s.Located → s'.Located

namespace Later

variable {s s' s'' : Store}

theorem refl (s : Store) : s.Later s := ⟨List.prefix_refl _, id, id, id⟩

theorem trans (h : s.Later s') (h' : s'.Later s'') : s.Later s'' :=
  ⟨h.log.trans h'.log, h'.numbered ∘ h.numbered, h'.indexed ∘ h.indexed,
    h'.located ∘ h.located⟩

/-- A change of anything but the log and its index. -/
theorem of_log_eq (hlog : s'.log = s.log) (hindex : s'.index = s.index) : s.Later s' where
  log := hlog ▸ List.prefix_refl _
  numbered h i e hi := h i e (hlog ▸ hi)
  indexed h id := by
    have := h id
    simpa only [hasEvent, facts, hlog, hindex] using this
  located h id i hi := by
    rw [hindex] at hi
    rw [hlog]
    exact h id i hi

theorem facts (h : s.Later s') : s.facts <+: s'.facts := h.log.map _

/-- What was logged up to a place is still the same later. -/
theorem take_facts (h : s.Later s') {n : ℕ} (hn : n ≤ s.log.length) :
    s'.facts.take n = s.facts.take n := by
  obtain ⟨rest, hrest⟩ := h.facts
  rw [← hrest, List.take_append_of_le_length (by simpa [Store.facts] using hn)]

theorem write (u : WorkUnit) (book : Book) (now : Instant) : s.Later (s.write u book now) where
  log := by
    rw [log_write]
    exact List.prefix_append _ _
  numbered h i e hi := by
    rw [log_write] at hi
    by_cases hlt : i < s.log.length
    · rw [List.getElem?_append_left hlt] at hi
      exact h i e hi
    · rw [List.getElem?_append_right (by omega)] at hi
      have := sequence_stamped hi
      have := h.head_eq
      omega
  indexed h id := by
    rw [hasEvent_write, h id, facts_write, List.map_append, List.mem_append]
  located h := by
    have hframe := s.write_frame u book now (fun s => s.Located) (fun _ _ => rfl) (fun _ _ => rfl)
      fun _ _ => rfl
    rw [hframe]
    exact Located.appendAll (s := { s with book }) h u.events now

theorem commit (s : Store) (u : WorkUnit) (now : Instant) : s.Later (s.commit u now).2 := by
  rcases s.commit_store u now with ⟨n, h⟩ | ⟨-, book, -, h⟩
  · rw [h]
    exact of_log_eq rfl rfl
  · rw [h]
    exact write u book now

theorem putRule {r : Rule} (h : s.putRule r = .ok s') : s.Later s' := by
  obtain ⟨-, rules, rfl, -⟩ := putRule_eq_ok h
  exact of_log_eq rfl rfl

theorem putCircle {c : Circle} (h : s.putCircle c = .ok s') : s.Later s' := by
  rw [putCircle_eq_ok h]
  exact of_log_eq rfl rfl

theorem assignCircle {k : PromoterKey} {circle : CircleId} {now : Instant}
    (h : s.assignCircle k circle now = .ok s') : s.Later s' := by
  rw [(assignCircle_eq_ok h).2]
  exact of_log_eq rfl rfl

theorem replaceTotals {scope : Scope} {rebuilt : Book} {asOf count : ℕ}
    (h : s.replaceTotals scope rebuilt asOf = .ok (count, s')) : s.Later s' := by
  obtain ⟨book, -, -, rfl⟩ := replaceTotals_eq_ok.mp h
  exact of_log_eq rfl rfl

end Later

/-! ## Changes -/

/-- A change that some other operation makes to the store. -/
inductive Change (s : Store) : Store → Prop
  | commit (u : WorkUnit) (now : Instant) : Change s (s.commit u now).2
  | putRule {r : Rule} {s' : Store} (h : s.putRule r = .ok s') : Change s s'
  | putCircle {c : Circle} {s' : Store} (h : s.putCircle c = .ok s') : Change s s'
  | assignCircle {k : PromoterKey} {circle : CircleId} {now : Instant} {s' : Store}
      (h : s.assignCircle k circle now = .ok s') : Change s s'
  | replaceTotals {scope : Scope} {rebuilt : Book} {asOf count : ℕ} {s' : Store}
      (h : s.replaceTotals scope rebuilt asOf = .ok (count, s')) : Change s s'
  | overwriteTotals (k : PromoterKey) (totals : PromoterTotals) :
      Change s (s.overwriteTotals k totals)
  | disturb (failingCommits scanDelay : ℕ) : Change s { s with failingCommits, scanDelay }

theorem Change.later {s s' : Store} (h : s.Change s') : s.Later s' := by
  cases h with
  | commit u now => exact .commit s u now
  | putRule h => exact .putRule h
  | putCircle h => exact .putCircle h
  | assignCircle h => exact .assignCircle h
  | replaceTotals h => exact .replaceTotals h
  | overwriteTotals => exact .of_log_eq rfl rfl
  | disturb => exact .of_log_eq rfl rfl

end Store

end Referral
