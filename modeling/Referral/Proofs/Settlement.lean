import Referral.Proofs.BookTally
import Referral.Proofs.CheckedRules

/-!
# Settlements

What an event leads to, read off the log and the rules alone: which rules fire, in which order, and
what each of them adds. There is no unit of work, no running total and no queue here; what rules see
is counted in the log, and the circle in force is where the last move led.
-/

namespace Referral

/-! ## What rules see -/

/-- How many events of a kind a promoter has. -/
def countOf (kind : EventKind) (k : PromoterKey) (es : List Event) : ℕ :=
  es.countP fun e => e.kind = kind ∧ e.promoterKey = k

/-- What the purchases of a promoter earned together, in ten-thousandths. -/
def revenueOf (k : PromoterKey) (es : List Event) : ℤ :=
  ((es.filter fun e => e.kind = .purchase ∧ e.promoterKey = k).map
    fun e => (e.revenue.getD .zero).units).sum

/-- What rules see of an event, given all events up to it. -/
def Snapshot.ofLog (es : List Event) (e : Event) : Snapshot
  | .signups => some (.count (.ofNat (countOf .signup e.promoterKey es)))
  | .purchases => some (.count (.ofNat (countOf .purchase e.promoterKey es)))
  | .revenue => some (.amount (.clamp (revenueOf e.promoterKey es)))
  | .externalId => e.externalId.map .text
  | .itemId => e.itemId.map .text

/-- The rules of the program that are for an event in the circle in force and whose conditions all
hold of what rules see, in the order in which they were declared. -/
def Store.rulesFor (store : Store) (es : List Event) (circle : Option CircleId) (e : Event) :
    List Rule :=
  store.rules.filter fun r =>
    r.program = e.program ∧ r.active = true ∧ r.trigger = e.kind ∧
      (r.circle = none ∨ r.circle = circle) ∧
      ∀ c ∈ r.conditions, c.holds (.ofLog es e) = .ok true

/-! ## What rules do -/

/-- What rules have done so far. -/
structure Settlement where
  ids : IdSupply
  commissions : List Commission
  /-- The events that report the commissions, in the same order. -/
  reports : List Event
  moves : List Transition
  failures : List Failure

namespace Settlement

/-- Nothing is done. -/
def start (ids : IdSupply) : Settlement := ⟨ids, [], [], [], []⟩

/-- The circle in force for a promoter: where the last move led, else that of the store. -/
def circle (s : Settlement) (store : Store) (k : PromoterKey) : Option CircleId :=
  match s.moves.getLast? with
  | some t => some t.target
  | none => store.currentCircle k

/-- Keeps the record of an effect that is refused. -/
def refuse (s : Settlement) (now : Instant) (depth : Depth) (e : Event) (r : Rule)
    (refusal : Refusal) : Settlement :=
  { s with
    ids := s.ids.skip 1
    failures := s.failures ++ [Failure.ofError s.ids.peek (some e.id) e.program e.promoter
      (some r.id) (some r.effect) .effect refusal.toError depth now] }

/-- Adds a commission and the event that reports it. -/
def reward (s : Settlement) (e : Event) (r : Rule) (spec : CommissionSpec) (amount : Money) :
    Settlement :=
  let c : Commission :=
    ⟨s.ids.peek, e.program, e.promoter, e.contact, e.link, r.id, e.id, amount, spec.kind,
      e.occurredAt⟩
  { s with
    ids := s.ids.skip 2
    commissions := s.commissions ++ [c]
    reports := s.reports ++ [c.event (s.ids.skip 1).peek e] }

/-- Lets one rule fire. -/
def fire (store : Store) (config : Config) (now : Instant) (depth : Depth) (e : Event)
    (s : Settlement) (r : Rule) : Settlement :=
  match r.effect with
  | .generateCommission spec =>
    match spec.amountFor e config.precision.toNat with
    | .ok amount => s.reward e r spec amount
    | .error refusal => s.refuse now depth e r refusal
  | .switchCircle target =>
    if store.circles.any fun c => c.isOf e.program target then
      if s.circle store e.promoterKey = some target then s
      else
        { s with
          moves := s.moves ++
            [⟨e.program, e.promoter, s.circle store e.promoterKey, target, e.occurredAt⟩] }
    else s.refuse now depth e r (.circleNotFound target)

/-- Lets the rules for an event fire. Which ones these are is settled before the first of them
fires. -/
def evaluate (store : Store) (config : Config) (now : Instant) (es : List Event) (depth : Depth)
    (s : Settlement) (e : Event) : Settlement :=
  (store.rulesFor es (s.circle store e.promoterKey) e).foldl (fire store config now depth e) s

/-- Evaluates events that report commissions, one after the other, given all events before them. -/
def evaluateEach (store : Store) (config : Config) (now : Instant) :
    List Event → Settlement → List Event → Settlement
  | _, s, [] => s
  | es, s, g :: gs =>
    evaluateEach store config now (es ++ [g]) (s.evaluate store config now (es ++ [g]) 1 g) gs

/-- What the rules for an event itself do. -/
def first (store : Store) (config : Config) (now : Instant) (ids : IdSupply) (e : Event) :
    Settlement :=
  (start ids).evaluate store config now (store.facts ++ [e]) 0 e

/-- What an event leads to: the rules for it fire, then those for each event that reports one of the
commissions. -/
def ofEvent (store : Store) (config : Config) (now : Instant) (ids : IdSupply) (e : Event) :
    Settlement :=
  (first store config now ids e).evaluateEach store config now (store.facts ++ [e])
    (first store config now ids e).reports

end Settlement

/-- The store with an event and what it led to. -/
def Store.settled (store : Store) (now : Instant) (e : Event) (s : Settlement) (book : Book) :
    Store :=
  { (e :: s.reports).foldl (fun store e => store.append e now) store with
    book
    commissions := store.commissions ++ s.commissions
    memberships :=
      match s.moves.getLast? with
      | some t => store.memberships.insert e.promoterKey t.membership
      | none => store.memberships
    failures := store.failures ++ s.failures }

/-! ## Totals as counts -/

/-- What the events add to the totals of promoters. -/
def contributions (es : List Event) : List (PromoterKey × PromoterTotals) :=
  es.map fun e => (e.promoterKey, .ofEvent e)

theorem sumAt_contributions_cons (e : Event) (es : List Event) (k : PromoterKey)
    (f : PromoterField) : sumAt (contributions (e :: es)) k f =
      (if e.promoterKey = k then (PromoterTotals.ofEvent e).value f else 0) +
        sumAt (contributions es) k f := sumAt_cons _ _ _ _

/-- A total that each event of one kind raises by one counts these events. -/
theorem countOf_eq_sumAt {kind : EventKind} {f : PromoterField}
    (hf : ∀ e, (PromoterTotals.ofEvent e).value f = if e.kind = kind then 1 else 0)
    (k : PromoterKey) (es : List Event) :
    (countOf kind k es : ℤ) = sumAt (contributions es) k f := by
  induction es with
  | nil => rfl
  | cons e es ih =>
    rw [sumAt_contributions_cons, ← ih, hf, countOf, countOf, List.countP_cons]
    by_cases hk : e.promoterKey = k <;> by_cases hkind : e.kind = kind <;>
      simp [hk, hkind, add_comm]

theorem revenueOf_eq_sumAt (k : PromoterKey) (es : List Event) :
    revenueOf k es = sumAt (contributions es) k PromoterField.revenue := by
  have hvalue : ∀ e : Event, (PromoterTotals.ofEvent e).value .revenue =
      if e.kind = .purchase then (e.revenue.getD .zero).units else 0 := by
    intro e
    unfold PromoterTotals.ofEvent
    cases e.kind <;> rfl
  induction es with
  | nil => rfl
  | cons e es ih =>
    rw [sumAt_contributions_cons, ← ih, hvalue, revenueOf, revenueOf, List.filter_cons]
    by_cases hk : e.promoterKey = k <;> by_cases hkind : e.kind = .purchase <;>
      simp [hk, hkind]

/-- Totals are right about some events in what rules see of a promoter. -/
structure PromoterTotals.Shows (t : PromoterTotals) (k : PromoterKey) (es : List Event) : Prop where
  signups : t.signups.toNat = countOf .signup k es
  purchases : t.purchases.toNat = countOf .purchase k es
  revenue : t.revenue.units = revenueOf k es

/-- Totals that tally the log show rules what is counted in the log. -/
theorem Book.Tallies.shows {b : Book} {es : List Event} (h : b.Tallies .all es) (k : PromoterKey) :
    (b.promoter k).Shows k es := by
  have hvalue := h.promoters.value_total k rfl
  have hcount : ∀ {kind : EventKind} {f : PromoterField},
      (∀ e, (PromoterTotals.ofEvent e).value f = if e.kind = kind then 1 else 0) →
      (b.promoter k).value f = countOf kind k es :=
    fun hf => (hvalue _).trans (countOf_eq_sumAt hf _ _).symm
  refine ⟨?_, ?_, (hvalue PromoterField.revenue).trans (revenueOf_eq_sumAt _ _).symm⟩
  · refine Int.ofNat_inj.mp (hcount (f := .signups) fun e => ?_)
    unfold PromoterTotals.ofEvent
    cases e.kind <;> rfl
  · refine Int.ofNat_inj.mp (hcount (f := .purchases) fun e => ?_)
    unfold PromoterTotals.ofEvent
    cases e.kind <;> rfl

theorem PromoterTotals.Shows.snapshot_eq {t : PromoterTotals} {es : List Event} {e : Event}
    (h : t.Shows e.promoterKey es) : Snapshot.ofEvent t e = Snapshot.ofLog es e := by
  funext p
  cases p with
  | signups => simp [Snapshot.ofEvent, Snapshot.ofLog, ← h.signups]
  | purchases => simp [Snapshot.ofEvent, Snapshot.ofLog, ← h.purchases]
  | revenue => simp [Snapshot.ofEvent, Snapshot.ofLog, ← h.revenue]
  | externalId => rfl
  | itemId => rfl

/-! ## Moves and reports -/

namespace Store

/-- Where all moves are those of one promoter, the last of them decides the circle. -/
theorem circleAfter_eq (store : Store) {k : PromoterKey} {ts : List Transition}
    (hts : ∀ t ∈ ts, (⟨t.program, t.promoter⟩ : PromoterKey) = k) :
    store.circleAfter k ts =
      match ts.getLast? with
      | some t => some t.target
      | none => store.currentCircle k := by
  rcases List.eq_nil_or_concat' ts with rfl | ⟨rest, t, rfl⟩
  · rfl
  · have hkey := hts t (by simp)
    subst hkey
    simp [circleAfter]

/-- A move that starts where the others end may be added to them. -/
theorem staleMove?_append (store : Store) {t : Transition} {before ts : List Transition}
    (h : store.staleMove? before ts = none)
    (ht : store.circleAfter ⟨t.program, t.promoter⟩ (before ++ ts) = t.source) :
    store.staleMove? before (ts ++ [t]) = none := by
  induction ts generalizing before with
  | nil =>
    rw [List.append_nil] at ht
    simp [staleMove?, ht]
  | cons t' ts ih =>
    simp only [staleMove?, List.cons_append] at h ⊢
    split at h
    · rename_i hsource
      rw [if_pos hsource]
      exact ih h (by simpa using ht)
    · cases h

end Store

namespace Settlement

variable {store : Store} {config : Config} {now : Instant} {k : PromoterKey} {s : Settlement}

/-- Each move is one of the promoter and starts where the one before it led, each report is one of a
commission of the promoter, and the reports are named by numbers from `first` on, in order. -/
structure Orderly (s : Settlement) (store : Store) (k : PromoterKey) (first : ℕ) : Prop where
  promoter_moves : ∀ t ∈ s.moves, (⟨t.program, t.promoter⟩ : PromoterKey) = k
  unbroken : store.staleMove? [] s.moves = none
  promoter_reports : ∀ g ∈ s.reports, g.promoterKey = k
  kind_reports : ∀ g ∈ s.reports, g.kind = .commissionGenerated
  numbers : ∃ ns : List ℕ, s.reports.map (·.id) = ns.map Id.ofNat ∧ ns.Pairwise (· < ·) ∧
    ∀ n ∈ ns, first ≤ n ∧ n < s.ids.next
  first_le : first ≤ s.ids.next

namespace Orderly

variable {first : ℕ}

theorem start (store : Store) (k : PromoterKey) (ids : IdSupply) :
    (Settlement.start ids).Orderly store k ids.next where
  promoter_moves := by simp [Settlement.start]
  unbroken := rfl
  promoter_reports := by simp [Settlement.start]
  kind_reports := by simp [Settlement.start]
  numbers := ⟨[], rfl, .nil, by simp⟩
  first_le := Nat.le_refl _

/-- What has been numbered stays numbered when more numbers are used. -/
theorem skip (h : s.Orderly store k first) {ids : IdSupply} {failures : List Failure}
    (hids : s.ids.next ≤ ids.next) : { s with ids, failures }.Orderly store k first := by
  obtain ⟨ns, hns, hsorted, hrange⟩ := h.numbers
  refine { h with numbers := ⟨ns, hns, hsorted, fun n hn => ?_⟩, first_le := h.first_le.trans hids }
  exact ⟨(hrange n hn).1, (hrange n hn).2.trans_le hids⟩

theorem refuse (h : s.Orderly store k first) (depth : Depth) (e : Event) (r : Rule)
    (refusal : Refusal) : (s.refuse now depth e r refusal).Orderly store k first :=
  h.skip (Nat.le_add_right _ _)

theorem reward (h : s.Orderly store k first) {e : Event} (hk : e.promoterKey = k) (r : Rule)
    (spec : CommissionSpec) (amount : Money) :
    (s.reward e r spec amount).Orderly store k first := by
  subst hk
  obtain ⟨ns, hns, hsorted, hrange⟩ := h.numbers
  refine { h with promoter_reports := ?_, kind_reports := ?_, numbers := ?_, first_le := ?_ }
  · intro g hg
    rcases List.mem_append.mp hg with hg | hg
    · exact h.promoter_reports g hg
    · rw [List.mem_singleton.mp hg]
      rfl
  · intro g hg
    rcases List.mem_append.mp hg with hg | hg
    · exact h.kind_reports g hg
    · rw [List.mem_singleton.mp hg]
      rfl
  · refine ⟨ns ++ [s.ids.next + 1], ?_, ?_, fun n hn => ?_⟩
    · simp [Settlement.reward, hns, Commission.event, IdSupply.peek, IdSupply.skip]
    · rw [List.pairwise_append]
      refine ⟨hsorted, List.pairwise_singleton _ _, fun n hn m hm => ?_⟩
      rw [List.mem_singleton.mp hm]
      exact Nat.lt_succ_of_lt (hrange n hn).2
    · simp only [Settlement.reward, IdSupply.skip]
      rcases List.mem_append.mp hn with hn | hn
      · have := hrange n hn
        omega
      · have := h.first_le
        rw [List.mem_singleton.mp hn]
        omega
  · exact h.first_le.trans (Nat.le_add_right _ _)

theorem fire (h : s.Orderly store k first) {e : Event} (hk : e.promoterKey = k) (depth : Depth)
    (r : Rule) : (s.fire store config now depth e r).Orderly store k first := by
  unfold Settlement.fire
  split
  · split
    · exact h.reward hk r _ _
    · exact h.refuse depth e r _
  · split
    · split
      · exact h
      · subst hk
        refine { h with promoter_moves := ?_, unbroken := ?_ }
        · intro t ht
          rcases List.mem_append.mp ht with ht | ht
          · exact h.promoter_moves t ht
          · rw [List.mem_singleton.mp ht]
            rfl
        · refine store.staleMove?_append h.unbroken ?_
          rw [List.nil_append]
          exact store.circleAfter_eq h.promoter_moves
    · exact h.refuse depth e r _

theorem foldl_fire (h : s.Orderly store k first) {e : Event} (hk : e.promoterKey = k)
    (depth : Depth) (rules : List Rule) :
    (rules.foldl (Settlement.fire store config now depth e) s).Orderly store k first := by
  induction rules generalizing s with
  | nil => exact h
  | cons r rules ih => exact ih (h.fire hk depth r)

theorem evaluateEach (h : s.Orderly store k first) {es gs : List Event}
    (hgs : ∀ g ∈ gs, g.promoterKey = k) :
    (s.evaluateEach store config now es gs).Orderly store k first := by
  induction gs generalizing es s with
  | nil => exact h
  | cons g gs ih =>
    rw [List.forall_mem_cons] at hgs
    exact ih (h.foldl_fire hgs.1 1 _) hgs.2

end Orderly

/-- A rule uses two identifiers at most. -/
theorem next_fire_le (depth : Depth) (e : Event) (s : Settlement) (r : Rule) :
    (fire store config now depth e s r).ids.next ≤ s.ids.next + 2 := by
  unfold fire
  split
  · split
    · exact Nat.le_refl _
    · exact Nat.le_succ _
  · split
    · split <;> exact Nat.le_add_right _ _
    · exact Nat.le_succ _

theorem next_evaluate_le (es : List Event) (depth : Depth) (s : Settlement) (e : Event) :
    (evaluate store config now es depth s e).ids.next ≤ s.ids.next + 2 * store.rules.length := by
  have hfold : ∀ (rules : List Rule) (s : Settlement),
      (rules.foldl (fire store config now depth e) s).ids.next ≤ s.ids.next + 2 * rules.length := by
    intro rules
    induction rules with
    | nil => exact fun s => Nat.le_refl _
    | cons r rules ih =>
      intro s
      have hfirst : (fire store config now depth e s r).ids.next ≤ s.ids.next + 2 :=
        next_fire_le depth e s r
      have hrest := ih (fire store config now depth e s r)
      rw [List.foldl_cons, List.length_cons]
      omega
  have hrules : (store.rulesFor es (s.circle store e.promoterKey) e).length ≤ store.rules.length :=
    List.length_filter_le _ _
  have := hfold (store.rulesFor es (s.circle store e.promoterKey) e) s
  unfold evaluate
  omega

/-! ## Commissions on commissions -/

/-- A rule without an event that follows leaves the reports alone. -/
theorem reports_fire {r : Rule} (h : r.effect.emits = false) (depth : Depth) (e : Event)
    (s : Settlement) : (fire store config now depth e s r).reports = s.reports := by
  unfold fire
  split
  · rename_i heffect
    simp [heffect, Effect.emits] at h
  · split
    · split <;> rfl
    · rfl

/-- Reports do not lead to further reports, because all rules were checked. -/
theorem reports_evaluate (hrules : store.Checked) {g : Event} (hg : g.kind = .commissionGenerated)
    (es : List Event) (depth : Depth) (s : Settlement) :
    (evaluate store config now es depth s g).reports = s.reports := by
  have hfold : ∀ (rules : List Rule) (s : Settlement), (∀ r ∈ rules, r.effect.emits = false) →
      (rules.foldl (fire store config now depth g) s).reports = s.reports := by
    intro rules
    induction rules with
    | nil => exact fun s _ => rfl
    | cons r rules ih =>
      intro s hs
      rw [List.forall_mem_cons] at hs
      rw [List.foldl_cons, ih _ hs.2, reports_fire hs.1]
  refine hfold _ s fun r hr => ?_
  simp only [Store.rulesFor, List.mem_filter, decide_eq_true_eq] at hr
  exact Rule.emits_eq_false (hrules r hr.1) (hr.2.2.2.1.trans hg)

theorem reports_evaluateEach (hrules : store.Checked) {gs : List Event}
    (hgs : ∀ g ∈ gs, g.kind = .commissionGenerated) (es : List Event) (s : Settlement) :
    (evaluateEach store config now es s gs).reports = s.reports := by
  induction gs generalizing es s with
  | nil => rfl
  | cons g gs ih =>
    rw [List.forall_mem_cons] at hgs
    rw [evaluateEach, ih hgs.2, reports_evaluate hrules hgs.1]

/-! ## The settlement of one event -/

variable {ids : IdSupply} {e : Event}

theorem orderly_first :
    (first store config now ids e).Orderly store e.promoterKey ids.next :=
  (Orderly.start store _ ids).foldl_fire rfl 0 _

theorem orderly_ofEvent :
    (ofEvent store config now ids e).Orderly store e.promoterKey ids.next :=
  orderly_first.evaluateEach orderly_first.promoter_reports

theorem reports_ofEvent (hrules : store.Checked) :
    (ofEvent store config now ids e).reports = (first store config now ids e).reports :=
  reports_evaluateEach hrules orderly_first.kind_reports _ _

/-- The reports have the numbers that the rules may use for the event itself. -/
theorem numbers_ofEvent (config : Config) (now : Instant) (ids : IdSupply) (e : Event)
    (hrules : store.Checked) :
    ∃ ns : List ℕ, (ofEvent store config now ids e).reports.map (·.id) =
        ns.map (fun i => (ids.skip i).peek) ∧ ns.Pairwise (· < ·) ∧
      ∀ i ∈ ns, i < 2 * store.rules.length := by
  have horderly : (first store config now ids e).Orderly store e.promoterKey ids.next :=
    orderly_first
  obtain ⟨ns, hns, hsorted, hrange⟩ := horderly.numbers
  have hbound : (first store config now ids e).ids.next ≤ ids.next + 2 * store.rules.length :=
    next_evaluate_le _ _ (start ids) e
  refine ⟨ns.map fun n => n - ids.next, ?_, ?_, ?_⟩
  · rw [reports_ofEvent hrules, hns, List.map_map]
    refine List.map_congr_left fun n hn => ?_
    have := (hrange n hn).1
    simp only [Function.comp, IdSupply.skip, IdSupply.peek]
    congr 1
    omega
  · rw [List.pairwise_map]
    refine hsorted.imp_of_mem fun {a b} ha hb hab => ?_
    have := (hrange a ha).1
    omega
  · intro i hi
    obtain ⟨n, hn, rfl⟩ := List.mem_map.mp hi
    have := hrange n hn
    omega

end Settlement

end Referral
