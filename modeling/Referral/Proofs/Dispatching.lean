import Referral.Proofs.Evaluating

/-!
# Cascades and settlements

A cascade stages an event, counts it, and evaluates it, and then does the same for the events that
report commissions, which lead to no further ones. So what the dispatch of an event stages is what
the settlement of the event says, and the store takes it as a whole.
-/

namespace Referral

/-- The exact sums are in range however far the events are counted, in the log and on their own. -/
def Store.Roomy (store : Store) (es : List Event) : Prop :=
  ∀ part, part <+: es → Book.InRange part ∧ Book.InRange (store.facts ++ part)

theorem Store.Roomy.of_prefix {store : Store} {es fs : List Event} (h : store.Roomy fs)
    (hes : es <+: fs) : store.Roomy es := fun part hpart => h part (hpart.trans hes)

namespace Settlement

open Cascade

variable {service : Service} {store : Store} {now : Instant} {k : PromoterKey} {es : List Event}
  {s : Settlement} {c : Cascade} {e : Event}

/-- One more event is staged, counted and noted as evaluated. -/
theorem Mirrors.enter {staging : Staging} (h : s.Mirrors store now k es staging) {delta : Book}
    (hadd : staging.unit.delta.add e = .ok delta) :
    s.Mirrors store now k (es ++ [e]) { staging with
      unit := { staging.unit with
        events := staging.unit.events ++ [e]
        delta
        evaluated := staging.unit.evaluated ++ [e.id] } } :=
  { h with
    events := by simp [h.events]
    evaluated := by simp [h.evaluated]
    delta := h.delta.add hadd }

/-- An event that is not staged and not too deep is settled by the handlers. -/
theorem Mirrors.handleEvent (h : s.Mirrors store now k es c.staging)
    (hbuiltIn : service.extra = []) {depth : Depth} (hdepth : depth ≤ service.config.maxDepth)
    (hk : e.promoterKey = k) (hnew : e.id ∉ es.map (·.id))
    (hbook : store.book.Tallies .all store.facts) (hroomy : store.Roomy (es ++ [e]))
    (hroom : ∀ r ∈ store.rules, r.trigger = e.kind → r.effect.emits = true →
      depth.next ≤ service.config.maxDepth)
    (hreport : c.report.handlerFailures = []) :
    ∃ c' events, Cascade.handleEvent service.dispatcher depth c e = (c', events) ∧
      (s.evaluate store service.config now (store.facts ++ (es ++ [e])) depth e).Mirrors store now k
        (es ++ [e]) c'.staging ∧
      (s.evaluate store service.config now (store.facts ++ (es ++ [e])) depth e).reports =
        s.reports ++ events ∧
      c'.report.handlerFailures = [] := by
  have hdeep : ¬ service.dispatcher.maxDepth < depth := not_lt.mpr hdepth
  obtain ⟨delta, hadd⟩ := h.delta.exists_add (hroomy _ (List.prefix_refl _)).1
  have hstaged : c.staging.unit.isStaged e.id = false := by
    rw [WorkUnit.isStaged, h.events, List.any_eq_false]
    intro f hf heq
    exact hnew (List.mem_map.mpr ⟨f, hf, of_decide_eq_true heq⟩)
  have hevaluated : c.staging.unit.evaluated.contains e.id = false := by
    rw [h.evaluated]
    simpa using hnew
  obtain ⟨events, trace, staging', heval, h', hreports⟩ :=
    (h.enter hadd).evaluate hk hbook (hroomy _ (List.prefix_refl _)).2 hroom
  let unit : WorkUnit := { c.staging.unit with events := c.staging.unit.events ++ [e] }
  let report := (c.accept unit depth e).report
  let counted : Cascade :=
    ⟨{ c.staging with unit := { unit with delta } }, c.calls ++ [⟨0, ⟨e, depth⟩⟩], report⟩
  let settled : Cascade := ⟨staging', counted.calls ++ [⟨1, ⟨e, depth⟩⟩], report⟩
  have hstage : c.staging.unit.stageEvent? e = some unit := by
    simp [WorkUnit.stageEvent?, hstaged, unit]
  have hcount : (c.accept unit depth e).callHandler 0 aggregatesHandler ⟨e, depth⟩ =
      (counted, []) := by
    have hdelta : (c.accept unit depth e).staging.unit.delta.add e = .ok delta := hadd
    simp only [callHandler, aggregatesHandler, hdelta]
    rfl
  have hsettle : counted.callHandler 1 (rulesHandler service.config) ⟨e, depth⟩ =
      (settled, events) := by
    have hmark : counted.staging.unit.markEvaluated? e.id = some { unit with
        delta, evaluated := unit.evaluated ++ [e.id] } := by
      simp only [WorkUnit.markEvaluated?, counted, unit, hevaluated, Bool.false_eq_true, if_false]
    simp only [callHandler, rulesHandler, hmark]
    simp only [counted, unit, heval]
    rfl
  refine ⟨settled, events, ?_, h', hreports, hreport⟩
  unfold Cascade.handleEvent
  rw [if_neg hdeep, hstage]
  simp only [Service.dispatcher, hbuiltIn, callAll, hcount, hsettle, List.nil_append,
    List.append_nil]

/-- The events that report commissions are settled one after the other, and nothing follows from
them. -/
theorem Mirrors.handleReports (h : s.Mirrors store now k es c.staging)
    (hbuiltIn : service.extra = []) (hdepth : 1 ≤ service.config.maxDepth)
    (hrules : store.Checked) (hbook : store.book.Tallies .all store.facts) {gs : List Event}
    (hk : ∀ g ∈ gs, g.promoterKey = k) (hkind : ∀ g ∈ gs, g.kind = .commissionGenerated)
    (hnew : ((es ++ gs).map (·.id)).Nodup) (hroomy : store.Roomy (es ++ gs))
    (hreport : c.report.handlerFailures = []) :
    ∃ c', handleLevel service.dispatcher 1 c gs = (c', []) ∧
      (s.evaluateEach store service.config now (store.facts ++ es) gs).Mirrors store now k
        (es ++ gs) c'.staging ∧
      c'.report.handlerFailures = [] := by
  induction gs generalizing es s c with
  | nil =>
    rw [List.append_nil]
    exact ⟨c, rfl, h, hreport⟩
  | cons g gs ih =>
    rw [List.forall_mem_cons] at hk hkind
    rw [List.append_cons] at hnew hroomy ⊢
    have hg : g.id ∉ es.map (·.id) := by
      rw [List.append_assoc, List.map_append, List.nodup_append] at hnew
      exact fun hmem => hnew.2.2 _ hmem _ (by simp) rfl
    have hroom : ∀ r ∈ store.rules, r.trigger = g.kind → r.effect.emits = true →
        (1 : Depth).next ≤ service.config.maxDepth := by
      intro r hr htrigger hemits
      rw [Rule.emits_eq_false (hrules r hr) (htrigger.trans hkind.1)] at hemits
      cases hemits
    obtain ⟨c₁, events, hevent, h₁, hreports, hreport₁⟩ := h.handleEvent hbuiltIn hdepth hk.1 hg
      hbook (hroomy.of_prefix (List.prefix_append _ _)) hroom hreport
    rw [reports_evaluate hrules hkind.1] at hreports
    obtain rfl : events = [] := List.self_eq_append_right.mp hreports
    obtain ⟨c', hlevel, h', hreport'⟩ := ih h₁ hk.2 hkind.2 hnew hroomy hreport₁
    refine ⟨c', ?_, ?_, hreport'⟩
    · simp only [handleLevel, hevent, hlevel, List.nil_append]
    · rw [evaluateEach, List.append_assoc]
      exact h'

theorem run_nil (d : Dispatcher) (levels : ℕ) (depth : Depth) (c : Cascade) :
    run d levels depth c [] = (c, [], depth) := by
  cases levels <;> rfl

/-- A cascade of two levels, if the limit allows them. -/
theorem dispatchAt_of_two_levels {d : Dispatcher} (hdepth : 1 ≤ d.maxDepth) {staging : Staging}
    {calls : List CallRecord} {c₁ c₂ : Cascade} {gs : List Event}
    (hfirst : Cascade.handleEvent d 0 ⟨staging, calls, .start⟩ e = (c₁, gs))
    (hsecond : handleLevel d 1 c₁ gs = (c₂, [])) : d.dispatchAt 0 e staging calls = c₂ := by
  -- there is room for both levels and for the look at the empty third one
  obtain ⟨levels, hlevels⟩ : ∃ levels, d.levels 0 = levels + 3 := by
    have hmax : 1 ≤ d.maxDepth.val := hdepth
    refine ⟨d.levels 0 - 3, ?_⟩
    unfold Dispatcher.levels
    split
    · have hzero : (0 : Depth).val = 0 := rfl
      omega
    · omega
  have hlevel : handleLevel d 0 ⟨staging, calls, .start⟩ [e] = (c₁, gs) := by
    simp only [handleLevel, hfirst, List.append_nil]
  have hrest : (run d (levels + 2) 1 c₁ gs).1 = c₂ := by
    cases gs with
    | nil =>
      cases hsecond
      rw [run_nil]
    | cons g gs =>
      rw [run, hsecond]
      exact congrArg Prod.fst (run_nil _ _ _ _)
  rw [Dispatcher.dispatchAt, hlevels, run, hlevel]
  exact hrest

/-- The unit of work without changes holds the settlement in which nothing is done. -/
theorem Mirrors.start (store : Store) (now : Instant) {permits : Permits} (ids : IdSupply)
    (hpermit : k ∉ permits.out) :
    (Settlement.start ids).Mirrors store now k []
      ⟨.start (store.context k), permits, ids, now⟩ where
  context := by simp [WorkUnit.start, Settlement.start, Store.context]
  events := rfl
  evaluated := rfl
  delta := Book.tallies_empty _
  commissions := rfl
  transitions := rfl
  failures := rfl
  resolved := rfl
  attempted := rfl
  ids := rfl
  now := rfl
  permit := .inr hpermit

/-- The dispatch of an event stages what the settlement of the event says, and no handler fails. -/
theorem mirrors_dispatchAt (hbuiltIn : service.extra = []) (hdepth : 1 ≤ service.config.maxDepth)
    (hrules : store.Checked) (hbook : store.book.Tallies .all store.facts) {permits : Permits}
    (hpermit : e.promoterKey ∉ permits.out) {ids : IdSupply}
    (hnew : ((e :: (ofEvent store service.config now ids e).reports).map (·.id)).Nodup)
    (hroomy : store.Roomy (e :: (ofEvent store service.config now ids e).reports))
    (calls : List CallRecord) :
    ∃ c, service.dispatcher.dispatchAt 0 e
        ⟨.start (store.context e.promoterKey), permits, ids, now⟩ calls = c ∧
      (ofEvent store service.config now ids e).Mirrors store now e.promoterKey
        (e :: (ofEvent store service.config now ids e).reports) c.staging ∧
      c.report.handlerFailures = [] := by
  let c₀ : Cascade := ⟨⟨.start (store.context e.promoterKey), permits, ids, now⟩, calls, .start⟩
  rw [reports_ofEvent hrules] at hnew hroomy ⊢
  obtain ⟨c₁, events, hevent, h₁, hreports, hreport₁⟩ :=
    (Mirrors.start store now ids hpermit).handleEvent (c := c₀) hbuiltIn (Fin.zero_le _) rfl
      (by simp) hbook (hroomy.of_prefix (List.prefix_append [e] _)) (fun _ _ _ _ => hdepth) rfl
  have hmirrors : (first store service.config now ids e).Mirrors store now e.promoterKey [e]
      c₁.staging := h₁
  have hevents : (first store service.config now ids e).reports = [] ++ events := hreports
  obtain rfl : events = (first store service.config now ids e).reports := hevents.symm
  have horderly : (first store service.config now ids e).Orderly store e.promoterKey ids.next :=
    orderly_first
  obtain ⟨c₂, hlevel, h₂, hreport₂⟩ := hmirrors.handleReports hbuiltIn hdepth hrules hbook
    horderly.promoter_reports horderly.kind_reports hnew hroomy hreport₁
  exact ⟨c₂, dispatchAt_of_two_levels hdepth hevent hlevel, h₂, hreport₂⟩

end Settlement

/-! ## Committing -/

namespace Store

/-- Appended events change the log and its index, whatever the book is. -/
theorem foldl_append_with (es : List Event) (now : Instant) (s : Store) (book : Book) :
    es.foldl (fun s e => s.append e now) { s with book } = { s with
      log := (es.foldl (fun s e => s.append e now) s).log
      index := (es.foldl (fun s e => s.append e now) s).index
      book } := by
  induction es generalizing s with
  | nil => rfl
  | cons e es ih => exact ih (s.append e now)

/-- Of moves of one promoter the last is kept. -/
theorem foldl_move (s : Store) {k : PromoterKey} {ts : List Transition}
    (hts : ∀ t ∈ ts, (⟨t.program, t.promoter⟩ : PromoterKey) = k) :
    ts.foldl move s = { s with
      memberships :=
        match ts.getLast? with
        | some t => s.memberships.insert k t.membership
        | none => s.memberships } := by
  induction ts generalizing s with
  | nil => rfl
  | cons t ts ih =>
    rw [List.forall_mem_cons] at hts
    rw [List.foldl_cons, ih _ hts.2, List.getLast?_cons]
    simp only [move, hts.1]
    cases ts.getLast? with
    | none => rfl
    | some t' => simp [OrderedMap.insert_insert]

/-- A unit that holds the settlement of an event leaves the store as the settlement says. -/
theorem write_eq_settled {store : Store} {now : Instant} {e : Event} {s : Settlement}
    {staging : Staging}
    (h : s.Mirrors store now e.promoterKey (e :: s.reports) staging)
    (hmoves : ∀ t ∈ s.moves, (⟨t.program, t.promoter⟩ : PromoterKey) = e.promoterKey)
    (book : Book) :
    store.write staging.unit book now = store.settled now e s book := by
  dsimp only [write]
  rw [h.events, h.commissions, h.transitions, h.failures, h.resolved, h.attempted,
    foldl_move _ hmoves, foldl_append_with]
  have happend := foldl_append_with (e :: s.reports) now store store.book
  unfold settled
  rw [happend]
  rfl

/-- A unit that holds the settlement of an event is committed. -/
theorem commit_of_mirrors {store : Store} {now : Instant} {e : Event} {s : Settlement}
    {staging : Staging} {first : ℕ} (h : s.Mirrors store now e.promoterKey (e :: s.reports) staging)
    (horderly : s.Orderly store e.promoterKey first) (hfailing : store.failingCommits = 0)
    (hnew : ∀ g ∈ e :: s.reports, store.hasEvent g.id = false)
    (hbook : store.book.Tallies .all store.facts) (hroomy : store.Roomy (e :: s.reports)) :
    ∃ book receipt, book.Tallies .all (store.facts ++ e :: s.reports) ∧
      store.commit staging.unit now = (.ok receipt, store.settled now e s book) := by
  have hcheck : store.check staging.unit = .ok () := by
    have hduplicate : (e :: s.reports).find? (fun g => store.hasEvent g.id) = none := by
      simpa [List.find?_eq_none] using hnew
    simp only [check, h.events, hduplicate, h.transitions, horderly.unbroken, h.resolved,
      h.attempted, List.append_nil, List.find?_nil]
  obtain ⟨book, hmerge⟩ := hbook.exists_merge h.delta (hroomy _ (List.prefix_refl _)).2
  refine ⟨book, (store.settled now e s book).receipt staging.unit, hbook.merge h.delta hmerge, ?_⟩
  unfold commit
  simp only [hfailing, Nat.lt_irrefl, if_false, hcheck, hmerge,
    write_eq_settled h horderly.promoter_moves]

end Store

end Referral
