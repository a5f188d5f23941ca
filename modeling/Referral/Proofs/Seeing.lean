import Referral.Proofs.AtOnce
import Referral.Proofs.Reporting

/-!
# What rules are matched against

The stored totals may lag behind the log only in commissions, which no rule sees. So where they are
right about the rest, the rules for each event of a dispatch are matched against what is counted in
the log and in the events staged so far, and after the commit the totals are right again.
-/

namespace Referral

/-! ## Totals that show a log -/

section Counting

variable {k : PromoterKey} {es fs : List Event} {e : Event}

theorem countOf_append (kind : EventKind) (k : PromoterKey) (es fs : List Event) :
    countOf kind k (es ++ fs) = countOf kind k es + countOf kind k fs := List.countP_append

theorem revenueOf_append (k : PromoterKey) (es fs : List Event) :
    revenueOf k (es ++ fs) = revenueOf k es + revenueOf k fs := by
  simp [revenueOf]

namespace PromoterTotals

variable {t t' d : PromoterTotals}

theorem shows_zero (k : PromoterKey) : zero.Shows k [] := ⟨rfl, rfl, rfl⟩

theorem shows_ofEvent (e : Event) : (ofEvent e).Shows e.promoterKey [e] := by
  cases hkind : e.kind <;>
    exact ⟨by simp [ofEvent, countOf, hkind, zero], by simp [ofEvent, countOf, hkind, zero],
      by simp [ofEvent, revenueOf, hkind, zero, Money.zero]⟩

/-- The totals of some events and of others make those of both. -/
theorem Shows.append (h : t.Shows k es) (hd : d.Shows k fs)
    (hvalue : ∀ f, t'.value f = t.value f + d.value f) : t'.Shows k (es ++ fs) := by
  have hsignups := hvalue .signups
  have hpurchases := hvalue .purchases
  simp only [value] at hsignups hpurchases
  refine ⟨?_, ?_, ?_⟩
  · rw [countOf_append, ← h.signups, ← hd.signups]
    omega
  · rw [countOf_append, ← h.purchases, ← hd.purchases]
    omega
  · rw [revenueOf_append, ← h.revenue, ← hd.revenue]
    exact hvalue .revenue

/-- Events that rules do not see do not matter. -/
theorem Shows.append_unseen (h : t.Shows k es)
    (hunseen : ∀ g ∈ fs, g.isReport = true ∨ g.promoterKey ≠ k) : t.Shows k (es ++ fs) := by
  have hcount : ∀ kind ≠ EventKind.commissionGenerated, countOf kind k fs = 0 := by
    intro kind hkind
    rw [countOf, List.countP_eq_zero]
    intro g hg
    rcases hunseen g hg with hreport | hother
    · simp only [Event.isReport, decide_eq_true_eq] at hreport
      simp [hreport, Ne.symm hkind]
    · simp [hother]
  have hrevenue : revenueOf k fs = 0 := by
    have hnone : fs.filter (fun g => g.kind = .purchase ∧ g.promoterKey = k) = [] := by
      rw [List.filter_eq_nil_iff]
      intro g hg
      rcases hunseen g hg with hreport | hother
      · simp only [Event.isReport, decide_eq_true_eq] at hreport
        simp [hreport]
      · simp [hother]
    rw [revenueOf, hnone]
    rfl
  refine ⟨?_, ?_, ?_⟩
  · rw [countOf_append, hcount .signup (by decide), Nat.add_zero, h.signups]
  · rw [countOf_append, hcount .purchase (by decide), Nat.add_zero, h.purchases]
  · rw [revenueOf_append, hrevenue, Int.add_zero, h.revenue]

end PromoterTotals

end Counting

namespace Book

variable {b b' : Book} {e : Event}

/-- What an event adds to the totals of its promoter. -/
theorem value_promoter_of_add (hadd : b.add e = .ok b') (f : PromoterField) :
    (b'.promoter e.promoterKey).value f =
      (b.promoter e.promoterKey).value f + (PromoterTotals.ofEvent e).value f := by
  obtain ⟨hpromoters, -⟩ := add?_eq_some.mp (add_eq_ok.mp hadd)
  obtain ⟨sum, hsum, hinsert⟩ := Option.map_eq_some_iff.mp hpromoters
  rw [promoter, ← hinsert, OrderedMap.total_insert, if_pos rfl]
  exact PromoterTotals.add?_eq_some_iff.mp hsum f

/-- A single event can be counted. -/
theorem exists_add_empty (e : Event) : ∃ b, (∅ : Book).add e = .ok b := by
  have hzero : ∀ {κ ν : Type} [Ranked κ] [Summable ν] [Measured ν] (k : κ) (v : ν),
      (∅ : OrderedMap κ ν).add? k v = some ((∅ : OrderedMap κ ν).insert k v) := by
    intro κ ν _ _ _ k v
    have hsum : Summable.add? Summable.zero v = some v := by
      rw [Measured.add?_eq_some]
      simp
    rw [OrderedMap.add?, OrderedMap.total_empty, hsum]
    rfl
  let b : Book :=
    ⟨(∅ : OrderedMap _ _).insert e.promoterKey (.ofEvent e),
      (∅ : OrderedMap _ _).insert (e.promoterKey, e.day) (.ofEvent e),
      (∅ : OrderedMap _ _).insert e.linkKey (.ofEvent e),
      (∅ : OrderedMap _ _).insert (e.linkKey, e.day) (.ofEvent e)⟩
  have hparts : (∅ : Book).add? e = some b :=
    add?_eq_some.mpr ⟨hzero e.promoterKey (PromoterTotals.ofEvent e),
      hzero (e.promoterKey, e.day) (PromoterTotals.ofEvent e),
      hzero e.linkKey (LinkTotals.ofEvent e), hzero (e.linkKey, e.day) (LinkTotals.ofEvent e)⟩
  exact ⟨b, add_eq_ok.mpr hparts⟩

end Book

/-! ## Matching by the log -/

namespace Staging

/-- Evaluates the rules for an event as they match what is counted in the log and in the events that
are staged. -/
def evaluateByLog (s : Staging) (log : List Event) (config : Config) (e : Event) (depth : Depth) :
    Except Error (List Event) × Staging :=
  match s.unit.currentTotals with
  | .error error => (.error error, s)
  | .ok _ =>
    let matched := (s.unit.context.eligibleRules e).filter fun r =>
      r.isMatch (Snapshot.ofLog (log ++ s.unit.events) e)
    let ((events, _), s') := fireAll config e depth matched s
    (.ok events, s')

/-- The totals at hand are right in what rules see: the stored ones about the log, the staged ones
about the staged events. -/
structure Shows (s : Staging) (log : List Event) (k : PromoterKey) : Prop where
  stored : s.unit.context.totals.Shows k log
  staged : (s.unit.delta.promoter k).Shows k s.unit.events

variable {config : Config} {e : Event} {depth : Depth} {allowed : RuleId → Effect → Prop}
  {s s' : Staging} {new : List Event} {log : List Event} {k : PromoterKey}

theorem Shows.does (h : s.Shows log k) (step : s.Does config e depth allowed new s') :
    s'.Shows log k := by
  obtain ⟨hstored, hstaged⟩ := h
  cases step with
  | permit hpermit =>
    obtain ⟨held, permits, rfl⟩ := ensurePermit?_frame hpermit
    exact ⟨hstored, hstaged⟩
  | _ => exact ⟨hstored, hstaged⟩

/-- An event that cannot be counted is one that rules do not see. -/
theorem Shows.enters (h : s.Shows log k) (hk : e.promoterKey = k)
    (hcounted : e.isReport = true ∨ s.unit.delta = ∅) (henters : s.Enters e depth s') :
    s'.Shows log k := by
  subst hk
  cases henters with
  | counted hadd =>
    exact ⟨h.stored,
      h.staged.append (PromoterTotals.shows_ofEvent e) (Book.value_promoter_of_add hadd)⟩
  | uncounted hadd =>
    refine ⟨h.stored, h.staged.append_unseen fun g hg => ?_⟩
    rcases hcounted with hreport | hempty
    · rw [List.mem_singleton.mp hg]
      exact .inl hreport
    · obtain ⟨b, hb⟩ := Book.exists_add_empty e
      rw [hempty, hb] at hadd
      cases hadd

theorem Shows.takes (h : s.Shows log k) (hk : e.promoterKey = k)
    (hcounted : e.isReport = true ∨ s.unit.delta = ∅) (htakes : s.Takes config e depth new s') :
    s'.Shows log k := by
  cases htakes with
  | reject => exact ⟨h.stored, h.staged⟩
  | skip => exact h
  | handle _ _ enters handles =>
    exact handles.keeps' (I := fun s => s.Shows log k) (fun step hs => hs.does step)
      (h.enters hk hcounted enters)

/-- The totals that rules are matched against show the log and the events staged so far. -/
theorem Shows.currentTotals (h : s.Shows log k) (hk : s.unit.context.key = k)
    {totals : PromoterTotals} (htotals : s.unit.currentTotals = .ok totals) :
    totals.Shows k (log ++ s.unit.events) := by
  unfold WorkUnit.currentTotals at htotals
  rw [hk] at htotals
  split at htotals
  · rename_i sum hsum
    cases htotals
    exact h.stored.append h.staged (PromoterTotals.add?_eq_some_iff.mp hsum)
  · cases htotals

theorem Shows.evaluate_eq (h : s.Shows log e.promoterKey)
    (hk : s.unit.context.key = e.promoterKey) :
    s.evaluateByLog log config e depth =
      ((s.evaluate config e depth).1.map (·.1), (s.evaluate config e depth).2) := by
  rw [evaluateByLog, Staging.evaluate_eq]
  cases htotals : s.unit.currentTotals with
  | error error => rfl
  | ok totals =>
    dsimp only
    rw [← (h.currentTotals hk htotals).snapshot_eq]
    rfl

end Staging

/-- Evaluates the rules for every event by what is counted in a log. -/
def rulesByLog (config : Config) (log : List Event) : Handler where
  name := (rulesHandler config).name
  react _ c s :=
    match s.unit.markEvaluated? c.event.id with
    | none => (.ok [], s)
    | some unit => { s with unit }.evaluateByLog log config c.event c.depth

theorem rulesByLog_eq {config : Config} {log : List Event} {calls : List Call} {c : Call}
    {s : Staging} (h : s.Shows log c.event.promoterKey)
    (hk : s.unit.context.key = c.event.promoterKey) :
    (rulesByLog config log).react calls c s = (rulesHandler config).react calls c s := by
  simp only [rulesByLog, rulesHandler]
  cases hmarked : s.unit.markEvaluated? c.event.id with
  | none => rfl
  | some unit =>
    simp only [WorkUnit.markEvaluated?, Option.ite_none_left_eq_some, Option.some.injEq] at hmarked
    obtain ⟨-, rfl⟩ := hmarked
    have hmarks : Staging.Shows { s with
        unit := { s.unit with evaluated := s.unit.evaluated ++ [c.event.id] } } log
        c.event.promoterKey := ⟨h.stored, h.staged⟩
    exact hmarks.evaluate_eq hk

namespace Service

/-- The dispatch of an event on what is stored, if rules are matched against what is counted in the
log and in the events that are staged. -/
def dispatchByLog (s : Service) (store : Store) (e : Event) (ids : IdSupply) (now : Instant) :
    Cascade :=
  (Dispatcher.mk [aggregatesHandler, rulesByLog s.config store.facts] s.config.maxDepth).dispatchAt
    0 e ⟨.start (store.context e.promoterKey), .empty, ids, now⟩ []

variable {s : Service} {e : Event} {store : Store} {ids : IdSupply} {now : Instant}

/-- What is known at each event of a dispatch: the totals at hand show the log and what is staged,
and every event but the first reports a commission. -/
structure Seeing (store : Store) (root : Event) (first : ℕ) (staging : Staging)
    (queue : List Event) : Prop where
  belongs : staging.Belongs store root first queue
  shows : staging.Shows store.facts root.promoterKey
  reports : (∀ g ∈ queue, g.isReport = true) ∨ queue = [root] ∧ staging.unit.delta = ∅

variable {root g : Event} {first : ℕ} {c : Cascade} {rest : List Event} {depth : Depth}

theorem Seeing.counted (h : Seeing store root first c.staging (g :: rest)) :
    g.promoterKey = root.promoterKey ∧ (g.isReport = true ∨ c.staging.unit.delta = ∅) :=
  ⟨congrArg LinkKey.owner (h.belongs.links g (by simp)),
    h.reports.imp (fun hall => hall g List.mem_cons_self) And.right⟩

theorem Seeing.handleEvent (hbuiltIn : s.extra = [])
    (h : Seeing store root first c.staging (g :: rest)) :
    Seeing store root first (Cascade.handleEvent s.dispatcher depth c g).1.staging
      (rest ++ (Cascade.handleEvent s.dispatcher depth c g).2) := by
  have htakes := Cascade.takes_handleEvent hbuiltIn c depth g
  obtain ⟨hkey, hcounted⟩ := h.counted
  refine ⟨h.belongs.takes htakes, h.shows.takes hkey hcounted htakes, .inl fun g' hg' => ?_⟩
  rcases List.mem_append.mp hg' with hg' | hg'
  · rcases h.reports with hall | ⟨honly, -⟩
    · exact hall g' (List.mem_cons_of_mem g hg')
    · rw [(List.cons.inj honly).2] at hg'
      cases hg'
  · exact htakes.reports g' hg'

/-- Matching by the log makes no difference where the totals show it. -/
theorem Seeing.handleEvent_eq (hbuiltIn : s.extra = [])
    (h : Seeing store root first c.staging (g :: rest)) :
    Cascade.handleEvent ⟨[aggregatesHandler, rulesByLog s.config store.facts], s.config.maxDepth⟩
      depth c g = Cascade.handleEvent s.dispatcher depth c g := by
  unfold Cascade.handleEvent
  by_cases hdeep : s.config.maxDepth < depth
  · rw [if_pos hdeep, if_pos (show s.dispatcher.maxDepth < depth from hdeep)]
    rfl
  rw [if_neg hdeep, if_neg (show ¬ s.dispatcher.maxDepth < depth from hdeep), WorkUnit.stageEvent?]
  by_cases hstaged : c.staging.unit.isStaged g.id = true
  · rw [if_pos hstaged]
  rw [if_neg hstaged]
  let unit : WorkUnit := { c.staging.unit with events := c.staging.unit.events ++ [g] }
  let counted := (c.accept unit depth g).callHandler 0 aggregatesHandler ⟨g, depth⟩
  have henters : c.staging.Enters g depth counted.1.staging :=
    (Cascade.enters_callHandler rfl).1
  obtain ⟨hkey, hcounted⟩ := h.counted
  have hshows : counted.1.staging.Shows store.facts g.promoterKey := by
    rw [hkey]
    exact h.shows.enters hkey hcounted henters
  have hcontext : counted.1.staging.unit.context.key = g.promoterKey := by
    rw [henters.context_eq, h.belongs.key, hkey]
  have hrules : counted.1.callHandler 1 (rulesByLog s.config store.facts) ⟨g, depth⟩ =
      counted.1.callHandler 1 (rulesHandler s.config) ⟨g, depth⟩ := by
    unfold Cascade.callHandler
    rw [rulesByLog_eq (c := ⟨g, depth⟩) hshows hcontext]
    rfl
  simp only [Service.dispatcher, hbuiltIn, Cascade.callAll_pair]
  exact congrArg₂ (fun (last : Cascade × List Event) (new : List Event) => (last.1, new ++ last.2))
    hrules rfl

/-- Where the stored totals show the log, rules are matched against the log, and the totals at hand
show the log and all that is staged. -/
theorem dispatchOn_eq_byLog (hbuiltIn : s.extra = [])
    (hshows : (store.book.promoter e.promoterKey).Shows e.promoterKey store.facts) (ids : IdSupply)
    (now : Instant) :
    s.dispatchOn store e ids now = s.dispatchByLog store e ids now ∧
      (s.dispatchOn store e ids now).staging.Shows store.facts e.promoterKey := by
  let R : Cascade → Cascade → List Event → Prop := fun c c' queue =>
    c' = c ∧ Seeing store e ids.next c.staging queue
  have hevent : ∀ c c' depth g rest, R c c' (g :: rest) →
      (Cascade.handleEvent ⟨[aggregatesHandler, rulesByLog s.config store.facts],
        s.config.maxDepth⟩ depth c' g).2 = (Cascade.handleEvent s.dispatcher depth c g).2 ∧
      R (Cascade.handleEvent s.dispatcher depth c g).1
        (Cascade.handleEvent ⟨[aggregatesHandler, rulesByLog s.config store.facts],
          s.config.maxDepth⟩ depth c' g).1
        (rest ++ (Cascade.handleEvent s.dispatcher depth c g).2) := by
    rintro c _ depth g rest ⟨rfl, hseeing⟩
    rw [hseeing.handleEvent_eq hbuiltIn]
    exact ⟨rfl, rfl, hseeing.handleEvent hbuiltIn⟩
  have hstart : R
      ⟨⟨.start (store.context e.promoterKey), .empty, ids, now⟩, [], .start⟩
      ⟨⟨.start (store.context e.promoterKey), .empty, ids, now⟩, [], .start⟩ [e] :=
    ⟨rfl, .start _ _ _ _ _, ⟨hshows, PromoterTotals.shows_zero _⟩, .inr ⟨rfl, rfl⟩⟩
  have hrun := Cascade.run_alike hevent (s.dispatcher.levels 0) 0 hstart
  exact ⟨hrun.1.symm, hrun.2.shows⟩

end Service

/-! ## Totals after a commit -/

/-- The stored totals of all promoters are right about the log in what rules see. -/
def Store.Shows (s : Store) : Prop := ∀ k, (s.book.promoter k).Shows k s.facts

theorem Store.Shows.commit {store : Store} {staging : Staging} {root : Event} {first : ℕ}
    (h : store.Shows) (hbelongs : staging.Belongs store root first [])
    (hstaging : staging.Shows store.facts root.promoterKey) (now : Instant) :
    (store.commit staging.unit now).2.Shows := by
  rcases store.commit_store staging.unit now with ⟨n, hstore⟩ | ⟨-, book, hmerge, hstore⟩
  · rw [hstore]
    exact h
  · rw [hstore]
    intro k
    rw [book_write, facts_write]
    by_cases hk : k = root.promoterKey
    · subst hk
      exact (h _).append hstaging.staged (Book.value_promoter_of_merge hmerge _)
    · rw [(hbelongs.delta.agreeBeside hmerge).promoter hk]
      refine (h k).append_unseen fun g hg => .inr fun hgk => hk ?_
      rw [← hgk]
      exact congrArg LinkKey.owner (hbelongs.links g (List.mem_append_left _ hg))

namespace Service

variable {s : Service} {e : Event} {store store' : Store} {origin : Instant}
  {a : Except Error PublishOutcome}

/-- An event is committed with what follows from it by rules that are matched against what is
counted in the log before it and in the events staged with it. -/
def CommitsByLog (s : Service) (e : Event) (report : PublishReport) (store store' : Store) : Prop :=
  ∃ (ids : IdSupply) (began ended : Instant) (receipt : Receipt),
    store.commit (s.dispatchByLog store e ids began).staging.unit ended = (.ok receipt, store') ∧
    report = reportOn e (s.dispatchByLog store e ids began).staging.unit receipt
      (s.dispatchByLog store e ids began).report

/-- The log goes on with the event and what follows from it. -/
theorem CommitsByLog.exists_facts_eq {report : PublishReport}
    (h : s.CommitsByLog e report store store') : ∃ ids began,
      store'.facts = store.facts ++ (s.dispatchByLog store e ids began).staging.unit.events := by
  obtain ⟨ids, began, ended, receipt, hcommit, -⟩ := h
  obtain ⟨-, -, book, -, rfl⟩ := Store.commit_of_ok hcommit
  exact ⟨ids, began, Store.facts_write _ _ _ _⟩

theorem AtOnce.later (h : s.AtOnce origin e store a store') : store.Later store' := by
  rcases h.store_eq with rfl | ⟨ids, began, ended, rfl⟩
  · exact .refl _
  · exact .commit store _ _

theorem AtOnce.shows (hbuiltIn : s.extra = []) (h : s.AtOnce origin e store a store')
    (hshows : store.Shows) : store'.Shows := by
  rcases h.store_eq with rfl | ⟨ids, began, ended, rfl⟩
  · exact hshows
  · exact hshows.commit (belongs_dispatchOn hbuiltIn store e ids began).2
      (dispatchOn_eq_byLog hbuiltIn (hshows _) ids began).2 ended

theorem AtOnce.commitsByLog (hbuiltIn : s.extra = []) {report : PublishReport}
    (h : s.AtOnce origin e store (.ok (.committed report)) store') (hshows : store.Shows) :
    s.CommitsByLog e report store store' := by
  generalize ha : (.ok (.committed report) : Except Error PublishOutcome) = a at h
  cases h with
  | invalid => cases ha
  | known => cases ha
  | @dispatched _ _ ids began ended _ answer store' commit =>
    have hbyLog := (dispatchOn_eq_byLog hbuiltIn (hshows e.promoterKey) ids (origin.after began)).1
    rw [hbyLog] at commit ha
    cases answer with
    | error error =>
      simp only [answerTo] at ha
      split at ha <;> cases ha
    | ok receipt =>
      cases ha
      exact ⟨ids, _, _, receipt, commit, rfl⟩

end Service

end Referral
