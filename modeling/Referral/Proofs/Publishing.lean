import Referral.Proofs.Dispatching
import Referral.Proofs.Locks

/-!
# Publishing

An event that is published while nothing else goes on is recorded, and the store is left exactly as
the settlement of the event says: the event and the reports of its commissions in the log, their
commissions, the circle to which the last move led, the records of what was refused, and the totals
of the log.
-/

namespace Referral

namespace Procedure

variable {α β : Type} {w w' : World}

/-! ## Going on alone -/

/-- A procedure that ends without waiting goes over into the next one. -/
theorem goOn_bind {p : Procedure β} {b : β} (h : p.goOn w = (done b, w')) (f : β → Procedure α) :
    (p >>= f).goOn w = (f b).goOn w' := by
  induction p generalizing w with
  | done a =>
    cases h
    rfl
  | act action next ih =>
    by_cases hready : action.isReady w = true
    · simp only [goOn, hready, if_true] at h
      change (act action fun b => (next b).andThen f).goOn w = _
      simp only [goOn, hready, if_true]
      exact ih _ h f
    · simp only [goOn, hready] at h
      cases h
  | both first second next _ _ ih =>
    change (both first second fun b c => (next b c).andThen f).goOn w = _
    simp only [goOn] at h ⊢
    split at h
    · exact ih _ _ h f
    · cases h

/-- Keys at which there is nobody are taken without waiting. -/
theorem goOn_lockAll (task : TaskId) {ks : List LockKey} (hks : ks.Nodup)
    (hfree : ∀ k ∈ ks, w.locks.queue k = []) :
    (lockAll task ks).goOn w =
      (done (), { w with locks := ks.foldl (fun t k => t.reach task k) w.locks }) := by
  induction ks generalizing w with
  | nil => rfl
  | cons k ks ih =>
    rw [List.nodup_cons] at hks
    rw [List.forall_mem_cons] at hfree
    have hholds : (w.locks.reach task k).holds task k = true := by
      simp [LockTable.holds, LockTable.queue_reach, hfree.1]
    have hrest : ∀ j ∈ ks, (w.locks.reach task k).queue j = [] := by
      intro j hj
      have hne : j ≠ k := fun heq => hks.1 (heq ▸ hj)
      rw [LockTable.queue_reach, if_neg hne]
      exact hfree.2 j hj
    simp only [lockAll, goOn, Action.isReady, World.perform, hholds, if_true]
    exact ih (w := { w with locks := w.locks.reach task k }) hks.2 hrest

/-- A procedure that ends whatever the locks and the names of tasks are ends as well if it has to
take keys at which there is nobody. -/
theorem goOn_withLocks {body : Procedure α} {ks : List LockKey} (hks : ks.Nodup)
    (hfree : ∀ k ∈ ks, w.locks.queue k = []) {a : α} {store : Store}
    (hbody : ∀ locks nextTask, ∃ w', body.goOn { w with locks, nextTask } = (done a, w') ∧
      w'.store = store) :
    ∃ w', (withLocks ks body).goOn w = (done a, w') ∧ w'.store = store := by
  obtain ⟨w₁, hgo, hstore⟩ := hbody (ks.foldl (fun t k => t.reach w.nextTask k) w.locks)
    (w.nextTask + 1)
  refine ⟨{ w₁ with locks := w₁.locks.release w.nextTask ks }, ?_, hstore⟩
  have hlock := goOn_lockAll (w := { w with nextTask := w.nextTask + 1 }) w.nextTask hks hfree
  have htask : (perform .newTask).goOn w =
      (done w.nextTask, { w with nextTask := w.nextTask + 1 }) := rfl
  unfold withLocks
  rw [goOn_bind htask, goOn_bind hlock, goOn_bind hgo]
  rfl

end Procedure

namespace Service

open Procedure

variable {s : Service} {w : World}

/-- A commit that is taken ends at once. -/
theorem goOn_commit {u : WorkUnit} {receipt : Receipt} {store : Store}
    (h : w.store.commit u w.now = (.ok receipt, store)) :
    (s.commit u).goOn w = (.done (.ok receipt), { w with store }) := by
  have hcommit : (perform (.commit u)).goOn w = (.done (.ok receipt), { w with store }) := by
    simp only [perform, goOn, Action.isReady, World.perform, h, if_true]
  unfold commit
  cases s.config.commitRetries.toNat with
  | zero => exact hcommit
  | succ retries =>
    rw [commitRetrying, goOn_bind hcommit]
    rfl

theorem goOn_commitDemoting {u : WorkUnit} {receipt : Receipt} {store : Store}
    (h : w.store.commit u w.now = (.ok receipt, store)) :
    (s.commitDemoting u).goOn w = (.done (.ok receipt, u), { w with store }) := by
  unfold commitDemoting
  rw [goOn_bind (goOn_commit h)]
  rfl

/-- An event that is not in the log is recorded at once if the commit is taken and all totals could
be kept up. -/
theorem goOn_record {e : Event} {c : Cascade} {receipt : Receipt} {store : Store}
    (hnew : w.store.hasEvent e.id = false)
    (hdispatch : s.dispatcher.dispatchAt 0 e
      ⟨.start (w.store.context e.promoterKey), w.permits, w.ids, w.now⟩ w.calls = c)
    (hreport : c.report.failedIn aggregatesHandler.name = false)
    (hcommit : w.store.commit c.staging.unit w.now = (.ok receipt, store)) :
    ∃ w', (s.record e).goOn w =
        (.done (.ok (.committed (reportOn e c.staging.unit receipt c.report))), w') ∧
      w'.store = store := by
  have hread : (Procedure.read fun store => store.hasEvent e.id).goOn w = (.done false, w) := by
    rw [← hnew]
    rfl
  have hstart : (startUnit e.promoterKey).goOn w =
      (.done (.start (w.store.context e.promoterKey)), w) := rfl
  let w₁ : World :=
    { w with permits := c.staging.permits, ids := c.staging.ids, calls := c.calls }
  have hstage : (s.dispatch (.start (w.store.context e.promoterKey)) 0 e).goOn w =
      (.done (c.report, c.staging.unit), w₁) := by
    subst hdispatch
    rfl
  have hdemote : (s.commitDemoting c.staging.unit).goOn w₁ =
      (.done (.ok receipt, c.staging.unit), { w₁ with store }) := goOn_commitDemoting hcommit
  have hscheduled : (reportOn e c.staging.unit receipt c.report).rebuildScheduled = false := hreport
  unfold record
  rw [goOn_bind hread, if_neg Bool.false_ne_true, goOn_bind hstart, goOn_bind hstage,
    goOn_bind hdemote]
  simp only [hscheduled, Bool.false_eq_true, if_false]
  exact ⟨_, rfl, rfl⟩

end Service

/-! ## What an event finds -/

/-- Nothing else goes on that has to do with an event: no commit is set to fail, nobody is at the
locks of the event, and no move of the promoter is in flight. -/
structure World.Idle (w : World) (e : Event) : Prop where
  commits : w.store.failingCommits = 0
  locks : ∀ k ∈ e.lockKeys, w.locks.queue k = []
  permit : e.promoterKey ∉ w.permits.out

/-- The next identifiers, so many of them, are pairwise different, and none of them names the event
or one of the log. -/
structure IdSupply.Fresh (ids : IdSupply) (store : Store) (e : Event) (count : ℕ) : Prop where
  distinct : ∀ i < count, ∀ j < count,
    ((ids.skip i).peek : EventId) = (ids.skip j).peek → i = j
  other : ∀ i < count, (ids.skip i).peek ≠ e.id
  unused : ∀ i < count, store.hasEvent (ids.skip i).peek = false

namespace Settlement

variable {store : Store} {ids : IdSupply} {e : Event}

/-- The event and the reports of its commissions have names of their own. -/
theorem nodup_ids (config : Config) (now : Instant) (hrules : store.Checked)
    (hfresh : ids.Fresh store e (2 * store.rules.length)) :
    ((e :: (ofEvent store config now ids e).reports).map (·.id)).Nodup := by
  obtain ⟨ns, hns, hsorted, hrange⟩ := numbers_ofEvent config now ids e hrules
  rw [List.map_cons, hns, List.nodup_cons]
  constructor
  · intro hmem
    obtain ⟨i, hi, heq⟩ := List.mem_map.mp hmem
    exact hfresh.other i (hrange i hi) heq
  · rw [List.Nodup, List.pairwise_map]
    refine hsorted.imp_of_mem fun {i j} hi hj hlt heq => ?_
    have := hfresh.distinct i (hrange i hi) j (hrange j hj) heq
    omega

/-- Neither the event nor a report is in the log. -/
theorem hasEvent_eq_false (config : Config) (now : Instant) (hrules : store.Checked)
    (hnew : store.hasEvent e.id = false) (hfresh : ids.Fresh store e (2 * store.rules.length)) :
    ∀ g ∈ e :: (ofEvent store config now ids e).reports, store.hasEvent g.id = false := by
  obtain ⟨ns, hns, -, hrange⟩ := numbers_ofEvent config now ids e hrules
  rw [List.forall_mem_cons]
  refine ⟨hnew, fun g hg => ?_⟩
  have hmem : g.id ∈ ns.map fun i => (ids.skip i).peek := hns ▸ List.mem_map_of_mem hg
  obtain ⟨i, hi, heq⟩ := List.mem_map.mp hmem
  rw [← heq]
  exact hfresh.unused i (hrange i hi)

end Settlement

namespace Service

open Procedure

/-- A signup or a purchase that is in order and new, published while nothing else goes on, is
committed, and leaves the store that its settlement says, with the exact totals of the log. -/
theorem publish_settles {s₀ s : Service} (hbuiltIn : s.extra = []) (hdepth : 1 ≤ s.config.maxDepth)
    {origin : Instant} {ids : IdSupply} {t : Traffic}
    (hrun : s₀.Reaches ⟨.start origin ids, []⟩ t) {w : World} (hstore : w.store = t.world.store)
    (hbook : w.store.book.Tallies .all w.store.facts) {e : Event}
    (hkind : e.kind = .signup ∨ e.kind = .purchase) (hvalid : e.validate = .ok ())
    (hnew : w.store.hasEvent e.id = false) (hidle : w.Idle e)
    (hfresh : w.ids.Fresh w.store e (2 * w.store.rules.length))
    (hroomy : w.store.Roomy
      (e :: (Settlement.ofEvent w.store s.config w.now w.ids e).reports)) :
    ∃ report book w', (s.publish e).goOn w = (.done (.ok (.committed report)), w') ∧
      book.Tallies .all
        (w.store.facts ++ e :: (Settlement.ofEvent w.store s.config w.now w.ids e).reports) ∧
      w'.store =
        w.store.settled w.now e (Settlement.ofEvent w.store s.config w.now w.ids e) book := by
  have hrules : w.store.Checked := hstore ▸ checked_of_reaches hrun
  have haccept : accept e = .ok () := by
    have hproducer : e.kind ≠ .commissionGenerated := by
      rcases hkind with h | h <;> simp [h]
    simp only [accept, hvalid, hproducer, if_false]
    rfl
  obtain ⟨c, hdispatch, hmirrors, hfailures⟩ := Settlement.mirrors_dispatchAt hbuiltIn hdepth hrules
    hbook hidle.permit (Settlement.nodup_ids s.config w.now hrules hfresh) hroomy w.calls
  obtain ⟨book, receipt, htallies, hcommit⟩ := Store.commit_of_mirrors hmirrors
    Settlement.orderly_ofEvent hidle.commits
    (Settlement.hasEvent_eq_false s.config w.now hrules hnew hfresh) hbook hroomy
  have hreport : c.report.failedIn aggregatesHandler.name = false := by
    rw [DispatchReport.failedIn, hfailures]
    rfl
  let report := reportOn e c.staging.unit receipt c.report
  have hrecord : ∀ locks nextTask, ∃ w', (s.record e).goOn { w with locks, nextTask } =
      (.done (.ok (.committed report)), w') ∧
      w'.store = w.store.settled w.now e (.ofEvent w.store s.config w.now w.ids e) book :=
    fun _ _ => goOn_record hnew hdispatch hreport hcommit
  obtain ⟨w', hgo, hstore'⟩ := goOn_withLocks (nodup_sortedKeys _) hidle.locks hrecord
  refine ⟨report, book, w', ?_, htallies, hstore'⟩
  unfold publish
  rw [haccept]
  exact hgo

/-- The first signup under a rule that rewards signups: it is committed with one commission. -/
theorem publish_settles_rewarded_signup : ∃ (t : Traffic) (e : Event) (report : PublishReport)
    (w' : World),
    (Service.mk .default []).Reaches
      ⟨.start ⟨0, 0, by decide, by decide, by decide⟩ ⟨100⟩, []⟩ t ∧
    ((Service.mk .default []).publish e).goOn t.world =
      (.done (.ok (.committed report)), w') ∧
    w'.store.commissions.map (·.amount.units) = [50000] := by
  let e : Event := .signup ⟨1⟩ ⟨2⟩ ⟨3⟩ ⟨4⟩ ⟨5⟩ ⟨6⟩ ⟨0, 0, by decide, by decide, by decide⟩
  let r : Rule := ⟨⟨7⟩, ⟨3⟩, "reward", .signup, none, [],
    .generateCommission (.fixed ⟨50000, by decide, by decide⟩), true⟩
  have hrun := Reaches.alone (Service.mk .default [])
    (.start ⟨0, 0, by decide, by decide, by decide⟩ ⟨100⟩) [] (.putRule r)
  let w := ((Service.mk .default []).serve (.putRule r)).goOn
    (.start ⟨0, 0, by decide, by decide, by decide⟩ ⟨100⟩) |>.2
  have hroomy : w.store.Roomy
      (e :: (Settlement.ofEvent w.store .default w.now w.ids e).reports) := by
    have hadd : ((∅ : Book).addAll
        (e :: (Settlement.ofEvent w.store .default w.now w.ids e).reports)).isOk = true := by
      decide +kernel
    intro part hpart
    exact ⟨Book.inRange_of_addAll hadd hpart, Book.inRange_of_addAll hadd hpart⟩
  obtain ⟨report, book, w', hgo, -, hstore⟩ := publish_settles (s := Service.mk .default []) rfl
    (by decide) hrun rfl (Book.tallies_empty _) (e := e) (.inl rfl) (by decide +kernel)
    (by decide +kernel) ⟨rfl, by decide +kernel, by decide +kernel⟩
    ⟨by decide +kernel, by decide +kernel, by decide +kernel⟩ hroomy
  refine ⟨_, e, report, w', hrun, hgo, ?_⟩
  rw [hstore]
  change ((w.store.commissions ++
    (Settlement.ofEvent w.store .default w.now w.ids e).commissions).map (·.amount.units)) = _
  decide +kernel

end Service

end Referral
