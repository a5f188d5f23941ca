import Referral.Proofs.Counting
import Referral.Proofs.Serving

/-!
# Stored totals

The stored totals are those of the log in every state of every run, unless the store says that some
event could not be counted.
-/

namespace Referral

namespace World

/-- The log is numbered, and the stored totals are those of the log unless an event could not be
counted. -/
def Balanced (w : World) : Prop :=
  w.store.Numbered ∧ ((∀ f ∈ w.store.failures, ¬ f.Uncounted) →
    w.store.book.Tallies .all w.store.facts)

theorem balanced_start (origin : Instant) (ids : IdSupply) : (start origin ids).Balanced :=
  ⟨fun _ _ h => by simp [start, Store.empty] at h, fun _ => Book.tallies_empty _⟩

/-- A unit of work that counts its events may be committed. -/
theorem Balanced.commit {w : World} {u : WorkUnit} (hu : u.Counts) (h : w.Balanced) :
    (w.perform (.commit u)).2.Balanced := by
  refine ⟨(Store.Later.commit w.store u w.now).numbered h.1, fun hnone => ?_⟩
  simp only [perform] at hnone ⊢
  rcases w.store.commit_store u w.now with ⟨n, hstore⟩ | ⟨-, book, hmerge, hstore⟩
  · rw [hstore] at hnone ⊢
    exact h.2 hnone
  · rw [hstore] at hnone ⊢
    -- a record that was there, or that the unit brings, is there afterwards with the same origin
    have hwritten : ∀ f ∈ w.store.failures ++ u.failures, ¬ f.Uncounted := by
      intro f hf huncounted
      have hmem : f.origin ∈ (w.store.write u book w.now).failures.map (·.origin) := by
        rw [Store.map_failures_write _ _ _ _ _ (fun _ => rfl) fun _ _ => rfl]
        exact List.mem_map_of_mem hf
      obtain ⟨f', hf', horigin⟩ := List.mem_map.mp hmem
      exact hnone f' hf' (horigin.trans huncounted)
    rw [Store.book_write, Store.facts_write]
    have hold := h.2 fun f hf => hwritten f (List.mem_append_left _ hf)
    have hnew := hu fun f hf => hwritten f (List.mem_append_right _ hf)
    exact hold.merge hnew hmerge

/-- The totals of a scope may be replaced by those of the log up to an earlier end. -/
theorem Balanced.swap {w : World} {scope : Scope} {book : Book} {asOf count : ℕ} {store : Store}
    (hbook : book.Tallies scope (w.store.facts.take asOf))
    (hstore : w.store.replaceTotals scope book asOf = .ok (count, store)) (h : w.Balanced) :
    Balanced { w with store } := by
  obtain ⟨rebuilt, hadd, -, rfl⟩ := Store.replaceTotals_eq_ok.mp hstore
  refine ⟨(Store.Later.replaceTotals hstore).numbered h.1, fun hnone => ?_⟩
  exact (hbook.replay hadd).replaceScope_all (h.2 hnone)

end World

namespace Service

open World (Balanced)

/-- With the built-in handlers alone, all units of work count their events. -/
theorem maintains_balanced {s : Service} (hbuiltIn : s.extra = [])
    (hbatch : s.config.batchSize ≠ 0) :
    s.Maintains (fun _ => True) Balanced fun _ u _ => u.Counts where
  numbered h := h.1
  aside h _ hw := ⟨fun i e he => hw.1 i e (h ▸ he), h ▸ hw.2⟩
  disturb _ _ hw := hw
  putRule h hw := by
    obtain ⟨-, rules, rfl, -⟩ := Store.putRule_eq_ok h
    exact hw
  putCircle h hw := by
    rw [Store.putCircle_eq_ok h]
    exact hw
  assignCircle h hw := by
    rw [(Store.assignCircle_eq_ok h).2]
    exact hw
  swap hbook hstore hw := hw.swap (hbook.tallies hbatch) hstore
  later _ _ hu := hu
  start _ _ := WorkUnit.counts_start _
  enter _ _ _ := WorkUnit.counts_start _
  dispatch {w u c cs staging} _ hu hstaging := by
    subst hstaging
    have hids := Cascade.ids_le_dispatchAt hbuiltIn c.depth c.event
      ⟨u, w.permits, w.ids, w.now⟩ w.calls
    exact ⟨hids, counts_dispatchAt hbuiltIn _ _ _ hu⟩
  fire {w u f e rule effect answer staging} _ _ _ _ hu hfire := by
    have hhandles := Staging.handles_fire ⟨u, w.permits, w.ids, w.now⟩ s.config e f.depth rule
      effect (fun _ _ => True) trivial
    rw [hfire] at hhandles
    exact ⟨hhandles.ids_le, fun _ _ => hhandles.sameCount.counts hu⟩
  call {w u name position h f e calls answer staging} _ _ hu hname hfind hreact := by
    rw [eq_rulesHandler hbuiltIn hname hfind] at hreact
    have hhandles := (⟨u, w.permits, w.ids, w.now⟩ : Staging).handles_react s.config calls
      ⟨e, f.depth⟩
    rw [hreact] at hhandles
    exact ⟨hhandles.ids_le, fun _ _ => hhandles.sameCount.counts hu⟩
  demote {w u error staging} _ hu hstaging := by
    subst hstaging
    obtain ⟨_, ids, hframe, hids, -⟩ :=
      (⟨u, w.permits, w.ids, w.now⟩ : Staging).demoteTransitions_frame error w.now
    have hsame := (⟨u, w.permits, w.ids, w.now⟩ : Staging).sameCount_demoteTransitions error w.now
    refine ⟨?_, hsame.counts hu⟩
    rw [hframe]
    exact hids
  resolve _ hu := hu
  attempt _ hu := hu
  move _ hu := hu
  commit hu hw := hw.commit hu

/-- In every state of every interleaving of requests, with the built-in handlers alone, the stored
book has exactly the keys of the logged events and their exact sums, unless a failure record says
that an event could not be counted. -/
theorem book_tallies_log {s : Service} (hbuiltIn : s.extra = []) (hbatch : s.config.batchSize ≠ 0)
    {origin : Instant} {ids : IdSupply} {t : Traffic}
    (hrun : s.Reaches ⟨.start origin ids, []⟩ t)
    (hcounted : ∀ f ∈ t.world.store.failures, ¬ f.Uncounted) :
    t.world.store.book.Tallies .all t.world.store.facts := by
  have hfollows := (maintains_balanced hbuiltIn hbatch).reaches rfl
    (World.balanced_start origin ids) (fun _ _ => trivial) hrun
  exact (hfollows.2 (World.balanced_start origin ids)).2 hcounted

/-- A signup that a rule rewards: the log has the signup and the commission, and both are
counted. -/
theorem book_tallies_rewarded_signup : ∃ t : Traffic,
    (Service.mk .default []).Reaches
      ⟨.start ⟨0, 0, by decide, by decide, by decide⟩ ⟨100⟩, []⟩ t ∧
    t.world.store.facts.map (·.kind) = [.signup, .commissionGenerated] ∧
    t.world.store.book.Tallies .all t.world.store.facts := by
  let e : Event := .signup ⟨1⟩ ⟨2⟩ ⟨3⟩ ⟨4⟩ ⟨5⟩ ⟨6⟩ ⟨0, 0, by decide, by decide, by decide⟩
  let r : Rule := ⟨⟨7⟩, ⟨3⟩, "reward", .signup, none, [],
    .generateCommission (.fixed ⟨50000, by decide, by decide⟩), true⟩
  have hrun := (Reaches.alone (Service.mk .default [])
    (.start ⟨0, 0, by decide, by decide, by decide⟩ ⟨100⟩) [] (.putRule r)).trans
      (Reaches.alone _ _ _ (.publish e))
  refine ⟨_, hrun, by decide +kernel, ?_⟩
  exact book_tallies_log rfl (by decide) hrun (by decide +kernel)

end Service

end Referral
