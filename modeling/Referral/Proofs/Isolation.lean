import Mathlib.Data.BitVec
import Referral.Proofs.Confinement
import Referral.Proofs.Renaming

/-!
# Programs and promoters are kept apart

A publication reads nothing but what is stored of the program, the promoter and the link of its
event, and writes nothing else. So in two stores that agree on that it comes to the same, under
other names for what it makes, and whatever else is stored.
-/

namespace Referral

/-! ## Agreement -/

/-- Two stores agree on the rules and circles of the program of an event, on the membership and the
totals of its promoter, and on whether it is in the log. -/
structure Store.AgreeOnPromoter (e : Event) (store store' : Store) : Prop where
  rules : (store'.rules.filter fun r => r.program = e.program) =
    store.rules.filter fun r => r.program = e.program
  circles : (store'.circles.filter fun c => c.program = e.program) =
    store.circles.filter fun c => c.program = e.program
  membership : store'.memberships.get? e.promoterKey = store.memberships.get? e.promoterKey
  promoter : store'.book.promoters.get? e.promoterKey = store.book.promoters.get? e.promoterKey
  promoterDays : ∀ day, store'.book.promoterDays.get? (e.promoterKey, day) =
    store.book.promoterDays.get? (e.promoterKey, day)
  recorded : store'.hasEvent e.id = store.hasEvent e.id

/-- They also agree on the totals of its link. -/
structure Store.Agree (e : Event) (store store' : Store) : Prop
    extends AgreeOnPromoter e store store' where
  link : store'.book.links.get? e.linkKey = store.book.links.get? e.linkKey
  linkDays : ∀ day, store'.book.linkDays.get? (e.linkKey, day) =
    store.book.linkDays.get? (e.linkKey, day)

theorem Store.AgreeOnPromoter.symm {e : Event} {store store' : Store}
    (h : AgreeOnPromoter e store store') : AgreeOnPromoter e store' store :=
  ⟨h.rules.symm, h.circles.symm, h.membership.symm, h.promoter.symm,
    fun day => (h.promoterDays day).symm, h.recorded.symm⟩

/-- A unit of work starts from nothing but what two stores agree on. -/
theorem Store.AgreeOnPromoter.context {e : Event} {store store' : Store}
    (h : AgreeOnPromoter e store store') :
    store'.context e.promoterKey = store.context e.promoterKey := by
  have hactive : ∀ s : Store, (s.rules.filter fun r => r.program = e.program && r.active) =
      (s.rules.filter fun r => r.program = e.program).filter (·.active) := by
    intro s
    rw [List.filter_filter]
    simp only [Bool.and_comm]
  have htotals : store'.book.promoter e.promoterKey = store.book.promoter e.promoterKey := by
    rw [Book.promoter, Book.promoter, OrderedMap.total, OrderedMap.total, h.promoter]
  have hrules := hactive store'
  rw [h.rules, ← hactive] at hrules
  simp only [Store.context, h.membership, htotals]
  congr 1
  exact h.circles

/-- Two computations both come to something, or fail with the same error. -/
inductive FailAlike {α : Type} : Except Error α → Except Error α → Prop
  | ok (a a' : α) : FailAlike (.ok a) (.ok a')
  | error (error : Error) : FailAlike (.error error) (.error error)

theorem FailAlike.bind {α β : Type} {x x' : Except Error α} {f f' : α → Except Error β}
    (h : FailAlike x x') (hf : ∀ a a', FailAlike (f a) (f' a')) :
    FailAlike (x >>= f) (x' >>= f') := by
  cases h with
  | ok a a' => exact hf a a'
  | error error => exact .error error

/-- Values are added to the same totals, or the first sum out of range is the same. -/
theorem OrderedMap.addAll_congr {κ ν : Type} [Ranked κ] [DecidableEq κ] [Summable ν]
    (name : κ → String) (m m' : OrderedMap κ ν) (es : List (κ × ν))
    (h : ∀ e ∈ es, m'.get? e.1 = m.get? e.1) :
    FailAlike (m.addAll name es) (m'.addAll name es) := by
  induction es generalizing m m' with
  | nil => exact .ok m m'
  | cons e es ih =>
    obtain ⟨k, v⟩ := e
    rw [List.forall_mem_cons] at h
    have htotal : m'.total k = m.total k := by rw [total, total, h.1]
    simp only [addAll, add?, htotal]
    cases Summable.add? (m.total k) v with
    | none => exact .error _
    | some sum =>
      refine ih _ _ fun e he => ?_
      rw [get?_insert, get?_insert, h.2 e he]

/-- What is staged for an event is added to the totals of stores that agree, or a sum is out of
range in both. -/
theorem Store.Agree.merge {e : Event} {store store' : Store} (h : Agree e store store')
    {delta : Book} (hdelta : delta.Confined e) :
    FailAlike (store.book.merge delta) (store'.book.merge delta) := by
  have hpromoters := OrderedMap.addAll_congr (fun k => k.promoter.display) store.book.promoters
    store'.book.promoters delta.promoters.entries fun entry hentry => by
      rw [hdelta.promoters _ _ (OrderedMap.mem_entries.mp hentry), h.promoter]
  have hpromoterDays := OrderedMap.addAll_congr (fun k => k.1.promoter.display)
    store.book.promoterDays store'.book.promoterDays delta.promoterDays.entries
    fun ⟨⟨k, day⟩, v⟩ hentry => by
      obtain rfl := hdelta.promoterDays _ _ (OrderedMap.mem_entries.mp hentry)
      exact h.promoterDays day
  have hlinks := OrderedMap.addAll_congr (fun k => k.link.display) store.book.links
    store'.book.links delta.links.entries fun entry hentry => by
      rw [hdelta.links _ _ (OrderedMap.mem_entries.mp hentry), h.link]
  have hlinkDays := OrderedMap.addAll_congr (fun k => k.1.link.display) store.book.linkDays
    store'.book.linkDays delta.linkDays.entries fun ⟨⟨k, day⟩, v⟩ hentry => by
      obtain rfl := hdelta.linkDays _ _ (OrderedMap.mem_entries.mp hentry)
      exact h.linkDays day
  exact hpromoters.bind fun _ _ => hpromoterDays.bind fun _ _ => hlinks.bind fun _ _ =>
    hlinkDays.bind fun _ _ => .ok _ _

/-! ## Outcomes -/

/-- Two reports on a publication that say the same. Each has its own position in the log. -/
structure PublishReport.Renames (ρ : Renaming) (r r' : PublishReport) : Prop where
  event : r'.event = r.event
  receipt : r'.receipt = { r.receipt with lastSequence := r'.receipt.lastSequence }
  dispatch : r.dispatch.Renames ρ r'.dispatch
  commissions : r'.commissions = r.commissions.map (Commission.rename ρ)
  transitions : r'.transitions = r.transitions
  failures : List.Forall₂ (Failure.Renames ρ) r.failures r'.failures
  rebuildScheduled : r'.rebuildScheduled = r.rebuildScheduled

/-- Two answers to a published event that say the same. -/
inductive PublishOutcome.Renames (ρ : Renaming) :
    Except Error PublishOutcome → Except Error PublishOutcome → Prop
  | refused (error : Error) : Renames ρ (.error error) (.error error)
  | duplicate (event : EventId) : Renames ρ (.ok (.duplicate event)) (.ok (.duplicate event))
  | committed {report report' : PublishReport} (h : report.Renames ρ report') :
    Renames ρ (.ok (.committed report)) (.ok (.committed report'))

theorem DispatchReport.Renames.failedIn {ρ : Renaming} {r r' : DispatchReport}
    (h : r.Renames ρ r') (name : String) : r'.failedIn name = r.failedIn name := by
  have hfailures := h.handlerFailures
  unfold DispatchReport.failedIn
  generalize r.handlerFailures = fs at hfailures ⊢
  generalize r'.handlerFailures = fs' at hfailures ⊢
  induction hfailures with
  | nil => rfl
  | cons hhead _ ih => rw [List.any_cons, List.any_cons, hhead.handler, ih]

namespace Service

variable {s : Service} {ρ : Renaming} {e : Event}

/-- Two units that stage the same are reported alike. -/
theorem renames_reportOn {u u' : WorkUnit} (hunit : u.Renames ρ u')
    {dispatch dispatch' : DispatchReport} (hdispatch : dispatch.Renames ρ dispatch')
    (store store' : Store) (e : Event) :
    (reportOn e u (store.receipt u) dispatch).Renames ρ
      (reportOn e u' (store'.receipt u') dispatch') where
  event := rfl
  receipt := by
    simp [reportOn, Store.receipt, hunit.events, hunit.commissions, hunit.transitions,
      hunit.failures.length_eq]
  dispatch := hdispatch
  commissions := hunit.commissions
  transitions := by
    simp [reportOn, hunit.transitions, StagedTransition.rename, Function.comp_def]
  failures := hunit.failures
  rebuildScheduled := hdispatch.failedIn _

end Service

/-! ## Names -/

/-- The next identifiers, so many of them, are new: none of them names an event of the log, and the
given event mentions none. -/
structure IdSupply.NewFor (ids : IdSupply) (store : Store) (e : Event) (count : ℕ) : Prop where
  unused : ∀ i < count, store.hasEvent (ids.skip i).peek = false
  other : ∀ i < count, (ids.skip i).peek ≠ e.id
  cause : ∀ i < count, e.causation ≠ some (ids.skip i).peek

theorem IdSupply.NewFor.mono {ids : IdSupply} {store : Store} {e : Event} {count count' : ℕ}
    (h : ids.NewFor store e count) (hle : count' ≤ count) : ids.NewFor store e count' where
  unused i hi := h.unused i (hi.trans_le hle)
  other i hi := h.other i (hi.trans_le hle)
  cause i hi := h.cause i (hi.trans_le hle)

/-- A permutation can be made to keep some points; others change at most if they are moved there. -/
theorem exists_perm_fixing {α : Type} [DecidableEq α] (σ : Equiv.Perm α) (kept : List α) :
    ∃ τ : Equiv.Perm α, (∀ b ∈ kept, τ b = b) ∧ ∀ a, a ∉ kept → σ a ∉ kept → τ a = σ a := by
  induction kept with
  | nil => exact ⟨σ, by simp, fun _ _ _ => rfl⟩
  | cons b kept ih =>
    obtain ⟨τ, hkept, hsame⟩ := ih
    refine ⟨τ.trans (Equiv.swap (τ b) b), fun b' hb' => ?_, fun a ha hσ => ?_⟩
    · by_cases hb : b' = b
      · rw [hb, Equiv.trans_apply, Equiv.swap_apply_left]
      · have hfixed := hkept b' ((List.mem_cons.mp hb').resolve_left hb)
        have hne : b' ≠ τ b := fun heq => hb (τ.injective (hfixed.trans heq))
        rw [Equiv.trans_apply, hfixed, Equiv.swap_apply_of_ne_of_ne hne hb]
    · rw [List.mem_cons, not_or] at ha hσ
      have hne : σ a ≠ τ b := fun heq =>
        ha.1 (τ.injective ((hsame a ha.2 hσ.2).trans heq))
      rw [Equiv.trans_apply, hsame a ha.2 hσ.2, Equiv.swap_apply_of_ne_of_ne hne hσ.1]

/-- New names can go over into others while the event stays as it is. -/
theorem exists_renaming {ids ids' : IdSupply} {store store' : Store} {e : Event} {count : ℕ}
    (h : ids.NewFor store e count) (h' : ids'.NewFor store' e count) (now : Instant) :
    ∃ ρ : Renaming, e.rename ρ = e ∧ (∀ t, ρ.time t = now) ∧
      ids.Renames ρ (ids'.next - ids.next) (ids.next + count) ids' := by
  -- all names move on by as much as the one supply is ahead of the other
  let shift : Equiv.Perm (BitVec 128) :=
    Equiv.addRight (BitVec.ofNat 128 ids'.next - BitVec.ofNat 128 ids.next)
  have hshift : ∀ i,
      shift (BitVec.ofNat 128 (ids.next + i)) = BitVec.ofNat 128 (ids'.next + i) := by
    intro i
    simp only [shift, Equiv.coe_addRight, BitVec.ofNat_add]
    ring
  let kept : List (BitVec 128) := e.id.bits :: (e.causation.map (·.bits)).toList
  obtain ⟨τ, hkept, hsame⟩ := exists_perm_fixing shift kept
  have hother : ∀ {ids : IdSupply} {store : Store}, ids.NewFor store e count → ∀ i < count,
      BitVec.ofNat 128 (ids.next + i) ∉ kept := by
    intro ids store h i hi hmem
    rcases List.mem_cons.mp hmem with hid | hcause
    · exact h.other i hi (Id.ext hid)
    · obtain ⟨cause, hcausation, hbits⟩ := Option.map_eq_some_iff.mp (Option.mem_toList.mp hcause)
      exact h.cause i hi (hcausation.trans (congrArg some (Id.ext hbits)))
  refine ⟨⟨τ, fun _ => now⟩, ?_, fun _ => rfl, by omega, fun i hi => ?_⟩
  · have hid : e.id.rename ⟨τ, fun _ => now⟩ = e.id := Id.ext (hkept _ List.mem_cons_self)
    have hcause : e.causation.map (Id.rename ⟨τ, fun _ => now⟩) = e.causation := by
      cases hcausation : e.causation with
      | none => rfl
      | some cause =>
        have hbits : cause.bits ∈ kept := by simp [kept, hcausation]
        exact congrArg some (Id.ext (hkept _ hbits))
    rw [Event.rename, hid, hcause]
  · have hlt : i < count := by omega
    change τ (BitVec.ofNat 128 (ids.next + i)) = _
    rw [hsame _ (hother h i hlt) (hshift i ▸ hother h' i hlt), hshift]

/-! ## Publications -/

/-- Two units that pass all checks are committed both, or both are refused for the same sum. -/
theorem Store.commit_alike {store store' : Store} {u u' : WorkUnit}
    (hcommits : store.failingCommits = 0) (hcommits' : store'.failingCommits = 0)
    (hcheck : store.check u = .ok ()) (hcheck' : store'.check u' = .ok ())
    (hmerge : FailAlike (store.book.merge u.delta) (store'.book.merge u'.delta))
    (now now' : Instant) :
    (∃ error, store.commit u now = (.error error, store) ∧
      store'.commit u' now' = (.error error, store')) ∨
    ∃ last last', store.commit u now = (.ok (last.receipt u), last) ∧
      store'.commit u' now' = (.ok (last'.receipt u'), last') := by
  have hnone : ¬ 0 < store.failingCommits := by omega
  have hnone' : ¬ 0 < store'.failingCommits := by omega
  simp only [commit, if_neg hnone, if_neg hnone', hcheck, hcheck']
  generalize store.book.merge u.delta = sum at hmerge ⊢
  generalize store'.book.merge u'.delta = sum' at hmerge ⊢
  cases hmerge with
  | ok book book' => exact .inr ⟨_, _, rfl, rfl⟩
  | error error => exact .inl ⟨error, rfl, rfl⟩

namespace Service

open Procedure

variable {s : Service} {w w' : World} {e : Event}

/-- What comes of an event that has the world to itself. -/
theorem publish_concludes (hbuiltIn : s.extra = []) (hidle : w.Idle e)
    (hvalid : accept e = .ok ()) :
    (s.publish e).Ends (fun a w' => s.Concludes w e a w'.store) w := by
  unfold publish
  rw [hvalid]
  exact ends_withLocks (R := fun a store' => s.Concludes w e a store') (nodup_sortedKeys _)
    hidle.locks fun w' hw' => record_concludes hbuiltIn hidle.commits hw'

theorem publish_refuses {error : Error} (h : accept e = .error error) :
    (s.publish e).Ends (fun a w' => a = .error error ∧ w'.store = w.store) w := by
  unfold publish
  rw [h]
  exact ends_pure (R := fun (a : Except Error PublishOutcome) store' =>
    a = .error error ∧ store' = w.store) ⟨rfl, rfl⟩

/-- All that a publication adds to the store belongs to its event. -/
theorem publish_adds (hbuiltIn : s.extra = []) (hidle : w.Idle e) :
    (s.publish e).Ends (fun _ w' => w.store.Adds e w'.store) w := by
  cases hvalid : accept e with
  | error error =>
    exact (publish_refuses hvalid).weaken fun _ w' h => h.2 ▸ Store.Adds.refl w.store e
  | ok _ =>
    refine (publish_concludes hbuiltIn hidle hvalid).weaken fun a w' h => ?_
    generalize w'.store = store' at h
    cases h with
    | known => exact .refl _ _
    | dispatched _ began ended hcommit =>
      have hadds := Store.Adds.commit (belongs_dispatched hbuiltIn w e began).2
        (stays_dispatched hbuiltIn w e began) ended
      rwa [hcommit] at hadds

/-- The number of names that a publication takes from the supply. The time does not matter to it. -/
def namesTaken (s : Service) (w : World) (e : Event) : ℕ :=
  (s.dispatched w e w.now).staging.ids.next - w.ids.next

theorem next_dispatched (hbuiltIn : s.extra = []) (hidle : w.Idle e) (now : Instant) :
    (s.dispatched w e now).staging.ids.next = w.ids.next + s.namesTaken w e := by
  have hnumbers := (belongs_dispatched hbuiltIn w e w.now).2.numbers
  rw [ids_dispatched hbuiltIn hidle.permit w.now now, namesTaken]
  omega

/-- What is staged with new names passes all checks. -/
theorem check_dispatched (hbuiltIn : s.extra = []) (hidle : w.Idle e)
    (hunknown : w.store.hasEvent e.id = false)
    (hnew : w.ids.NewFor w.store e (s.namesTaken w e)) (now : Instant) :
    w.store.check (s.dispatched w e now).staging.unit = .ok () := by
  have hbelongs := (belongs_dispatched hbuiltIn w e now).2
  refine Store.check_of_belongs hbelongs rfl hunknown fun n hfirst hlt => ?_
  rw [next_dispatched hbuiltIn hidle] at hlt
  obtain ⟨i, rfl⟩ := Nat.exists_eq_add_of_le hfirst
  exact hnew.unused i (by omega)

/-- Where two stores agree, an event is dispatched in the same way. -/
theorem dispatched_alike (hbuiltIn : s.extra = []) (hidle : w.Idle e) (hidle' : w'.Idle e)
    (hagree : Store.AgreeOnPromoter e w.store w'.store)
    (hnew : w.ids.NewFor w.store e (s.namesTaken w e))
    (hnew' : w'.ids.NewFor w'.store e (s.namesTaken w e)) (began began' : Instant) :
    ∃ ρ : Renaming, e.rename ρ = e ∧
      Cascade.Renames ρ (w'.ids.next - w.ids.next) (w.ids.next + s.namesTaken w e) e.promoterKey
        (s.dispatched w e began) (s.dispatched w' e began') := by
  obtain ⟨ρ, hkeeps, htime, hnames⟩ := exists_renaming hnew hnew' began'
  refine ⟨ρ, hkeeps, ?_⟩
  rw [← next_dispatched hbuiltIn hidle began] at hnames ⊢
  rw [← htime began]
  exact renames_dispatched hbuiltIn hkeeps hagree.context hidle.permit hidle'.permit hnames

theorem namesTaken_eq_of_le (hbuiltIn : s.extra = []) (hidle : w.Idle e) (hidle' : w'.Idle e)
    (hagree : Store.AgreeOnPromoter e w.store w'.store)
    (hnew : w.ids.NewFor w.store e (s.namesTaken w e))
    (hnew' : w'.ids.NewFor w'.store e (s.namesTaken w' e))
    (hle : s.namesTaken w e ≤ s.namesTaken w' e) : s.namesTaken w' e = s.namesTaken w e := by
  obtain ⟨ρ, -, hsame⟩ :=
    dispatched_alike hbuiltIn hidle hidle' hagree hnew (hnew'.mono hle) w.now w'.now
  have hnext := hsame.staging.ids.next
  rw [next_dispatched hbuiltIn hidle, next_dispatched hbuiltIn hidle'] at hnext
  omega

/-- As many names are taken in the one store as in the other. -/
theorem namesTaken_eq (hbuiltIn : s.extra = []) (hidle : w.Idle e) (hidle' : w'.Idle e)
    (hagree : Store.AgreeOnPromoter e w.store w'.store)
    (hnew : w.ids.NewFor w.store e (s.namesTaken w e))
    (hnew' : w'.ids.NewFor w'.store e (s.namesTaken w' e)) :
    s.namesTaken w' e = s.namesTaken w e := by
  rcases le_total (s.namesTaken w e) (s.namesTaken w' e) with hle | hle
  · exact namesTaken_eq_of_le hbuiltIn hidle hidle' hagree hnew hnew' hle
  · exact (namesTaken_eq_of_le hbuiltIn hidle' hidle hagree.symm hnew' hnew hle).symm

/-- Where two stores agree, the same comes of an event. -/
theorem Concludes.renames (hbuiltIn : s.extra = []) (hidle : w.Idle e) (hidle' : w'.Idle e)
    (hagree : Store.Agree e w.store w'.store) (hnew : w.ids.NewFor w.store e (s.namesTaken w e))
    (hnew' : w'.ids.NewFor w'.store e (s.namesTaken w' e))
    {a a' : Except Error PublishOutcome} {store store' : Store} (h : s.Concludes w e a store)
    (h' : s.Concludes w' e a' store') :
    ∃ ρ : Renaming, e.rename ρ = e ∧ PublishOutcome.Renames ρ a a' := by
  cases h with
  | known hknown =>
    cases h' with
    | known => exact ⟨.same, e.rename_same, .duplicate _⟩
    | dispatched hunknown =>
      rw [hagree.recorded, hknown] at hunknown
      cases hunknown
  | @dispatched hunknown began ended answer _ hcommit =>
    cases h' with
    | known hknown =>
      rw [hagree.recorded, hunknown] at hknown
      cases hknown
    | @dispatched hunknown' began' ended' answer' _ hcommit' =>
      have hcheck := check_dispatched hbuiltIn hidle hunknown hnew began
      have hcheck' := check_dispatched hbuiltIn hidle' hunknown' hnew' began'
      rw [namesTaken_eq hbuiltIn hidle hidle' hagree.toAgreeOnPromoter hnew hnew'] at hnew'
      obtain ⟨ρ, hkeeps, hsame⟩ := dispatched_alike hbuiltIn hidle hidle'
        hagree.toAgreeOnPromoter hnew hnew' began began'
      refine ⟨ρ, hkeeps, ?_⟩
      have hunit := hsame.staging.unit
      have hmerge := hagree.merge (belongs_dispatched hbuiltIn w e began).2.delta
      nth_rewrite 2 [← hunit.delta] at hmerge
      rcases Store.commit_alike hidle.commits hidle'.commits hcheck hcheck' hmerge ended ended' with
        ⟨error, h, h'⟩ | ⟨last, last', h, h'⟩
      · rw [h] at hcommit
        rw [h'] at hcommit'
        cases hcommit
        cases hcommit'
        simp only [answerTo]
        split
        · exact .duplicate e.id
        · exact .refused error
      · rw [h] at hcommit
        rw [h'] at hcommit'
        cases hcommit
        cases hcommit'
        exact .committed (renames_reportOn hunit hsame.report _ _ e)

/-- Programs and promoters are kept apart. With the built-in handlers and without anything else
going on, publishing an event adds to the store only what is of its program and promoter, and to
the log only what is of its link, contact and correlation too; all other totals and memberships and
all earlier records stay. In two stores that agree on the rules and circles of the program, on the
membership and the totals of the promoter and the link, and on whether the event is in the log, it
comes to the same, up to the names of what it makes, the time, and the position in the log. -/
theorem publish_isolated (hbuiltIn : s.extra = []) (e : Event) :
    (∀ w : World, w.Idle e → (s.publish e).Ends (fun _ v => w.store.Adds e v.store) w) ∧
    ∀ w w' : World, w.Idle e → w'.Idle e → Store.Agree e w.store w'.store →
      w.ids.NewFor w.store e (s.namesTaken w e) → w'.ids.NewFor w'.store e (s.namesTaken w' e) →
      (s.publish e).Ends (fun a _ => (s.publish e).Ends (fun a' _ =>
        ∃ ρ : Renaming, e.rename ρ = e ∧ PublishOutcome.Renames ρ a a') w') w := by
  refine ⟨fun w hidle => publish_adds hbuiltIn hidle, ?_⟩
  intro w w' hidle hidle' hagree hnew hnew'
  cases hvalid : accept e with
  | error error =>
    refine (publish_refuses hvalid).weaken fun a v h => ?_
    refine (publish_refuses hvalid).weaken fun a' v' h' => ?_
    rw [h.1, h'.1]
    exact ⟨.same, e.rename_same, .refused error⟩
  | ok _ =>
    refine (publish_concludes hbuiltIn hidle hvalid).weaken fun a v h => ?_
    exact (publish_concludes hbuiltIn hidle' hvalid).weaken fun a' v' h' =>
      h.renames hbuiltIn hidle hidle' hagree hnew hnew' h'

/-- A signup in an empty store, and in one with the rewarded signup of another promoter: both times
it is committed with a commission. -/
theorem signup_isolated : ∃ (s : Service) (e g : Event) (w w₁ w' v v' : World) (n₁ n n' : ℕ)
    (a₁ : Except Error PublishOutcome) (report report' : PublishReport) (ρ : Renaming),
    g.promoterKey ≠ e.promoterKey ∧
    (s.publish g).Amid World.Passes w₁ n₁ (.done a₁) w' ∧ w₁.store.Adds g w'.store ∧
    (s.publish e).Amid World.Passes w n (.done (.ok (.committed report))) v ∧
    (s.publish e).Amid World.Passes w' n' (.done (.ok (.committed report'))) v' ∧
    report.commissions.length = 1 ∧ e.rename ρ = e ∧ report.Renames ρ report' := by
  let now : Instant := ⟨0, 0, by decide, by decide, by decide⟩
  let later : Instant := ⟨60, 0, by decide, by decide, by decide⟩
  let e : Event := .signup ⟨1⟩ ⟨2⟩ ⟨3⟩ ⟨4⟩ ⟨5⟩ ⟨6⟩ now
  let g : Event := .signup ⟨11⟩ ⟨2⟩ ⟨3⟩ ⟨14⟩ ⟨5⟩ ⟨16⟩ now
  let r : Rule := ⟨⟨7⟩, ⟨3⟩, "reward", .signup, none, [],
    .generateCommission (.fixed ⟨50000, by decide, by decide⟩), true⟩
  let s : Service := ⟨.default, []⟩
  let w : World := ((World.start now ⟨100⟩).perform (.putRule r)).2
  let w₁ : World := ((World.start later ⟨500⟩).perform (.putRule r)).2
  let w' : World := ((s.publish g).goOn w₁).2
  obtain ⟨hadds, -⟩ := publish_isolated (s := s) rfl g
  obtain ⟨a₁, ha₁⟩ := Option.isSome_iff_exists.mp
    (by decide +kernel : ((s.publish g).goOn w₁).1.answer?.isSome = true)
  obtain ⟨n₁, hrun₁⟩ := amid_of_answer? ha₁
  have hother : w₁.store.Adds g w'.store :=
    ((hadds w₁ ⟨rfl, fun _ _ => rfl, List.not_mem_nil⟩).amid hrun₁) w' (.refl w')
  have hpromoter : e.promoterKey ≠ g.promoterKey := by decide
  have hlink : e.linkKey ≠ g.linkKey := by decide
  have hagree : Store.Agree e w.store w'.store := by
    refine ⟨⟨?_, ?_, ?_, ?_, fun day => ?_, ?_⟩, ?_, fun day => ?_⟩
    · rw [hother.rules]
      rfl
    · rw [hother.circles]
      rfl
    · exact hother.memberships _ hpromoter
    · exact hother.book.promoters _ hpromoter
    · exact hother.book.promoterDays (e.promoterKey, day) hpromoter
    · decide +kernel
    · exact hother.book.links _ hlink
    · exact hother.book.linkDays (e.linkKey, day) hlink
  obtain ⟨n, report, hrun, hone⟩ := amid_of_committed? (s.publish e) w
    (fun report => report.commissions.length = 1) (by decide +kernel)
  obtain ⟨n', report', hrun', -⟩ := amid_of_committed? (s.publish e) w' (fun _ => true)
    (by decide +kernel)
  have hends := (publish_isolated (s := s) rfl e).2 w w' ⟨rfl, fun _ _ => rfl, List.not_mem_nil⟩
    ⟨by decide +kernel, by decide +kernel, by decide +kernel⟩ hagree
    ⟨by decide +kernel, by decide +kernel, by decide +kernel⟩
    ⟨by decide +kernel, by decide +kernel, by decide +kernel⟩
  obtain ⟨ρ, hkeeps, hsame⟩ := ((hends.amid hrun) _ (.refl _)).amid hrun' _ (.refl _)
  cases hsame with
  | committed hreports =>
    exact ⟨s, e, g, w, w₁, w', _, _, n₁, n, n', a₁, report, report', ρ, by decide, hrun₁, hother,
      hrun, hrun', by simpa using hone, hkeeps, hreports⟩

/-- The totals of its link are checked as well: a reward may be too large to be added to another of
the link, although it is made up for on another link of the promoter. Then the signup is refused,
and where the two links are the other way round, it is committed. -/
theorem outcome_may_depend_on_link : ¬ ∀ (s : Service) (origin : Instant) (ids : IdSupply)
    (t t' : Traffic) (e : Event) (n n' : ℕ) (a a' : Except Error PublishOutcome) (v v' : World),
    s.extra = [] → s.Reaches ⟨.start origin ids, []⟩ t → s.Reaches ⟨.start origin ids, []⟩ t' →
    t.world.Idle e → t'.world.Idle e → Store.AgreeOnPromoter e t.world.store t'.world.store →
    t.world.ids.NewFor t.world.store e (s.namesTaken t.world e) →
    t'.world.ids.NewFor t'.world.store e (s.namesTaken t'.world e) →
    (s.publish e).Amid World.Passes t.world n (.done a) v →
    (s.publish e).Amid World.Passes t'.world n' (.done a') v' →
    ∃ ρ : Renaming, PublishOutcome.Renames ρ a a' := by
  intro hsame
  let now : Instant := ⟨0, 0, by decide, by decide, by decide⟩
  let signup (id : EventId) (link : LinkId) : Event := .signup id ⟨2⟩ ⟨3⟩ ⟨4⟩ ⟨5⟩ link now
  let reward (units : Money) : Request := .putRule ⟨⟨7⟩, ⟨3⟩, "reward", .signup, none, [],
    .generateCommission (.fixed units), true⟩
  let gain := reward ⟨9000000000000000000, by decide, by decide⟩
  let loss := reward ⟨-9000000000000000000, by decide, by decide⟩
  let s : Service := ⟨.default, []⟩
  let e := signup ⟨11⟩ ⟨6⟩
  let w := s.afterEach (.start now ⟨100⟩)
    [gain, .publish (signup ⟨1⟩ ⟨6⟩), loss, .publish (signup ⟨9⟩ ⟨8⟩), gain]
  let w' := s.afterEach (.start now ⟨100⟩)
    [gain, .publish (signup ⟨1⟩ ⟨8⟩), loss, .publish (signup ⟨9⟩ ⟨6⟩), gain]
  obtain ⟨tasks, hreaches⟩ : ∃ tasks, s.Reaches ⟨.start now ⟨100⟩, []⟩ ⟨w, tasks⟩ :=
    reaches_afterEach s _ _ _
  obtain ⟨tasks', hreaches'⟩ : ∃ tasks, s.Reaches ⟨.start now ⟨100⟩, []⟩ ⟨w', tasks⟩ :=
    reaches_afterEach s _ _ _
  have hidle : w.Idle e := ⟨by decide +kernel, by decide +kernel, by decide +kernel⟩
  have hidle' : w'.Idle e := ⟨by decide +kernel, by decide +kernel, by decide +kernel⟩
  have hagree : Store.AgreeOnPromoter e w.store w'.store := by
    have hdays : w'.store.book.promoterDays = w.store.book.promoterDays := by decide +kernel
    exact ⟨by decide +kernel, by decide +kernel, by decide +kernel, by decide +kernel,
      fun day => by rw [hdays], by decide +kernel⟩
  have hnew : w.ids.NewFor w.store e (s.namesTaken w e) :=
    ⟨by decide +kernel, by decide +kernel, by decide +kernel⟩
  have hnew' : w'.ids.NewFor w'.store e (s.namesTaken w' e) :=
    ⟨by decide +kernel, by decide +kernel, by decide +kernel⟩
  -- the first attempt and three more, each after a longer wait
  let last := resume (resume (resume ((s.publish e).goOn w) 50) 100) 200
  have hlast : ∃ n, (s.publish e).Amid World.Passes w n last.1 last.2 :=
    amid_resume 200 (amid_resume 100 (amid_resume 50
      (Amid.start.steps (steps_goOn (s.publish e) w))))
  obtain ⟨n, hrun⟩ := hlast
  obtain ⟨a, ha⟩ := Option.isSome_iff_exists.mp
    (by decide +kernel : last.1.answer?.isSome = true)
  rw [eq_done_of_answer? ha] at hrun
  have hrefused : last.1.answer?.bind committed? = none := by decide +kernel
  obtain ⟨n', report', hrun', -⟩ := amid_of_committed? (s.publish e) w' (fun _ => true)
    (by decide +kernel)
  obtain ⟨ρ, hboth⟩ := hsame s now ⟨100⟩ _ _ e n n' a _ _ _ rfl hreaches hreaches' hidle hidle'
    hagree hnew hnew' hrun hrun'
  cases hboth with
  | committed =>
    rw [ha] at hrefused
    cases hrefused

end Service

end Referral
