import Referral.Proofs.DayTotals
import Referral.Proofs.Reporting
import Referral.Proofs.SoundLog
import Referral.Proofs.Turns

/-!
# Reports among the events of other handlers

Other handlers may put events of their own between a commission and the event that reports it. Still
a dispatch stages the two in the same order: reports join the queue in the order in which their
commissions are staged, none is too deep when its turn comes, and none is taken for an event that is
staged, because its name was made after the names of all that stand before it.

Events that wait for a dispatch of their own come after the whole of this one. If there are reports
among them, the order is kept only as long as no commission is earned before.
-/

namespace Referral

namespace Numbers

variable {r : Numbers} {next next' : ℕ} {id : EventId}

/-- No number that is still to come makes the identifier. -/
def Spent (r : Numbers) (next : ℕ) (id : EventId) : Prop :=
  ∀ n, next ≤ n → n < r.limit → id ≠ Id.ofNat n

theorem Spent.mono (h : r.Spent next id) (hnext : next ≤ next') : r.Spent next' id :=
  fun n hn hlimit => h n (hnext.trans hn) hlimit

instance (r : Numbers) (id : EventId) : Decidable (r.Spares id) :=
  inferInstanceAs (Decidable (∀ n, r.first ≤ n → n < r.limit → id ≠ Id.ofNat n))

theorem Spares.spent (h : r.Spares id) (hnext : r.first ≤ next) : r.Spent next id :=
  fun n hn hlimit => h n (hnext.trans hn) hlimit

/-- Numbers that were made do not come again. -/
theorem Made.spent (h : r.Made next id) : r.Spent next id := by
  obtain ⟨m, hfirst, hlt, hid⟩ := h
  intro n hn hlimit hsame
  have hnumber : m = n :=
    r.eq_of_ofNat_eq hfirst (by omega) (by omega) hlimit (hid.symm.trans hsame)
  omega

end Numbers

/-! ## Handlers that only observe -/

/-- A handler that leaves the unit of work as it is and returns no reports. It may take identifiers
from the supply, and none that it gives to an event is to come up later, as long as this holds of
the names that it has seen. -/
structure Handler.Observes (r : Numbers) (h : Handler) : Prop where
  unit : ∀ calls c s, (h.react calls c s).2.unit = s.unit
  ids_le : ∀ calls c s, s.ids.next ≤ (h.react calls c s).2.ids.next
  returned : ∀ calls c s es, (h.react calls c s).1 = .ok es → ∀ g ∈ es, g.isReport = false
  spent : ∀ calls c s es, (h.react calls c s).1 = .ok es → r.first ≤ s.ids.next →
    (∀ c' ∈ c :: calls, r.Spent s.ids.next c'.event.id) →
    (∀ f ∈ s.unit.events, r.Spent s.ids.next f.id) →
    ∀ g ∈ es, r.Spent (h.react calls c s).2.ids.next g.id

namespace Script

/-- A reaction that brings neither reports nor names that are still to come. -/
def Observes (r : Numbers) (x : Reaction) : Prop :=
  match x.response with
  | .emit es => ∀ g ∈ es, g.isReport = false ∧ r.Spares g.id
  | .echo _ => ∃ kind, x.kind = some kind ∧ kind ≠ .commissionGenerated
  | _ => True

theorem isFor_of_choose {e : Event} {uses : List (Reaction × ℕ)} {x : Reaction}
    (h : (choose e uses).1 = some x) : x.isFor e = true := by
  induction uses with
  | nil => cases h
  | cons y uses ih =>
    simp only [choose] at h
    split at h
    · rename_i hchosen
      cases h
      exact (Bool.and_eq_true_iff.mp hchosen).1
    · exact ih h

/-- A script observes if each of its reactions does. -/
theorem observes_handler {r : Numbers} {script : Script}
    (h : ∀ x ∈ script.reactions, Observes r x) : script.handler.Observes r := by
  have hanswer : ∀ (calls : List Call) (c : Call) (s : Staging),
      (script.handler.react calls c s).2.unit = s.unit ∧
      s.ids.next ≤ (script.handler.react calls c s).2.ids.next ∧
      ∀ es, (script.handler.react calls c s).1 = .ok es → ∀ g ∈ es, g.isReport = false ∧
        (r.first ≤ s.ids.next → r.Spent (script.handler.react calls c s).2.ids.next g.id) := by
    intro calls c s
    simp only [handler]
    split
    · rename_i x hx
      have hobserves : Observes r x := by
        have hmem := choose_mem hx
        rw [map_fst_usesAfter] at hmem
        exact h x hmem
      unfold Observes at hobserves
      cases hresponse : x.response with
      | fail error => exact ⟨rfl, le_rfl, fun _ hes => by cases hes⟩
      | nothing =>
        refine ⟨rfl, le_rfl, fun _ hes => ?_⟩
        cases hes
        exact List.forall_mem_nil _
      | emit events =>
        rw [hresponse] at hobserves
        refine ⟨rfl, le_rfl, fun _ hes g hg => ?_⟩
        cases hes
        exact ⟨(hobserves g hg).1, (hobserves g hg).2.spent⟩
      | echo count =>
        rw [hresponse] at hobserves
        obtain ⟨kind, hkind, hno⟩ := hobserves
        refine ⟨rfl, Nat.le_add_right _ _, fun _ hes g hg => ?_⟩
        cases hes
        obtain ⟨i, hi, rfl⟩ := List.mem_map.mp hg
        have hlt : i < count := List.mem_range.mp hi
        have hsame : kind = c.event.kind := by
          have hfor := isFor_of_choose hx
          simpa [Reaction.isFor, hkind] using (Bool.and_eq_true_iff.mp hfor).2
        refine ⟨?_, fun hfirst => Numbers.Made.spent ⟨s.ids.next + i, by omega, ?_, rfl⟩⟩
        · simp [Event.isReport, ← hsame, hno]
        · exact Nat.add_lt_add_left hlt _
    · refine ⟨rfl, le_rfl, fun _ hes => ?_⟩
      cases hes
      exact List.forall_mem_nil _
  exact {
    unit := fun calls c s => (hanswer calls c s).1
    ids_le := fun calls c s => (hanswer calls c s).2.1
    returned := fun calls c s es hes g hg => ((hanswer calls c s).2.2 es hes g hg).1
    spent := fun calls c s es hes hfirst _ _ g hg =>
      ((hanswer calls c s).2.2 es hes g hg).2 hfirst }

end Script

/-! ## Units of work -/

/-- What is staged, what waits in the queue, and what waits for a dispatch of its own, in this
order, hold one report for each commission, in the same order. No name of them is still to come, and
no report has the name of an event before it; where reports wait for a dispatch of their own, this
is said of reports only. -/
structure WorkUnit.Reported (r : Numbers) (next : ℕ) (u : WorkUnit) (queue later : List Event) :
    Prop where
  first_le : r.first ≤ next
  paired : List.Forall₂ (Paired r next) u.commissions
    ((u.events ++ queue ++ later).filter Event.isReport)
  spent : ∀ g ∈ u.events ++ queue ++ later, r.Spent next g.id
  apart : (u.events ++ queue ++ later).Pairwise fun f g => g.isReport = true →
    (f.isReport = true ∨ ∀ x ∈ later, x.isReport = false) → f.id ≠ g.id

theorem filter_isReport_eq_nil {es : List Event} (h : ∀ g ∈ es, g.isReport = false) :
    es.filter Event.isReport = [] :=
  List.filter_eq_nil_iff.mpr fun g hg => by simp [h g hg]

namespace WorkUnit.Reported

variable {r : Numbers} {next next' : ℕ} {u u' : WorkUnit} {queue later es : List Event} {e : Event}

/-- Other parts of the unit may be changed, and numbers used up. -/
theorem congr (h : u.Reported r next queue later) (hnext : next ≤ next')
    (hcommissions : u'.commissions = u.commissions) (hevents : u'.events = u.events) :
    u'.Reported r next' queue later where
  first_le := h.first_le.trans hnext
  paired := by
    rw [hcommissions, hevents]
    exact h.paired.imp fun _ _ => Paired.mono hnext
  spent g hg := (h.spent g (hevents ▸ hg)).mono hnext
  apart := hevents ▸ h.apart

/-- No event is staged yet, and no commission is earned. -/
theorem start (hcommissions : u.commissions = []) (hevents : u.events = [])
    (hfirst : r.first ≤ next) (hspent : ∀ g ∈ later, r.Spent next g.id)
    (hlater : ∀ g ∈ later, g.isReport = false) : u.Reported r next [] later where
  first_le := hfirst
  paired := by
    rw [hcommissions, hevents, List.append_nil, List.nil_append, filter_isReport_eq_nil hlater]
    exact .nil
  spent := by simpa [hevents] using hspent
  apart := by
    rw [hevents, List.append_nil, List.nil_append]
    refine List.pairwise_of_forall_mem_list fun f _ g hg hreport => ?_
    rw [hlater g hg] at hreport
    cases hreport

/-- The event at the front is staged. -/
theorem stage (h : u.Reported r next (e :: queue) later) :
    { u with events := u.events ++ [e] }.Reported r next queue later := by
  have hevents : u.events ++ [e] ++ queue ++ later = u.events ++ e :: queue ++ later := by simp
  exact ⟨h.first_le, hevents ▸ h.paired, hevents ▸ h.spent, hevents ▸ h.apart⟩

/-- The event at the front is left out. -/
theorem drop (h : u.Reported r next (e :: queue) later) (he : e.isReport = false) :
    u.Reported r next queue later := by
  have hsub : (u.events ++ queue ++ later).Sublist (u.events ++ e :: queue ++ later) :=
    ((List.sublist_cons_self e queue).append_left _).append_right _
  refine ⟨h.first_le, ?_, fun g hg => h.spent g (hsub.subset hg), h.apart.sublist hsub⟩
  have hpaired := h.paired
  simp only [List.filter_append, List.filter_cons_of_neg (by simp [he] : ¬ e.isReport = true)]
    at hpaired ⊢
  exact hpaired

/-- A report at the front is not staged. -/
theorem isStaged_front (h : u.Reported r next (e :: queue) later) (he : e.isReport = true)
    (hstaged : (∀ g ∈ later, g.isReport = false) ∨ ∀ f ∈ u.events, f.isReport = true) :
    u.isStaged e.id = false := by
  refine List.any_eq_false.mpr fun f hf => ?_
  have hapart := (List.pairwise_append.mp (List.pairwise_append.mp h.apart).1).2.2 f hf e
    List.mem_cons_self he (hstaged.symm.imp_left fun hall => hall f hf)
  simpa using hapart

/-- Events that are no reports join the queue. -/
theorem join (h : u.Reported r next queue later)
    (hes : ∀ g ∈ es, g.isReport = false ∧ r.Spent next g.id) :
    u.Reported r next (queue ++ es) later := by
  have hjoined : u.events ++ (queue ++ es) ++ later = u.events ++ queue ++ (es ++ later) := by simp
  obtain ⟨hbefore, hlater, hcross⟩ := List.pairwise_append.mp h.apart
  -- an event that joins is no report, and is before reports only where these are of no account
  have hnew : ∀ f : Event, ∀ g ∈ es, g.isReport = true →
      (f.isReport = true ∨ ∀ x ∈ later, x.isReport = false) → f.id ≠ g.id := by
    intro f g hg hreport
    rw [(hes g hg).1] at hreport
    cases hreport
  refine ⟨h.first_le, ?_, fun g hg => ?_, ?_⟩
  · have hnone := filter_isReport_eq_nil fun g hg => (hes g hg).1
    have hpaired := h.paired
    rw [hjoined]
    simp only [List.filter_append, hnone, List.nil_append] at hpaired ⊢
    exact hpaired
  · rw [hjoined] at hg
    rcases List.mem_append.mp hg with hg | hg
    · exact h.spent g (List.mem_append_left _ hg)
    rcases List.mem_append.mp hg with hg | hg
    · exact (hes g hg).2
    · exact h.spent g (List.mem_append_right _ hg)
  · rw [hjoined]
    refine List.pairwise_append.mpr ⟨hbefore, List.pairwise_append.mpr ⟨?_, hlater, ?_⟩, ?_⟩
    · exact List.pairwise_of_forall_mem_list fun f _ g hg => hnew f g hg
    · intro f hf g hg hreport hcase
      rcases hcase with hf' | hnone
      · rw [(hes f hf).1] at hf'
        cases hf'
      · rw [hnone g hg] at hreport
        cases hreport
    · intro f hf g hg
      rcases List.mem_append.mp hg with hg | hg
      · exact hnew f g hg
      · exact hcross f hf g hg

/-- A commission is earned and its report joins the queue. -/
theorem reward {c : Commission} {g : Event} (h : u.Reported r next queue later)
    (hlimit : next + 2 ≤ r.limit) (hlater : ∀ x ∈ later, x.isReport = false)
    (hreports : g.Reports c) (hc : c.id = Id.ofNat next) (hg : g.id = Id.ofNat (next + 1))
    (hreport : g.isReport = true) :
    (u.stageCommission c).Reported r (next + 2) (queue ++ [g]) later := by
  have hfirst := h.first_le
  have hpaired : Paired r (next + 2) c g := ⟨hreports, next, hfirst, Nat.lt_succ_self _, hc, hg⟩
  have hspent : r.Spent (next + 2) g.id :=
    Numbers.Made.spent ⟨next + 1, by omega, Nat.lt_succ_self _, hg⟩
  have hjoined : u.events ++ (queue ++ [g]) ++ later = u.events ++ queue ++ ([g] ++ later) := by
    simp
  obtain ⟨hbefore, hrest, hcross⟩ := List.pairwise_append.mp h.apart
  have hone : [g].filter Event.isReport = [g] := List.filter_cons_of_pos hreport
  have hold := h.paired
  refine ⟨by omega, ?_, fun f hf => ?_, ?_⟩
  · change List.Forall₂ (Paired r (next + 2)) (u.commissions ++ [c])
      ((u.events ++ (queue ++ [g]) ++ later).filter Event.isReport)
    rw [List.filter_append, filter_isReport_eq_nil hlater, List.append_nil] at hold ⊢
    rw [← List.append_assoc, List.filter_append, hone]
    exact List.rel_append (hold.imp fun _ _ => Paired.mono (by omega)) (.cons hpaired .nil)
  · change f ∈ u.events ++ (queue ++ [g]) ++ later at hf
    rw [hjoined] at hf
    rcases List.mem_append.mp hf with hf | hf
    · exact (h.spent f (List.mem_append_left _ hf)).mono (by omega)
    rcases List.mem_append.mp hf with hf | hf
    · exact List.mem_singleton.mp hf ▸ hspent
    · exact (h.spent f (List.mem_append_right _ hf)).mono (by omega)
  · change (u.events ++ (queue ++ [g]) ++ later).Pairwise _
    rw [hjoined]
    refine List.pairwise_append.mpr ⟨hbefore, List.pairwise_append.mpr ⟨by simp, hrest, ?_⟩, ?_⟩
    · intro f _ g' hg' hreport'
      rw [hlater g' hg'] at hreport'
      cases hreport'
    · intro f hf g' hg' hreport' hcase
      rcases List.mem_append.mp hg' with hg' | hg'
      · rw [List.mem_singleton.mp hg', hg]
        exact h.spent f (List.mem_append_left _ hf) (next + 1) (by omega) (by omega)
      · exact hcross f hf g' hg' hreport' hcase

/-- What waits in a queue may wait for a dispatch of its own as well. -/
theorem put_off (h : u.Reported r next queue []) : u.Reported r next [] queue := by
  have hsame : u.events ++ [] ++ queue = u.events ++ queue ++ [] := by simp
  refine ⟨h.first_le, hsame ▸ h.paired, hsame ▸ h.spent, ?_⟩
  rw [hsame]
  exact h.apart.imp fun hfg hreport _ => hfg hreport (.inr (List.forall_mem_nil _))

/-- The first of the events that wait for a dispatch of their own comes to its turn. -/
theorem next_dispatch (h : u.Reported r next [] (e :: later))
    (hstaged : (∀ g ∈ e :: later, g.isReport = false) ∨ ∀ f ∈ u.events, f.isReport = true) :
    u.Reported r next [e] later := by
  have hsame : u.events ++ [e] ++ later = u.events ++ [] ++ e :: later := by simp
  refine ⟨h.first_le, hsame ▸ h.paired, hsame ▸ h.spent, ?_⟩
  obtain ⟨hbefore, hrest, hcross⟩ := List.pairwise_append.mp h.apart
  rw [List.append_nil] at hbefore hcross
  obtain ⟨hfront, hlater⟩ := List.pairwise_cons.mp hrest
  -- whatever is staged counts: there are no other reports, or it is one itself
  have hcounts : ∀ f ∈ u.events, f.isReport = true ∨ ∀ x ∈ e :: later, x.isReport = false :=
    fun f hf => hstaged.symm.imp_left fun hall => hall f hf
  have hnone : ∀ g ∈ later, (∀ x ∈ later, x.isReport = false) → g.isReport ≠ true :=
    fun g hg hall => by simp [hall g hg]
  refine List.pairwise_append.mpr ⟨List.pairwise_append.mpr ⟨?_, List.pairwise_singleton _ _, ?_⟩,
    ?_, ?_⟩
  · exact hbefore.imp_of_mem fun {f g} hf _ hfg hreport _ => hfg hreport (hcounts f hf)
  · intro f hf g hg hreport _
    rw [List.mem_singleton.mp hg] at hreport ⊢
    exact hcross f hf e List.mem_cons_self hreport (hcounts f hf)
  · exact hlater.imp_of_mem fun {f g} _ hg hfg hreport hcase =>
      hfg hreport (hcase.imp_right fun hall => (hnone g hg hall hreport).elim)
  · intro f hf g hg hreport hcase
    rcases List.mem_append.mp hf with hf | hf
    · exact hcross f hf g (List.mem_cons_of_mem _ hg) hreport (hcounts f hf)
    · rw [List.mem_singleton.mp hf] at hcase ⊢
      exact hfront g hg hreport (hcase.imp_right fun hall => (hnone g hg hall hreport).elim)

end WorkUnit.Reported

namespace WorkUnit

variable {u u' : WorkUnit}

theorem Edit.commissions (h : u.Edit u') : u.commissions <+: u'.commissions := by
  cases h with
  | stageEvent h =>
    obtain ⟨-, rfl⟩ := stageEvent?_eq_some h
    exact List.prefix_refl _
  | stageCommission c => exact List.prefix_append _ _
  | demoteTransitions permits ids error now =>
    obtain ⟨records, ids', heq, -⟩ :=
      (⟨u, permits, ids, now⟩ : Staging).demoteTransitions_frame error now
    rw [heq]
  | _ => exact List.prefix_refl _

/-- A commission that is staged stays staged. -/
theorem Edits.commissions (h : u.Edits u') : u.commissions <+: u'.commissions := by
  induction h with
  | refl => exact List.prefix_refl _
  | tail _ hedit ih => exact ih.trans hedit.commissions

end WorkUnit

/-! ## Dispatches -/

namespace Staging

variable {r : Numbers} {base : ℕ} {queue later new : List Event} {config : Config} {e : Event}
  {depth : Depth} {allowed : RuleId → Effect → Prop} {s s' : Staging}

/-- The numbers have not run out; and no reports wait for a dispatch of their own, or nothing but
reports is staged and no commissions are earned beyond those that there were. -/
def Settles (r : Numbers) (base : ℕ) (later : List Event) (s : Staging) : Prop :=
  s.ids.next ≤ r.limit ∧ ((∀ g ∈ later, g.isReport = false) ∨
    s.unit.commissions.length ≤ base ∧ ∀ f ∈ s.unit.events, f.isReport = true)

theorem Settles.of_edits (h : s'.Settles r base later) (hedits : s.Edits s') :
    s.Settles r base later := by
  refine ⟨hedits.ids.trans h.1, h.2.imp_right fun ⟨hbase, hall⟩ => ⟨?_, fun f hf => ?_⟩⟩
  · exact hedits.unit.commissions.length_le.trans hbase
  · exact hall f (hedits.unit.events.subset hf)

/-- As long as this is so, each commission has its report. -/
structure Reported (r : Numbers) (base : ℕ) (later : List Event) (s : Staging)
    (queue : List Event) : Prop where
  base_le : base ≤ s.unit.commissions.length
  unit : s.Settles r base later → s.unit.Reported r s.ids.next queue later

/-- Nothing is staged yet. -/
theorem Reported.start (hcommissions : s.unit.commissions = []) (hevents : s.unit.events = [])
    (hfirst : r.first ≤ s.ids.next) : s.Reported r 0 [] [] where
  base_le := Nat.zero_le _
  unit _ := .start hcommissions hevents hfirst (List.forall_mem_nil _) (List.forall_mem_nil _)

/-- A change to other parts of the unit. -/
theorem Reported.congr (h : s.Reported r base later queue) (hedits : s.Edits s')
    (hcommissions : s'.unit.commissions = s.unit.commissions)
    (hevents : s'.unit.events = s.unit.events) : s'.Reported r base later queue where
  base_le := hcommissions ▸ h.base_le
  unit hsettles := (h.unit (hsettles.of_edits hedits)).congr hedits.ids hcommissions hevents

/-- Each thing that rules do leaves every commission with its report. -/
theorem Does.reported (step : s.Does config e depth allowed new s')
    (h : s.Reported r base later queue) : s'.Reported r base later (queue ++ new) := by
  have hedits := step.edits
  cases step with
  | permit hpermit =>
    obtain ⟨held, permits, rfl⟩ := ensurePermit?_frame hpermit
    rw [List.append_nil]
    exact h.congr hedits rfl rfl
  | mark | move | refuse | fail =>
    rw [List.append_nil]
    exact h.congr hedits rfl rfl
  | @reward rule spec amount =>
    have hgrown : (s.reward (s.earned e rule spec amount)).unit.commissions =
        s.unit.commissions ++ [s.earned e rule spec amount] := rfl
    have hbase := h.base_le
    refine ⟨by rw [hgrown, List.length_append]; omega, fun hsettles => ?_⟩
    -- a commission is beyond those that there were
    have hlater : ∀ g ∈ later, g.isReport = false := hsettles.2.resolve_right fun ⟨hle, _⟩ => by
      rw [hgrown, List.length_append, List.length_singleton] at hle
      omega
    exact (h.unit (hsettles.of_edits hedits)).reward hsettles.1 hlater
      ⟨rfl, rfl, rfl, rfl, rfl, rfl, rfl⟩ rfl rfl rfl

theorem Handles.reported (handles : s.Handles config e depth allowed new s')
    (h : s.Reported r base later queue) : s'.Reported r base later (queue ++ new) :=
  handles.keeps (I := fun s out => s.Reported r base later out)
    (fun step hs => step.reported hs) queue h

end Staging

namespace Cascade

variable {r : Numbers} {base : ℕ} {queue later out : List Event} {c : Cascade} {position : ℕ}
  {call : Call} {h : Handler}

/-- Each commission has its report, and no name that a handler was passed is still to come. -/
structure Reported (r : Numbers) (base : ℕ) (later : List Event) (c : Cascade)
    (queue : List Event) : Prop where
  staging : c.staging.Reported r base later queue
  calls : c.staging.Settles r base later →
    ∀ x ∈ c.calls, r.Spent c.staging.ids.next x.call.event.id

theorem calls_callHandler (c : Cascade) (position : ℕ) (h : Handler) (call : Call) :
    (c.callHandler position h call).1.calls = c.calls ++ [⟨position, call⟩] := by
  unfold callHandler
  split
  rename_i answer staging hanswer
  cases answer <;> rfl

/-- Handlers that are called one after the other, in view of the events that follow. -/
theorem callAll_follows {J : Cascade → List Event → Prop} {hs : List Handler}
    (hone : ∀ h ∈ hs, ∀ c position out, J c out →
      J (c.callHandler position h call).1 (out ++ (c.callHandler position h call).2))
    (position : ℕ) (hJ : J c out) :
    J (callAll call position hs c).1 (out ++ (callAll call position hs c).2) := by
  induction hs generalizing c position out with
  | nil =>
    rw [callAll, List.append_nil]
    exact hJ
  | cons h hs ih =>
    rw [List.forall_mem_cons] at hone
    have hall := ih hone.2 (position + 1) (hone.1 c position out hJ)
    rw [List.append_assoc] at hall
    exact hall

/-- The handler of totals has no say in it. -/
theorem reported_callAggregates (position : ℕ) (call : Call)
    (hc : c.staging.Reported r base later queue) :
    (c.callHandler position aggregatesHandler call).1.staging.Reported r base later queue ∧
      (c.callHandler position aggregatesHandler call).2 = [] := by
  have hedits := edits_callHandler fair_aggregatesHandler c position call
  revert hedits
  unfold callHandler
  simp only [aggregatesHandler]
  cases c.staging.unit.delta.add call.event with
  | ok delta => exact fun hedits => ⟨hc.congr hedits rfl rfl, rfl⟩
  | error error => exact fun hedits => ⟨hc.congr hedits rfl rfl, rfl⟩

/-- What another handler returns joins the queue. -/
theorem reported_callObserver (hh : h.Observes r) (position : ℕ) (call : Call)
    (hevent : call.event ∈ c.staging.unit.events) (hc : c.Reported r base later queue) :
    (c.callHandler position h call).1.staging.Reported r base later
        (queue ++ (c.callHandler position h call).2) ∧
      ∀ g ∈ (c.callHandler position h call).2, g.isReport = false := by
  have hunit := hh.unit (callsOf position c.calls) call c.staging
  have hids := hh.ids_le (callsOf position c.calls) call c.staging
  have hreturned := hh.returned (callsOf position c.calls) call c.staging
  have hspent := hh.spent (callsOf position c.calls) call c.staging
  unfold callHandler
  generalize h.react (callsOf position c.calls) call c.staging = result at *
  obtain ⟨answer, staging⟩ := result
  dsimp only at hunit hids hreturned hspent
  have hedits : c.staging.Edits staging := ⟨hids, hunit ▸ .refl⟩
  have hsame := hc.staging.congr hedits (congrArg _ hunit) (congrArg _ hunit)
  cases answer with
  | error error =>
    rw [List.append_nil]
    exact ⟨hsame.congr ⟨Nat.le_succ _, .single (.recordFailure _)⟩ rfl rfl, List.forall_mem_nil _⟩
  | ok children =>
    refine ⟨⟨hsame.base_le, fun hsettles => (hsame.unit hsettles).join fun g hg => ?_⟩,
      hreturned children rfl⟩
    have hbefore := hsettles.of_edits hedits
    have hold := hc.staging.unit hbefore
    have hstaged : ∀ f ∈ c.staging.unit.events, r.Spent c.staging.ids.next f.id := fun f hf =>
      hold.spent f (List.mem_append_left _ (List.mem_append_left _ hf))
    refine ⟨hreturned children rfl g hg, hspent children rfl hold.first_le ?_ hstaged g hg⟩
    intro c' hc'
    rcases List.mem_cons.mp hc' with rfl | hc'
    · exact hstaged _ hevent
    · obtain ⟨x, hx, rfl⟩ := List.mem_map.mp hc'
      exact hc.calls hbefore x (List.mem_of_mem_filter hx)

/-- The calls that are recorded have names that were made. -/
theorem Reported.callHandler (hfair : h.Fair) (hevent : call.event ∈ c.staging.unit.events)
    (hc : c.Reported r base later queue)
    (hstaging : (c.callHandler position h call).1.staging.Reported r base later
      (queue ++ (c.callHandler position h call).2)) :
    (c.callHandler position h call).1.Reported r base later
      (queue ++ (c.callHandler position h call).2) := by
  refine ⟨hstaging, fun hsettles x hx => ?_⟩
  have hedits := edits_callHandler hfair c position call
  have hbefore := hsettles.of_edits hedits
  rw [calls_callHandler] at hx
  rcases List.mem_append.mp hx with hx | hx
  · exact (hc.calls hbefore x hx).mono hedits.ids
  · rw [List.mem_singleton.mp hx]
    exact ((hc.staging.unit hbefore).spent _
      (List.mem_append_left _ (List.mem_append_left _ hevent))).mono hedits.ids

end Cascade

/-- What each turn of the queue keeps, a dispatch keeps until the queue is empty. -/
theorem Dispatcher.dispatchAt_keeps_turns {d : Dispatcher} (hlimit : d.maxDepth.val < 255)
    {I : Cascade → List Waiting → Prop}
    (hturn : ∀ c w queue, I c (w :: queue) →
      I (Visit.after d ⟨w, c⟩) (queue ++ Visit.following d ⟨w, c⟩))
    {depth : Depth} {e : Event} {staging : Staging} {calls : List CallRecord}
    (h : I ⟨staging, calls, .start⟩ [⟨e, depth, 0⟩]) :
    I (d.dispatchAt depth e staging calls) [] := by
  have hturns : ∀ (n : ℕ) (p : Progress), I p.cascade p.queue →
      I (d.turn^[n] p).cascade (d.turn^[n] p).queue := by
    intro n
    induction n with
    | zero => exact fun _ hp => hp
    | succ n ih =>
      rintro ⟨c, _ | ⟨w, queue⟩⟩ hp
      · exact ih _ hp
      · exact ih _ (hturn c w queue hp)
  obtain ⟨n, hend⟩ := exists_iterate_turn_eq hlimit depth e staging calls
  have hlast := hturns n (begin depth e staging calls) h
  rwa [hend] at hlast

theorem Handler.Observes.fair {r : Numbers} {h : Handler} (hh : h.Observes r) : h.Fair :=
  fun calls c s => ⟨hh.ids_le calls c s, hh.unit calls c s ▸ .refl⟩

namespace Service

open Cascade (Reported)

variable {s : Service} {r : Numbers} {base : ℕ} {queue later : List Event} {c : Cascade}
  {depth : Depth} {e : Event}

theorem fair_of_observes (hextra : ∀ h ∈ s.extra, h.Observes r) : s.Fair :=
  fun h hh => (hextra h hh).fair

/-- All handlers are called for an event that was just staged. There is room for the reports that
follow from it. -/
theorem reported_callAll (hextra : ∀ h ∈ s.extra, h.Observes r)
    (hevent : e ∈ c.staging.unit.events) (hc : c.Reported r base later queue) :
    (Cascade.callAll ⟨e, depth⟩ 0 s.dispatcher.handlers c).1.Reported r base later
        (queue ++ (Cascade.callAll ⟨e, depth⟩ 0 s.dispatcher.handlers c).2) ∧
      ∀ g ∈ (Cascade.callAll ⟨e, depth⟩ 0 s.dispatcher.handlers c).2, g.isReport = true →
        depth.next ≤ s.config.maxDepth := by
  let J : Cascade → List Event → Prop := fun c out => e ∈ c.staging.unit.events ∧
    c.Reported r base later (queue ++ out) ∧
    ∀ g ∈ out, g.isReport = true → depth.next ≤ s.config.maxDepth
  have hfair := (fair_of_observes hextra).handlers
  have hone : ∀ h ∈ s.dispatcher.handlers, ∀ c position out, J c out →
      J (c.callHandler position h ⟨e, depth⟩).1
        (out ++ (c.callHandler position h ⟨e, depth⟩).2) := by
    rintro h hh c position out ⟨hevent, hc, hroom⟩
    have hedits := Cascade.edits_callHandler (hfair h hh) c position ⟨e, depth⟩
    have hmore : (c.callHandler position h ⟨e, depth⟩).1.staging.Reported r base later
        (queue ++ out ++ (c.callHandler position h ⟨e, depth⟩).2) ∧
        ∀ g ∈ (c.callHandler position h ⟨e, depth⟩).2, g.isReport = true →
          depth.next ≤ s.config.maxDepth := by
      rcases List.mem_cons.mp hh with rfl | hh
      · obtain ⟨hsame, hnone⟩ := Cascade.reported_callAggregates position ⟨e, depth⟩ hc.staging
        rw [hnone, List.append_nil]
        exact ⟨hsame, List.forall_mem_nil _⟩
      rcases List.mem_cons.mp hh with rfl | hh
      · have hhandles := c.handles_callHandler s.config position ⟨e, depth⟩
        exact ⟨hhandles.reported hc.staging, fun g hg _ => (hhandles.reports g hg).2.1⟩
      · obtain ⟨hmore, hnone⟩ :=
          Cascade.reported_callObserver (hextra h hh) position ⟨e, depth⟩ hevent hc
        refine ⟨hmore, fun g hg hreport => ?_⟩
        rw [hnone g hg] at hreport
        cases hreport
    refine ⟨hedits.unit.events.subset hevent, ?_, fun g hg => ?_⟩
    · rw [← List.append_assoc]
      exact hc.callHandler (hfair h hh) hevent hmore.1
    · rcases List.mem_append.mp hg with hg | hg
      · exact hroom g hg
      · exact hmore.2 g hg
  have hstart : J c [] := ⟨hevent, by rwa [List.append_nil], List.forall_mem_nil _⟩
  have hall := Cascade.callAll_follows hone 0 hstart
  rw [List.nil_append] at hall
  exact hall.2

/-- The turn of an event: it is rejected or skipped, but never if it is a report, or it is staged
and all handlers are called. -/
theorem reported_handleEvent (hextra : ∀ h ∈ s.extra, h.Observes r)
    (hroom : e.isReport = true → depth ≤ s.config.maxDepth)
    (hc : c.Reported r base later (e :: queue)) :
    (c.handleEvent s.dispatcher depth e).1.Reported r base later
        (queue ++ (c.handleEvent s.dispatcher depth e).2) ∧
      ∀ g ∈ (c.handleEvent s.dispatcher depth e).2, g.isReport = true →
        depth.next ≤ s.config.maxDepth := by
  have hedits := Cascade.edits_handleEvent (fair_of_observes hextra).handlers depth c e
  by_cases hdeep : s.dispatcher.maxDepth < depth
  · have hother : e.isReport = false := by
      by_contra hreport
      exact absurd (hroom (by simpa using hreport)) (not_le.mpr hdeep)
    rw [Cascade.handleEvent_of_deep hdeep] at hedits ⊢
    rw [List.append_nil]
    refine ⟨⟨⟨hc.staging.base_le, fun hsettles => ?_⟩, fun hsettles x hx => ?_⟩,
      List.forall_mem_nil _⟩
    · exact ((hc.staging.unit (hsettles.of_edits hedits)).drop hother).congr hedits.ids rfl rfl
    · exact (hc.calls (hsettles.of_edits hedits) x hx).mono hedits.ids
  have hroom' : depth ≤ s.dispatcher.maxDepth := not_lt.mp hdeep
  cases hstaged : c.staging.unit.isStaged e.id with
  | true =>
    rw [Cascade.handleEvent_of_staged hroom' hstaged, List.append_nil]
    refine ⟨⟨⟨hc.staging.base_le, fun hsettles => ?_⟩, hc.calls⟩, List.forall_mem_nil _⟩
    have hold := hc.staging.unit hsettles
    refine hold.drop ?_
    by_contra hreport
    have hnew := hold.isStaged_front (by simpa using hreport) (hsettles.2.imp_right (·.2))
    rw [hstaged] at hnew
    cases hnew
  | false =>
    rw [Cascade.handleEvent_of_new hroom' hstaged] at hedits ⊢
    refine reported_callAll hextra (List.mem_append_right _ List.mem_cons_self) ?_
    have hstage : c.staging.unit.stageEvent? e =
        some { c.staging.unit with events := c.staging.unit.events ++ [e] } := by
      rw [WorkUnit.stageEvent?, if_neg (by simp [hstaged])]
    have hedit := Cascade.edits_stageEvent c.staging e _ hstage (.refl _)
    exact ⟨⟨hc.staging.base_le, fun hsettles =>
      (hc.staging.unit (hsettles.of_edits hedit)).stage⟩,
      fun hsettles => hc.calls (hsettles.of_edits hedit)⟩

/-- A dispatch stages the reports of all commissions that it earns, each after those of the earlier
ones. -/
theorem reported_dispatchAt (hlimit : s.config.maxDepth.val < 255)
    (hextra : ∀ h ∈ s.extra, h.Observes r)
    (hroom : e.isReport = true → depth ≤ s.config.maxDepth) {staging : Staging}
    {calls : List CallRecord} (hc : Reported r base later ⟨staging, calls, .start⟩ [e]) :
    (s.dispatcher.dispatchAt depth e staging calls).Reported r base later [] := by
  let I : Cascade → List Waiting → Prop := fun c queue =>
    c.Reported r base later (queue.map (·.event)) ∧
      ∀ w ∈ queue, w.event.isReport = true → w.depth ≤ s.config.maxDepth
  have hturn : ∀ c w queue, I c (w :: queue) →
      I (Visit.after s.dispatcher ⟨w, c⟩) (queue ++ Visit.following s.dispatcher ⟨w, c⟩) := by
    rintro c w queue ⟨hc, hrooms⟩
    rw [List.forall_mem_cons] at hrooms
    obtain ⟨hafter, hnew⟩ := reported_handleEvent hextra hrooms.1 hc
    refine ⟨?_, List.forall_mem_append.mpr ⟨hrooms.2, fun x hx => ?_⟩⟩
    · have hqueue : (queue ++ Visit.following s.dispatcher ⟨w, c⟩).map (·.event) =
          queue.map (·.event) ++ (c.handleEvent s.dispatcher w.depth w.event).2 := by
        simp [Visit.following, Waiting.child, Function.comp_def]
      rw [hqueue]
      exact hafter
    · obtain ⟨g, hg, rfl⟩ := List.mem_map.mp hx
      exact hnew g hg
  have hturns := Dispatcher.dispatchAt_keeps_turns hlimit hturn
    (⟨hc, List.forall_mem_singleton.mpr hroom⟩ : I ⟨staging, calls, .start⟩ [⟨e, depth, 0⟩])
  exact hturns.1

end Service

/-! ## Commissions for one event -/

/-- The rules were evaluated for an event, and the commissions after the given ones are for other
events. -/
def Staging.Exhausts (source : EventId) (old : List Commission) (s : Staging) : Prop :=
  source ∈ s.unit.evaluated ∧
    ∃ more, s.unit.commissions = old ++ more ∧ ∀ c ∈ more, c.source ≠ source

namespace Staging

variable {config : Config} {e : Event} {depth : Depth} {allowed : RuleId → Effect → Prop}
  {source : EventId} {old : List Commission} {new : List Event} {s s' : Staging}

theorem Does.evaluated (step : s.Does config e depth allowed new s') :
    s.unit.evaluated ⊆ s'.unit.evaluated := by
  cases step with
  | permit hpermit =>
    obtain ⟨held, permits, rfl⟩ := ensurePermit?_frame hpermit
    exact List.Subset.refl _
  | mark => exact List.subset_append_left _ _
  | _ => exact List.Subset.refl _

theorem Does.exhausts (step : s.Does config e depth allowed new s') (he : e.id ≠ source)
    (h : s.Exhausts source old) : s'.Exhausts source old := by
  obtain ⟨hevaluated, more, hold, hmore⟩ := h
  refine ⟨step.evaluated hevaluated, ?_⟩
  cases step with
  | permit hpermit =>
    obtain ⟨held, permits, rfl⟩ := ensurePermit?_frame hpermit
    exact ⟨more, hold, hmore⟩
  | mark | move | refuse | fail => exact ⟨more, hold, hmore⟩
  | @reward rule spec amount =>
    refine ⟨more ++ [s.earned e rule spec amount], ?_, ?_⟩
    · rw [← List.append_assoc, ← hold]
      rfl
    · exact List.forall_mem_append.mpr ⟨hmore, List.forall_mem_singleton.mpr he⟩

/-- The rules are not evaluated for an event once more. -/
theorem isKeptBy_exhausts_rulesHandler (config : Config) :
    Cascade.IsKeptBy (Exhausts source old) (rulesHandler config) := by
  intro calls call s h
  by_cases he : call.event.id = source
  · have hmarked : s.unit.markEvaluated? call.event.id = none :=
      if_pos (List.contains_iff_mem.mpr (he ▸ h.1))
    simp only [rulesHandler, hmarked]
    exact h
  · exact (s.handles_react config calls call).keeps' (fun step hs => step.exhausts he hs) h

end Staging

namespace Service

variable {s : Service} {r : Numbers} {source : EventId} {old : List Commission}

/-- Commissions that a dispatch earns are for events that the rules were not evaluated for. -/
theorem exhausts_dispatchAt (hextra : ∀ h ∈ s.extra, h.Observes r) {staging : Staging}
    (h : staging.Exhausts source old) (depth : Depth) (e : Event) (calls : List CallRecord) :
    (s.dispatcher.dispatchAt depth e staging calls).staging.Exhausts source old := by
  refine Dispatcher.keeps_dispatchAt (fun _ _ h => h) (fun handler hh => ?_) ?_ depth e staging
    calls h
  · rcases List.mem_cons.mp hh with rfl | hh
    · intro calls call s h
      simp only [aggregatesHandler]
      split <;> exact h
    rcases List.mem_cons.mp hh with rfl | hh
    · exact Staging.isKeptBy_exhausts_rulesHandler s.config
    · intro calls call staging h
      rw [Staging.Exhausts, (hextra handler hh).unit]
      exact h
  · intro staging e unit hunit h
    obtain ⟨-, rfl⟩ := WorkUnit.stageEvent?_eq_some hunit
    exact h

/-- The rules are called for an event in a unit of work of its own: the commissions are all for
that event, and their reports are returned. -/
theorem reported_callRules (config : Config) {c : Context} (calls : List Call) (call : Call)
    (permits : Permits) {ids : IdSupply} (now : Instant) (hfirst : r.first ≤ ids.next)
    {children : List Event} {staging : Staging}
    (hreact : (rulesHandler config).react calls call ⟨.start c, permits, ids, now⟩ =
      (.ok children, staging)) (hlimit : staging.ids.next ≤ r.limit) :
    staging.unit.Reported r staging.ids.next [] children ∧
      (∀ g ∈ children, g.isReport = true ∧ call.depth.next ≤ config.maxDepth) ∧
      staging.Exhausts call.event.id staging.unit.commissions ∧
      staging.unit.events = [] ∧ ∀ x ∈ staging.unit.commissions, x.source = call.event.id := by
  let fresh : Staging := ⟨.start c, permits, ids, now⟩
  have hhandles := fresh.handles_react config calls call
  let marked : Staging := { fresh with unit := { fresh.unit with evaluated := [call.event.id] } }
  have hmarked : call.event.id ∈
      ((rulesHandler config).react calls call fresh).2.unit.evaluated :=
    marked.handles_evaluate.keeps' (I := fun s => call.event.id ∈ s.unit.evaluated)
      (fun step hs => step.evaluated hs) List.mem_cons_self
  rw [hreact] at hhandles hmarked
  have hreported := (hhandles.reported (.start rfl rfl hfirst)).unit
    ⟨hlimit, .inl (List.forall_mem_nil _)⟩
  have hsource : ∀ x ∈ staging.unit.commissions, x.source = call.event.id := by
    refine hhandles.keeps' (I := fun s : Staging =>
      ∀ x ∈ s.unit.commissions, x.source = call.event.id) ?_ (List.forall_mem_nil _)
    rintro s s' new step hall
    cases step with
    | permit hpermit =>
      obtain ⟨held, permits, rfl⟩ := Staging.ensurePermit?_frame hpermit
      exact hall
    | reward =>
      exact List.forall_mem_append.mpr ⟨hall, List.forall_mem_singleton.mpr rfl⟩
    | _ => exact hall
  refine ⟨hreported.put_off, fun g hg => ?_, ⟨hmarked, [], (List.append_nil _).symm,
    List.forall_mem_nil _⟩, hhandles.events_eq, hsource⟩
  have hreport := hhandles.reports g hg
  exact ⟨hreport.1, hreport.2.1⟩

end Service

end Referral
