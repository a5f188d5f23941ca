import Referral.Proofs.AtOnce
import Referral.Proofs.Isolation

/-!
# Dates

With the built-in handlers the clock is read for dates only: for those of the entries of the log and
of failure records. So what comes of a publication that has the world to itself depends on the time
in these dates and in nothing else.
-/

namespace Referral

/-! ## One date for all -/

/-- The entry, under another date. -/
def StoredEvent.dated (t : Instant) (x : StoredEvent) : StoredEvent := { x with recordedAt := t }

/-- The record, under another date. -/
def Failure.dated (t : Instant) (f : Failure) : Failure := { f with recordedAt := t }

/-- The store with all that has a date under one and the same. -/
def Store.dated (t : Instant) (s : Store) : Store :=
  { s with log := s.log.map (·.dated t), failures := s.failures.map (·.dated t) }

/-- The unit of work with all its records under one and the same date. -/
def WorkUnit.dated (t : Instant) (u : WorkUnit) : WorkUnit :=
  { u with failures := u.failures.map (·.dated t) }

/-- The report with all its records under one and the same date. -/
def PublishReport.dated (t : Instant) (r : PublishReport) : PublishReport :=
  { r with failures := r.failures.map (·.dated t) }

/-- The answer with all its records under one and the same date. -/
def PublishOutcome.dated (t : Instant) : PublishOutcome → PublishOutcome
  | duplicate event => .duplicate event
  | committed report => .committed (report.dated t)

/-! ## Commits -/

namespace Store

variable {s : Store} {u : WorkUnit} (t : Instant)

@[simp] theorem head_dated (s : Store) : (s.dated t).head = s.head := by
  simp only [head, dated, List.getLast?_map, Option.map_map]
  rfl

theorem dated_append (s : Store) (e : Event) (now : Instant) :
    (s.append e now).dated t = (s.dated t).append e t := by
  have hhead := s.head_dated t
  simp only [append, hhead]
  simp [dated, StoredEvent.dated]

theorem dated_appendAll (es : List Event) (s : Store) (now : Instant) :
    (es.foldl (fun s e => s.append e now) s).dated t =
      es.foldl (fun s e => s.append e t) (s.dated t) := by
  induction es generalizing s with
  | nil => rfl
  | cons e es ih => rw [List.foldl_cons, List.foldl_cons, ih, dated_append]

theorem dated_moves (ts : List Transition) (s : Store) :
    (ts.foldl move s).dated t = ts.foldl move (s.dated t) := by
  induction ts generalizing s with
  | nil => rfl
  | cons m ts ih => exact ih (s.move m)

theorem dated_changeAll {change : Failure → Failure}
    (hchange : ∀ f, change (f.dated t) = (change f).dated t) (ids : List FailureId) (s : Store) :
    (ids.foldl (fun s id => s.changeFailure id change) s).dated t =
      ids.foldl (fun s id => s.changeFailure id change) (s.dated t) := by
  have hfirst : ∀ (id : FailureId) (fs : List Failure),
      modifyFirst (·.id = id) change (fs.map (·.dated t)) =
        (modifyFirst (·.id = id) change fs).map (·.dated t) := by
    intro id fs
    induction fs with
    | nil => rfl
    | cons f fs ih =>
      have hid : (f.dated t).id = f.id := rfl
      by_cases hf : f.id = id <;> simp [modifyFirst, hid, hf, hchange, ih]
  induction ids generalizing s with
  | nil => rfl
  | cons id ids ih =>
    have hone : (s.changeFailure id change).dated t = (s.dated t).changeFailure id change := by
      simp only [changeFailure, dated, hfirst]
    rw [List.foldl_cons, List.foldl_cons, ih, hone]

theorem dated_addFailures (s : Store) (fs : List Failure) :
    { s with failures := s.failures ++ fs }.dated t =
      { s.dated t with failures := (s.dated t).failures ++ fs.map (·.dated t) } := by
  simp [dated]

/-- The time of a commit is the date of what it adds to the log. -/
theorem dated_write (s : Store) (u : WorkUnit) (book : Book) (now : Instant) :
    (s.write u book now).dated t = (s.dated t).write (u.dated t) book t := by
  let logged := u.events.foldl (fun s e => s.append e now) { s with book }
  let earned : Store := { logged with commissions := logged.commissions ++ u.commissions }
  let moved := (u.transitions.map (·.transition)).foldl move earned
  let recorded : Store := { moved with failures := moved.failures ++ u.failures }
  let settle : Failure → Failure := fun f => { f with resolved := true }
  let attempt : Failure → Failure := fun f => { f with attempts := f.attempts + 1 }
  have hlogged : logged.dated t =
      u.events.foldl (fun s e => s.append e t) { s.dated t with book } :=
    dated_appendAll t u.events _ now
  have hearned : earned.dated t = { logged.dated t with
      commissions := (logged.dated t).commissions ++ u.commissions } := rfl
  have hmoved : moved.dated t = (u.transitions.map (·.transition)).foldl move (earned.dated t) :=
    dated_moves t _ _
  have hrecorded : recorded.dated t = { moved.dated t with
      failures := (moved.dated t).failures ++ (u.dated t).failures } := dated_addFailures t _ _
  calc (s.write u book now).dated t
      = (u.attempted.foldl (fun s id => s.changeFailure id attempt)
          (u.resolved.foldl (fun s id => s.changeFailure id settle) recorded)).dated t := rfl
    _ = u.attempted.foldl (fun s id => s.changeFailure id attempt)
          (u.resolved.foldl (fun s id => s.changeFailure id settle) (recorded.dated t)) := by
        have hattempt : ∀ f : Failure, attempt (f.dated t) = (attempt f).dated t := fun _ => rfl
        have hsettle : ∀ f : Failure, settle (f.dated t) = (settle f).dated t := fun _ => rfl
        rw [dated_changeAll t hattempt, dated_changeAll t hsettle]
    _ = (s.dated t).write (u.dated t) book t := by
        rw [hrecorded, hmoved, hearned, hlogged]
        rfl

theorem staleMove?_dated (s : Store) (before ts : List Transition) :
    (s.dated t).staleMove? before ts = s.staleMove? before ts := by
  induction ts generalizing before with
  | nil => rfl
  | cons m ts ih =>
    rw [staleMove?, staleMove?, ih]
    rfl

theorem check_dated (s : Store) (u : WorkUnit) : (s.dated t).check (u.dated t) = s.check u := by
  have hmoves := s.staleMove?_dated t [] (u.transitions.map (·.transition))
  have hknown : ∀ id, (s.dated t).failures.any (·.id = id) = s.failures.any (·.id = id) := by
    intro id
    rw [dated, List.any_map]
    rfl
  simp only [check, WorkUnit.dated, hmoves, hknown]
  rfl

/-- The time of a commit shows in dates only. -/
theorem commit_dated (s : Store) (u : WorkUnit) (now : Instant) :
    (s.dated t).commit (u.dated t) t = ((s.commit u now).1, (s.commit u now).2.dated t) := by
  have hcheck := s.check_dated t u
  have hfailing : (s.dated t).failingCommits = s.failingCommits := rfl
  have hbook : (s.dated t).book.merge (u.dated t).delta = s.book.merge u.delta := rfl
  unfold commit
  rw [hfailing, hcheck, hbook]
  split
  · rfl
  · cases s.check u with
    | error error => rfl
    | ok _ =>
      cases s.book.merge u.delta with
      | error error => rfl
      | ok book =>
        dsimp only
        rw [← dated_write]
        have hreceipt : ((s.write u book now).dated t).receipt (u.dated t) =
            (s.write u book now).receipt u := by
          simp only [receipt, head_dated, WorkUnit.dated, List.length_map]
        rw [hreceipt]

/-- Two commits of the same, but for dates, come to the same, but for dates. -/
theorem commit_eq_of_dated_eq {u' : WorkUnit} (h : u.dated t = u'.dated t) (now later : Instant) :
    (s.commit u' later).1 = (s.commit u now).1 ∧
      (s.commit u' later).2.dated t = (s.commit u now).2.dated t := by
  have hfirst := s.commit_dated t u now
  have hsecond := s.commit_dated t u' later
  rw [← h, hfirst] at hsecond
  exact ⟨(congrArg Prod.fst hsecond).symm, (congrArg Prod.snd hsecond).symm⟩

end Store

/-! ## Dispatches -/

theorem Error.Renames.eq_of_refl {time : Instant → Instant} {error error' : Error}
    (h : error.Renames ⟨.refl _, time⟩ error') : error' = error := by
  cases h <;> rfl

theorem Failure.Renames.dated_eq {time : Instant → Instant} {f f' : Failure}
    (h : f.Renames ⟨.refl _, time⟩ f') (t : Instant) : f'.dated t = f.dated t := by
  cases h with
  | ofError h _ event =>
    rw [h.eq_of_refl]
    cases event <;> rfl

theorem map_eq_of_forall₂ {α β : Type} {R : α → α → Prop} {f : α → β} {as bs : List α}
    (h : ∀ a b, R a b → f b = f a) (hlists : List.Forall₂ R as bs) : bs.map f = as.map f := by
  induction hlists with
  | nil => rfl
  | cons hhead _ ih => rw [List.map_cons, List.map_cons, h _ _ hhead, ih]

/-- Units that stage the same under the same names differ in dates only. -/
theorem WorkUnit.Renames.dated_eq {time : Instant → Instant} {u u' : WorkUnit}
    (h : u.Renames ⟨.refl _, time⟩ u') (t : Instant) : u'.dated t = u.dated t := by
  have hevents := h.events.trans (List.map_id'' (Event.rename_refl time) _)
  have hevaluated := h.evaluated.trans (List.map_id'' Id.rename_same _)
  have hcommissions := h.commissions.trans (List.map_id'' Commission.rename_same _)
  have htransitions := h.transitions.trans (List.map_id'' StagedTransition.rename_same _)
  have hfailures : u'.failures.map (·.dated t) = u.failures.map (·.dated t) :=
    map_eq_of_forall₂ (fun _ _ hf => Failure.Renames.dated_eq hf t) h.failures
  obtain ⟨hcontext, -, -, -, -, -, hresolved, hattempted, hdelta, hpermits⟩ := h
  cases u
  cases u'
  simp_all [WorkUnit.dated]

/-- A report has no dates. -/
theorem DispatchReport.Renames.eq_of_refl {time : Instant → Instant} {r r' : DispatchReport}
    (h : r.Renames ⟨.refl _, time⟩ r') : r' = r := by
  refine Renames.eq ⟨h.dispatched, h.skipped, h.rejected, h.handlerFailures.imp fun f f' hf => ?_,
    h.deepest⟩
  exact ⟨hf.handler, hf.event, hf.error.eq_of_refl ▸ .same _⟩

namespace Service

open Procedure World

variable {s : Service} {w : World} {e : Event}

/-- The time of a dispatch shows in the dates of failure records only. -/
theorem dispatched_dated (hbuiltIn : s.extra = []) (hfree : e.promoterKey ∉ w.permits.out)
    (now later t : Instant) :
    (s.dispatched w e later).report = (s.dispatched w e now).report ∧
      (s.dispatched w e later).staging.unit.dated t = (s.dispatched w e now).staging.unit.dated t := by
  have hids : w.ids.Renames ⟨.refl _, fun _ => later⟩ 0 (s.dispatched w e now).staging.ids.next
      w.ids := ⟨by simp, fun _ _ => rfl⟩
  have hsame := renames_dispatched hbuiltIn (e.rename_refl _) rfl hfree hfree hids
  exact ⟨hsame.report.eq_of_refl, hsame.staging.unit.dated_eq t⟩

/-- Whenever an event is dispatched and committed, the same comes of it, but for dates. -/
theorem Concludes.dated_eq (hbuiltIn : s.extra = []) (hfree : e.promoterKey ∉ w.permits.out)
    {a a' : Except Error PublishOutcome} {store store' : Store} (h : s.Concludes w e a store)
    (h' : s.Concludes w e a' store') (t : Instant) :
    a'.map (·.dated t) = a.map (·.dated t) ∧ store'.dated t = store.dated t := by
  cases h with
  | known hknown =>
    cases h' with
    | known => exact ⟨rfl, rfl⟩
    | dispatched hnew =>
      rw [hknown] at hnew
      cases hnew
  | @dispatched hnew began ended answer _ hcommit =>
    cases h' with
    | known hknown =>
      rw [hnew] at hknown
      cases hknown
    | @dispatched _ began' ended' answer' _ hcommit' =>
      obtain ⟨hreport, hunit⟩ := dispatched_dated hbuiltIn hfree began began' t (w := w) (e := e)
      obtain ⟨hanswer, hstore⟩ :=
        Store.commit_eq_of_dated_eq t hunit ended' ended (s := w.store)
      rw [hcommit, hcommit'] at hanswer hstore
      refine ⟨?_, hstore.symm⟩
      obtain rfl : answer = answer' := hanswer
      rw [hreport]
      cases answer with
      | error error => rfl
      | ok receipt =>
        have hdated : ∀ (u : WorkUnit) (d : DispatchReport),
            (answerTo e d u (.ok receipt)).map (·.dated t) =
              .ok (.committed (reportOn e (u.dated t) receipt d)) := fun _ _ => rfl
        rw [hdated, hdated, hunit]

end Service

end Referral
