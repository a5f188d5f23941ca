import Referral.Proofs.Alone
import Referral.Proofs.Discrepancies
import Referral.Proofs.Rebuild

/-!
# Verification among other operations

A verification compares the totals of a snapshot with the log as it was then, which it reads in
batches while others go on to change the store. What it reports is about the instant of the
snapshot. If there was drift it swaps in the totals of the whole log at the instant of the swap, and
this is the only change it makes.
-/

namespace Referral

namespace Store

/-- The swap at the end of a verification that found drift. -/
structure Repaired (scope : Scope) (s s' : Store) : Prop where
  tallies : s'.book.Tallies scope s'.facts
  outside : s.book.AgreeOutside scope s'.book
  rest : s' = { s with book := s'.book }
  /-- The events of the scope can be added up once more. -/
  addable : (∀ link, scope ≠ .link link) →
    ∃ book, (∅ : Book).addAll (s'.facts.filter scope.includes) = .ok book

end Store

namespace Procedure

open World (Others rely_others)

/-- What a report says of the store at the instant of the snapshot. -/
structure Compares (scope : Scope) (s : Store) (report : DriftReport) : Prop where
  scope_eq : report.scope = scope
  watermark_eq : report.watermark = s.log.length
  repaired_eq : report.repaired = !report.isClean
  clean_iff : report.isClean = true ↔ s.book.Tallies scope s.facts

/-- What a verification does with the book of the log. -/
def repair (scope : Scope) (snapshot : BookSnapshot) :
    Except Error (Book × ℕ) → Procedure (Except Error DriftReport)
  | .error e => return .error e
  | .ok (book, _) => do
    let rebuilt := book.restrict scope
    let drifted := snapshot.book.driftLines rebuilt
    if drifted.isEmpty then return .ok ⟨scope, snapshot.watermark, drifted, false⟩
    match ← perform (.replaceTotals scope rebuilt snapshot.watermark) with
    | .error e => return .error e
    | .ok _ => return .ok ⟨scope, snapshot.watermark, drifted, true⟩

theorem verify_eq (config : Config) (scope : Scope) :
    verify config scope = (do
      let snapshot ← read fun s => s.snapshot scope
      let answer ← bookOfLog config (pure false) scope snapshot.watermark
      repair scope snapshot answer) := rfl

variable {config : Config} {scope : Scope} {w w₀ : World} {book : Book} {folded : ℕ}

/-- The lines of a report are empty exactly if the stored totals are those of the log. -/
theorem driftLines_snapshot_eq_nil_iff (hnumbered : w₀.store.Numbered)
    (h : Folded w₀ scope w₀.store.head book folded) :
    (w₀.store.snapshot scope).book.driftLines (book.restrict scope) = [] ↔
      w₀.store.book.Tallies scope w₀.store.facts := by
  have htallies := h.tallies hnumbered.head_eq.le (.refl _)
  rw [hnumbered.take_facts] at htallies
  exact Book.driftLines_eq_nil_iff.trans (Book.restrict_eq_restrict_iff htallies)

/-- The swap, when the book is that of the log as it was at the snapshot. -/
theorem repaired_of_replaceTotals (hnumbered : w₀.store.Numbered)
    (hlater : w₀.store.Later w.store) (h : Folded w₀ scope w₀.store.head book folded)
    {count : ℕ} {store : Store}
    (hswap : w.store.replaceTotals scope (book.restrict scope) w₀.store.head = .ok (count, store)) :
    Store.Repaired scope w.store store := by
  obtain ⟨rebuilt, hadd, -, rfl⟩ := Store.replaceTotals_eq_ok.mp hswap
  have htallies := (h.tallies hnumbered.head_eq.le hlater).restrict.replay hadd
  refine ⟨htallies.replaceScope _, Book.agreeOutside_replaceScope _ _ _, rfl, fun hscope => ?_⟩
  have hbook : book.restrict scope = book := Book.restrict_eq_self hscope
    (Book.tallies_of_addAll_empty h.1) fun e he => (List.mem_filter.mp he).2
  refine ⟨rebuilt, ?_⟩
  have hsplit : w.store.facts.filter scope.includes = w₀.store.factsUpTo scope w₀.store.head ++
      (w.store.facts.drop w₀.store.head).filter scope.includes := by
    rw [Store.factsUpTo, ← hlater.take_facts hnumbered.head_eq.le, ← List.filter_append,
      List.take_append_drop]
  rw [hbook] at hadd
  change (∅ : Book).addAll (w.store.facts.filter scope.includes) = .ok rebuilt
  rw [hsplit, Book.addAll_append, h.1]
  exact hadd

theorem ends_scan (after limit : ℕ) : (scan scope after limit).Ends
    (fun batch w' => batch = w.store.events scope after limit ∧ w'.store = w.store) w := by
  unfold scan
  refine (ends_read _).bind fun delay w₁ h₁ => ?_
  refine (ends_sleep delay).bind fun _ w₂ h₂ => (ends_read _).weaken ?_
  rintro _ w₃ ⟨rfl, h₃⟩
  have hstore : w₂.store = w.store := h₂.trans h₁.2.store_eq
  exact ⟨by rw [hstore], h₃.store_eq.trans hstore⟩

/-- A rebuild learns at once whether it was called off. -/
theorem IsCancellation.ends {cancelled : Procedure Bool} (h : IsCancellation cancelled)
    (w : World) : cancelled.Ends (fun stop w' =>
      w'.store = w.store ∧ (stop = true → cancelled ≠ pure false)) w := by
  rcases h with rfl | ⟨task, rfl⟩
  · exact fun w' hw' => ⟨hw'.store_eq, fun h => by cases h⟩
  · refine ends_perform (fun _ _ => rfl) fun w' w'' hw' hw'' => ⟨?_, fun _ h => by cases h⟩
    exact hw''.store_eq.trans hw'.store_eq

/-- The fold of a log waits for nobody and leaves the store as it is. -/
theorem ends_foldLog {cancelled : Procedure Bool} (hcancelled : IsCancellation cancelled)
    (scope : Scope) (size watermark batches after : ℕ) (book : Book) (folded : ℕ) {w : World}
    (hw : w.store = w₀.store) :
    (foldLog cancelled scope size watermark batches after book folded).Ends
      (fun _ w' => w'.store = w₀.store) w := by
  have hpure : ∀ (answer : Except Error (Book × ℕ)) {w : World}, w.store = w₀.store →
      (pure answer : Procedure _).Ends (fun _ w' => w'.store = w₀.store) w :=
    fun _ _ hw _ hw' => hw'.store_eq.trans hw
  induction batches generalizing after book folded w with
  | zero => exact hpure _ hw
  | succ batches ih =>
    unfold foldLog
    refine (hcancelled.ends w).bind fun stop w₁ h₁ => ?_
    split
    · exact hpure _ (h₁.1.trans hw)
    refine (ends_scan after size).bind fun batch w₂ h₂ => ?_
    have hread : w₂.store = w₀.store := h₂.2.trans (h₁.1.trans hw)
    dsimp only
    split
    · exact hpure _ hread
    split
    · exact hpure _ hread
    split
    · exact ends_pause.bind fun _ w₃ h₃ => ih _ _ _ (h₃.trans hread)
    · exact hpure _ hread

/-- Left to itself, the fold of a log up to its end leaves the store as it is and gives the answer
for the log, unless it was called off. -/
theorem ends_bookOfLog_answer {cancelled : Procedure Bool} (hcancelled : IsCancellation cancelled)
    (hsize : config.batchSize ≠ 0) (hnumbered : w₀.store.Numbered) (hw : w₀.Passes w)
    (scope : Scope) :
    (bookOfLog config cancelled scope w₀.store.head).Ends (fun answer w' =>
      w'.store = w₀.store ∧ FoldAnswer cancelled w₀ scope w₀.store.head answer) w := by
  have hlooks := looks_bookOfLog_answer World.rely_passes hcancelled hsize hw hnumbered scope
  have hkeeps := hlooks.keeps.since World.rely_passes
    (fun w _ _ h => h ▸ World.rely_passes.refl w) hw
  refine ((ends_foldLog hcancelled scope _ _ _ _ _ _ hw.store_eq).of_keeps hkeeps).weaken ?_
  rintro answer w' ⟨hanswer, hpassed⟩
  exact ⟨hpassed.store_eq, hanswer⟩

/-- Where nobody can call it off, that is the book of the log, or the error of the first event that
cannot be added. -/
theorem ends_bookOfLog (hsize : config.batchSize ≠ 0) (hnumbered : w₀.store.Numbered)
    (hw : w₀.Passes w) (scope : Scope) :
    (bookOfLog config (pure false) scope w₀.store.head).Ends (fun answer w' =>
      w'.store = w₀.store ∧
      answer = ((∅ : Book).addAll (w₀.store.facts.filter scope.includes)).map
        fun book => (book, (w₀.store.facts.filter scope.includes).length)) w := by
  refine (ends_bookOfLog_answer (.inl rfl) hsize hnumbered hw scope).weaken ?_
  rintro answer w' ⟨hstore, hanswer⟩
  refine ⟨hstore, ?_⟩
  rcases hanswer with ⟨hcalled, -⟩ | hanswer
  · exact (hcalled rfl).elim
  · rwa [Store.factsUpTo, hnumbered.take_facts] at hanswer

/-- Left to itself, a verification finds no drift in totals that are those of the log, unless the
events of the scope cannot be added up. -/
theorem ends_verify (hsize : config.batchSize ≠ 0) (hnumbered : w.store.Numbered)
    (htallies : w.store.book.Tallies scope w.store.facts) :
    (verify config scope).Ends (fun answer w' => w'.store = w.store ∧
      answer = ((∅ : Book).addAll (w.store.facts.filter scope.includes)).map
        fun _ => ⟨scope, w.store.log.length, [], false⟩) w := by
  rw [verify_eq]
  refine (ends_read _).bind ?_
  rintro _ w₁ ⟨rfl, h₁⟩
  refine (ends_bookOfLog hsize hnumbered h₁ scope).bind ?_
  rintro answer w₂ ⟨hstore, rfl⟩
  cases hadd : (∅ : Book).addAll (w.store.facts.filter scope.includes) with
  | error error => exact fun w' hw' => ⟨hw'.store_eq.trans hstore, rfl⟩
  | ok book =>
    have hlines : (w.store.snapshot scope).book.driftLines (book.restrict scope) = [] :=
      Book.driftLines_eq_nil_iff.mpr ((Book.restrict_eq_restrict_iff
        (Book.tallies_filter_iff.mp (Book.tallies_of_addAll_empty hadd))).mpr htallies)
    simp only [Except.map, repair, hlines]
    exact fun w' hw' => ⟨hw'.store_eq.trans hstore, by rw [← hnumbered.head_eq]; rfl⟩

/-- What a second verification, with nothing in between, makes of a repaired store: it is clean, or
the events of a link cannot be added up, because they add to totals of promoters as well. -/
def VerifiesAgain (config : Config) (scope : Scope) (w : World) : Prop :=
  (verify config scope).Ends (fun answer w' => w'.store = w.store ∧
    ((∃ report, answer = .ok report ∧ report.isClean = true) ∨
      ∃ link error, scope = .link link ∧ answer = .error error ∧
        (∅ : Book).addAll (w.store.facts.filter scope.includes) = .error error)) w

theorem verifiesAgain {s : Store} (hsize : config.batchSize ≠ 0)
    (hnumbered : w.store.Numbered) (h : s.Repaired scope w.store) :
    VerifiesAgain config scope w := by
  refine (ends_verify hsize hnumbered h.tallies).weaken ?_
  rintro answer w' ⟨hstore, rfl⟩
  refine ⟨hstore, ?_⟩
  cases hadd : (∅ : Book).addAll (w.store.facts.filter scope.includes) with
  | ok book => exact .inl ⟨_, rfl, rfl⟩
  | error error =>
    refine .inr ?_
    by_contra hnot
    have hscope : ∀ link, scope ≠ .link link := fun link hlink =>
      hnot ⟨link, error, hlink, rfl, rfl⟩
    obtain ⟨book, hbook⟩ := h.addable hscope
    rw [hbook] at hadd
    cases hadd

/-! ## Among others -/

/-- An action of a verification: the store stays as it is and no drift is reported, or the totals
are swapped and the verification ends. -/
def Verifies (config : Config) (scope : Scope) (w w' : World)
    (q : Procedure (Except Error DriftReport)) : Prop :=
  (w'.store = w.store ∧ ∀ report, q = done (.ok report) → report.isClean = true) ∨
  ∃ report, q = done (.ok report) ∧ report.isClean = false ∧
    Store.Repaired scope w.store w'.store ∧ VerifiesAgain config scope w'

/-- Nothing is reported without an action but that there is no drift. -/
theorem isClean_of_repair_eq_done {snapshot : BookSnapshot} {answer : Except Error (Book × ℕ)}
    {report : DriftReport} (h : repair scope snapshot answer = done (.ok report)) :
    report.isClean = true := by
  cases answer with
  | error error => cases h
  | ok a =>
    obtain ⟨book, folded⟩ := a
    simp only [repair] at h
    split at h
    · rename_i hempty
      cases h
      exact hempty
    · cases h

theorem repair_keeps (hsize : config.batchSize ≠ 0) (hnumbered : w₀.store.Numbered)
    (hw : Others w₀ w) {answer : Except Error (Book × ℕ)}
    (hanswer : ∀ a, answer = .ok a → Folded w₀ scope w₀.store.head a.1 a.2) :
    (repair scope (w₀.store.snapshot scope) answer).Keeps Others (Verifies config scope)
      (fun answer _ => ∀ report, answer = .ok report → Compares scope w₀.store report) w := by
  cases answer with
  | error error => exact fun _ _ _ h => by cases h
  | ok a =>
    obtain ⟨book, folded⟩ := a
    have hfolded := hanswer _ rfl
    have hlines := driftLines_snapshot_eq_nil_iff hnumbered hfolded
    simp only [repair]
    by_cases hempty :
        ((w₀.store.snapshot scope).book.driftLines (book.restrict scope)).isEmpty = true
    · rw [if_pos hempty]
      rintro w' - report ⟨⟩
      refine ⟨rfl, hnumbered.head_eq, by simp [DriftReport.isClean, hempty], ?_⟩
      exact List.isEmpty_iff.trans hlines
    · rw [if_neg hempty]
      intro w₁ h₁ _
      have hlater := rely_others.later _ _ (rely_others.trans _ _ _ hw h₁)
      simp only [World.perform]
      cases hswap : w₁.store.replaceTotals scope (book.restrict scope) w₀.store.head with
      | error error =>
        simp only [Store.snapshot, hswap]
        exact ⟨.inl ⟨rfl, fun _ h => by cases h⟩, fun _ _ _ h => by cases h⟩
      | ok a =>
        obtain ⟨count, store⟩ := a
        have hrepaired := repaired_of_replaceTotals hnumbered hlater hfolded hswap
        have hnow := (hlater.trans (Store.Later.replaceTotals hswap)).numbered hnumbered
        simp only [Store.snapshot, hswap]
        refine ⟨.inr ⟨_, rfl, by simpa [DriftReport.isClean, Store.snapshot] using hempty,
          hrepaired, verifiesAgain hsize hnow hrepaired⟩, ?_⟩
        rintro w₂ - report ⟨⟩
        refine ⟨rfl, hnumbered.head_eq, ?_, List.isEmpty_iff.trans hlines⟩
        simpa [DriftReport.isClean, Store.snapshot] using hempty

theorem repair_within (scope : Scope) (snapshot : BookSnapshot)
    (answer : Except Error (Book × ℕ)) (w : World) :
    (repair scope snapshot answer).Within Others 1 w := by
  cases answer with
  | error error => trivial
  | ok a =>
    simp only [repair]
    split
    · trivial
    · refine ⟨Nat.one_pos, fun w' _ _ => ?_⟩
      cases (w'.perform (.replaceTotals scope (a.1.restrict scope) snapshot.watermark)).1 <;>
        trivial

/-- A verification that takes its snapshot when the log has some events of the scope ends after so
many more actions, seven for each full batch and six more, whatever others do between them. If it
makes a report, this is clean exactly if at the instant of the snapshot the stored totals of the
scope were those of the log. Each of the actions leaves the store as it was, but for one that swaps
in the exact totals of the scope in the whole log at that instant and ends the verification with a
report of drift. A second verification, with nothing in between, then finds none; only if the
events of a link cannot be added up it ends with that error. -/
theorem verify_among_others (hsize : config.batchSize ≠ 0) (hnumbered : w.store.Numbered)
    {w₁ w' : World} {q p : Procedure (Except Error DriftReport)} {n : ℕ}
    (hstart : (verify config scope).Step w q w₁) (hrun : q.Amid Others w₁ n p w') :
    w₁ = w ∧
    n ≤ 7 * ((w.store.facts.filter scope.includes).length / config.batchSize.toNat) + 6 ∧
    (∀ report, p = done (.ok report) → Compares scope w.store report) ∧
    ∀ p' w'', p.Step w' p' w'' → Verifies config scope w' w'' p' := by
  rw [verify_eq] at hstart
  cases hstart with
  | act hready =>
    have hfold := looks_bookOfLog rely_others (.inl rfl) hsize (rely_others.refl w) hnumbered scope
    have hsince := hfold.keeps.since rely_others (fun w _ _ h => h ▸ rely_others.refl w)
      (rely_others.refl w)
    have hwithin := Within.bind (n := 1) rely_others hfold.within hsince fun answer w' _ =>
      repair_within scope (w.store.snapshot scope) answer w'
    have hkeeps : (bookOfLog config (pure false) scope w.store.head >>= fun answer =>
        repair scope (w.store.snapshot scope) answer).Keeps Others (Verifies config scope)
        (fun answer _ => ∀ report, answer = .ok report → Compares scope w.store report) w := by
      refine Keeps.bind rely_others hsince ?_ fun answer w' h =>
        repair_keeps hsize hnumbered h.2 h.1
      intro w₁ w₂ q hsame
      refine .inl ⟨by rw [hsame], fun report hdone => ?_⟩
      obtain ⟨answer, -, hrepair⟩ := andThen_eq_done hdone
      exact isClean_of_repair_eq_done hrepair
    have hnow := Keeps.amid rely_others hkeeps hrun
    refine ⟨rfl, ?_, ?_, fun p' w'' hstep => (Keeps.step rely_others hnow hstep).1⟩
    · have hle := (Within.amid rely_others hwithin hrun).1
      omega
    · rintro report rfl
      exact hnow w' (rely_others.refl w') report rfl

/-- A signup that the stored totals lack is found by a verification, and while it reads the log
another is recorded: the totals that are swapped in have both, and once more there is no drift. -/
theorem verify_amid_commit : ∃ (w w' w'' : World) (q p : Procedure (Except Error DriftReport))
    (report : DriftReport), (verify .default .all).Step w q w ∧ q.Amid Others w 4 p w' ∧
    p.Step w' (done (.ok report)) w'' ∧ w''.store.facts.length = 2 ∧
    Store.Repaired .all w'.store w''.store ∧ VerifiesAgain .default .all w'' := by
  let now : Instant := ⟨0, 0, by decide, by decide, by decide⟩
  let e : Event := .signup ⟨1⟩ ⟨2⟩ ⟨3⟩ ⟨4⟩ ⟨5⟩ ⟨6⟩ now
  let recording (e : Event) : WorkUnit :=
    { WorkUnit.start (Store.empty.context e.promoterKey) with events := [e] }
  let w : World := { World.start now ⟨100⟩ with store := (Store.empty.commit (recording e) now).2 }
  let w' : World := { w with store := (w.store.commit (recording { e with id := ⟨7⟩ }) now).2 }
  have hnumbered : w.store.Numbered :=
    (Store.Later.commit Store.empty _ _).numbered fun _ _ h => by simp [Store.empty] at h
  let q : Procedure (Except Error DriftReport) := do
    let answer ← bookOfLog .default (pure false) .all 1
    repair .all (w.store.snapshot .all) answer
  have hstart : (verify .default .all).Step w q w := .act rfl
  have hcommit : Others w w' := .single (.commit _ _)
  have hread : q.Amid Others w 1 _ w' := .own (.others .start hcommit) (.act rfl)
  have hawait := Amid.own hread (.act rfl)
  have hscan := Amid.own hawait (.act rfl)
  have hrun := Amid.own hscan (.act rfl)
  rcases (verify_among_others (by decide) hnumbered hstart hrun).2.2.2 _ _ (.act rfl)
    with ⟨hsame, -⟩ | ⟨report, hreport, -, hrepaired, hagain⟩
  · exact absurd (congrArg Store.book hsame) (by decide +kernel)
  · exact ⟨w, w', _, q, _, report, hstart, hrun, hreport ▸ .act rfl, by decide +kernel, hrepaired,
      hagain⟩

/-- Others do nothing to the store but commit units of work that count their events. -/
def CountingCommits (w w' : World) : Prop :=
  Relation.ReflTransGen (fun s s' : Store => ∃ u now, Book.ofEvents u.events = .ok u.delta ∧
    s' = (s.commit u now).2) w.store w'.store

/-- A purchase of almost all the revenue that can be counted is missing in the stored totals of a
link. A verification of the link repairs them, but while it reads the log another purchase is
recorded. The link has both, but the revenue of its promoter cannot be added up any more, so a
second verification ends with an error. -/
theorem second_verification_may_fail : ¬ ∀ (config : Config) (scope : Scope) (w w' w'' w₃ : World)
    (q p : Procedure (Except Error DriftReport)) (n m : ℕ) (report : DriftReport)
    (answer : Except Error DriftReport), config.batchSize ≠ 0 → w.store.Numbered →
    (verify config scope).Step w q w → q.Amid CountingCommits w n p w' →
    p.Steps w' (done (.ok report)) w'' → report.isClean = false →
    (verify config scope).Amid World.Passes w'' m (done answer) w₃ →
    ∃ again, answer = .ok again ∧ again.isClean = true := by
  intro hagain
  let now : Instant := ⟨0, 0, by decide, by decide, by decide⟩
  let e : Event := .purchase ⟨1⟩ ⟨2⟩ ⟨3⟩ ⟨4⟩ ⟨5⟩ ⟨6⟩
    (some ⟨9223372036854775807, by decide, by decide⟩) now
  let e' : Event := { e with id := ⟨7⟩, revenue := some ⟨10000, by decide, by decide⟩ }
  let scope : Scope := .link ⟨6⟩
  let u : WorkUnit := { WorkUnit.start (Store.empty.context e.promoterKey) with events := [e] }
  let u' : WorkUnit :=
    { u with events := [e'], delta := (Book.ofEvents [e']).toOption.getD ∅ }
  let w : World := { World.start now ⟨100⟩ with store := (Store.empty.commit u now).2 }
  let w' : World := { w with store := (w.store.commit u' now).2 }
  have hnumbered : w.store.Numbered :=
    (Store.Later.commit Store.empty _ _).numbered fun _ _ h => by simp [Store.empty] at h
  let q : Procedure (Except Error DriftReport) := do
    let answer ← bookOfLog .default (pure false) scope (w.store.snapshot scope).watermark
    repair scope (w.store.snapshot scope) answer
  have hstart : (verify .default scope).Step w q w := .act rfl
  have hcommit : CountingCommits w w' := .single ⟨u', now, by decide +kernel, rfl⟩
  -- the first verification goes on after the commit, and the second follows it at once
  let first := q.goOn w'
  let second := (verify .default scope).goOn first.2
  have hfirst : (first.1.answer?.bind Except.toOption).map (·.isClean) = some false := by
    decide +kernel
  obtain ⟨report, hreport, hdirty⟩ := Option.map_eq_some_iff.mp hfirst
  obtain ⟨ok, hok, htoOption⟩ := Option.bind_eq_some_iff.mp hreport
  have hsecond : second.1.answer?.map Except.isOk = some false := by decide +kernel
  obtain ⟨answer, hanswer, herror⟩ := Option.map_eq_some_iff.mp hsecond
  obtain ⟨m, hm⟩ := amid_of_answer? hanswer
  have hsteps := steps_goOn q w'
  have hreported : first.1 = done (.ok report) := by
    rw [eq_done_of_answer? hok]
    cases ok with
    | error error => cases htoOption
    | ok report' =>
      cases htoOption
      rfl
  rw [show (q.goOn w').1 = done (.ok report) from hreported] at hsteps
  obtain ⟨again, rfl, -⟩ := hagain .default scope w w' first.2 second.2 q q 0 m report answer
    (by decide) hnumbered hstart (.others .start hcommit) hsteps hdirty hm
  cases herror

end Procedure

end Referral
