import Referral.Proofs.Batches

/-!
# Rebuilds among other operations

A rebuild reads the log in batches and swaps its totals in at the end, while others go on to change
the store in whatever way they can. It comes to its end after a number of actions that the log at
its beginning says, and the only one that changes the store is the swap, with which it ends. At that
instant the totals of the scope are those of the whole log, and no others have changed.
-/

namespace Referral

namespace Store

/-- The swap at the end of a rebuild that began when the log ended at a watermark. -/
structure Rebuilt (scope : Scope) (watermark : ℕ) (report : RebuildReport) (s s' : Store) :
    Prop where
  scope_eq : report.scope = scope
  watermark_eq : report.watermark = watermark
  /-- The events of the scope up to the watermark. -/
  folded : report.folded =
    s'.log.countP fun e => e.sequence ≤ watermark && scope.includes e.event
  /-- Those that were logged later. -/
  replayed : report.replayed =
    s'.log.countP fun e => watermark < e.sequence && scope.includes e.event
  tallies : s'.book.Tallies scope s'.facts
  outside : s.book.AgreeOutside scope s'.book
  rest : s' = { s with book := s'.book }

end Store

/-- Others may change the store any number of times, and the rest of the world at will. -/
def World.Others (w w' : World) : Prop := Relation.ReflTransGen Store.Change w.store w'.store

theorem World.rely_others : Procedure.Rely Others where
  refl _ := .refl
  trans _ _ _ h h' := Relation.ReflTransGen.trans h h'
  later w w' h := by
    have hlater : ∀ s, Relation.ReflTransGen Store.Change w.store s → w.store.Later s := by
      intro s hs
      induction hs with
      | refl => exact .refl _
      | tail _ hchange ih => exact ih.trans hchange.later
    exact hlater _ h

namespace Procedure

open World (Others rely_others)

theorem andThen_eq_done {α β : Type} {p : Procedure β} {f : β → Procedure α} {a : α}
    (h : p.andThen f = done a) : ∃ b, p = done b ∧ f b = done a := by
  cases p with
  | done b => exact ⟨b, rfl, h⟩
  | act action next => cases h
  | both first second next => cases h

/-- An action of a rebuild: the store stays as it is and no result is reported, or the totals are
swapped and the rebuild ends. -/
def Rebuilds (scope : Scope) (watermark : ℕ) (w w' : World) (q : Procedure RebuildResult) : Prop :=
  (w'.store = w.store ∧ ∀ report, q ≠ done (.ok report)) ∨
  ∃ report, q = done (.ok report) ∧ Store.Rebuilt scope watermark report w.store w'.store

/-- What a rebuild does with the book of the log. -/
def swapIn (cancelled : Procedure Bool) (scope : Scope) (watermark : ℕ) :
    Except Error (Book × ℕ) → Procedure RebuildResult
  | .error e => return .error e
  | .ok (book, folded) => do
    if ← cancelled then return .error (rebuildCancelled scope)
    let replayed ← perform (.replaceTotals scope book watermark)
    return replayed.map fun replayed => ⟨scope, folded, replayed, watermark⟩

theorem rebuild_eq (config : Config) (cancelled : Procedure Bool) (scope : Scope) :
    rebuild config cancelled scope = (do
      let watermark ← read Store.head
      let answer ← bookOfLog config cancelled scope watermark
      swapIn cancelled scope watermark answer) := rfl

variable {config : Config} {cancelled : Procedure Bool} {scope : Scope} {w : World}

/-- The swap, when the book is that of the log as it was at the watermark. -/
theorem rebuilds_replaceTotals {w₀ : World} {book : Book} {folded : ℕ}
    (hnumbered : w₀.store.Numbered) (hlater : w₀.store.Later w.store)
    (h : Folded w₀ scope w₀.store.head book folded) :
    Rebuilds scope w₀.store.head w (w.perform (.replaceTotals scope book w₀.store.head)).2
      (done ((w.perform (.replaceTotals scope book w₀.store.head)).1.map
        fun replayed => ⟨scope, folded, replayed, w₀.store.head⟩)) := by
  have hend := hnumbered.head_eq.le
  have hnow := hlater.numbered hnumbered
  have hfolded : folded = (w.store.factsUpTo scope w₀.store.head).length := by
    rw [h.2, Store.factsUpTo, Store.factsUpTo, hlater.take_facts hend]
  simp only [World.perform]
  cases hswap : w.store.replaceTotals scope book w₀.store.head with
  | error error => exact .inl ⟨rfl, fun _ h => by cases h⟩
  | ok a =>
    obtain ⟨count, store⟩ := a
    obtain ⟨rebuilt, hadd, hcount, rfl⟩ := Store.replaceTotals_eq_ok.mp hswap
    refine .inr ⟨_, rfl, ?_⟩
    exact {
      scope_eq := rfl
      watermark_eq := rfl
      folded := hfolded.trans (hnow.countP_le scope _).symm
      replayed := hcount.trans (hnow.countP_gt scope _).symm
      tallies := ((h.tallies hend hlater).replay hadd).replaceScope _
      outside := Book.agreeOutside_replaceScope _ _ _
      rest := rfl }

/-- Nothing is reported without an action. -/
theorem swapIn_ne_done (hcancelled : IsCancellation cancelled) (watermark : ℕ)
    (answer : Except Error (Book × ℕ)) (report : RebuildReport) :
    swapIn cancelled scope watermark answer ≠ done (.ok report) := by
  intro h
  cases answer with
  | error error => cases h
  | ok a => rcases hcancelled with rfl | ⟨task, rfl⟩ <;> cases h

theorem swapIn_keeps (hcancelled : IsCancellation cancelled) {w₀ : World}
    (hnumbered : w₀.store.Numbered) (hw : Others w₀ w) {answer : Except Error (Book × ℕ)}
    (hanswer : ∀ a, answer = .ok a → Folded w₀ scope w₀.store.head a.1 a.2) :
    (swapIn cancelled scope w₀.store.head answer).Keeps Others (Rebuilds scope w₀.store.head)
      (fun _ _ => True) w := by
  cases answer with
  | error error => exact fun _ _ => trivial
  | ok a =>
    have hask := (hcancelled.looks w).keeps.since rely_others
      (fun w _ _ h => h ▸ rely_others.refl w) hw
    refine Keeps.bind rely_others hask ?_ ?_
    · intro w₁ w₂ q hsame
      refine .inl ⟨by rw [hsame], fun report hdone => ?_⟩
      obtain ⟨stop, -, hstop⟩ := andThen_eq_done hdone
      by_cases h : stop = true
      · rw [if_pos h] at hstop
        cases hstop
      · rw [if_neg h] at hstop
        cases hstop
    · rintro stop w₁ ⟨-, hw₁⟩
      split
      · exact fun _ _ => trivial
      · intro w₂ h₂ _
        have hlater := rely_others.later _ _ (rely_others.trans _ _ _ hw₁ h₂)
        exact ⟨rebuilds_replaceTotals hnumbered hlater (hanswer _ rfl), fun _ _ => trivial⟩

theorem swapIn_within (hcancelled : IsCancellation cancelled) (scope : Scope) (watermark : ℕ)
    (answer : Except Error (Book × ℕ)) (w : World) :
    (swapIn cancelled scope watermark answer).Within Others 2 w := by
  cases answer with
  | error error => trivial
  | ok a =>
    obtain ⟨hkeeps, hwithin⟩ := hcancelled.looks (R := Others) w
    refine Within.bind (m := 1) (n := 1) rely_others hwithin hkeeps fun stop w₁ _ => ?_
    split
    · trivial
    · exact ⟨Nat.one_pos, fun _ _ _ => trivial⟩

/-- A rebuild that begins when the log has some events of the scope ends after so many actions,
seven for each full batch and seven more, whatever others do between them. Each of these actions
leaves the store as it was and reports nothing, but for one that swaps in the exact totals of the
scope in the whole log at that instant and ends the rebuild with its report. -/
theorem rebuild_among_others (hcancelled : IsCancellation cancelled) (hsize : config.batchSize ≠ 0)
    (hnumbered : w.store.Numbered) {w₁ w' : World} {q p : Procedure RebuildResult} {n : ℕ}
    (hstart : (rebuild config cancelled scope).Step w q w₁) (hrun : q.Amid Others w₁ n p w') :
    w₁ = w ∧
    n ≤ 7 * ((w.store.facts.filter scope.includes).length / config.batchSize.toNat + 1) ∧
    ∀ p' w'', p.Step w' p' w'' → Rebuilds scope w.store.log.length w' w'' p' := by
  rw [rebuild_eq] at hstart
  cases hstart with
  | act hready =>
    have hfold := looks_bookOfLog rely_others hcancelled hsize (rely_others.refl w) hnumbered scope
    have hsince := hfold.keeps.since rely_others (fun w _ _ h => h ▸ rely_others.refl w)
      (rely_others.refl w)
    have hwithin := Within.bind (n := 2) rely_others hfold.within hsince fun answer w' _ =>
      swapIn_within hcancelled scope w.store.head answer w'
    have hkeeps : (bookOfLog config cancelled scope w.store.head >>= fun answer =>
        swapIn cancelled scope w.store.head answer).Keeps Others (Rebuilds scope w.store.head)
        (fun _ _ => True) w := by
      refine Keeps.bind rely_others hsince ?_ fun answer w' h =>
        swapIn_keeps hcancelled hnumbered h.2 h.1
      intro w₁ w₂ q hsame
      refine .inl ⟨by rw [hsame], fun report hdone => ?_⟩
      obtain ⟨answer, -, hswap⟩ := andThen_eq_done hdone
      exact swapIn_ne_done hcancelled _ answer report hswap
    refine ⟨rfl, ?_, fun p' w'' hstep => ?_⟩
    · have hle := (Within.amid rely_others hwithin hrun).1
      omega
    · rw [← hnumbered.head_eq]
      exact (Keeps.step rely_others (Keeps.amid rely_others hkeeps hrun) hstep).1

/-- Another event is recorded while a rebuild reads the log, and is counted with the first. -/
theorem rebuild_amid_commit : ∃ (w w' w'' : World) (q p : Procedure RebuildResult)
    (report : RebuildReport), (rebuildNow .default .all).Step w q w ∧ q.Amid Others w 4 p w' ∧
    p.Step w' (done (.ok report)) w'' ∧ Store.Rebuilt .all 1 report w'.store w''.store ∧
    report.folded = 1 ∧ report.replayed = 1 := by
  let now : Instant := ⟨0, 0, by decide, by decide, by decide⟩
  let e : Event := .signup ⟨1⟩ ⟨2⟩ ⟨3⟩ ⟨4⟩ ⟨5⟩ ⟨6⟩ now
  let recording (e : Event) : WorkUnit :=
    { WorkUnit.start (Store.empty.context e.promoterKey) with events := [e] }
  let w : World := { World.start now ⟨100⟩ with store := (Store.empty.commit (recording e) now).2 }
  let w' : World := { w with store := (w.store.commit (recording { e with id := ⟨7⟩ }) now).2 }
  have hnumbered : w.store.Numbered :=
    (Store.Later.commit Store.empty _ _).numbered fun _ _ h => by simp [Store.empty] at h
  let q : Procedure RebuildResult := do
    let answer ← bookOfLog .default (pure false) .all 1
    swapIn (pure false) .all 1 answer
  have hstart : (rebuildNow .default .all).Step w q w := .act rfl
  have hcommit : Others w w' := .single (.commit _ _)
  have hread : q.Amid Others w 1 _ w' := .own (.others .start hcommit) (.act rfl)
  have hawait := Amid.own hread (.act rfl)
  have hscan := Amid.own hawait (.act rfl)
  have hrun := Amid.own hscan (.act rfl)
  rcases (rebuild_among_others (.inl rfl) (by decide) hnumbered hstart hrun).2.2 _ _ (.act rfl)
    with ⟨hsame, -⟩ | ⟨report, hreport, hrebuilt⟩
  · exact absurd (congrArg Store.book hsame) (by decide +kernel)
  · refine ⟨w, w', _, q, _, report, hstart, hrun, hreport ▸ .act rfl, hrebuilt, ?_, ?_⟩
    · rw [hrebuilt.folded]
      decide +kernel
    · rw [hrebuilt.replayed]
      decide +kernel

end Procedure

end Referral
