import Referral.Proofs.Verification

/-!
# Upkeep of totals that are right

A rebuild or a verification that has the store to itself does not change totals that are those of
the log, as long as it reads the log: its batches must have room for an event. With a batch size of
zero, which a service takes without a check, it reads nothing, and the totals of its scope are
replaced by those of no events at all.
-/

namespace Referral

/-! ## Books that tally the same events -/

/-- Where a map has no key that passes the test, none was contributed to. -/
theorem OrderedMap.Tallies.eq_false_of_nil {κ ν : Type} [Ranked κ] [DecidableEq κ] [Summable ν]
    [Measured ν] {m : OrderedMap κ ν} {p : κ → Bool} {cs : List (κ × ν)} (h : m.Tallies p cs)
    (hnone : m.Tallies p []) : ∀ c ∈ cs, p c.1 = false := by
  intro c hc
  by_contra hp
  rw [Bool.not_eq_false] at hp
  have hkey := (h.contains_iff c.1 hp).mpr (List.mem_map_of_mem hc)
  cases (hnone.contains_iff c.1 hp).mp hkey

namespace Book

variable {b b' rebuilt : Book} {scope : Scope} {es : List Event}

theorem restrict_all (b : Book) : b.restrict .all = b := by
  have h₁ : b.promoters.filter Scope.all.coversPromoter = b.promoters :=
    OrderedMap.filter_eq_self fun _ _ => rfl
  have h₂ : (b.promoterDays.filter fun k => Scope.all.coversPromoter k.1) = b.promoterDays :=
    OrderedMap.filter_eq_self fun _ _ => rfl
  have h₃ : b.links.filter Scope.all.coversLink = b.links :=
    OrderedMap.filter_eq_self fun _ _ => rfl
  have h₄ : (b.linkDays.filter fun k => Scope.all.coversLink k.1) = b.linkDays :=
    OrderedMap.filter_eq_self fun _ _ => rfl
  rw [restrict, h₁, h₂, h₃, h₄]

/-- There is one book of all totals of some events. -/
theorem Tallies.eq_of_all (h : b.Tallies .all es) (h' : b'.Tallies .all es) : b = b' := by
  have hall := (restrict_eq_restrict_iff h').mpr h
  rwa [restrict_all, restrict_all] at hall

theorem Tallies.of_all (h : b.Tallies .all es) (scope : Scope) : b.Tallies scope es :=
  ⟨h.promoters.mono fun _ _ => rfl, h.promoterDays.mono fun _ _ => rfl,
    h.links.mono fun k _ => by cases scope <;> rfl, h.linkDays.mono fun _ _ => by rfl⟩

/-- A scope without totals is one without events. -/
theorem Tallies.not_includes (h : b.Tallies scope es) (hnone : b.Tallies scope []) :
    ∀ e ∈ es, scope.includes e = false := by
  intro e he
  have hpromoter := h.promoters.eq_false_of_nil hnone.promoters _ (List.mem_map_of_mem he)
  have hlink := h.links.eq_false_of_nil hnone.links _ (List.mem_map_of_mem he)
  rw [Scope.includes, hpromoter, hlink]
  rfl

theorem tallies_nil_iff (h : ∀ e ∈ es, scope.includes e = false) :
    b.Tallies scope [] ↔ b.Tallies scope es := by
  have hnone : es.filter scope.includes = [] := List.filter_eq_nil_iff.mpr fun e he => by
    simp [h e he]
  rw [← hnone, tallies_filter_iff]

/-- The totals of a scope are replaced by what they are already exactly if the book that takes their
place was read off all events of the scope. -/
theorem replaceScope_eq_self_iff (hb : b.Tallies .all es) (h : rebuilt.Tallies scope []) :
    b.replaceScope scope rebuilt = b ↔ ∀ e ∈ es, scope.includes e = false := by
  constructor
  · intro hsame
    have hnone := h.replaceScope b
    rw [hsame] at hnone
    exact (hb.of_all scope).not_includes hnone
  · intro hes
    exact (((tallies_nil_iff hes).mp h).replaceScope_all hb).eq_of_all hb

end Book

/-! ## One swap -/

/-- The events of a log that a fold in batches comes to see. -/
def Config.seen (config : Config) (es : List Event) : List Event :=
  if config.batchSize = 0 then [] else es

/-- What upkeep of a scope may do to a store: only totals can change, nothing does if it ends with
an error, and if it ends well the totals are as before exactly if the batches have room for an
event or the log has none of the scope. -/
structure Store.Upkept {ρ : Type} (config : Config) (scope : Scope) (s s' : Store)
    (answer : Except Error ρ) : Prop where
  rest : s' = { s with book := s'.book }
  refused : ∀ error, answer = .error error → s' = s
  done : ∀ report, answer = .ok report →
    (s'.book = s.book ↔ config.batchSize ≠ 0 ∨ ∀ e ∈ s.facts, scope.includes e = false)

namespace Store

variable {config : Config} {scope : Scope} {s : Store} {rebuilt : Book} {ρ : Type}

theorem upkept_error (error : Error) : s.Upkept config scope s (.error error : Except Error ρ) :=
  ⟨rfl, fun _ _ => rfl, fun _ h => by cases h⟩

/-- The swap, with a book of all that was seen. -/
theorem replaceScope_eq_self_iff (htallies : s.book.Tallies .all s.facts)
    (h : rebuilt.Tallies scope (config.seen s.facts)) :
    s.book.replaceScope scope rebuilt = s.book ↔
      config.batchSize ≠ 0 ∨ ∀ e ∈ s.facts, scope.includes e = false := by
  unfold Config.seen at h
  split at h
  · rename_i hzero
    simp only [Book.replaceScope_eq_self_iff htallies h, hzero, ne_eq, not_true, false_or]
  · rename_i hsize
    simp only [ne_eq, hsize, not_false_iff, true_or, iff_true]
    exact (h.replaceScope_all htallies).eq_of_all htallies

/-- At the end of the log there is nothing left to be added to a book that takes the place of
totals. -/
theorem Numbered.replaceTotals_head (h : s.Numbered) (scope : Scope) (rebuilt : Book) :
    s.replaceTotals scope rebuilt s.head =
      .ok (0, { s with book := s.book.replaceScope scope rebuilt }) := by
  have hnone : s.facts.drop s.head = [] := by
    rw [List.drop_eq_nil_iff, h.head_eq, facts, List.length_map]
  exact replaceTotals_eq_ok.mpr ⟨rebuilt, by rw [hnone]; rfl, by rw [hnone]; rfl, rfl⟩

end Store

/-! ## Whole runs -/

namespace Procedure

variable {config : Config} {scope : Scope} {cancelled : Procedure Bool} {w w₀ : World}

/-- A fold whose batches have no room for events ends with the book that it began with, unless it
was called off. -/
theorem ends_foldLog_zero (hcancelled : IsCancellation cancelled) (scope : Scope)
    (watermark batches after : ℕ) (book : Book) (folded : ℕ) (w : World) :
    (foldLog cancelled scope 0 watermark (batches + 1) after book folded).Ends (fun answer w' =>
      w'.store = w.store ∧ ((cancelled ≠ pure false ∧ answer = .error (rebuildCancelled scope)) ∨
        answer = .ok (book, folded))) w := by
  unfold foldLog
  refine (hcancelled.ends w).bind ?_
  rintro stop w₁ ⟨hasked, hcalled⟩
  by_cases hstop : stop = true
  · rw [if_pos hstop]
    exact fun w₂ h₂ => ⟨h₂.store_eq.trans hasked, .inl ⟨hcalled hstop, rfl⟩⟩
  rw [if_neg hstop]
  refine (ends_scan after 0).bind ?_
  rintro _ w₂ ⟨rfl, h₂⟩
  rw [Store.events, List.take_zero]
  exact fun w₃ h₃ => ⟨(h₃.store_eq.trans h₂).trans hasked, .inr rfl⟩

/-- Left to itself, the fold of a log up to its end gives a book of the events that it comes to
see. -/
theorem ends_bookOfLog_seen (hcancelled : IsCancellation cancelled)
    (hnumbered : w₀.store.Numbered) (hw : w₀.Passes w) :
    (bookOfLog config cancelled scope w₀.store.head).Ends (fun answer w' =>
      w'.store = w₀.store ∧
      (∀ a, answer = .ok a → a.1.Tallies scope (config.seen w₀.store.facts)) ∧
      (config.batchSize = 0 → cancelled = pure false → answer.isOk = true)) w := by
  by_cases hsize : config.batchSize = 0
  · have hseen : config.seen w₀.store.facts = [] := if_pos hsize
    rw [bookOfLog, hsize, hseen]
    refine (ends_foldLog_zero hcancelled scope _ _ 0 ∅ 0 w).weaken ?_
    rintro answer w' ⟨hstore, hanswer⟩
    refine ⟨hstore.trans hw.store_eq, ?_, fun _ huncalled => ?_⟩
    · rintro a rfl
      rcases hanswer with ⟨-, h⟩ | h
      · cases h
      · cases h
        exact Book.tallies_empty scope
    · rcases hanswer with ⟨hcalled, -⟩ | rfl
      · exact (hcalled huncalled).elim
      · rfl
  · have hseen : config.seen w₀.store.facts = w₀.store.facts := if_neg hsize
    rw [hseen]
    refine (ends_bookOfLog_answer hcancelled hsize hnumbered hw scope).weaken ?_
    rintro answer w' ⟨hstore, hanswer⟩
    refine ⟨hstore, ?_, fun h => absurd h hsize⟩
    rintro a rfl
    have hfolded := hanswer.of_ok.tallies hnumbered.head_eq.le (.refl _)
    rwa [hnumbered.take_facts] at hfolded

/-- What a whole run does: it keeps the store as upkeep may, and where the batches have no room and
nobody calls it off it ends well. -/
def Upkeeps {ρ : Type} (config : Config) (scope : Scope) (uncancelled : Prop) (s : Store)
    (p : Procedure (Except Error ρ)) (w : World) : Prop :=
  p.Ends (fun answer w' => s.Upkept config scope w'.store answer ∧
    (config.batchSize = 0 → uncancelled → answer.isOk = true)) w

/-- The swap of totals with which upkeep may end. -/
theorem upkeeps_replaceTotals {ρ : Type} {rebuilt : Book} {uncancelled : Prop}
    {next : Except Error ℕ → Procedure (Except Error ρ)} {report : ρ}
    (hnumbered : w₀.store.Numbered) (htallies : w₀.store.book.Tallies .all w₀.store.facts)
    (h : rebuilt.Tallies scope (config.seen w₀.store.facts)) (hw : w.store = w₀.store)
    (hnext : next (.ok 0) = pure (.ok report)) :
    Upkeeps config scope uncancelled w₀.store
      (perform (.replaceTotals scope rebuilt w₀.store.head) >>= next) w := by
  intro w₁ h₁
  refine ⟨⟨w₁, .refl w₁, rfl⟩, fun _ => ?_⟩
  have hstore : w₁.store = w₀.store := h₁.store_eq.trans hw
  simp only [World.perform, hstore, hnumbered.replaceTotals_head]
  change (next (.ok 0)).Ends _ _
  rw [hnext]
  intro w₂ h₂
  rw [h₂.store_eq]
  exact ⟨⟨rfl, fun _ h => (by cases h), fun _ _ => Store.replaceScope_eq_self_iff htallies h⟩,
    fun _ _ => rfl⟩

theorem upkeeps_swapIn (hcancelled : IsCancellation cancelled) (hnumbered : w₀.store.Numbered)
    (htallies : w₀.store.book.Tallies .all w₀.store.facts) {answer : Except Error (Book × ℕ)}
    (hanswer : ∀ a, answer = .ok a → a.1.Tallies scope (config.seen w₀.store.facts))
    (hok : config.batchSize = 0 → cancelled = pure false → answer.isOk = true)
    (hw : w.store = w₀.store) :
    Upkeeps config scope (cancelled = pure false) w₀.store
      (swapIn cancelled scope w₀.store.head answer) w := by
  have herror : ∀ (error : Error) (w : World), w.store = w₀.store →
      (config.batchSize = 0 → cancelled ≠ pure false) →
      Upkeeps config scope (cancelled = pure false) w₀.store
        (pure (.error error) : Procedure RebuildResult) w := by
    intro error w hw hcalled w' hw'
    rw [hw'.store_eq, hw]
    exact ⟨Store.upkept_error error, fun hzero h => absurd h (hcalled hzero)⟩
  cases answer with
  | error error =>
    exact herror error w hw fun hzero h => by cases hok hzero h
  | ok a =>
    refine (hcancelled.ends w).bind ?_
    rintro stop w₁ ⟨hasked, hcalled⟩
    by_cases hstop : stop = true
    · rw [if_pos hstop]
      exact herror _ w₁ (hasked.trans hw) fun _ => hcalled hstop
    · rw [if_neg hstop]
      exact upkeeps_replaceTotals hnumbered htallies (hanswer a rfl) (hasked.trans hw) rfl

/-- Where the stored totals of a scope are those of all that was seen, either everything was seen or
there is nothing to be seen. -/
theorem seen_of_restrict_eq {book : Book} (htallies : w₀.store.book.Tallies .all w₀.store.facts)
    (h : book.Tallies scope (config.seen w₀.store.facts))
    (hsame : w₀.store.book.restrict scope = book.restrict scope) :
    config.batchSize ≠ 0 ∨ ∀ e ∈ w₀.store.facts, scope.includes e = false := by
  have hseen := (Book.restrict_eq_restrict_iff h).mp hsame
  unfold Config.seen at hseen
  split at hseen
  · exact .inr ((htallies.of_all scope).not_includes hseen)
  · exact .inl ‹_›

theorem upkeeps_repair (hnumbered : w₀.store.Numbered)
    (htallies : w₀.store.book.Tallies .all w₀.store.facts) {answer : Except Error (Book × ℕ)}
    (hanswer : ∀ a, answer = .ok a → a.1.Tallies scope (config.seen w₀.store.facts))
    (hok : config.batchSize = 0 → answer.isOk = true) (hw : w.store = w₀.store) :
    Upkeeps config scope True w₀.store
      (repair scope (w₀.store.snapshot scope) answer) w := by
  cases answer with
  | error error =>
    intro w' hw'
    rw [hw'.store_eq, hw]
    exact ⟨Store.upkept_error error, fun hzero _ => by cases hok hzero⟩
  | ok a =>
    obtain ⟨book, folded⟩ := a
    have hseen : book.Tallies scope (config.seen w₀.store.facts) := hanswer _ rfl
    simp only [repair]
    split
    · rename_i hempty
      have hsame := Book.driftLines_eq_nil_iff.mp (List.isEmpty_iff.mp hempty)
      intro w' hw'
      rw [hw'.store_eq, hw]
      refine ⟨⟨rfl, fun _ h => (by cases h), fun _ _ => ?_⟩, fun _ _ => rfl⟩
      simp only [seen_of_restrict_eq htallies hseen hsame]
    · exact upkeeps_replaceTotals hnumbered htallies hseen.restrict hw rfl

/-- A rebuild or a verification that has the store to itself changes nothing but totals, and nothing
if it ends with an error. Where the stored totals are those of the log, and it ends well, they are
as they were exactly if the batches have room for an event or the log has no event of the scope. If
they have no room and nobody calls it off, it does end well. -/
theorem upkeep_keeps_totals_iff (config : Config) (scope : Scope)
    (hcancelled : IsCancellation cancelled) (hnumbered : w.store.Numbered)
    (htallies : w.store.book.Tallies .all w.store.facts) :
    Upkeeps config scope (cancelled = pure false) w.store (rebuild config cancelled scope) w ∧
    Upkeeps config scope True w.store (verify config scope) w := by
  constructor
  · rw [rebuild_eq]
    refine (ends_read _).bind ?_
    rintro _ w₁ ⟨rfl, h₁⟩
    refine (ends_bookOfLog_seen hcancelled hnumbered h₁).bind ?_
    rintro answer w₂ ⟨hstore, hanswer, hok⟩
    exact upkeeps_swapIn hcancelled hnumbered htallies hanswer hok hstore
  · rw [verify_eq]
    refine (ends_read _).bind ?_
    rintro _ w₁ ⟨rfl, h₁⟩
    refine (ends_bookOfLog_seen (.inl rfl) hnumbered h₁).bind ?_
    rintro answer w₂ ⟨hstore, hanswer, hok⟩
    exact upkeeps_repair hnumbered htallies hanswer (fun hzero => hok hzero rfl) hstore

/-- A signup that was recorded and counted, and nothing else. -/
def countedSignup (now : Instant) : World :=
  let e : Event := .signup ⟨1⟩ ⟨2⟩ ⟨3⟩ ⟨4⟩ ⟨5⟩ ⟨6⟩ now
  let u : WorkUnit := { WorkUnit.start (Store.empty.context e.promoterKey) with
    events := [e], delta := (Book.ofEvents [e]).toOption.getD ∅ }
  { World.start now ⟨100⟩ with store := (Store.empty.commit u now).2 }

theorem numbered_countedSignup (now : Instant) : (countedSignup now).store.Numbered :=
  (Store.Later.commit Store.empty _ _).numbered fun _ _ h => by simp [Store.empty] at h

theorem tallies_countedSignup (now : Instant) :
    (countedSignup now).store.book.Tallies .all (countedSignup now).store.facts :=
  Book.tallies_of_addAll_empty rfl

/-- The settings where nothing else is said keep the totals of a signup. -/
theorem upkeep_keeps_counted_signup :
    let w := countedSignup ⟨0, 0, by decide, by decide, by decide⟩
    IsCancellation (pure false) ∧ w.store.Numbered ∧ w.store.book.Tallies .all w.store.facts ∧
    (rebuildNow .default .all).Ends
      (fun answer w' => ∀ report, answer = .ok report → w'.store.book = w.store.book) w ∧
    (verify .default .all).Ends
      (fun answer w' => ∀ report, answer = .ok report → w'.store.book = w.store.book) w := by
  intro w
  obtain ⟨hrebuild, hverify⟩ := upkeep_keeps_totals_iff .default .all (.inl rfl)
    (numbered_countedSignup _) (tallies_countedSignup _)
  refine ⟨.inl rfl, numbered_countedSignup _, tallies_countedSignup _, ?_, ?_⟩
  · exact hrebuild.weaken fun _ _ h report hok => (h.1.done report hok).mpr (.inl (by decide))
  · exact hverify.weaken fun _ _ h report hok => (h.1.done report hok).mpr (.inl (by decide))

/-- With batches that have no room for an event, a rebuild ends well and takes away the totals of
the signup. -/
theorem upkeep_may_lose_totals :
    ¬ ∀ (config : Config) (scope : Scope) (w : World), w.store.Numbered →
      w.store.book.Tallies .all w.store.facts →
      (rebuildNow config scope).Ends (fun answer w' => ∀ report, answer = .ok report →
        w'.store.book = w.store.book) w ∧
      (verify config scope).Ends (fun answer w' => ∀ report, answer = .ok report →
        w'.store.book = w.store.book) w := by
  intro hall
  let config : Config := { Config.default with batchSize := 0 }
  let w : World := countedSignup ⟨0, 0, by decide, by decide, by decide⟩
  have hkept := (hall config .all w (numbered_countedSignup _) (tallies_countedSignup _)).1
  have hends : ((rebuildNow config .all).goOn w).1.answer?.map Except.isOk = some true := by
    decide +kernel
  obtain ⟨answer, hanswer, hok⟩ := Option.map_eq_some_iff.mp hends
  have hrun : ∃ n, (rebuildNow config .all).Amid World.Passes w n (.done answer)
      ((rebuildNow config .all).goOn w).2 := amid_of_answer? hanswer
  obtain ⟨n, hrun⟩ := hrun
  cases answer with
  | error error => cases hok
  | ok report =>
    have hsame := hkept.amid hrun _ (.refl _) report rfl
    exact absurd hsame (by decide +kernel)

end Procedure

end Referral
