import Referral.Proofs.BookTally
import Referral.Proofs.Interleaving
import Referral.Proofs.Log

/-!
# Reading the log in batches

A scope of the log is read in batches while the log grows. A batch that is full and ends below the
watermark holds all entries of the scope up to its last one; any other batch, cut off at the
watermark, holds all that were missing. So the batches together hold each entry of the scope up to
the watermark once, wherever they end and whatever is logged meanwhile.
-/

namespace Referral

namespace Store

variable {s s' : Store} {scope : Scope} {after limit watermark : ℕ}

/-- The entries of a scope after a place of the log, up to another. -/
def span (s : Store) (scope : Scope) (after upTo : ℕ) : List StoredEvent :=
  ((s.log.take upTo).drop after).filter fun e => scope.includes e.event

/-- The events of a scope up to a place of the log. -/
def factsUpTo (s : Store) (scope : Scope) (upTo : ℕ) : List Event :=
  (s.facts.take upTo).filter scope.includes

theorem map_event_span (s : Store) (scope : Scope) (upTo : ℕ) :
    (s.span scope 0 upTo).map (·.event) = s.factsUpTo scope upTo := by
  rw [span, factsUpTo, facts, List.drop_zero, ← List.map_take, List.filter_map]
  rfl

/-- Two stretches that meet are one. -/
theorem span_append {a b c : ℕ} (hab : a ≤ b) (hbc : b ≤ c) :
    s.span scope a b ++ s.span scope b c = s.span scope a c := by
  have htake : s.log.take b = (s.log.take c).take b := by
    rw [List.take_take, Nat.min_eq_left hbc]
  rw [span, span, span, ← List.filter_append, htake]
  congr 1
  conv_rhs => rw [← List.take_append_drop (b - a) ((s.log.take c).drop a)]
  rw [List.drop_take, List.drop_drop, show a + (b - a) = b by omega]

/-- What was logged up to a place is still the same later. -/
theorem span_of_prefix (h : s.log <+: s'.log) (hlen : watermark ≤ s.log.length) :
    s'.span scope after watermark = s.span scope after watermark := by
  obtain ⟨rest, hrest⟩ := h
  rw [span, span, ← hrest, List.take_append_of_le_length hlen]

/-! ## One batch -/

/-- The entries of a numbered list up to a number are its first ones. -/
theorem filter_sequence_le {log : List StoredEvent} (start upTo : ℕ)
    (h : ∀ (i : ℕ) (e : StoredEvent), log[i]? = some e → e.sequence = start + i + 1) :
    log.filter (fun e => e.sequence ≤ upTo) = log.take (upTo - start) := by
  induction log generalizing start with
  | nil => simp
  | cons e es ih =>
    have hhead : e.sequence = start + 1 := h 0 e rfl
    have htail := ih (start + 1) fun i f hf => by
      have := h (i + 1) f hf
      omega
    rw [List.filter_cons]
    by_cases hle : start + 1 ≤ upTo
    · rw [if_pos (by simpa [hhead] using hle), htail,
        show upTo - start = (upTo - (start + 1)) + 1 by omega, List.take_succ_cons]
    · rw [if_neg (by simpa [hhead] using hle), htail, show upTo - (start + 1) = 0 by omega,
        show upTo - start = 0 by omega]
      rfl

theorem filter_lt_sequence {log : List StoredEvent} (start last : ℕ)
    (h : ∀ (i : ℕ) (e : StoredEvent), log[i]? = some e → e.sequence = start + i + 1) :
    log.filter (fun e => last < e.sequence) = log.drop (last - start) := by
  induction log generalizing start with
  | nil => simp
  | cons e es ih =>
    have hhead : e.sequence = start + 1 := h 0 e rfl
    have htail := ih (start + 1) fun i f hf => by
      have := h (i + 1) f hf
      omega
    rw [List.filter_cons]
    by_cases hlt : last < start + 1
    · rw [if_pos (by simpa [hhead] using hlt), htail, show last - (start + 1) = 0 by omega,
        show last - start = 0 by omega]
      rfl
    · rw [if_neg (by simpa [hhead] using hlt), htail,
        show last - start = (last - (start + 1)) + 1 by omega, List.drop_succ_cons]

/-- The events of a scope up to a number are those at the first places of the log. -/
theorem Numbered.countP_le (h : s.Numbered) (scope : Scope) (upTo : ℕ) :
    (s.log.countP fun e => e.sequence ≤ upTo && scope.includes e.event) =
      (s.factsUpTo scope upTo).length := by
  have htake := filter_sequence_le 0 upTo fun i e he => (h i e he).trans (by omega)
  rw [List.countP_eq_length_filter, ← List.filter_filter, List.filter_comm, htake, ← map_event_span,
    List.length_map]
  rfl

theorem Numbered.countP_gt (h : s.Numbered) (scope : Scope) (last : ℕ) :
    (s.log.countP fun e => last < e.sequence && scope.includes e.event) =
      ((s.facts.drop last).filter scope.includes).length := by
  have hdrop := filter_lt_sequence 0 last fun i e he => (h i e he).trans (by omega)
  rw [List.countP_eq_length_filter, ← List.filter_filter, List.filter_comm, hdrop, facts,
    ← List.map_drop, List.filter_map, List.length_map]
  rfl

theorem Numbered.drop (h : s.Numbered) (after : ℕ) (i : ℕ) (e : StoredEvent)
    (he : (s.log.drop after)[i]? = some e) : e.sequence = after + i + 1 := by
  rw [List.getElem?_drop] at he
  exact h _ e he

/-- The numbers of the log grow. -/
theorem Numbered.pairwise (h : s.Numbered) : s.log.Pairwise fun e f => e.sequence < f.sequence := by
  rw [List.pairwise_iff_getElem]
  intro i j hi hj hij
  have hseqi := h i _ (List.getElem?_eq_getElem hi)
  have hseqj := h j _ (List.getElem?_eq_getElem hj)
  omega

/-- All that may be read after a place. -/
def ahead (s : Store) (scope : Scope) (after : ℕ) : List StoredEvent :=
  (s.log.drop after).filter fun e => scope.includes e.event

theorem Numbered.pairwise_ahead (h : s.Numbered) (scope : Scope) (after : ℕ) :
    (s.ahead scope after).Pairwise fun e f => e.sequence < f.sequence :=
  (h.pairwise.sublist (List.drop_sublist _ _)).filter _

theorem Numbered.lt_of_mem_ahead (h : s.Numbered) {e : StoredEvent}
    (he : e ∈ s.ahead scope after) : after < e.sequence := by
  obtain ⟨i, hi⟩ := List.mem_iff_getElem?.mp (List.mem_filter.mp he).1
  have := h.drop after i e hi
  omega

theorem Numbered.filter_ahead (h : s.Numbered) :
    (s.ahead scope after).filter (fun e => e.sequence ≤ watermark) =
      s.span scope after watermark := by
  rw [ahead, span, List.filter_comm, filter_sequence_le _ _ (h.drop after), List.drop_take]

/-- Where a list grows, its elements up to a bound are at its front. -/
theorem takeWhile_sequence_le {es : List StoredEvent}
    (h : es.Pairwise fun e f => e.sequence < f.sequence) :
    es.takeWhile (fun e => e.sequence ≤ watermark) =
      es.filter fun e => e.sequence ≤ watermark := by
  induction es with
  | nil => rfl
  | cons e es ih =>
    obtain ⟨hhead, htail⟩ := List.pairwise_cons.mp h
    by_cases hle : e.sequence ≤ watermark
    · simp [hle, ih htail]
    · have hnone : es.filter (fun e => e.sequence ≤ watermark) = [] := by
        rw [List.filter_eq_nil_iff]
        intro f hf
        have := hhead f hf
        simp only [decide_eq_true_eq]
        omega
      simp [hle, hnone]

/-- What of a batch counts towards a watermark. -/
def counted (batch : List StoredEvent) (watermark : ℕ) : List StoredEvent :=
  batch.takeWhile fun e => e.sequence ≤ watermark

theorem Numbered.counted_events (h : s.Numbered) (scope : Scope) (after limit watermark : ℕ) :
    counted (s.events scope after limit) watermark =
      (s.events scope after limit).filter fun e => e.sequence ≤ watermark :=
  takeWhile_sequence_le ((h.pairwise_ahead scope after).sublist (List.take_sublist _ _))

section Batch

variable {last e : StoredEvent}

/-- What comes after a batch is numbered above its last entry. -/
theorem Numbered.last_lt (h : s.Numbered)
    (hlast : (s.events scope after limit).getLast? = some last)
    (he : e ∈ (s.ahead scope after).drop limit) : last.sequence < e.sequence := by
  have hsorted := h.pairwise_ahead scope after
  rw [← List.take_append_drop limit (s.ahead scope after)] at hsorted
  exact (List.pairwise_append.mp hsorted).2.2 last (List.mem_of_getLast? hlast) e he

theorem Numbered.le_last (h : s.Numbered)
    (hlast : (s.events scope after limit).getLast? = some last)
    (he : e ∈ s.events scope after limit) : e.sequence ≤ last.sequence := by
  obtain ⟨front, hfront⟩ := List.getLast?_eq_some_iff.mp hlast
  have hsorted : (s.events scope after limit).Pairwise fun e f => e.sequence < f.sequence :=
    (h.pairwise_ahead scope after).sublist (List.take_sublist _ _)
  rw [hfront] at he hsorted
  rcases List.mem_append.mp he with he | he
  · exact le_of_lt ((List.pairwise_append.mp hsorted).2.2 e he last List.mem_cons_self)
  · rw [List.mem_singleton.mp he]

/-- Up to a number below all that comes after it, a batch lacks nothing. -/
theorem Numbered.filter_events (h : s.Numbered) {upTo : ℕ}
    (hupTo : ∀ e ∈ (s.ahead scope after).drop limit, upTo < e.sequence) :
    (s.events scope after limit).filter (fun e => e.sequence ≤ upTo) =
      s.span scope after upTo := by
  have hevents : s.events scope after limit = (s.ahead scope after).take limit := rfl
  have hnone : ((s.ahead scope after).drop limit).filter (fun e => e.sequence ≤ upTo) = [] := by
    rw [List.filter_eq_nil_iff]
    intro e he
    have := hupTo e he
    simp only [decide_eq_true_eq]
    omega
  rw [← h.filter_ahead, hevents]
  conv_rhs => rw [← List.take_append_drop limit (s.ahead scope after), List.filter_append, hnone,
    List.append_nil]

/-- A batch that ends below the watermark counts as a whole, and lacks nothing up to its end. -/
theorem Numbered.batch_below (h : s.Numbered)
    (hlast : (s.events scope after limit).getLast? = some last)
    (hbelow : last.sequence < watermark) :
    counted (s.events scope after limit) watermark = s.events scope after limit ∧
      s.events scope after limit = s.span scope after last.sequence := by
  have hall : ∀ upTo, last.sequence ≤ upTo → (s.events scope after limit).filter
      (fun e => e.sequence ≤ upTo) = s.events scope after limit := by
    intro upTo hupTo
    rw [List.filter_eq_self]
    intro e he
    have := h.le_last hlast he
    simp only [decide_eq_true_eq]
    omega
  constructor
  · rw [h.counted_events, hall _ hbelow.le]
  · rw [← hall _ le_rfl]
    exact h.filter_events fun e he => h.last_lt hlast he

/-- A batch that is not full, or that ends at the watermark or above, has all that is missing up to
the watermark. -/
theorem Numbered.batch_last (h : s.Numbered) (hlimit : 0 < limit)
    (hend : ∀ last, (s.events scope after limit).getLast? = some last →
      ¬ ((s.events scope after limit).length = limit ∧ last.sequence < watermark)) :
    counted (s.events scope after limit) watermark = s.span scope after watermark := by
  rw [h.counted_events]
  refine h.filter_events fun e he => ?_
  -- something comes after the batch, so it is full and ends at the watermark or above
  have hlong : limit < (s.ahead scope after).length := by
    have := List.length_pos_of_mem he
    rw [List.length_drop] at this
    omega
  have hlength : (s.events scope after limit).length = limit :=
    List.length_take_of_le hlong.le
  cases hlast : (s.events scope after limit).getLast? with
  | none =>
    rw [List.getLast?_eq_none_iff.mp hlast, List.length_nil] at hlength
    omega
  | some last =>
    have hlt := h.last_lt hlast he
    have hreached : ¬ last.sequence < watermark := fun hlt => hend last hlast ⟨hlength, hlt⟩
    omega

end Batch

/-- A batch is full and ends below the watermark, and then it holds all up to its end, or it is the
last one, and then all that is missing up to the watermark counts. -/
theorem Numbered.batch_cases (h : s.Numbered) (scope : Scope) (after : ℕ) (hlimit : 0 < limit)
    (watermark : ℕ) :
    (∃ last, (s.events scope after limit).getLast? = some last ∧
      (s.events scope after limit).length = limit ∧ after < last.sequence ∧
      last.sequence < watermark ∧
      counted (s.events scope after limit) watermark = s.span scope after last.sequence ∧
      (s.span scope after last.sequence).length = limit) ∨
    ((∀ last, (s.events scope after limit).getLast? = some last →
        ¬ ((s.events scope after limit).length = limit ∧ last.sequence < watermark)) ∧
      counted (s.events scope after limit) watermark = s.span scope after watermark) := by
  by_cases hfull : ∃ last, (s.events scope after limit).getLast? = some last ∧
      (s.events scope after limit).length = limit ∧ last.sequence < watermark
  · obtain ⟨last, hlast, hlength, hbelow⟩ := hfull
    obtain ⟨hcounted, hspan⟩ := h.batch_below hlast hbelow
    refine .inl ⟨last, hlast, hlength, ?_, hbelow, hcounted.trans hspan, ?_⟩
    · exact h.lt_of_mem_ahead (List.mem_of_mem_take (List.mem_of_getLast? hlast))
    · rw [← hspan, hlength]
  · have hend : ∀ last, (s.events scope after limit).getLast? = some last →
        ¬ ((s.events scope after limit).length = limit ∧ last.sequence < watermark) :=
      fun last hlast hcond => hfull ⟨last, hlast, hcond⟩
    exact .inr ⟨hend, h.batch_last hlimit hend⟩

end Store

/-! ## All batches -/

namespace Procedure

variable {R : World → World → Prop} {α β : Type} {Q : α → World → Prop} {w : World} {m n : ℕ}

/-- A procedure that does not change the world, with at most so many actions, and ends with an
answer that `Q` allows. -/
structure Looks (R : World → World → Prop) (n : ℕ) (Q : α → World → Prop) (p : Procedure α)
    (w : World) : Prop where
  keeps : p.Keeps R (fun w w' _ => w' = w) Q w
  within : p.Within R n w

theorem Looks.bind (hR : Rely R) {Q₁ : β → World → Prop} {p : Procedure β} {f : β → Procedure α}
    (h : p.Looks R m Q₁ w) (hf : ∀ b w', R w w' → Q₁ b w' → (f b).Looks R n Q w') :
    (p >>= f).Looks R (m + n) Q w := by
  have hsince := h.keeps.since hR (fun w w' _ h => h ▸ hR.refl w) (hR.refl w)
  exact ⟨Keeps.bind hR hsince (fun _ _ _ h => h) fun b w' hb => (hf b w' hb.2 hb.1).keeps,
    Within.bind hR h.within hsince fun b w' hb => (hf b w' hb.2 hb.1).within⟩

theorem Looks.mono {p : Procedure α} (h : p.Looks R m Q w) (hmn : m ≤ n) : p.Looks R n Q w :=
  ⟨h.keeps, h.within.mono hmn⟩

theorem looks_pure {a : α} (h : ∀ w', R w w' → Q a w') : (pure a : Procedure α).Looks R n Q w :=
  ⟨h, trivial⟩

/-- What was read was so at some moment. -/
theorem looks_read (f : Store → α) (w : World) :
    (read f).Looks R 1 (fun a w' => ∃ w₁, R w w₁ ∧ R w₁ w' ∧ a = f w₁.store) w :=
  ⟨fun w₁ h₁ _ => ⟨rfl, fun _ h₂ => ⟨w₁, h₁, h₂, rfl⟩⟩, Nat.one_pos, fun _ _ _ => trivial⟩

/-- The ways in which a rebuild learns that it was called off: never, or by its task. -/
def IsCancellation (cancelled : Procedure Bool) : Prop :=
  cancelled = pure false ∨ ∃ task, cancelled = perform (.isCancelled task)

theorem IsCancellation.looks {cancelled : Procedure Bool} (h : IsCancellation cancelled)
    (w : World) :
    cancelled.Looks R 1 (fun stop _ => stop = true → cancelled ≠ pure false) w := by
  rcases h with rfl | ⟨task, rfl⟩
  · exact looks_pure fun _ _ h => by cases h
  · exact ⟨fun _ _ _ => ⟨rfl, fun _ _ _ h => by cases h⟩, Nat.one_pos, fun _ _ _ => trivial⟩

theorem looks_sleep (millis : ℕ) (w : World) : (sleep millis).Looks R 2 (fun _ _ => True) w :=
  ⟨fun _ _ _ => ⟨rfl, fun _ _ _ => ⟨rfl, fun _ _ => trivial⟩⟩,
    Nat.two_pos, fun _ _ _ => ⟨Nat.one_pos, fun _ _ _ => trivial⟩⟩

theorem looks_pause (w : World) : pause.Looks R 2 (fun _ _ => True) w :=
  ⟨fun _ _ _ => ⟨rfl, fun _ _ _ => ⟨rfl, fun _ _ => trivial⟩⟩,
    Nat.two_pos, fun _ _ _ => ⟨Nat.one_pos, fun _ _ _ => trivial⟩⟩

variable {scope : Scope} {after limit size watermark batches folded : ℕ}
  {cancelled : Procedure Bool} {book : Book}

theorem looks_scan (hR : Rely R) (w : World) : (scan scope after limit).Looks R 4
    (fun batch w' => ∃ w₁, R w w₁ ∧ R w₁ w' ∧ batch = w₁.store.events scope after limit) w := by
  unfold scan
  refine Looks.bind (m := 1) (n := 3) hR (looks_read _ w) fun delay w₁ h₁ _ => ?_
  refine Looks.bind (m := 2) (n := 1) hR (looks_sleep _ w₁) fun _ w₂ h₂ _ => ?_
  obtain ⟨hkeeps, hwithin⟩ := looks_read (R := R) (fun s => s.events scope after limit) w₂
  refine ⟨Keeps.weaken hkeeps (fun _ _ _ h => h) ?_, hwithin⟩
  rintro batch w' ⟨w₃, h₃, h', rfl⟩
  exact ⟨w₃, hR.trans _ _ _ h₁ (hR.trans _ _ _ h₂ h₃), h', rfl⟩

/-- A book and a number, as they are for the log of a world up to some place. -/
def Folded (w : World) (scope : Scope) (upTo : ℕ) (book : Book) (folded : ℕ) : Prop :=
  (∅ : Book).addAll (w.store.factsUpTo scope upTo) = .ok book ∧
    folded = (w.store.factsUpTo scope upTo).length

/-- The answer of a fold is that for the log of a world up to some place, unless it was called
off. -/
def FoldAnswer (cancelled : Procedure Bool) (w : World) (scope : Scope) (upTo : ℕ)
    (answer : Except Error (Book × ℕ)) : Prop :=
  (cancelled ≠ pure false ∧ answer = .error (rebuildCancelled scope)) ∨
  answer = ((∅ : Book).addAll (w.store.factsUpTo scope upTo)).map
    fun book => (book, (w.store.factsUpTo scope upTo).length)

theorem FoldAnswer.of_ok {w : World} {upTo : ℕ} {a : Book × ℕ}
    (h : FoldAnswer cancelled w scope upTo (.ok a)) : Folded w scope upTo a.1 a.2 := by
  rcases h with ⟨-, h⟩ | h
  · cases h
  · unfold Folded
    cases hadd : (∅ : Book).addAll (w.store.factsUpTo scope upTo) with
    | error error =>
      rw [hadd] at h
      cases h
    | ok book =>
      rw [hadd] at h
      cases h
      exact ⟨rfl, rfl⟩

theorem Folded.foldAnswer {w : World} {upTo : ℕ} (h : Folded w scope upTo book folded) :
    FoldAnswer cancelled w scope upTo (.ok (book, folded)) := by
  obtain ⟨hbook, rfl⟩ := h
  exact .inr (by rw [hbook]; rfl)

/-- The first stretch that cannot be added ends the fold. -/
theorem Folded.foldAnswer_error {w : World} {upTo last : ℕ} {error : Error}
    (h : Folded w scope after book folded) (hlast : after ≤ last) (hle : last ≤ upTo)
    (hadd : book.addAll ((w.store.span scope after last).map (·.event)) = .error error) :
    FoldAnswer cancelled w scope upTo (.error error) := by
  refine .inr ?_
  have hsplit : w.store.factsUpTo scope upTo = w.store.factsUpTo scope after ++
      ((w.store.span scope after last).map (·.event) ++
        (w.store.span scope last upTo).map (·.event)) := by
    rw [← Store.map_event_span, ← Store.map_event_span, ← List.map_append, ← List.map_append,
      Store.span_append hlast hle, Store.span_append (Nat.zero_le _) (hlast.trans hle)]
  rw [hsplit, Book.addAll_append, h.1, Except.bind, Book.addAll_append, hadd]
  rfl

/-- A stretch more is folded. -/
theorem Folded.extend {w : World} {upTo : ℕ} {book' : Book} (h : Folded w scope after book folded)
    (hle : after ≤ upTo)
    (hadd : book.addAll ((w.store.span scope after upTo).map (·.event)) = .ok book') :
    Folded w scope upTo book' (folded + (w.store.span scope after upTo).length) := by
  obtain ⟨hbook, hfolded⟩ := h
  have hsplit : w.store.factsUpTo scope upTo =
      w.store.factsUpTo scope after ++ (w.store.span scope after upTo).map (·.event) := by
    rw [← Store.map_event_span, ← Store.map_event_span, ← List.map_append,
      Store.span_append (Nat.zero_le _) hle]
  constructor
  · rw [hsplit, Book.addAll_append, hbook]
    exact hadd
  · rw [hsplit, List.length_append, List.length_map, hfolded]

/-- The book tallies the scope in the log up to the place, also when more was logged since. -/
theorem Folded.tallies {w₀ w : World} {upTo : ℕ} (h : Folded w₀ scope upTo book folded)
    (hupTo : upTo ≤ w₀.store.log.length) (hlater : w₀.store.Later w.store) :
    book.Tallies scope (w.store.facts.take upTo) := by
  rw [hlater.take_facts hupTo]
  exact Book.tallies_filter_iff.mp (Book.tallies_of_addAll_empty h.1)

/-- A fold whose batches have no room for events leaves the world and the book as they are. -/
theorem foldLog_zero (hR : Rely R) (hcancelled : IsCancellation cancelled) (scope : Scope)
    (watermark batches after : ℕ) (book : Book) (folded : ℕ) (w : World) :
    (foldLog cancelled scope 0 watermark batches after book folded).Keeps R
      (fun w w' _ => w' = w) (fun answer _ => ∀ a, answer = .ok a → a.1 = book) w := by
  have hok : ∀ w, (pure (.ok (book, folded)) : Procedure (Except Error (Book × ℕ))).Keeps R
      (fun w w' _ => w' = w) (fun answer _ => ∀ a, answer = .ok a → a.1 = book) w := by
    rintro w _ _ _ ⟨⟩
    rfl
  cases batches with
  | zero => exact hok w
  | succ batches =>
    unfold foldLog
    refine Keeps.bind hR (hcancelled.looks w).keeps (fun _ _ _ h => h) fun stop w₁ _ => ?_
    split
    · rintro _ _ _ ⟨⟩
    refine Keeps.bind hR (looks_scan hR w₁).keeps (fun _ _ _ h => h) fun batch w₂ hbatch => ?_
    obtain ⟨_, _, _, rfl⟩ := hbatch
    rw [Store.events, List.take_zero]
    exact hok w₂

/-- Whatever is logged between its reads, the fold of a log up to a watermark gives the book of the
log as it was at the watermark, if it gives one, after a read for each full batch and one more. -/
theorem looks_foldLog (hR : Rely R) (hcancelled : IsCancellation cancelled)
    (hsize : 0 < size) {w₀ w : World} (hw : R w₀ w) (hnumbered : w₀.store.Numbered)
    (hwatermark : watermark = w₀.store.log.length) (hafter : after ≤ watermark)
    (hbatches : watermark < batches + after) (hfolded : Folded w₀ scope after book folded) :
    (foldLog cancelled scope size watermark batches after book folded).Looks R
      (7 * ((w₀.store.span scope after watermark).length / size) + 5)
      (fun answer _ => FoldAnswer cancelled w₀ scope watermark answer) w := by
  induction batches generalizing w after book folded with
  | zero => omega
  | succ batches ih =>
    unfold foldLog
    refine Looks.mono (Looks.bind (m := 1)
      (n := 7 * ((w₀.store.span scope after watermark).length / size) + 4) hR (hcancelled.looks w)
      fun stop w₁ h₁ hcalled => ?_) (by omega)
    by_cases hstop : stop = true
    · rw [if_pos hstop]
      exact looks_pure fun _ _ => .inl ⟨hcalled hstop, rfl⟩
    rw [if_neg hstop]
    refine Looks.mono (Looks.bind (m := 4)
      (n := 7 * ((w₀.store.span scope after watermark).length / size)) hR (looks_scan hR w₁)
      fun batch w₃ _ hbatch => ?_) (by omega)
    obtain ⟨w₂, h₂, h₃, rfl⟩ := hbatch
    have hw₂ := hR.trans _ _ _ hw (hR.trans _ _ _ h₁ h₂)
    have hlater := hR.later _ _ hw₂
    have hspan : ∀ {upTo}, upTo ≤ watermark →
        w₂.store.span scope after upTo = w₀.store.span scope after upTo :=
      fun h => Store.span_of_prefix hlater.log (hwatermark ▸ h)
    simp only []
    rw [← Store.counted]
    rcases (hlater.numbered hnumbered).batch_cases scope after hsize watermark
      with ⟨last, hlast, hlength, hlt, hbelow, hcounted, hfull⟩ | ⟨hnot, hcounted⟩
    · rw [hspan hbelow.le] at hfull
      rw [hcounted, hspan hbelow.le]
      cases hadd : book.addAll ((w₀.store.span scope after last.sequence).map (·.event)) with
      | error error =>
        exact looks_pure fun _ _ => hfolded.foldAnswer_error hlt.le hbelow.le hadd
      | ok book' =>
        simp only [hlast]
        rw [if_pos ⟨hlength, hbelow⟩]
        have hrest : (w₀.store.span scope after watermark).length / size =
            (w₀.store.span scope last.sequence watermark).length / size + 1 := by
          rw [← Store.span_append hlt.le hbelow.le, List.length_append, hfull,
            Nat.add_div_left _ hsize]
        refine Looks.mono (Looks.bind (m := 2)
          (n := 7 * ((w₀.store.span scope last.sequence watermark).length / size) + 5) hR
          (looks_pause w₃) fun _ w₄ h₄ _ => ?_) (by omega)
        exact ih (hR.trans _ _ _ hw₂ (hR.trans _ _ _ h₃ h₄)) hbelow.le (by omega)
          (hfolded.extend hlt.le hadd)
    · rw [hcounted, hspan le_rfl]
      cases hadd : book.addAll ((w₀.store.span scope after watermark).map (·.event)) with
      | error error =>
        exact looks_pure fun _ _ => hfolded.foldAnswer_error hafter le_rfl hadd
      | ok book' =>
        have hdone := hfolded.extend hafter hadd
        cases hlast : (w₂.store.events scope after size).getLast? with
        | none => exact looks_pure fun _ _ => hdone.foldAnswer
        | some last =>
          simp only []
          rw [if_neg (hnot last hlast)]
          exact looks_pure fun _ _ => hdone.foldAnswer

/-- The book of a log up to its present end is that, however the log grows before it is read. -/
theorem looks_bookOfLog_answer (hR : Rely R) (hcancelled : IsCancellation cancelled)
    {config : Config} (hsize : config.batchSize ≠ 0) {w₀ w : World} (hw : R w₀ w)
    (hnumbered : w₀.store.Numbered) (scope : Scope) :
    (bookOfLog config cancelled scope w₀.store.head).Looks R
      (7 * ((w₀.store.facts.filter scope.includes).length / config.batchSize.toNat) + 5)
      (fun answer _ => FoldAnswer cancelled w₀ scope w₀.store.head answer) w := by
  have hpos : 0 < config.batchSize.toNat := by
    have : config.batchSize.toNat ≠ 0 := fun h => hsize (UInt64.toNat_inj.mp h)
    omega
  have hwhole : (w₀.store.facts.filter scope.includes).length =
      (w₀.store.span scope 0 w₀.store.head).length := by
    have hlength : w₀.store.facts.length = w₀.store.head := by
      rw [hnumbered.head_eq, Store.facts, List.length_map]
    have hspan := congrArg List.length (w₀.store.map_event_span scope w₀.store.head)
    rwa [List.length_map, Store.factsUpTo, List.take_of_length_le hlength.le, eq_comm] at hspan
  rw [hwhole]
  exact looks_foldLog hR hcancelled hpos hw hnumbered hnumbered.head_eq (Nat.zero_le _) (by omega)
    ⟨rfl, rfl⟩

/-- The same for the book that is read off the log, if there is one. -/
theorem looks_bookOfLog (hR : Rely R) (hcancelled : IsCancellation cancelled) {config : Config}
    (hsize : config.batchSize ≠ 0) {w₀ w : World} (hw : R w₀ w) (hnumbered : w₀.store.Numbered)
    (scope : Scope) :
    (bookOfLog config cancelled scope w₀.store.head).Looks R
      (7 * ((w₀.store.facts.filter scope.includes).length / config.batchSize.toNat) + 5)
      (fun answer _ => ∀ a, answer = .ok a → Folded w₀ scope w₀.store.head a.1 a.2) w := by
  obtain ⟨hkeeps, hwithin⟩ := looks_bookOfLog_answer hR hcancelled hsize hw hnumbered scope
  refine ⟨Keeps.weaken hkeeps (fun _ _ _ h => h) ?_, hwithin⟩
  rintro _ _ h a rfl
  exact h.of_ok

end Procedure

end Referral
