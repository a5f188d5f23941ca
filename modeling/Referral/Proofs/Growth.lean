import Referral.Proofs.BookTally
import Referral.Service

/-!
# Totals between zero and exact sums

Producers may not report negative amounts, and a share of a revenue has its sign. So where no rule
sets a fixed commission below zero, every event adds to totals and takes nothing off. A book may
fall short of the exact sums of its events where some of them could not be counted; merging the
book of further events and replacing a scope by exact totals only raise it.
-/

namespace Referral

/-! ## Amounts -/

/-- The effect does not set a commission below zero. -/
def Effect.NonNegative : Effect → Prop
  | .generateCommission (.fixed amount) => 0 ≤ amount.units
  | .generateCommission (.percentage _) => True
  | .switchCircle _ => True

/-- No amount of the event is below zero. -/
structure Event.NonNegative (e : Event) : Prop where
  amount : ∀ m ∈ e.amount, 0 ≤ m.units
  revenue : ∀ m ∈ e.revenue, 0 ≤ m.units

/-- No record of a failed effect has one that sets a commission below zero. -/
def Failure.NonNegative (f : Failure) : Prop := ∀ effect ∈ f.effect, effect.NonNegative

theorem Money.units_share_nonneg {m : Money} (h : 0 ≤ m.units) (p : Percentage) :
    0 ≤ (m.share p).units := by
  rw [units_share]
  exact Int.tdiv_nonneg (Int.mul_nonneg h (by omega)) (by decide)

theorem Money.units_roundTo?_nonneg {m n : Money} {precision : ℕ} (h : 0 ≤ m.units)
    (hround : m.roundTo? precision = some n) : 0 ≤ n.units := by
  unfold roundTo? at hround
  split at hround
  · cases hround
    exact h
  · simp only at hround
    obtain ⟨shifted, hshifted, hunits⟩ := Option.bind_eq_some_iff.mp hround
    rw [ofUnits?_eq_some] at hshifted hunits
    rw [hunits, hshifted]
    have hstep : (0 : ℤ) ≤ ((Nat.pow 10 (places - precision) : ℕ) : ℤ) := Int.natCast_nonneg _
    exact Int.mul_nonneg (Int.tdiv_nonneg (by omega) hstep) hstep

/-- What a rule may earn for an event without negative amounts is not negative. -/
theorem CommissionSpec.units_amountFor_nonneg {spec : CommissionSpec} {e : Event} {precision : ℕ}
    {amount : Money} (hspec : (Effect.generateCommission spec).NonNegative) (he : e.NonNegative)
    (hamount : spec.amountFor e precision = .ok amount) : 0 ≤ amount.units := by
  cases spec with
  | fixed value =>
    cases hamount
    exact hspec
  | percentage share =>
    simp only [amountFor] at hamount
    split at hamount
    · rename_i rounded hrounded
      cases hamount
      obtain ⟨revenue, hrevenue, hround⟩ := Option.bind_eq_some_iff.mp hrounded
      exact Money.units_roundTo?_nonneg (Money.units_share_nonneg (he.revenue _ hrevenue) share)
        hround
    · cases hamount

theorem Event.nonneg_of_amountFlaw? {e : Event} {field : String} {m : Option Money}
    (h : e.amountFlaw? field m = none) : ∀ amount ∈ m, 0 ≤ amount.units := by
  rintro amount rfl
  by_contra hneg
  simp [amountFlaw?, Money.isNegative, not_le.mp hneg] at h

/-- A valid event has no negative amounts. -/
theorem Event.nonNegative_of_validate {e : Event} (h : e.validate = .ok ()) : e.NonNegative := by
  have hflaw := validate_eq_ok.mp h
  simp only [flaw?, Option.or_eq_none_iff] at hflaw
  exact ⟨nonneg_of_amountFlaw? hflaw.2.1, nonneg_of_amountFlaw? hflaw.2.2.1⟩

theorem Service.nonNegative_of_accept {e : Event} (h : accept e = .ok ()) : e.NonNegative := by
  refine Event.nonNegative_of_validate ?_
  unfold accept at h
  cases hvalid : e.validate with
  | ok _ => rfl
  | error error =>
    rw [hvalid] at h
    cases h

theorem Money.units_getD_nonneg {m : Option Money} (h : ∀ amount ∈ m, 0 ≤ amount.units) :
    0 ≤ (m.getD .zero).units := by
  cases m with
  | none => exact le_refl _
  | some amount => exact h amount rfl

/-- What an event without negative amounts adds to the totals of its promoter. -/
theorem Event.NonNegative.promoter {e : Event} (h : e.NonNegative) (f : PromoterField) :
    0 ≤ (PromoterTotals.ofEvent e).value f := by
  have hamount := Money.units_getD_nonneg h.amount
  have hrevenue := Money.units_getD_nonneg h.revenue
  have hpart : ∀ kind, 0 ≤ (if e.triggeredBy = some kind then e.amount.getD .zero
      else Money.zero).units := by
    intro kind
    split
    · exact hamount
    · exact le_refl _
  cases f with
  | signups => exact Int.natCast_nonneg _
  | purchases => exact Int.natCast_nonneg _
  | revenue =>
    simp only [PromoterTotals.value, PromoterTotals.ofEvent]
    cases e.kind
    · exact le_refl _
    · exact hrevenue
    · exact le_refl _
  | commission =>
    simp only [PromoterTotals.value, PromoterTotals.ofEvent]
    cases e.kind
    · exact le_refl _
    · exact le_refl _
    · exact hamount
  | throughSignups =>
    simp only [PromoterTotals.value, PromoterTotals.ofEvent]
    cases e.kind
    · exact le_refl _
    · exact le_refl _
    · exact hpart .signup
  | throughPurchases =>
    simp only [PromoterTotals.value, PromoterTotals.ofEvent]
    cases e.kind
    · exact le_refl _
    · exact le_refl _
    · exact hpart .purchase

/-- What an event without negative amounts adds to the totals of its link. -/
theorem Event.NonNegative.link {e : Event} (h : e.NonNegative) (f : LinkField) :
    0 ≤ (LinkTotals.ofEvent e).value f := by
  cases f with
  | signups => exact Int.natCast_nonneg _
  | purchases => exact Int.natCast_nonneg _
  | commission =>
    simp only [LinkTotals.value, LinkTotals.ofEvent]
    cases e.kind
    · exact le_refl _
    · exact le_refl _
    · exact Money.units_getD_nonneg h.amount

/-! ## Totals between zero and the sums of the log -/

namespace OrderedMap

variable {κ ν : Type} [Ranked κ] [DecidableEq κ] [Summable ν] [Measured ν]

/-- Each total is at least zero, and at most the exact sum of the contributions to its key. -/
def Within (m : OrderedMap κ ν) (cs : List (κ × ν)) : Prop :=
  ∀ k f, 0 ≤ value (m.total k) f ∧ value (m.total k) f ≤ sumAt cs k f

/-- No total is above the one of another map. -/
def Below (m m' : OrderedMap κ ν) : Prop := ∀ k f, value (m.total k) f ≤ value (m'.total k) f

variable {m m' : OrderedMap κ ν} {p : κ → Bool} {cs ds : List (κ × ν)}

omit [DecidableEq κ] in
theorem Below.refl (m : OrderedMap κ ν) : m.Below m := fun _ _ => le_refl _

omit [DecidableEq κ] in
theorem Below.trans {m'' : OrderedMap κ ν} (h : m.Below m') (h' : m'.Below m'') : m.Below m'' :=
  fun k f => (h k f).trans (h' k f)

theorem within_empty : (∅ : OrderedMap κ ν).Within [] := fun k f => by simp

omit [Ranked κ] in
theorem sumAt_nonneg (h : ∀ c ∈ cs, ∀ f, 0 ≤ value c.2 f) (k : κ) (f : Measured.Field ν) :
    0 ≤ sumAt cs k f := by
  refine List.sum_nonneg fun v hv => ?_
  obtain ⟨c, hc, rfl⟩ := List.mem_map.mp hv
  exact h c (List.mem_of_mem_filter hc) f

/-- Further contributions that the map does not have yet. -/
theorem Within.append (h : m.Within cs) (hds : ∀ c ∈ ds, ∀ f, 0 ≤ value c.2 f) :
    m.Within (cs ++ ds) := by
  intro k f
  obtain ⟨hzero, hsum⟩ := h k f
  rw [sumAt_append]
  exact ⟨hzero, hsum.trans (le_add_of_nonneg_right (sumAt_nonneg hds k f))⟩

theorem Within.add? {k : κ} {v : ν} (h : m.Within cs) (hv : ∀ f, 0 ≤ value v f)
    (hadd : m.add? k v = some m') : m'.Within (cs ++ [(k, v)]) := by
  obtain ⟨sum, hsum, rfl⟩ := Option.map_eq_some_iff.mp hadd
  rw [Measured.add?_eq_some] at hsum
  intro j f
  obtain ⟨hzero, hle⟩ := h j f
  rw [total_insert, sumAt_append, sumAt_cons, sumAt_nil]
  by_cases hjk : j = k
  · subst hjk
    have hvf := hv f
    rw [if_pos rfl, if_pos rfl, hsum f]
    dsimp only
    omega
  · rw [if_neg hjk, if_neg (Ne.symm hjk)]
    omega

theorem Within.merge {name : κ → String} {delta : OrderedMap κ ν} (h : m.Within cs)
    (hdelta : delta.Within ds) (hadd : m.addAll name delta.entries = .ok m') :
    m'.Within (cs ++ ds) := by
  intro k f
  have hold := h k f
  have hnew := hdelta k f
  rw [value_total_of_addAll hadd, sumAt_append]
  omega

theorem Within.below_merge {name : κ → String} {delta : OrderedMap κ ν}
    (hdelta : delta.Within ds) (hadd : m.addAll name delta.entries = .ok m') : m.Below m' := by
  intro k f
  have hnew := hdelta k f
  rw [value_total_of_addAll hadd]
  omega

omit [Measured ν] in
theorem total_patch (inside outside : OrderedMap κ ν) (p : κ → Bool) (k : κ) :
    (patch inside outside p).total k = if p k then inside.total k else outside.total k := by
  by_cases hk : p k = true <;> simp [total, hk]

/-- Replaced totals are exact, and the others are as they were. -/
theorem Within.patch {inside outside : OrderedMap κ ν} (h : outside.Within cs)
    (hinside : inside.Tallies p cs) (hcs : ∀ c ∈ cs, ∀ f, 0 ≤ value c.2 f) :
    (patch inside outside p).Within cs := by
  intro k f
  rw [total_patch]
  by_cases hk : p k = true
  · rw [if_pos hk, hinside.value_total k hk]
    exact ⟨sumAt_nonneg hcs k f, le_refl _⟩
  · rw [if_neg hk]
    exact h k f

theorem Within.below_patch {inside outside : OrderedMap κ ν} (h : outside.Within cs)
    (hinside : inside.Tallies p cs) : outside.Below (OrderedMap.patch inside outside p) := by
  intro k f
  rw [total_patch]
  by_cases hk : p k = true
  · rw [if_pos hk, hinside.value_total k hk]
    exact (h k f).2
  · rw [if_neg hk]

end OrderedMap

namespace Book

/-- Each total is at least zero, and at most the exact sum of what the events add to it. -/
structure Within (b : Book) (es : List Event) : Prop where
  promoters : b.promoters.Within (es.map fun e => (e.promoterKey, PromoterTotals.ofEvent e))
  promoterDays : b.promoterDays.Within
    (es.map fun e => ((e.promoterKey, e.day), PromoterTotals.ofEvent e))
  links : b.links.Within (es.map fun e => (e.linkKey, LinkTotals.ofEvent e))
  linkDays : b.linkDays.Within (es.map fun e => ((e.linkKey, e.day), LinkTotals.ofEvent e))

/-- No field of any total is below zero. -/
structure NonNegative (b : Book) : Prop where
  promoters : ∀ k f, 0 ≤ value (b.promoters.total k) f
  promoterDays : ∀ k f, 0 ≤ value (b.promoterDays.total k) f
  links : ∀ k f, 0 ≤ value (b.links.total k) f
  linkDays : ∀ k f, 0 ≤ value (b.linkDays.total k) f

/-- No field of any total is above the one of another book. -/
structure Below (b b' : Book) : Prop where
  promoters : b.promoters.Below b'.promoters
  promoterDays : b.promoterDays.Below b'.promoterDays
  links : b.links.Below b'.links
  linkDays : b.linkDays.Below b'.linkDays

variable {b b' delta : Book} {es fs : List Event}

theorem Below.refl (b : Book) : b.Below b := ⟨.refl _, .refl _, .refl _, .refl _⟩

theorem Below.trans {b'' : Book} (h : b.Below b') (h' : b'.Below b'') : b.Below b'' :=
  ⟨h.promoters.trans h'.promoters, h.promoterDays.trans h'.promoterDays, h.links.trans h'.links,
    h.linkDays.trans h'.linkDays⟩

theorem within_empty : (∅ : Book).Within [] :=
  ⟨OrderedMap.within_empty, OrderedMap.within_empty, OrderedMap.within_empty,
    OrderedMap.within_empty⟩

theorem Within.nonNegative (h : b.Within es) : b.NonNegative :=
  ⟨fun k f => (h.promoters k f).1, fun k f => (h.promoterDays k f).1, fun k f => (h.links k f).1,
    fun k f => (h.linkDays k f).1⟩

/-- What events add to totals, under whatever key. -/
theorem forall_promoter {κ : Type} {key : Event → κ} (hes : ∀ e ∈ es, e.NonNegative) :
    ∀ c ∈ es.map fun e => (key e, PromoterTotals.ofEvent e), ∀ f, 0 ≤ value c.2 f := by
  intro c hc f
  obtain ⟨e, he, rfl⟩ := List.mem_map.mp hc
  exact (hes e he).promoter f

theorem forall_link {κ : Type} {key : Event → κ} (hes : ∀ e ∈ es, e.NonNegative) :
    ∀ c ∈ es.map fun e => (key e, LinkTotals.ofEvent e), ∀ f, 0 ≤ value c.2 f := by
  intro c hc f
  obtain ⟨e, he, rfl⟩ := List.mem_map.mp hc
  exact (hes e he).link f

/-- Further events that are not counted yet. -/
theorem Within.append (h : b.Within es) (hfs : ∀ e ∈ fs, e.NonNegative) : b.Within (es ++ fs) := by
  constructor <;> rw [List.map_append]
  · exact h.promoters.append (forall_promoter hfs)
  · exact h.promoterDays.append (forall_promoter hfs)
  · exact h.links.append (forall_link hfs)
  · exact h.linkDays.append (forall_link hfs)

theorem Within.add {e : Event} (h : b.Within es) (he : e.NonNegative) (hadd : b.add e = .ok b') :
    b'.Within (es ++ [e]) := by
  obtain ⟨h₁, h₂, h₃, h₄⟩ := add?_eq_some.mp (add_eq_ok.mp hadd)
  constructor <;> rw [List.map_append, List.map_singleton]
  · exact h.promoters.add? he.promoter h₁
  · exact h.promoterDays.add? he.promoter h₂
  · exact h.links.add? he.link h₃
  · exact h.linkDays.add? he.link h₄

theorem Within.merge (h : b.Within es) (hdelta : delta.Within fs)
    (hmerge : b.merge delta = .ok b') : b'.Within (es ++ fs) := by
  obtain ⟨h₁, h₂, h₃, h₄⟩ := merge_eq_ok.mp hmerge
  constructor <;> rw [List.map_append]
  · exact h.promoters.merge hdelta.promoters h₁
  · exact h.promoterDays.merge hdelta.promoterDays h₂
  · exact h.links.merge hdelta.links h₃
  · exact h.linkDays.merge hdelta.linkDays h₄

/-- A book whose totals are not negative only raises the totals that it is added to. -/
theorem Within.below_merge (hdelta : delta.Within fs) (hmerge : b.merge delta = .ok b') :
    b.Below b' := by
  obtain ⟨h₁, h₂, h₃, h₄⟩ := merge_eq_ok.mp hmerge
  exact ⟨hdelta.promoters.below_merge h₁, hdelta.promoterDays.below_merge h₂,
    hdelta.links.below_merge h₃, hdelta.linkDays.below_merge h₄⟩

variable {scope : Scope} {rebuilt : Book}

theorem Within.replaceScope (h : b.Within es) (hrebuilt : rebuilt.Tallies scope es)
    (hes : ∀ e ∈ es, e.NonNegative) : (b.replaceScope scope rebuilt).Within es :=
  ⟨h.promoters.patch hrebuilt.promoters (forall_promoter hes),
    h.promoterDays.patch hrebuilt.promoterDays (forall_promoter hes),
    h.links.patch hrebuilt.links (forall_link hes),
    h.linkDays.patch hrebuilt.linkDays (forall_link hes)⟩

/-- Exact totals are above all that lie within the sums. -/
theorem Within.below_replaceScope (h : b.Within es) (hrebuilt : rebuilt.Tallies scope es) :
    b.Below (b.replaceScope scope rebuilt) :=
  ⟨h.promoters.below_patch hrebuilt.promoters, h.promoterDays.below_patch hrebuilt.promoterDays,
    h.links.below_patch hrebuilt.links, h.linkDays.below_patch hrebuilt.linkDays⟩

end Book

end Referral
