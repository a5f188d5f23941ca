import Referral.Proofs.Tally

/-!
# Books that tally events

A book tallies a list of events within a scope if each of its four maps has, among the keys of the
scope, exactly those of the events, with exact sums. Adding events, merging the book of further
events and replacing a scope keep this, and events outside of the scope do not matter.
-/

namespace Referral

namespace Book

/-- Within a scope, the book has the keys of the events and no others, each with the exact sums of
what the events add to it. -/
structure Tallies (b : Book) (s : Scope) (es : List Event) : Prop where
  promoters : b.promoters.Tallies s.coversPromoter
    (es.map fun e => (e.promoterKey, PromoterTotals.ofEvent e))
  promoterDays : b.promoterDays.Tallies (fun k => s.coversPromoter k.1)
    (es.map fun e => ((e.promoterKey, e.day), PromoterTotals.ofEvent e))
  links : b.links.Tallies s.coversLink
    (es.map fun e => (e.linkKey, LinkTotals.ofEvent e))
  linkDays : b.linkDays.Tallies (fun k => s.coversLink k.1)
    (es.map fun e => ((e.linkKey, e.day), LinkTotals.ofEvent e))

variable {b b' : Book} {s : Scope} {es fs : List Event}

theorem tallies_empty (s : Scope) : (∅ : Book).Tallies s [] :=
  ⟨OrderedMap.tallies_empty _, OrderedMap.tallies_empty _, OrderedMap.tallies_empty _,
    OrderedMap.tallies_empty _⟩

/-- Events that add nothing to the scope do not matter. -/
theorem tallies_filter_iff :
    b.Tallies s (es.filter s.includes) ↔ b.Tallies s es := by
  have hp : ∀ e : Event, s.coversPromoter e.promoterKey = true → s.includes e = true :=
    fun e h => by simp [Scope.includes, h]
  have hl : ∀ e : Event, s.coversLink e.linkKey = true → s.includes e = true :=
    fun e h => by simp [Scope.includes, h]
  constructor
  · rintro ⟨h₁, h₂, h₃, h₄⟩
    exact ⟨(OrderedMap.tallies_map_filter_iff hp es).mp h₁,
      (OrderedMap.tallies_map_filter_iff hp es).mp h₂,
      (OrderedMap.tallies_map_filter_iff hl es).mp h₃,
      (OrderedMap.tallies_map_filter_iff hl es).mp h₄⟩
  · rintro ⟨h₁, h₂, h₃, h₄⟩
    exact ⟨(OrderedMap.tallies_map_filter_iff hp es).mpr h₁,
      (OrderedMap.tallies_map_filter_iff hp es).mpr h₂,
      (OrderedMap.tallies_map_filter_iff hl es).mpr h₃,
      (OrderedMap.tallies_map_filter_iff hl es).mpr h₄⟩

/-! ## Adding events -/

theorem add?_eq_some {e : Event} : b.add? e = some b' ↔
    b.promoters.add? e.promoterKey (.ofEvent e) = some b'.promoters ∧
    b.promoterDays.add? (e.promoterKey, e.day) (.ofEvent e) = some b'.promoterDays ∧
    b.links.add? e.linkKey (.ofEvent e) = some b'.links ∧
    b.linkDays.add? (e.linkKey, e.day) (.ofEvent e) = some b'.linkDays := by
  obtain ⟨p, pd, l, ld⟩ := b'
  simp only [add?, Option.bind_eq_bind, Option.bind_eq_some_iff, Option.some.injEq, mk.injEq]
  constructor
  · rintro ⟨_, h₁, _, h₂, _, h₃, _, h₄, rfl, rfl, rfl, rfl⟩
    exact ⟨h₁, h₂, h₃, h₄⟩
  · rintro ⟨h₁, h₂, h₃, h₄⟩
    exact ⟨_, h₁, _, h₂, _, h₃, _, h₄, rfl, rfl, rfl, rfl⟩

theorem add_eq_ok {e : Event} : b.add e = .ok b' ↔ b.add? e = some b' := by
  unfold add
  split <;> simp_all

theorem Tallies.add {e : Event} (h : b.Tallies s es) (hadd : b.add e = .ok b') :
    b'.Tallies s (es ++ [e]) := by
  obtain ⟨h₁, h₂, h₃, h₄⟩ := add?_eq_some.mp (add_eq_ok.mp hadd)
  constructor
  · simpa using h.promoters.add? h₁
  · simpa using h.promoterDays.add? h₂
  · simpa using h.links.add? h₃
  · simpa using h.linkDays.add? h₄

@[simp] theorem addAll_nil : b.addAll [] = .ok b := rfl

theorem addAll_cons {e : Event} :
    b.addAll (e :: es) = (b.add e).bind fun b => b.addAll es := rfl

theorem addAll_append : b.addAll (es ++ fs) = (b.addAll es).bind fun b => b.addAll fs := by
  induction es generalizing b with
  | nil => rfl
  | cons e es ih =>
    rw [List.cons_append, addAll_cons, addAll_cons]
    cases b.add e with
    | error _ => rfl
    | ok b' => exact ih

theorem Tallies.addAll (h : b.Tallies s es) (hadd : b.addAll fs = .ok b') :
    b'.Tallies s (es ++ fs) := by
  induction fs generalizing b es with
  | nil =>
    cases hadd
    simpa using h
  | cons f fs ih =>
    rw [addAll_cons] at hadd
    cases hf : b.add f with
    | error _ =>
      rw [hf] at hadd
      cases hadd
    | ok b₁ =>
      rw [hf] at hadd
      simpa using ih (h.add hf) hadd

/-- The book of some events tallies them. -/
theorem tallies_of_addAll_empty (hadd : (∅ : Book).addAll es = .ok b) : b.Tallies s es := by
  simpa using (tallies_empty s).addAll hadd

/-- The later events of the scope are added to a book of the earlier ones. -/
theorem Tallies.replay {n : ℕ} (h : b.Tallies s (es.take n))
    (hadd : b.addAll ((es.drop n).filter s.includes) = .ok b') : b'.Tallies s es := by
  have hall := (tallies_filter_iff.mpr h).addAll hadd
  rwa [← List.filter_append, List.take_append_drop, tallies_filter_iff] at hall

/-! ## Merging and replacing -/

theorem merge_eq_ok {delta : Book} : b.merge delta = .ok b' ↔
    b.promoters.addAll (fun k => k.promoter.display) delta.promoters.entries =
      .ok b'.promoters ∧
    b.promoterDays.addAll (fun k => k.1.promoter.display) delta.promoterDays.entries =
      .ok b'.promoterDays ∧
    b.links.addAll (fun k => k.link.display) delta.links.entries = .ok b'.links ∧
    b.linkDays.addAll (fun k => k.1.link.display) delta.linkDays.entries =
      .ok b'.linkDays := by
  obtain ⟨p, pd, l, ld⟩ := b'
  simp only [merge, bind, Except.bind]
  constructor
  · intro h
    split at h
    · cases h
    rename_i p' hp
    split at h
    · cases h
    rename_i pd' hpd
    split at h
    · cases h
    rename_i l' hl
    split at h
    · cases h
    rename_i ld' hld
    cases h
    exact ⟨hp, hpd, hl, hld⟩
  · rintro ⟨h₁, h₂, h₃, h₄⟩
    simp only [h₁, h₂, h₃, h₄]

theorem Tallies.merge {delta : Book} (h : b.Tallies s es) (hdelta : delta.Tallies s fs)
    (hmerge : b.merge delta = .ok b') : b'.Tallies s (es ++ fs) := by
  obtain ⟨h₁, h₂, h₃, h₄⟩ := merge_eq_ok.mp hmerge
  constructor
  · simpa using h.promoters.merge hdelta.promoters h₁
  · simpa using h.promoterDays.merge hdelta.promoterDays h₂
  · simpa using h.links.merge hdelta.links h₃
  · simpa using h.linkDays.merge hdelta.linkDays h₄

/-- Every total of a promoter is the sum of the one before and the one that was added. -/
theorem value_promoter_of_merge {delta : Book} (hmerge : b.merge delta = .ok b') (k : PromoterKey)
    (f : PromoterField) :
    (b'.promoter k).value f = (b.promoter k).value f + (delta.promoter k).value f :=
  OrderedMap.value_total_of_addAll (merge_eq_ok.mp hmerge).1 k f

/-- The exact sums of some events are all in range: a book can hold them. -/
def InRange (es : List Event) : Prop := ∃ b : Book, b.Tallies .all es

/-- Sums are in range up to any event if the events can be added one after the other. -/
theorem inRange_of_addAll (hadd : ((∅ : Book).addAll fs).isOk = true) (hes : es <+: fs) :
    InRange es := by
  obtain ⟨rest, rfl⟩ := hes
  rw [addAll_append] at hadd
  cases hpart : (∅ : Book).addAll es with
  | error _ =>
    rw [hpart] at hadd
    cases hadd
  | ok b => exact ⟨b, tallies_of_addAll_empty hpart⟩

/-- An event can be added if the sums with it are in range. -/
theorem Tallies.exists_add {e : Event} (h : b.Tallies .all es) (hall : InRange (es ++ [e])) :
    ∃ b', b.add e = .ok b' := by
  obtain ⟨n, h₁, h₂, h₃, h₄⟩ := hall
  simp only [List.map_append, List.map_cons, List.map_nil] at h₁ h₂ h₃ h₄
  obtain ⟨p, hp⟩ := h.promoters.exists_add? h₁ rfl
  obtain ⟨pd, hpd⟩ := h.promoterDays.exists_add? h₂ rfl
  obtain ⟨l, hl⟩ := h.links.exists_add? h₃ rfl
  obtain ⟨ld, hld⟩ := h.linkDays.exists_add? h₄ rfl
  exact ⟨⟨p, pd, l, ld⟩, add_eq_ok.mpr (add?_eq_some.mpr ⟨hp, hpd, hl, hld⟩)⟩

/-- A book can be merged if the sums with it are in range. -/
theorem Tallies.exists_merge {delta : Book} (h : b.Tallies .all es) (hdelta : delta.Tallies .all fs)
    (hall : InRange (es ++ fs)) : ∃ b', b.merge delta = .ok b' := by
  obtain ⟨n, h₁, h₂, h₃, h₄⟩ := hall
  simp only [List.map_append] at h₁ h₂ h₃ h₄
  obtain ⟨p, hp⟩ := h.promoters.exists_merge (fun k => k.promoter.display) hdelta.promoters h₁
    fun _ => rfl
  obtain ⟨pd, hpd⟩ := h.promoterDays.exists_merge (fun k => k.1.promoter.display)
    hdelta.promoterDays h₂ fun _ => rfl
  obtain ⟨l, hl⟩ := h.links.exists_merge (fun k => k.link.display) hdelta.links h₃ fun _ => rfl
  obtain ⟨ld, hld⟩ := h.linkDays.exists_merge (fun k => k.1.link.display) hdelta.linkDays h₄
    fun _ => rfl
  exact ⟨⟨p, pd, l, ld⟩, merge_eq_ok.mpr ⟨hp, hpd, hl, hld⟩⟩

/-- The totals of a promoter in two books add up if the sums of both are in range. -/
theorem Tallies.promoter_add? {delta : Book} (h : b.Tallies .all es)
    (hdelta : delta.Tallies .all fs) (hall : b'.Tallies .all (es ++ fs)) (k : PromoterKey) :
    (b.promoter k).add? (delta.promoter k) = some (b'.promoter k) := by
  have hn := hall.promoters
  rw [List.map_append] at hn
  exact h.promoters.total_add? hdelta.promoters hn rfl

theorem Tallies.restrict (h : b.Tallies s es) : (b.restrict s).Tallies s es :=
  ⟨h.promoters.filter fun _ hk => hk, h.promoterDays.filter fun _ hk => hk,
    h.links.filter fun _ hk => hk, h.linkDays.filter fun _ hk => hk⟩

/-- The replaced scope is tallied if the rebuilt book tallies it. -/
theorem Tallies.replaceScope {rebuilt : Book} (h : rebuilt.Tallies s es) (b : Book) :
    (b.replaceScope s rebuilt).Tallies s es :=
  ⟨h.promoters.patch, h.promoterDays.patch, h.links.patch, h.linkDays.patch⟩

/-- A book stays right as a whole if a scope is replaced by a book that is right within it. -/
theorem Tallies.replaceScope_all {rebuilt : Book} (h : rebuilt.Tallies s es)
    (hb : b.Tallies .all es) : (b.replaceScope s rebuilt).Tallies .all es :=
  ⟨h.promoters.patch_of_both hb.promoters, h.promoterDays.patch_of_both hb.promoterDays,
    h.links.patch_of_both hb.links, h.linkDays.patch_of_both hb.linkDays⟩

/-- Two books have the same entries at the keys outside of a scope. -/
structure AgreeOutside (s : Scope) (b b' : Book) : Prop where
  promoters : ∀ k, s.coversPromoter k = false → b'.promoters.get? k = b.promoters.get? k
  promoterDays : ∀ k, s.coversPromoter k.1 = false →
    b'.promoterDays.get? k = b.promoterDays.get? k
  links : ∀ k, s.coversLink k = false → b'.links.get? k = b.links.get? k
  linkDays : ∀ k, s.coversLink k.1 = false → b'.linkDays.get? k = b.linkDays.get? k

theorem agreeOutside_replaceScope (b rebuilt : Book) (s : Scope) :
    AgreeOutside s b (b.replaceScope s rebuilt) where
  promoters k hk := by simp [replaceScope, hk]
  promoterDays k hk := by simp [replaceScope, hk]
  links k hk := by simp [replaceScope, hk]
  linkDays k hk := by simp [replaceScope, hk]

end Book

end Referral
