import Referral.Proofs.Regrouping

/-!
# Totals of a scope from the events of the scope

A scope chooses keys in four maps and events in the log, and a link scope also chooses events that
add to promoters outside of it. What such events add there is cut off again: within the scope, the
book of the chosen events is the book of all events, so it may take the place of the scope without
changing anything. A replaced scope has the entries of the new book and nothing else moves.
-/

namespace Referral

namespace Book

variable {b b' : Book} {s : Scope} {es : List Event}

/-- Two books have the same entries at the keys of a scope. -/
structure AgreeWithin (s : Scope) (b b' : Book) : Prop where
  promoters : ∀ k, s.coversPromoter k = true → b'.promoters.get? k = b.promoters.get? k
  promoterDays : ∀ k, s.coversPromoter k.1 = true →
    b'.promoterDays.get? k = b.promoterDays.get? k
  links : ∀ k, s.coversLink k = true → b'.links.get? k = b.links.get? k
  linkDays : ∀ k, s.coversLink k.1 = true → b'.linkDays.get? k = b.linkDays.get? k

theorem agreeWithin_replaceScope (b rebuilt : Book) (s : Scope) :
    AgreeWithin s rebuilt (b.replaceScope s rebuilt) where
  promoters k hk := by simp [replaceScope, hk]
  promoterDays k hk := by simp [replaceScope, hk]
  links k hk := by simp [replaceScope, hk]
  linkDays k hk := by simp [replaceScope, hk]

/-- Any choice of some events can be added up if all of them can and none takes anything off. -/
theorem exists_ofEvents_filter (p : Event → Bool) (hnonneg : ∀ e ∈ es, e.NonNegative)
    (h : ofEvents es = .ok b) : ∃ part, ofEvents (es.filter p) = .ok part := by
  have hsplit : es.Perm (es.filter p ++ es.filter fun e => !p e) :=
    (List.filter_append_perm p es).symm
  exact exists_ofEvents_left ((ofEvents_perm hnonneg hsplit).mp h)

/-- The events of a scope make up its totals. -/
theorem tallies_ofEvents_filter (h : ofEvents (es.filter s.includes) = .ok b) : b.Tallies s es :=
  tallies_filter_iff.mp (tallies_of_addAll_empty h)

/-- Where none of some events takes anything off a total and all of them can be added up, those that
a scope includes can be, too: their book agrees with that of all events within the scope, and the
scope replaced by it is the same. Whatever the books are, a replaced scope has the entries of the
new book at each of its keys, and the entries at other keys stay. -/
theorem scope_of_included_events (s : Scope) :
    (∀ es b, (∀ e ∈ es, e.NonNegative) → ofEvents es = .ok b →
      ∃ part, ofEvents (es.filter s.includes) = .ok part ∧ part.restrict s = b.restrict s ∧
        b.replaceScope s part = b) ∧
    ∀ b rebuilt : Book, AgreeWithin s rebuilt (b.replaceScope s rebuilt) ∧
      AgreeOutside s b (b.replaceScope s rebuilt) := by
  refine ⟨fun es b hnonneg h => ?_, fun b rebuilt =>
    ⟨agreeWithin_replaceScope b rebuilt s, agreeOutside_replaceScope b rebuilt s⟩⟩
  obtain ⟨part, hpart⟩ := exists_ofEvents_filter s.includes hnonneg h
  have hall : b.Tallies .all es := tallies_of_addAll_empty h
  have hscope : part.Tallies s es := tallies_ofEvents_filter hpart
  exact ⟨part, hpart, (restrict_eq_restrict_iff (hall.of_all s)).mpr hscope,
    (hscope.replaceScope_all hall).eq_of_all hall⟩

/-- A link is used under two promoters of two programs, and the first of them has another link. The
events of the shared link leave out a purchase of the first promoter, which is outside of the
scope. -/
theorem scope_of_shared_link :
    let now : Instant := ⟨0, 0, by decide, by decide, by decide⟩
    let first := Event.signup ⟨1⟩ ⟨2⟩ ⟨3⟩ ⟨4⟩ ⟨5⟩ ⟨6⟩ now
    let second := Event.signup ⟨7⟩ ⟨2⟩ ⟨8⟩ ⟨9⟩ ⟨5⟩ ⟨6⟩ now
    let other := Event.purchase ⟨10⟩ ⟨2⟩ ⟨3⟩ ⟨4⟩ ⟨5⟩ ⟨11⟩ (some (Money.clamp 990000)) now
    let s := Scope.link ⟨6⟩
    (∀ e ∈ [first, other, second], e.NonNegative) ∧
    ∃ b part, ofEvents [first, other, second] = .ok b ∧ ofEvents [first, second] = .ok part ∧
      part.restrict s = b.restrict s ∧ b.replaceScope s part = b ∧
      part.promoter first.promoterKey ≠ b.promoter first.promoterKey := by
  intro now first second other s
  have hnonneg : ∀ e ∈ [first, other, second], e.NonNegative := by
    simp only [List.mem_cons, List.not_mem_nil, or_false]
    rintro e (rfl | rfl | rfl) <;> exact Event.nonNegative_of_validate (by decide +kernel)
  have hok : (ofEvents [first, other, second]).isOk = true := by decide +kernel
  have hchosen : [first, other, second].filter s.includes = [first, second] := by decide +kernel
  have hapart : (ofEvents [first, second]).toOption.map (·.promoter first.promoterKey) ≠
      (ofEvents [first, other, second]).toOption.map (·.promoter first.promoterKey) := by
    decide +kernel
  refine ⟨hnonneg, ?_⟩
  cases hb : ofEvents [first, other, second] with
  | error error =>
    rw [hb] at hok
    cases hok
  | ok b =>
    obtain ⟨part, hpart, hrestrict, hreplace⟩ := (scope_of_included_events s).1 _ b hnonneg hb
    rw [hchosen] at hpart
    rw [hb, hpart] at hapart
    exact ⟨b, part, rfl, hpart, hrestrict, hreplace, fun hsame => hapart (congrArg some hsame)⟩

end Book

end Referral
