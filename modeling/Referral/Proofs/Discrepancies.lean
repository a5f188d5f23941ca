import Referral.Drift
import Referral.Proofs.BookTally

/-!
# Where two books differ

The report on two books has one line for each key at which they differ, so its length is the number
of these keys, from either side, and it is empty exactly if the books are the same. Two books that
tally the same events within a scope are the same within it, so a stored book is found to agree with
one that was made from the log exactly if it tallies the log.
-/

namespace Referral

namespace OrderedMap

variable {κ ν : Type} [Ranked κ]

/-- The keys at which two maps differ: one that only one of them has, or one for which they have
different values. -/
def differing (left right : OrderedMap κ ν) : Set κ :=
  {k | left.contains k ≠ right.contains k ∨
    ∃ v w, left.get? k = some v ∧ right.get? k = some w ∧ v ≠ w}

theorem mem_differing {left right : OrderedMap κ ν} {k : κ} :
    k ∈ left.differing right ↔ left.get? k ≠ right.get? k := by
  change left.contains k ≠ right.contains k ∨
    (∃ v w, left.get? k = some v ∧ right.get? k = some w ∧ v ≠ w) ↔ _
  rw [contains_eq_isSome, contains_eq_isSome]
  cases left.get? k <;> cases right.get? k <;> simp

theorem differing_comm (left right : OrderedMap κ ν) :
    left.differing right = right.differing left := by
  ext k
  rw [mem_differing, mem_differing, ne_comm]

section Report

variable [DecidableEq ν] {left right : OrderedMap κ ν} {name : κ → String} {describe : ν → String}

/-- The keys that are reported, in the order of the report. -/
def reportedKeys (left right : OrderedMap κ ν) : List κ :=
  ((left.entries.map (·.1)).filter fun k => left.get? k ≠ right.get? k) ++
  ((right.entries.map (·.1)).filter fun k => !left.contains k)

theorem mem_reportedKeys {k : κ} : k ∈ left.reportedKeys right ↔ k ∈ left.differing right := by
  rw [mem_differing, reportedKeys, List.mem_append, List.mem_filter, List.mem_filter,
    ← contains_iff_mem, ← contains_iff_mem, contains_eq_isSome, contains_eq_isSome]
  cases left.get? k <;> cases right.get? k <;> simp

/-- No key is reported twice: the second pass leaves out all keys that the first one met. -/
theorem nodup_reportedKeys : (left.reportedKeys right).Nodup := by
  refine List.Nodup.append (left.nodup_keys.filter _) (right.nodup_keys.filter _) ?_
  intro k hfirst hsecond
  have hhas := (left.contains_iff_mem k).mpr (List.mem_filter.mp hfirst).1
  have hlacks := (List.mem_filter.mp hsecond).2
  simp [hhas] at hlacks

/-- A key is reported with what each of the maps has for it. -/
theorem differences_eq_map : left.differences right name describe =
    (left.reportedKeys right).map fun k =>
      ⟨name k, (left.get? k).map describe, (right.get? k).map describe⟩ := by
  rw [differences, reportedKeys, List.map_append, map_filter_keys, map_filter_keys]
  congr 1
  · refine List.filterMap_congr fun ⟨k, v⟩ hmem => ?_
    have hv : left.get? k = some v := mem_entries.mp hmem
    by_cases hsame : right.get? k = some v
    · simp [hv, hsame]
    · simp [hv, hsame, Ne.symm hsame]
  · refine List.filterMap_congr fun ⟨k, v⟩ hmem => ?_
    have hv : right.get? k = some v := mem_entries.mp hmem
    cases hleft : left.get? k with
    | none => simp [contains_eq_isSome, hleft, hv]
    | some w => simp [contains_eq_isSome, hleft]

/-- There are as many differences as keys at which the maps differ. -/
theorem length_differences :
    (left.differences right name describe).length = (left.differing right).ncard := by
  classical
  have hkeys : ((left.reportedKeys right).toFinset : Set κ) = left.differing right := by
    ext k
    rw [Finset.mem_coe, List.mem_toFinset, mem_reportedKeys]
  rw [differences_eq_map, List.length_map, ← hkeys, Set.ncard_coe_finset,
    List.toFinset_card_of_nodup nodup_reportedKeys]

/-- No difference is found exactly if there is none. -/
theorem differences_eq_nil_iff : left.differences right name describe = [] ↔ left = right := by
  rw [differences_eq_map, List.map_eq_nil_iff, List.eq_nil_iff_forall_not_mem]
  simp only [mem_reportedKeys, mem_differing, not_not]
  constructor
  · exact OrderedMap.ext
  · rintro rfl k
    rfl

end Report

/-- A test that all keys pass takes nothing out. -/
theorem filter_eq_self {m : OrderedMap κ ν} {p : κ → Bool}
    (h : ∀ k, m.contains k = true → p k = true) : m.filter p = m := by
  apply OrderedMap.ext
  intro k
  rw [get?_filter]
  by_cases hk : p k = true
  · rw [if_pos hk]
  · rw [if_neg hk]
    have hnot : m.contains k ≠ true := fun hcontains => hk (h k hcontains)
    exact (Option.not_isSome_iff_eq_none.mp hnot).symm

variable [DecidableEq κ] [Summable ν] [Measured ν] {m m' : OrderedMap κ ν} {p : κ → Bool}
  {cs : List (κ × ν)}

/-- Contributions decide what is found at a key. -/
theorem Tallies.get?_eq (h : m.Tallies p cs) (h' : m'.Tallies p cs) {k : κ} (hk : p k = true) :
    m.get? k = m'.get? k := by
  have hcontains : (m.get? k).isSome = (m'.get? k).isSome := by
    rw [← contains_eq_isSome, ← contains_eq_isSome, Bool.eq_iff_iff, h.contains_iff k hk,
      h'.contains_iff k hk]
  have htotal : m.total k = m'.total k := by
    apply Measured.value_injective
    intro f
    rw [h.value_total k hk, h'.value_total k hk]
  unfold total at htotal
  cases hm : m.get? k with
  | none =>
    rw [hm, Option.isSome_none] at hcontains
    exact (Option.not_isSome_iff_eq_none.mp (by rw [← hcontains]; decide)).symm
  | some v =>
    rw [hm, Option.isSome_some] at hcontains
    obtain ⟨v', hv'⟩ := Option.isSome_iff_exists.mp hcontains.symm
    rw [hm, hv', Option.getD_some, Option.getD_some] at htotal
    rw [hv', htotal]

/-- A map tallies contributions exactly if it agrees, where the test holds, with one that does. -/
theorem filter_eq_filter_iff (h' : m'.Tallies p cs) :
    m.filter p = m'.filter p ↔ m.Tallies p cs := by
  constructor
  · intro heq
    constructor
    · intro k hk
      rw [← contains_filter m hk, heq, contains_filter m' hk, h'.contains_iff k hk]
    · intro k hk f
      rw [← total_filter m hk, heq, total_filter m' hk, h'.value_total k hk f]
  · intro h
    apply OrderedMap.ext
    intro k
    rw [get?_filter, get?_filter]
    by_cases hk : p k = true
    · rw [if_pos hk, if_pos hk, h.get?_eq h' hk]
    · rw [if_neg hk, if_neg hk]

end OrderedMap

namespace Book

variable {b b' rebuilt : Book} {scope : Scope} {es : List Event}

/-- No line is reported exactly if the books are the same. -/
theorem driftLines_eq_nil_iff : b.driftLines b' = [] ↔ b = b' := by
  obtain ⟨p, pd, l, ld⟩ := b
  obtain ⟨p', pd', l', ld'⟩ := b'
  simp only [driftLines, differences, List.map_eq_nil_iff, List.append_eq_nil_iff,
    OrderedMap.differences_eq_nil_iff, mk.injEq, and_assoc]

/-- There are as many lines as keys at which the books differ. -/
theorem length_driftLines : (b.driftLines b').length =
    (b.promoters.differing b'.promoters).ncard +
    (b.promoterDays.differing b'.promoterDays).ncard +
    (b.links.differing b'.links).ncard +
    (b.linkDays.differing b'.linkDays).ncard := by
  simp only [driftLines, differences, List.length_map, List.length_append,
    OrderedMap.length_differences]

/-- The report on two books is empty exactly if all their entries are the same, it has a line for
each key at which they differ, and it is as long from the other side. -/
theorem driftLines_count_differing_keys (b b' : Book) :
    (b.driftLines b' = [] ↔
      b.promoters.entries = b'.promoters.entries ∧
      b.promoterDays.entries = b'.promoterDays.entries ∧
      b.links.entries = b'.links.entries ∧
      b.linkDays.entries = b'.linkDays.entries) ∧
    (b.driftLines b').length =
      (b.promoters.differing b'.promoters).ncard +
      (b.promoterDays.differing b'.promoterDays).ncard +
      (b.links.differing b'.links).ncard +
      (b.linkDays.differing b'.linkDays).ncard ∧
    (b'.driftLines b).length = (b.driftLines b').length := by
  refine ⟨?_, length_driftLines, ?_⟩
  · rw [driftLines_eq_nil_iff, OrderedMap.entries_inj, OrderedMap.entries_inj,
      OrderedMap.entries_inj, OrderedMap.entries_inj]
    cases b
    cases b'
    rw [mk.injEq]
  · rw [length_driftLines, length_driftLines, OrderedMap.differing_comm b.promoters,
      OrderedMap.differing_comm b.promoterDays, OrderedMap.differing_comm b.links,
      OrderedMap.differing_comm b.linkDays]

/-- Totals of zero are not missing totals, and one link under two promoters counts twice. -/
example :
    let links : OrderedMap LinkKey LinkTotals :=
      (OrderedMap.empty.insert ⟨⟨1⟩, ⟨2⟩, ⟨3⟩⟩ .zero).insert ⟨⟨1⟩, ⟨4⟩, ⟨3⟩⟩ .zero
    (({ (∅ : Book) with links } : Book).driftLines ∅).length = 2 := by
  decide

/-- A stored book agrees with the book of some events within a scope exactly if it tallies them. -/
theorem restrict_eq_restrict_iff (h : rebuilt.Tallies scope es) :
    b.restrict scope = rebuilt.restrict scope ↔ b.Tallies scope es := by
  simp only [restrict, mk.injEq, OrderedMap.filter_eq_filter_iff h.promoters,
    OrderedMap.filter_eq_filter_iff h.promoterDays, OrderedMap.filter_eq_filter_iff h.links,
    OrderedMap.filter_eq_filter_iff h.linkDays]
  constructor
  · rintro ⟨hpromoters, hpromoterDays, hlinks, hlinkDays⟩
    exact ⟨hpromoters, hpromoterDays, hlinks, hlinkDays⟩
  · rintro ⟨hpromoters, hpromoterDays, hlinks, hlinkDays⟩
    exact ⟨hpromoters, hpromoterDays, hlinks, hlinkDays⟩

/-- A scope that is not a link covers all that its events add to. -/
theorem restrict_eq_self (hscope : ∀ link, scope ≠ .link link) (h : b.Tallies .all es)
    (hes : ∀ e ∈ es, scope.includes e = true) : b.restrict scope = b := by
  have hpromoter : ∀ e ∈ es, scope.coversPromoter e.promoterKey = true := by
    intro e he
    have hincludes := hes e he
    cases scope with
    | link link => exact (hscope link rfl).elim
    | _ => simpa [Scope.includes, Scope.coversLink] using hincludes
  have hlink : ∀ e ∈ es, scope.coversLink e.linkKey = true := fun e he =>
    Scope.coversLink_of_coversPromoter (hpromoter e he)
  have hkey : ∀ {κ ν : Type} {key : Event → κ} {add : Event → ν} {k : κ},
      k ∈ (es.map fun e => (key e, add e)).map (·.1) → ∃ e ∈ es, key e = k := by
    intro κ ν key add k hk
    rw [List.map_map] at hk
    obtain ⟨e, he, rfl⟩ := List.mem_map.mp hk
    exact ⟨e, he, rfl⟩
  have h₁ : b.promoters.filter scope.coversPromoter = b.promoters :=
    OrderedMap.filter_eq_self fun k hk => by
      obtain ⟨e, he, rfl⟩ := hkey ((h.promoters.contains_iff k rfl).mp hk)
      exact hpromoter e he
  have h₂ : (b.promoterDays.filter fun k => scope.coversPromoter k.1) = b.promoterDays :=
    OrderedMap.filter_eq_self fun k hk => by
      obtain ⟨e, he, rfl⟩ := hkey ((h.promoterDays.contains_iff k rfl).mp hk)
      exact hpromoter e he
  have h₃ : b.links.filter scope.coversLink = b.links :=
    OrderedMap.filter_eq_self fun k hk => by
      obtain ⟨e, he, rfl⟩ := hkey ((h.links.contains_iff k rfl).mp hk)
      exact hlink e he
  have h₄ : (b.linkDays.filter fun k => scope.coversLink k.1) = b.linkDays :=
    OrderedMap.filter_eq_self fun k hk => by
      obtain ⟨e, he, rfl⟩ := hkey ((h.linkDays.contains_iff k rfl).mp hk)
      exact hlink e he
  rw [restrict, h₁, h₂, h₃, h₄]

end Book

end Referral
