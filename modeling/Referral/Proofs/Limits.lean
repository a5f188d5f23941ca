import Referral.Proofs.BookTally

/-!
# Sums out of range

Counts are held in 64 bits without a sign, amounts in 64 bits with one. A book can be added to
another exactly if at each of its keys the exact sum of every field is in the range of that field.
-/

namespace Referral

/-- Totals whose fields have ranges: a sum is there exactly if that of each field is in range. -/
class Limited (ν : Type) [Summable ν] [Measured ν] where
  Holds : Measured.Field ν → ℤ → Prop
  add?_isSome_iff : ∀ a b : ν,
    (Summable.add? a b).isSome = true ↔ ∀ f, Holds f (value a f + value b f)

/-- The numbers that a count can hold. -/
def Count.Holds (n : ℤ) : Prop := 0 ≤ n ∧ n < 18446744073709551616

/-- The ten-thousandths that an amount can hold. -/
def Money.Holds (n : ℤ) : Prop := -9223372036854775808 ≤ n ∧ n ≤ 9223372036854775807

instance (n : ℤ) : Decidable (Count.Holds n) := inferInstanceAs (Decidable (_ ∧ _))

instance (n : ℤ) : Decidable (Money.Holds n) := inferInstanceAs (Decidable (_ ∧ _))

theorem Count.exists_add?_iff {a b : Count} :
    (∃ c, Count.add? a b = some c) ↔ Count.Holds (a.toNat + b.toNat : ℤ) := by
  unfold Count.Holds
  constructor
  · rintro ⟨c, hc⟩
    have hsum := Count.add?_eq_some.mp hc
    have hlt := c.toNat_lt
    omega
  · intro h
    have hlt : a.toNat + b.toNat < 18446744073709551616 := by omega
    exact ⟨a + b, if_pos hlt⟩

theorem Money.exists_add?_iff {a b : Money} :
    (∃ c, a.add? b = some c) ↔ Money.Holds (a.units + b.units) := by
  unfold Money.Holds
  constructor
  · rintro ⟨c, hc⟩
    have hsum := Money.add?_eq_some.mp hc
    have hlower := c.lower
    have hupper := c.upper
    omega
  · rintro ⟨hlower, hupper⟩
    exact ⟨⟨a.units + b.units, hlower, hupper⟩, Money.add?_eq_some.mpr rfl⟩

/-- The numbers that a total of a promoter can hold. -/
def PromoterField.Holds : PromoterField → ℤ → Prop
  | .signups | .purchases => Count.Holds
  | .revenue | .commission | .throughSignups | .throughPurchases => Money.Holds

/-- The numbers that a total of a link can hold. -/
def LinkField.Holds : LinkField → ℤ → Prop
  | .signups | .purchases => Count.Holds
  | .commission => Money.Holds

instance : Limited PromoterTotals where
  Holds := PromoterField.Holds
  add?_isSome_iff a b := by
    have hparts : (Summable.add? a b).isSome = true ↔
        (∃ c, Count.add? a.signups b.signups = some c) ∧
        (∃ c, Count.add? a.purchases b.purchases = some c) ∧
        (∃ c, a.revenue.add? b.revenue = some c) ∧
        (∃ c, a.commission.add? b.commission = some c) ∧
        (∃ c, a.throughSignups.add? b.throughSignups = some c) ∧
        (∃ c, a.throughPurchases.add? b.throughPurchases = some c) := by
      simp only [Option.isSome_iff_exists, Summable.add?, PromoterTotals.add?,
        Option.bind_eq_bind, Option.bind_eq_some_iff, Option.some.injEq]
      constructor
      · rintro ⟨_, _, h₁, _, h₂, _, h₃, _, h₄, _, h₅, _, h₆, -⟩
        exact ⟨⟨_, h₁⟩, ⟨_, h₂⟩, ⟨_, h₃⟩, ⟨_, h₄⟩, ⟨_, h₅⟩, ⟨_, h₆⟩⟩
      · rintro ⟨⟨_, h₁⟩, ⟨_, h₂⟩, ⟨_, h₃⟩, ⟨_, h₄⟩, ⟨_, h₅⟩, ⟨_, h₆⟩⟩
        exact ⟨_, _, h₁, _, h₂, _, h₃, _, h₄, _, h₅, _, h₆, rfl⟩
    rw [hparts, Count.exists_add?_iff, Count.exists_add?_iff, Money.exists_add?_iff,
      Money.exists_add?_iff, Money.exists_add?_iff, Money.exists_add?_iff]
    constructor
    · rintro ⟨h₁, h₂, h₃, h₄, h₅, h₆⟩ f
      cases f <;> assumption
    · intro h
      exact ⟨h .signups, h .purchases, h .revenue, h .commission, h .throughSignups,
        h .throughPurchases⟩

instance : Limited LinkTotals where
  Holds := LinkField.Holds
  add?_isSome_iff a b := by
    have hparts : (Summable.add? a b).isSome = true ↔
        (∃ c, Count.add? a.signups b.signups = some c) ∧
        (∃ c, Count.add? a.purchases b.purchases = some c) ∧
        (∃ c, a.commission.add? b.commission = some c) := by
      simp only [Option.isSome_iff_exists, Summable.add?, LinkTotals.add?, Option.bind_eq_bind,
        Option.bind_eq_some_iff, Option.some.injEq]
      constructor
      · rintro ⟨_, _, h₁, _, h₂, _, h₃, -⟩
        exact ⟨⟨_, h₁⟩, ⟨_, h₂⟩, ⟨_, h₃⟩⟩
      · rintro ⟨⟨_, h₁⟩, ⟨_, h₂⟩, ⟨_, h₃⟩⟩
        exact ⟨_, _, h₁, _, h₂, _, h₃, rfl⟩
    rw [hparts, Count.exists_add?_iff, Count.exists_add?_iff, Money.exists_add?_iff]
    constructor
    · rintro ⟨h₁, h₂, h₃⟩ f
      cases f <;> assumption
    · intro h
      exact ⟨h .signups, h .purchases, h .commission⟩

namespace OrderedMap

section

variable {κ ν : Type} [Ranked κ] [DecidableEq κ] [Summable ν]

/-- Values at different keys can be added one after the other exactly if each can be added for
itself. -/
theorem exists_addAll_iff (name : κ → String) {es : List (κ × ν)}
    (hsorted : es.Pairwise fun a b => rank a.1 < rank b.1) (m : OrderedMap κ ν) :
    (∃ m', m.addAll name es = .ok m') ↔
      ∀ e ∈ es, ∃ sum, Summable.add? (m.total e.1) e.2 = some sum := by
  refine ⟨fun h => ?_, exists_addAll name hsorted m⟩
  induction es generalizing m with
  | nil => exact fun e he => absurd he (by simp)
  | cons e es ih =>
    obtain ⟨k, v⟩ := e
    rw [List.pairwise_cons] at hsorted
    obtain ⟨m', hm'⟩ := h
    cases hsum : Summable.add? (m.total k) v with
    | none => simp [addAll, add?, hsum] at hm'
    | some sum =>
      have hrest : (m.insert k sum).addAll name es = .ok m' := by
        simpa [addAll, add?, hsum] using hm'
      intro e he
      rcases List.mem_cons.mp he with rfl | he
      · exact ⟨sum, hsum⟩
      · -- the first sum does not change what is stored at the other keys
        have hne : e.1 ≠ k := fun heq => by
          have hlt := hsorted.1 e he
          simp [heq] at hlt
        have hlater := ih hsorted.2 (m.insert k sum) ⟨m', hrest⟩ e he
        rwa [total_insert, if_neg hne] at hlater

end

variable {κ ν : Type} [Ranked κ] [DecidableEq κ] [Summable ν] [Measured ν] [Limited ν]

/-- At some key of the one map the exact sum of some field is out of its range. -/
def Overflows (m delta : OrderedMap κ ν) : Prop :=
  ∃ k v, delta.get? k = some v ∧ ∃ f, ¬ Limited.Holds f (value (m.total k) f + value v f)

/-- A map cannot be added to another exactly if some sum is out of range. -/
theorem addAll_eq_error_iff (name : κ → String) (m delta : OrderedMap κ ν) :
    (∃ error, m.addAll name delta.entries = .error error) ↔ m.Overflows delta := by
  have hnone : ∀ k v, (¬ ∃ sum, Summable.add? (m.total k) v = some sum) ↔
      ∃ f, ¬ Limited.Holds f (value (m.total k) f + value v f) := by
    intro k v
    rw [← Option.isSome_iff_exists, Limited.add?_isSome_iff, not_forall]
  have hsplit : (∃ error, m.addAll name delta.entries = .error error) ↔
      ¬ ∃ m', m.addAll name delta.entries = .ok m' := by
    cases m.addAll name delta.entries <;> simp
  rw [hsplit, exists_addAll_iff name delta.sorted]
  unfold Overflows
  constructor
  · intro h
    push Not at h
    obtain ⟨⟨k, v⟩, hmem, hsum⟩ := h
    have hoverflow := (hnone k v).mp fun ⟨sum, heq⟩ => hsum sum heq
    exact ⟨k, v, mem_entries.mp hmem, hoverflow⟩
  · rintro ⟨k, v, hget, hoverflow⟩ hall
    exact (hnone k v).mpr hoverflow (hall (k, v) (mem_entries.mpr hget))

end OrderedMap

namespace Book

/-- In one of the four maps some sum is out of range. -/
inductive Overflows (b delta : Book) : Prop
  | promoters (h : b.promoters.Overflows delta.promoters)
  | promoterDays (h : b.promoterDays.Overflows delta.promoterDays)
  | links (h : b.links.Overflows delta.links)
  | linkDays (h : b.linkDays.Overflows delta.linkDays)

/-- A book cannot be merged exactly if some sum is out of range. -/
theorem merge_eq_error_iff {b delta : Book} :
    (∃ error, b.merge delta = .error error) ↔ b.Overflows delta := by
  have hsplit : (∃ error, b.merge delta = .error error) ↔ ¬ ∃ b', b.merge delta = .ok b' := by
    cases b.merge delta <;> simp
  have hpart : ∀ {κ ν : Type} [Ranked κ] [DecidableEq κ] [Summable ν] [Measured ν] [Limited ν]
      (name : κ → String) (m d : OrderedMap κ ν),
      (∃ m', m.addAll name d.entries = .ok m') ↔ ¬ m.Overflows d := by
    intro κ ν _ _ _ _ _ name m d
    rw [← OrderedMap.addAll_eq_error_iff name]
    cases m.addAll name d.entries <;> simp
  have hmerge : (∃ b', b.merge delta = .ok b') ↔
      ¬ b.promoters.Overflows delta.promoters ∧ ¬ b.promoterDays.Overflows delta.promoterDays ∧
      ¬ b.links.Overflows delta.links ∧ ¬ b.linkDays.Overflows delta.linkDays := by
    rw [← hpart fun k : PromoterKey => k.promoter.display,
      ← hpart fun k : PromoterKey × Day => k.1.promoter.display,
      ← hpart fun k : LinkKey => k.link.display,
      ← hpart fun k : LinkKey × Day => k.1.link.display]
    constructor
    · rintro ⟨b', h⟩
      obtain ⟨h₁, h₂, h₃, h₄⟩ := merge_eq_ok.mp h
      exact ⟨⟨_, h₁⟩, ⟨_, h₂⟩, ⟨_, h₃⟩, ⟨_, h₄⟩⟩
    · rintro ⟨⟨p, h₁⟩, ⟨pd, h₂⟩, ⟨l, h₃⟩, ⟨ld, h₄⟩⟩
      exact ⟨⟨p, pd, l, ld⟩, merge_eq_ok.mpr ⟨h₁, h₂, h₃, h₄⟩⟩
  rw [hsplit, hmerge]
  constructor
  · intro h
    by_contra hnone
    exact h ⟨fun h₁ => hnone (.promoters h₁), fun h₂ => hnone (.promoterDays h₂),
      fun h₃ => hnone (.links h₃), fun h₄ => hnone (.linkDays h₄)⟩
  · rintro h ⟨h₁, h₂, h₃, h₄⟩
    cases h with
    | promoters h => exact h₁ h
    | promoterDays h => exact h₂ h
    | links h => exact h₃ h
    | linkDays h => exact h₄ h

end Book

end Referral
