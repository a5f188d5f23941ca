import Referral.Proofs.OrderedMap

/-!
# Exact sums

Totals are read as vectors of unbounded integers, one for each field. A map tallies a list of
contributions if it has exactly the keys that were contributed to, each with the exact sum of its
contributions. Adding one contribution, adding a whole map and patching a map keep this, whatever
the limits of the fields are, because a sum that would leave its range changes nothing.
-/

namespace Referral

/-- Totals whose fields are integers, and whose sum is there exactly if it is right in each
field. -/
class Measured (ν : Type) [Summable ν] where
  Field : Type
  value : ν → Field → ℤ
  value_zero : ∀ f, value Summable.zero f = 0
  value_injective : ∀ a b, (∀ f, value a f = value b f) → a = b
  add?_eq_some : ∀ a b c : ν,
    Summable.add? a b = some c ↔ ∀ f, value c f = value a f + value b f

attribute [simp] Measured.value_zero

export Measured (value)

/-- The totals that a promoter has. -/
inductive PromoterField
  | signups
  | purchases
  | revenue
  | commission
  | throughSignups
  | throughPurchases
deriving DecidableEq

/-- A total of a promoter as an integer, amounts in ten-thousandths. -/
def PromoterTotals.value (t : PromoterTotals) : PromoterField → ℤ
  | .signups => t.signups.toNat
  | .purchases => t.purchases.toNat
  | .revenue => t.revenue.units
  | .commission => t.commission.units
  | .throughSignups => t.throughSignups.units
  | .throughPurchases => t.throughPurchases.units

/-- The totals that a link has. -/
inductive LinkField
  | signups
  | purchases
  | commission
deriving DecidableEq

/-- A total of a link as an integer, amounts in ten-thousandths. -/
def LinkTotals.value (t : LinkTotals) : LinkField → ℤ
  | .signups => t.signups.toNat
  | .purchases => t.purchases.toNat
  | .commission => t.commission.units

theorem Count.add?_eq_some_iff_cast {a b c : Count} :
    Count.add? a b = some c ↔ (c.toNat : ℤ) = a.toNat + b.toNat := by
  rw [Count.add?_eq_some]
  omega

theorem PromoterTotals.value_injective {a b : PromoterTotals} (h : ∀ f, a.value f = b.value f) :
    a = b := by
  have hs : a.signups = b.signups := UInt64.toNat_inj.mp (Int.ofNat_inj.mp (h .signups))
  have hp : a.purchases = b.purchases := UInt64.toNat_inj.mp (Int.ofNat_inj.mp (h .purchases))
  have hr : a.revenue = b.revenue := Money.ext (h .revenue)
  have hc : a.commission = b.commission := Money.ext (h .commission)
  have hts : a.throughSignups = b.throughSignups := Money.ext (h .throughSignups)
  have htp : a.throughPurchases = b.throughPurchases := Money.ext (h .throughPurchases)
  cases a
  cases b
  simp_all

theorem PromoterTotals.add?_eq_some_iff {a b c : PromoterTotals} :
    a.add? b = some c ↔ ∀ f, c.value f = a.value f + b.value f := by
  have hparts : a.add? b = some c ↔
      Count.add? a.signups b.signups = some c.signups ∧
      Count.add? a.purchases b.purchases = some c.purchases ∧
      a.revenue.add? b.revenue = some c.revenue ∧
      a.commission.add? b.commission = some c.commission ∧
      a.throughSignups.add? b.throughSignups = some c.throughSignups ∧
      a.throughPurchases.add? b.throughPurchases = some c.throughPurchases := by
    obtain ⟨s, p, r, m, ts, tp⟩ := c
    simp only [add?, Option.bind_eq_bind, Option.bind_eq_some_iff, Option.some.injEq, mk.injEq]
    constructor
    · rintro ⟨_, h₁, _, h₂, _, h₃, _, h₄, _, h₅, _, h₆, rfl, rfl, rfl, rfl, rfl, rfl⟩
      exact ⟨h₁, h₂, h₃, h₄, h₅, h₆⟩
    · rintro ⟨h₁, h₂, h₃, h₄, h₅, h₆⟩
      exact ⟨_, h₁, _, h₂, _, h₃, _, h₄, _, h₅, _, h₆, rfl, rfl, rfl, rfl, rfl, rfl⟩
  rw [hparts]
  simp only [Count.add?_eq_some_iff_cast, Money.add?_eq_some]
  constructor
  · rintro ⟨h₁, h₂, h₃, h₄, h₅, h₆⟩ f
    cases f <;> assumption
  · intro h
    exact ⟨h .signups, h .purchases, h .revenue, h .commission, h .throughSignups,
      h .throughPurchases⟩

instance : Measured PromoterTotals where
  Field := PromoterField
  value := PromoterTotals.value
  value_zero f := by cases f <;> rfl
  value_injective _ _ h := PromoterTotals.value_injective h
  add?_eq_some _ _ _ := PromoterTotals.add?_eq_some_iff

theorem LinkTotals.value_injective {a b : LinkTotals} (h : ∀ f, a.value f = b.value f) :
    a = b := by
  have hs : a.signups = b.signups := UInt64.toNat_inj.mp (Int.ofNat_inj.mp (h .signups))
  have hp : a.purchases = b.purchases := UInt64.toNat_inj.mp (Int.ofNat_inj.mp (h .purchases))
  have hc : a.commission = b.commission := Money.ext (h .commission)
  cases a
  cases b
  simp_all

theorem LinkTotals.add?_eq_some_iff {a b c : LinkTotals} :
    a.add? b = some c ↔ ∀ f, c.value f = a.value f + b.value f := by
  have hparts : a.add? b = some c ↔
      Count.add? a.signups b.signups = some c.signups ∧
      Count.add? a.purchases b.purchases = some c.purchases ∧
      a.commission.add? b.commission = some c.commission := by
    obtain ⟨s, p, m⟩ := c
    simp only [add?, Option.bind_eq_bind, Option.bind_eq_some_iff, Option.some.injEq, mk.injEq]
    constructor
    · rintro ⟨_, h₁, _, h₂, _, h₃, rfl, rfl, rfl⟩
      exact ⟨h₁, h₂, h₃⟩
    · rintro ⟨h₁, h₂, h₃⟩
      exact ⟨_, h₁, _, h₂, _, h₃, rfl, rfl, rfl⟩
  rw [hparts]
  simp only [Count.add?_eq_some_iff_cast, Money.add?_eq_some]
  constructor
  · rintro ⟨h₁, h₂, h₃⟩ f
    cases f <;> assumption
  · intro h
    exact ⟨h .signups, h .purchases, h .commission⟩

instance : Measured LinkTotals where
  Field := LinkField
  value := LinkTotals.value
  value_zero f := by cases f <;> rfl
  value_injective _ _ h := LinkTotals.value_injective h
  add?_eq_some _ _ _ := LinkTotals.add?_eq_some_iff

/-! ## Contributions to a map -/

section Sum

variable {κ ν : Type} [DecidableEq κ] [Summable ν] [Measured ν]

/-- The exact sum of one field of the contributions to a key. -/
def sumAt (cs : List (κ × ν)) (k : κ) (f : Measured.Field ν) : ℤ :=
  ((cs.filter (·.1 = k)).map fun c => value c.2 f).sum

@[simp] theorem sumAt_nil (k : κ) (f : Measured.Field ν) :
    sumAt ([] : List (κ × ν)) k f = 0 := rfl

theorem sumAt_cons (c : κ × ν) (cs : List (κ × ν)) (k : κ) (f : Measured.Field ν) :
    sumAt (c :: cs) k f = (if c.1 = k then value c.2 f else 0) + sumAt cs k f := by
  by_cases h : c.1 = k <;> simp [sumAt, h]

theorem sumAt_append (cs ds : List (κ × ν)) (k : κ) (f : Measured.Field ν) :
    sumAt (cs ++ ds) k f = sumAt cs k f + sumAt ds k f := by
  simp [sumAt]

/-- Where only sources without a contribution to the key are left out, the sum stays. -/
theorem sumAt_map_filter {ε : Type} {g : ε → κ × ν} {q : ε → Bool} {k : κ}
    (hq : ∀ e, (g e).1 = k → q e = true) (es : List ε) (f : Measured.Field ν) :
    sumAt ((es.filter q).map g) k f = sumAt (es.map g) k f := by
  induction es with
  | nil => rfl
  | cons e es ih =>
    by_cases he : q e = true
    · simp [sumAt_cons, he, ih]
    · have hk : (g e).1 ≠ k := fun hk => he (hq e hk)
      simp [sumAt_cons, he, hk, ih]

/-- A key without contributions has the sum zero. -/
theorem sumAt_eq_zero {cs : List (κ × ν)} {k : κ} (h : k ∉ cs.map (·.1))
    (f : Measured.Field ν) : sumAt cs k f = 0 := by
  have hnil : cs.filter (·.1 = k) = [] := by
    rw [List.filter_eq_nil_iff]
    intro c hc hk
    exact h (List.mem_map.mpr ⟨c, hc, by simpa using hk⟩)
  simp [sumAt, hnil]

end Sum

namespace OrderedMap

variable {κ ν : Type} [Ranked κ] [DecidableEq κ] [Summable ν] [Measured ν]

/-- Among the keys that pass a test, the map has exactly those that were contributed to, and the
total of each is the exact sum of its contributions, field by field. -/
structure Tallies (m : OrderedMap κ ν) (p : κ → Bool) (cs : List (κ × ν)) : Prop where
  contains_iff : ∀ k, p k = true → (m.contains k = true ↔ k ∈ cs.map (·.1))
  value_total : ∀ k, p k = true → ∀ f, value (m.total k) f = sumAt cs k f

variable {m m' : OrderedMap κ ν} {p : κ → Bool} {cs ds : List (κ × ν)}

theorem tallies_empty (p : κ → Bool) : (∅ : OrderedMap κ ν).Tallies p [] where
  contains_iff k _ := by simp
  value_total k _ f := by simp

/-- Only the contributions to the keys that pass the test matter. -/
theorem Tallies.congr (h : m.Tallies p cs)
    (hmem : ∀ k, p k = true → (k ∈ cs.map (·.1) ↔ k ∈ ds.map (·.1)))
    (hsum : ∀ k, p k = true → ∀ f, sumAt cs k f = sumAt ds k f) : m.Tallies p ds where
  contains_iff k hk := (h.contains_iff k hk).trans (hmem k hk)
  value_total k hk f := (h.value_total k hk f).trans (hsum k hk f)

theorem Tallies.mono {q : κ → Bool} (h : m.Tallies p cs) (hq : ∀ k, q k = true → p k = true) :
    m.Tallies q cs where
  contains_iff k hk := h.contains_iff k (hq k hk)
  value_total k hk := h.value_total k (hq k hk)

/-- Sources without a contribution to a key that passes the test may be left out. -/
theorem tallies_map_filter_iff {ε : Type} {g : ε → κ × ν} {q : ε → Bool}
    (hq : ∀ e, p (g e).1 = true → q e = true) (es : List ε) :
    m.Tallies p ((es.filter q).map g) ↔ m.Tallies p (es.map g) := by
  have hmem : ∀ k, p k = true →
      (k ∈ ((es.filter q).map g).map (·.1) ↔ k ∈ (es.map g).map (·.1)) := by
    intro k hk
    simp only [List.map_map, List.mem_map, List.mem_filter, Function.comp]
    constructor
    · rintro ⟨e, ⟨he, -⟩, rfl⟩
      exact ⟨e, he, rfl⟩
    · rintro ⟨e, he, rfl⟩
      exact ⟨e, ⟨he, hq e hk⟩, rfl⟩
  have hsum : ∀ k, p k = true → ∀ f,
      sumAt ((es.filter q).map g) k f = sumAt (es.map g) k f :=
    fun k hk f => sumAt_map_filter (fun e he => hq e (he ▸ hk)) es f
  constructor
  · exact fun h => h.congr hmem hsum
  · exact fun h => h.congr (fun k hk => (hmem k hk).symm) fun k hk f => (hsum k hk f).symm

theorem Tallies.add? {k : κ} {v : ν} (h : m.Tallies p cs) (hadd : m.add? k v = some m') :
    m'.Tallies p (cs ++ [(k, v)]) := by
  obtain ⟨sum, hsum, rfl⟩ := Option.map_eq_some_iff.mp hadd
  rw [Measured.add?_eq_some] at hsum
  constructor
  · intro j hj
    have hold := h.contains_iff j hj
    by_cases hjk : j = k <;> simp_all
  · intro j hj f
    have hold := h.value_total j hj f
    rw [total_insert, sumAt_append, sumAt_cons]
    by_cases hjk : j = k
    · subst hjk
      simp [hsum f, hold]
    · simp [hjk, Ne.symm hjk, hold]

theorem Tallies.addAll {name : κ → String} {es : List (κ × ν)} (h : m.Tallies p cs)
    (hadd : m.addAll name es = .ok m') : m'.Tallies p (cs ++ es) := by
  induction es generalizing m cs with
  | nil =>
    cases hadd
    simpa using h
  | cons e es ih =>
    obtain ⟨k, v⟩ := e
    simp only [OrderedMap.addAll] at hadd
    split at hadd
    · rename_i m₁ hm₁
      simpa using ih (h.add? hm₁) hadd
    · cases hadd

/-- A map tallies its own entries. -/
theorem tallies_entries (m : OrderedMap κ ν) (p : κ → Bool) : m.Tallies p m.entries where
  contains_iff k _ := m.contains_iff_mem k
  value_total k _ f := by
    obtain ⟨es, hes⟩ := m
    change value ((lookup k es).getD Summable.zero) f = sumAt es k f
    induction es with
    | nil => simp [lookup]
    | cons e es ih =>
      obtain ⟨j, v⟩ := e
      rw [List.pairwise_cons] at hes
      rw [sumAt_cons]
      by_cases hj : j = k
      · subst hj
        have hnot : j ∉ es.map (·.1) := by
          rintro hmem
          obtain ⟨e, he, heq⟩ := List.mem_map.mp hmem
          have hlt := hes.1 e he
          simp [heq] at hlt
        simp [lookup, sumAt_eq_zero hnot]
      · have hrank : ¬rank j = rank k := fun h => hj (Ranked.rank_injective _ _ h)
        simp [lookup, hrank, hj, ih hes.2]

/-- Adding a map that tallies some contributions adds these contributions. -/
theorem Tallies.merge {name : κ → String} {delta : OrderedMap κ ν} (h : m.Tallies p cs)
    (hdelta : delta.Tallies p ds) (hadd : m.addAll name delta.entries = .ok m') :
    m'.Tallies p (cs ++ ds) := by
  have hown := delta.tallies_entries p
  refine (h.addAll hadd).congr (fun k hk => ?_) fun k hk f => ?_
  · simp only [List.map_append, List.mem_append]
    rw [← hown.contains_iff k hk, hdelta.contains_iff k hk]
  · rw [sumAt_append, sumAt_append, ← hown.value_total k hk f, hdelta.value_total k hk f]

/-- After a whole map was added, every total is the sum of the two totals. -/
theorem value_total_of_addAll {name : κ → String} {delta : OrderedMap κ ν}
    (hadd : m.addAll name delta.entries = .ok m') (k : κ) (f : Measured.Field ν) :
    value (m'.total k) f = value (m.total k) f + value (delta.total k) f := by
  have hown := m.tallies_entries fun _ => true
  have hdelta := delta.tallies_entries fun _ => true
  rw [(hown.merge hdelta hadd).value_total k rfl, sumAt_append, hown.value_total k rfl,
    hdelta.value_total k rfl]

theorem Tallies.filter {q : κ → Bool} (h : m.Tallies p cs)
    (hq : ∀ k, p k = true → q k = true) : (m.filter q).Tallies p cs where
  contains_iff k hk := by rw [contains_filter m (hq k hk), h.contains_iff k hk]
  value_total k hk f := by rw [total_filter m (hq k hk), h.value_total k hk f]

/-- The keys that a patch takes from the inner map are tallied if they are there. -/
theorem Tallies.patch {inside outside : OrderedMap κ ν} (h : inside.Tallies p cs) :
    (patch inside outside p).Tallies p cs where
  contains_iff k hk := by simp [← h.contains_iff k hk, contains_eq_isSome, hk]
  value_total k hk f := by simp [← h.value_total k hk f, total, hk]

/-- Where inner and outer map tally the same contributions, the patch does. -/
theorem Tallies.patch_of_both {inside outside : OrderedMap κ ν} {q : κ → Bool}
    (hin : inside.Tallies p cs) (hout : outside.Tallies q cs) :
    (OrderedMap.patch inside outside p).Tallies q cs where
  contains_iff k hk := by
    by_cases hp : p k = true
    · exact hin.patch.contains_iff k hp
    · simp [← hout.contains_iff k hk, contains_eq_isSome, hp]
  value_total k hk f := by
    by_cases hp : p k = true
    · exact hin.patch.value_total k hp f
    · simp [← hout.value_total k hk f, total, hp]

/-! ### Sums in range

A sum exists if some map holds the exact sums, whatever lies between. -/

section InRange

variable {n : OrderedMap κ ν}

/-- The totals at a key add up if some map holds the exact sum. -/
theorem Tallies.total_add? {d : OrderedMap κ ν} (h : m.Tallies p cs) (hd : d.Tallies p ds)
    (hn : n.Tallies p (cs ++ ds)) {k : κ} (hk : p k = true) :
    Summable.add? (m.total k) (d.total k) = some (n.total k) := by
  rw [Measured.add?_eq_some]
  intro f
  rw [hn.value_total k hk, h.value_total k hk, hd.value_total k hk, sumAt_append]

/-- One more contribution can be added if some map holds the exact sums with it. -/
theorem Tallies.exists_add? {k : κ} {v : ν} (h : m.Tallies p cs)
    (hn : n.Tallies p (cs ++ [(k, v)])) (hk : p k = true) : ∃ m', m.add? k v = some m' := by
  have hsum : Summable.add? (m.total k) v = some (n.total k) := by
    rw [Measured.add?_eq_some]
    intro f
    rw [hn.value_total k hk, h.value_total k hk, sumAt_append, sumAt_cons]
    simp
  exact ⟨m.insert k (n.total k), by simp [OrderedMap.add?, hsum]⟩

omit [Measured ν] in
/-- Values at different keys can be added one after the other if each can be added for itself. -/
theorem exists_addAll (name : κ → String) {es : List (κ × ν)}
    (hsorted : es.Pairwise fun a b => rank a.1 < rank b.1) (m : OrderedMap κ ν)
    (hsum : ∀ e ∈ es, ∃ sum, Summable.add? (m.total e.1) e.2 = some sum) :
    ∃ m', m.addAll name es = .ok m' := by
  induction es generalizing m with
  | nil => exact ⟨m, rfl⟩
  | cons e es ih =>
    obtain ⟨k, v⟩ := e
    rw [List.pairwise_cons] at hsorted
    obtain ⟨sum, hk⟩ := hsum (k, v) List.mem_cons_self
    have hrest : ∀ e ∈ es, ∃ next,
        Summable.add? ((m.insert k sum).total e.1) e.2 = some next := by
      intro e he
      have hne : e.1 ≠ k := fun heq => by
        have hlt := hsorted.1 e he
        simp [heq] at hlt
      rw [total_insert, if_neg hne]
      exact hsum e (List.mem_cons_of_mem _ he)
    obtain ⟨m', hm'⟩ := ih hsorted.2 (m.insert k sum) hrest
    exact ⟨m', by simpa [OrderedMap.addAll, OrderedMap.add?, hk] using hm'⟩

/-- A whole map can be added if some map holds the exact sums. -/
theorem Tallies.exists_merge {d : OrderedMap κ ν} (name : κ → String) (h : m.Tallies p cs)
    (hd : d.Tallies p ds) (hn : n.Tallies p (cs ++ ds)) (hp : ∀ k, p k = true) :
    ∃ m', m.addAll name d.entries = .ok m' := by
  refine exists_addAll name d.sorted m fun e he => ⟨n.total e.1, ?_⟩
  have htotal : d.total e.1 = e.2 := by
    have hget : d.get? e.1 = some e.2 := mem_entries.mp he
    rw [total, hget]
    rfl
  rw [← htotal]
  exact h.total_add? hd hn (hp e.1)

end InRange

end OrderedMap

end Referral
