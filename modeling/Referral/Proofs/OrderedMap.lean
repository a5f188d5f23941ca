import Mathlib.Tactic
import Referral.Book

/-!
# Lookups in ordered maps

What a lookup finds after several insertions, after a patch and in a total. The keys of a map are
pairwise distinct, so inserting all its entries never overwrites one of them by another.
-/

namespace Referral

namespace OrderedMap

variable {κ ν : Type} [Ranked κ]

theorem entries_inj {m n : OrderedMap κ ν} : m.entries = n.entries ↔ m = n := by
  cases m
  cases n
  simp

theorem nodup_keys (m : OrderedMap κ ν) : (m.entries.map (·.1)).Nodup :=
  List.pairwise_map.mpr (m.sorted.imp fun hlt heq => Nat.ne_of_lt hlt (congrArg rank heq))

/-- What is made of the keys that pass a test can be made in one pass over the entries. -/
theorem map_filter_keys {β : Type} (m : OrderedMap κ ν) (p : κ → Bool) (f : κ → β) :
    ((m.entries.map (·.1)).filter p).map f =
      m.entries.filterMap fun e => if p e.1 then some (f e.1) else none := by
  rw [List.filter_map, List.map_map, ← List.filterMap_eq_map, List.filterMap_filter]
  rfl

theorem contains_eq_isSome (m : OrderedMap κ ν) (k : κ) : m.contains k = (m.get? k).isSome := rfl

@[simp] theorem contains_empty (k : κ) : (∅ : OrderedMap κ ν).contains k = false := rfl

theorem contains_iff_mem (m : OrderedMap κ ν) (k : κ) :
    m.contains k = true ↔ k ∈ m.entries.map (·.1) := by
  rw [contains_eq_isSome, Option.isSome_iff_exists, List.mem_map]
  constructor
  · rintro ⟨v, hv⟩
    exact ⟨(k, v), mem_entries.mpr hv, rfl⟩
  · rintro ⟨⟨j, v⟩, hmem, rfl⟩
    exact ⟨v, mem_entries.mp hmem⟩

theorem contains_filter (m : OrderedMap κ ν) {p : κ → Bool} {k : κ} (hk : p k = true) :
    (m.filter p).contains k = m.contains k := by
  simp [contains_eq_isSome, hk]

section Insert

variable [DecidableEq κ]

@[simp] theorem contains_insert (m : OrderedMap κ ν) (k j : κ) (v : ν) :
    (m.insert k v).contains j = (decide (j = k) || m.contains j) := by
  simp only [contains_eq_isSome, get?_insert]
  by_cases h : j = k <;> simp [h]

/-- A value that is set again is replaced. -/
theorem insert_insert (m : OrderedMap κ ν) (k : κ) (v w : ν) :
    (m.insert k v).insert k w = m.insert k w := by
  apply OrderedMap.ext
  intro j
  by_cases h : j = k <;> simp [h]

theorem get?_insertAll {es : List (κ × ν)} (hes : es.Pairwise fun a b => rank a.1 < rank b.1)
    (m : OrderedMap κ ν) (k : κ) : (m.insertAll es).get? k = (lookup k es).or (m.get? k) := by
  induction es generalizing m with
  | nil => rfl
  | cons e es ih =>
    obtain ⟨j, v⟩ := e
    rw [List.pairwise_cons] at hes
    have hstep : (m.insertAll ((j, v) :: es)).get? k = ((m.insert j v).insertAll es).get? k := rfl
    rw [hstep, ih hes.2, get?_insert]
    by_cases hk : k = j
    · subst hk
      have hnone : lookup k es = none :=
        lookup_eq_none fun e he => Nat.ne_of_gt (hes.1 e he)
      simp [lookup, hnone]
    · have hrank : ¬rank j = rank k := fun h => hk (Ranked.rank_injective _ _ h).symm
      simp [lookup, hk, hrank]

/-- A patch takes each key from the one map or from the other. -/
@[simp] theorem get?_patch (inside outside : OrderedMap κ ν) (p : κ → Bool) (k : κ) :
    (patch inside outside p).get? k = if p k then inside.get? k else outside.get? k := by
  rw [patch, get?_insertAll (inside.filter p).sorted]
  change ((inside.filter p).get? k).or ((outside.filter fun k => !p k).get? k) = _
  rw [get?_filter, get?_filter]
  by_cases hp : p k = true <;> simp [hp]

end Insert

section Total

variable [Summable ν]

@[simp] theorem total_empty (k : κ) : (∅ : OrderedMap κ ν).total k = Summable.zero := rfl

theorem total_insert [DecidableEq κ] (m : OrderedMap κ ν) (k j : κ) (v : ν) :
    (m.insert k v).total j = if j = k then v else m.total j := by
  simp only [total, get?_insert]
  split <;> rfl

theorem total_filter (m : OrderedMap κ ν) {p : κ → Bool} {k : κ} (hk : p k = true) :
    (m.filter p).total k = m.total k := by
  simp [total, hk]

end Total

end OrderedMap

end Referral
