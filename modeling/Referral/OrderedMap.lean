/-!
# Ordered maps

A map is the list of its entries in strictly rising order of their keys, so two maps with the same
lookups are equal and reading a map from left to right shows its keys in order. A key type has a
rank: an injection into the numbers below some bound that fixes the order.
-/

namespace Referral

/-- A type of keys, each with a number of its own below a common bound. -/
class Ranked (κ : Type) where
  rank : κ → Nat
  ranks : Nat
  rank_lt : ∀ a, rank a < ranks
  rank_injective : ∀ a b, rank a = rank b → a = b

export Ranked (rank)

/-- Pairs are ordered by their first parts, and by their second parts where those agree. -/
instance {α β : Type} [Ranked α] [Ranked β] : Ranked (α × β) where
  rank p := rank p.1 * Ranked.ranks β + rank p.2
  ranks := Ranked.ranks α * Ranked.ranks β
  rank_lt p := by
    have h₁ := Ranked.rank_lt p.1
    have h₂ := Ranked.rank_lt p.2
    calc rank p.1 * Ranked.ranks β + rank p.2
        < rank p.1 * Ranked.ranks β + Ranked.ranks β := by omega
      _ = (rank p.1 + 1) * Ranked.ranks β := (Nat.succ_mul _ _).symm
      _ ≤ Ranked.ranks α * Ranked.ranks β := Nat.mul_le_mul_right _ h₁
  rank_injective p q h := by
    have h₁ := Ranked.rank_lt p.2
    have h₂ := Ranked.rank_lt q.2
    have hpos : 0 < Ranked.ranks β := by omega
    have hmod := congrArg (· % Ranked.ranks β) h
    have hdiv := congrArg (· / Ranked.ranks β) h
    simp only [Nat.mul_add_mod_self_right, Nat.mod_eq_of_lt h₁, Nat.mod_eq_of_lt h₂] at hmod
    simp only [Nat.mul_comm _ (Ranked.ranks β), Nat.mul_add_div hpos, Nat.div_eq_of_lt h₁,
      Nat.div_eq_of_lt h₂, Nat.add_zero] at hdiv
    exact Prod.ext (Ranked.rank_injective _ _ hdiv) (Ranked.rank_injective _ _ hmod)

/-- The ranks of a type that embeds into a ranked one. -/
@[reducible] def Ranked.ofEmbedding {α β : Type} [Ranked β] (f : α → β)
    (h : ∀ a b, f a = f b → a = b) : Ranked α where
  rank a := rank (f a)
  ranks := Ranked.ranks β
  rank_lt a := Ranked.rank_lt (f a)
  rank_injective a b hab := h a b (Ranked.rank_injective _ _ hab)

/-- A finite map as its entries in rising order of the keys. -/
structure OrderedMap (κ ν : Type) [Ranked κ] where
  entries : List (κ × ν)
  sorted : entries.Pairwise fun a b => rank a.1 < rank b.1

namespace OrderedMap

variable {κ ν : Type} [Ranked κ]

/-- The value stored at a key in a list of entries. -/
def lookup (k : κ) : List (κ × ν) → Option ν
  | [] => none
  | (k', v) :: rest => if rank k' = rank k then some v else lookup k rest

/-- The entries with the value at one key set, at its place in the order. -/
def place (k : κ) (v : ν) : List (κ × ν) → List (κ × ν)
  | [] => [(k, v)]
  | (k', v') :: rest =>
    if rank k < rank k' then (k, v) :: (k', v') :: rest
    else if rank k = rank k' then (k, v) :: rest
    else (k', v') :: place k v rest

theorem mem_place {k : κ} {v : ν} {e : κ × ν} {es : List (κ × ν)} (h : e ∈ place k v es) :
    e = (k, v) ∨ e ∈ es := by
  induction es with
  | nil => simpa [place] using h
  | cons x rest ih =>
    obtain ⟨k', v'⟩ := x
    simp only [place] at h
    split at h
    · simpa using h
    · split at h
      · rcases List.mem_cons.mp h with h | h
        · exact .inl h
        · exact .inr (List.mem_cons_of_mem _ h)
      · rcases List.mem_cons.mp h with h | h
        · exact .inr (h ▸ List.mem_cons_self)
        · rcases ih h with h | h
          · exact .inl h
          · exact .inr (List.mem_cons_of_mem _ h)

theorem sorted_place (k : κ) (v : ν) {es : List (κ × ν)}
    (h : es.Pairwise fun a b => rank a.1 < rank b.1) :
    (place k v es).Pairwise fun a b => rank a.1 < rank b.1 := by
  induction es with
  | nil => simp [place]
  | cons x rest ih =>
    obtain ⟨k', v'⟩ := x
    rw [List.pairwise_cons] at h
    simp only [place]
    split
    · rename_i hlt
      refine List.pairwise_cons.mpr ⟨fun e he => ?_, List.pairwise_cons.mpr h⟩
      rcases List.mem_cons.mp he with rfl | he
      · exact hlt
      · exact Nat.lt_trans hlt (h.1 e he)
    · split
      · rename_i heq
        exact List.pairwise_cons.mpr ⟨fun e he => heq ▸ h.1 e he, h.2⟩
      · refine List.pairwise_cons.mpr ⟨fun e he => ?_, ih h.2⟩
        rcases mem_place he with rfl | he
        · show rank k' < rank k
          omega
        · exact h.1 e he

/-- The map without entries. -/
def empty : OrderedMap κ ν := ⟨[], .nil⟩

instance : EmptyCollection (OrderedMap κ ν) := ⟨empty⟩

instance : Inhabited (OrderedMap κ ν) := ⟨empty⟩

/-- The value at a key. -/
def get? (m : OrderedMap κ ν) (k : κ) : Option ν := lookup k m.entries

/-- Whether a key has a value. -/
def contains (m : OrderedMap κ ν) (k : κ) : Bool := (m.get? k).isSome

/-- The map with the value at one key set. -/
def insert (m : OrderedMap κ ν) (k : κ) (v : ν) : OrderedMap κ ν :=
  ⟨place k v m.entries, sorted_place k v m.sorted⟩

/-- The map with several values set, one after the other. -/
def insertAll (m : OrderedMap κ ν) (es : List (κ × ν)) : OrderedMap κ ν :=
  es.foldl (fun m e => m.insert e.1 e.2) m

/-- The entries whose key satisfies the test. -/
def filter (m : OrderedMap κ ν) (p : κ → Bool) : OrderedMap κ ν :=
  ⟨m.entries.filter fun e => p e.1, m.sorted.filter _⟩

/-- The number of entries. -/
def size (m : OrderedMap κ ν) : Nat := m.entries.length

/-- Whether there is no entry. -/
def isEmpty (m : OrderedMap κ ν) : Bool := m.entries.isEmpty

@[simp] theorem get?_empty (k : κ) : (∅ : OrderedMap κ ν).get? k = none := rfl

theorem lookup_place [DecidableEq κ] (k k' : κ) (v : ν) (es : List (κ × ν)) :
    lookup k' (place k v es) = if k' = k then some v else lookup k' es := by
  have key : ∀ a b : κ, rank a = rank b ↔ a = b :=
    fun a b => ⟨Ranked.rank_injective a b, congrArg rank⟩
  induction es with
  | nil => simp only [place, lookup, key, eq_comm]
  | cons x rest ih =>
    obtain ⟨j, w⟩ := x
    simp only [place]
    split
    · simp only [lookup, key, eq_comm]
    · split
      · rename_i heq
        rw [key] at heq
        subst heq
        simp only [lookup, key, eq_comm]
        split <;> rfl
      · rename_i hne
        rw [key] at hne
        simp only [lookup, key, ih]
        by_cases hj : j = k'
        · subst hj
          simp [Ne.symm hne]
        · simp [hj]

@[simp] theorem get?_insert [DecidableEq κ] (m : OrderedMap κ ν) (k k' : κ) (v : ν) :
    (m.insert k v).get? k' = if k' = k then some v else m.get? k' := lookup_place k k' v m.entries

theorem lookup_eq_none {k : κ} {es : List (κ × ν)} (h : ∀ e ∈ es, rank e.1 ≠ rank k) :
    lookup k es = none := by
  induction es with
  | nil => rfl
  | cons x rest ih =>
    obtain ⟨k', v⟩ := x
    have hk : ¬rank k' = rank k := h (k', v) List.mem_cons_self
    simp only [lookup, hk, if_false]
    exact ih fun e he => h e (List.mem_cons_of_mem _ he)

/-- An entry is in the list exactly where looking up its key finds its value. -/
theorem mem_iff_lookup {k : κ} {v : ν} {es : List (κ × ν)}
    (h : es.Pairwise fun a b => rank a.1 < rank b.1) : (k, v) ∈ es ↔ lookup k es = some v := by
  induction es with
  | nil => simp [lookup]
  | cons x rest ih =>
    obtain ⟨k', v'⟩ := x
    rw [List.pairwise_cons] at h
    simp only [lookup, List.mem_cons, Prod.mk.injEq]
    split
    · rename_i heq
      have hk : k' = k := Ranked.rank_injective _ _ heq
      subst hk
      have hrest : (k', v) ∉ rest := fun hm => Nat.lt_irrefl _ (h.1 (k', v) hm)
      simp [hrest, eq_comm]
    · rename_i hne
      have hk : k ≠ k' := fun hk => hne (hk ▸ rfl)
      simp [hk, ih h.2]

theorem mem_entries {m : OrderedMap κ ν} {k : κ} {v : ν} :
    (k, v) ∈ m.entries ↔ m.get? k = some v := mem_iff_lookup m.sorted

@[simp] theorem get?_filter (m : OrderedMap κ ν) (p : κ → Bool) (k : κ) :
    (m.filter p).get? k = if p k then m.get? k else none := by
  cases hv : (m.filter p).get? k with
  | some v =>
    have hmem := mem_entries.mpr hv
    simp only [filter, List.mem_filter] at hmem
    simp [hmem.2, mem_entries.mp hmem.1]
  | none =>
    by_cases hp : p k = true
    · cases hm : m.get? k with
      | none => simp
      | some v =>
        have hin : (k, v) ∈ (m.filter p).entries :=
          List.mem_filter.mpr ⟨mem_entries.mpr hm, hp⟩
        rw [mem_entries.mp hin] at hv
        simp at hv
    · simp [hp]

theorem entries_eq_of_lookup_eq {es fs : List (κ × ν)}
    (he : es.Pairwise fun a b => rank a.1 < rank b.1)
    (hf : fs.Pairwise fun a b => rank a.1 < rank b.1)
    (h : ∀ k, lookup k es = lookup k fs) : es = fs := by
  induction es generalizing fs with
  | nil =>
    cases fs with
    | nil => rfl
    | cons x rest => simpa [lookup] using h x.1
  | cons x es ih =>
    cases fs with
    | nil => simpa [lookup] using h x.1
    | cons y fs =>
      obtain ⟨k, v⟩ := x
      obtain ⟨j, w⟩ := y
      have hx : (k, v) ∈ (j, w) :: fs := (mem_iff_lookup hf).mpr
        (h k ▸ (mem_iff_lookup he).mp List.mem_cons_self)
      have hy : (j, w) ∈ (k, v) :: es := (mem_iff_lookup he).mpr
        (h j ▸ (mem_iff_lookup hf).mp List.mem_cons_self)
      rw [List.pairwise_cons] at he hf
      have hhead : (k, v) = (j, w) := by
        rcases List.mem_cons.mp hx with hx | hx
        · exact hx
        · rcases List.mem_cons.mp hy with hy | hy
          · exact hy.symm
          · have h1 := he.1 _ hy
            have h2 := hf.1 _ hx
            simp only at h1 h2
            omega
      cases hhead
      congr 1
      refine ih he.2 hf.2 fun i => ?_
      by_cases hi : rank k = rank i
      · rw [lookup_eq_none fun e hm => by have := he.1 e hm; simp only at this; omega,
          lookup_eq_none fun e hm => by have := hf.1 e hm; simp only at this; omega]
      · simpa [lookup, hi] using h i

/-- Maps with the same lookups are equal. -/
theorem ext {m n : OrderedMap κ ν} (h : ∀ k, m.get? k = n.get? k) : m = n := by
  obtain ⟨es, he⟩ := m
  obtain ⟨fs, hf⟩ := n
  have heq : es = fs := entries_eq_of_lookup_eq he hf h
  subst heq
  rfl

instance [DecidableEq κ] [DecidableEq ν] : DecidableEq (OrderedMap κ ν) := fun m n =>
  decidable_of_iff (m.entries = n.entries) (by cases m; cases n; simp)

end OrderedMap

end Referral
