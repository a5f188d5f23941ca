import Mathlib.Data.List.Forall2
import Mathlib.Data.List.Perm.Basic
import Referral.Wire.Value

/-!
# Members in any order

The members of an object have no order. Two JSON values are alike if they differ in the order of
members only, at any depth. A value is read back as something if all values that are like it are
read as that; records and variants are, if their fields are.
-/

namespace Referral

namespace Json

/-- Equal but for the order of members, at any depth. -/
inductive Alike : Json → Json → Prop
  | refl (j : Json) : Alike j j
  | arr {items items' : List Json} (each : List.Forall₂ Alike items items') :
    Alike (.arr items) (.arr items')
  | obj {ms ms₁ ms' : List (String × Json)} (names : ms.map Prod.fst = ms₁.map Prod.fst)
    (each : List.Forall₂ Alike (ms.map Prod.snd) (ms₁.map Prod.snd)) (order : ms₁.Perm ms') :
    Alike (.obj ms) (.obj ms')

/-- The object without the members of some names. -/
def without (dropped : List String) : Json → Json
  | .obj ms => .obj (ms.filter fun m => !dropped.contains m.1)
  | j => j

/-- All values that are like this one are read as `a`. -/
def ReadsAs {α : Type} (j : Json) (decode : Json → Option α) (a : α) : Prop :=
  ∀ j', j.Alike j' → decode j' = some a

/-! ## Lists of members -/

/-- Members are alike if those of the one list, with values that are alike, are those of the other
in some order. -/
def MembersAlike (ms ms' : List (String × Json)) : Prop :=
  ∃ ms₁, List.Forall₂ (fun m m₁ => m.1 = m₁.1 ∧ m.2.Alike m₁.2) ms ms₁ ∧ ms₁.Perm ms'

variable {ms ms₁ ms' : List (String × Json)} {j j' : Json} {name : String}

theorem forall₂_members_iff :
    List.Forall₂ (fun m m₁ => m.1 = m₁.1 ∧ m.2.Alike m₁.2) ms ms₁ ↔
      ms.map Prod.fst = ms₁.map Prod.fst ∧
        List.Forall₂ Alike (ms.map Prod.snd) (ms₁.map Prod.snd) := by
  induction ms generalizing ms₁ with
  | nil => cases ms₁ <;> simp
  | cons m ms ih =>
    cases ms₁ with
    | nil => simp
    | cons m₁ ms₁ =>
      simp only [List.forall₂_cons, ih, List.map_cons, List.cons.injEq]
      tauto

theorem alike_obj_iff : (obj ms).Alike j ↔ ∃ ms', j = obj ms' ∧ MembersAlike ms ms' := by
  constructor
  · intro h
    cases h with
    | refl => exact ⟨ms, rfl, ms, List.forall₂_same.mpr fun m _ => ⟨rfl, .refl _⟩, .refl _⟩
    | @obj _ ms₁ ms' names each order =>
      exact ⟨ms', rfl, ms₁, forall₂_members_iff.mpr ⟨names, each⟩, order⟩
  · rintro ⟨ms', rfl, ms₁, each, order⟩
    obtain ⟨names, values⟩ := forall₂_members_iff.mp each
    exact .obj names values order

theorem alike_arr_iff {items : List Json} :
    (arr items).Alike j ↔ ∃ items', j = arr items' ∧ List.Forall₂ Alike items items' := by
  constructor
  · intro h
    cases h with
    | refl => exact ⟨items, rfl, List.forall₂_same.mpr fun j _ => .refl j⟩
    | arr each => exact ⟨_, rfl, each⟩
  · rintro ⟨items', rfl, each⟩
    exact .arr each

/-- What has neither items nor members is only like itself. -/
theorem Alike.eq_of_plain (h : j.Alike j') (harr : ∀ items, j ≠ .arr items)
    (hobj : ∀ ms, j ≠ .obj ms) : j' = j := by
  cases h with
  | refl => rfl
  | arr each => exact absurd rfl (harr _)
  | obj names each order => exact absurd rfl (hobj _)

namespace MembersAlike

theorem nil_left (h : MembersAlike [] ms') : ms' = [] := by
  obtain ⟨ms₁, each, order⟩ := h
  cases each
  exact order.nil_eq.symm

theorem singleton_left {v : Json} (h : MembersAlike [(name, v)] ms') :
    ∃ v', ms' = [(name, v')] ∧ v.Alike v' := by
  obtain ⟨ms₁, each, order⟩ := h
  cases each with
  | @cons _ m _ ms₂ hm hrest =>
    cases hrest
    obtain ⟨hname, hv⟩ := hm
    refine ⟨m.2, ?_, hv⟩
    rw [List.perm_singleton.mp order.symm, show name = m.1 from hname]

/-- The members of some names are alike too. -/
theorem filter (h : MembersAlike ms ms') (p : String → Bool) :
    MembersAlike (ms.filter fun m => p m.1) (ms'.filter fun m => p m.1) := by
  obtain ⟨ms₁, each, order⟩ := h
  refine ⟨ms₁.filter fun m => p m.1, ?_, order.filter _⟩
  clear order
  induction each with
  | nil => exact .nil
  | @cons m m₁ ms ms₁ hm _ ih =>
    simp only [List.filter_cons, ← hm.1]
    split
    · exact .cons hm ih
    · exact ih

theorem length_eq (h : MembersAlike ms ms') : ms'.length = ms.length := by
  obtain ⟨ms₁, each, order⟩ := h
  rw [← order.length_eq, each.length_eq]

end MembersAlike

/-! ## Readable values -/

theorem areReadable_iff {items : List Json} :
    areReadable items = true ↔ ∀ j ∈ items, j.isReadable = true := by
  induction items with
  | nil => simp [areReadable]
  | cons j items ih => simp [areReadable, ih]

theorem areReadableMembers_iff :
    areReadableMembers ms = true ↔ ∀ m ∈ ms, m.2.isReadable = true := by
  induction ms with
  | nil => simp [areReadableMembers]
  | cons m ms ih => simp [areReadableMembers, ih]

theorem exists_of_mem_right {α β : Type} {R : α → β → Prop} {as : List α} {bs : List β} {b : β}
    (h : List.Forall₂ R as bs) (hb : b ∈ bs) : ∃ a ∈ as, R a b := by
  induction h with
  | nil => cases hb
  | @cons a b' as bs hab _ ih =>
    rcases List.mem_cons.mp hb with rfl | hb
    · exact ⟨a, List.mem_cons_self, hab⟩
    · obtain ⟨a', ha', hr⟩ := ih hb
      exact ⟨a', List.mem_cons_of_mem _ ha', hr⟩

/-- What is like a readable value is readable. -/
theorem isReadable_of_alike : ∀ j j' : Json, j.Alike j' → j.isReadable = true →
    j'.isReadable = true
  | _, _, .refl _, hread => hread
  | .arr items, .arr _, .arr each, hread => by
    rw [isReadable, areReadable_iff] at hread ⊢
    intro j' hj'
    obtain ⟨j, hj, halike⟩ := exists_of_mem_right each hj'
    have hsize := List.sizeOf_lt_of_mem hj
    exact isReadable_of_alike j j' halike (hread j hj)
  | .obj ms, .obj _, .obj names each order, hread => by
    rw [isReadable, areReadableMembers_iff] at hread ⊢
    intro m' hm'
    obtain ⟨⟨name, j⟩, hm, -, halike⟩ :=
      exists_of_mem_right (forall₂_members_iff.mpr ⟨names, each⟩) (order.mem_iff.mpr hm')
    have hsize := List.sizeOf_lt_of_mem hm
    exact isReadable_of_alike j m'.2 halike (hread (name, j) hm)
termination_by j => sizeOf j
decreasing_by
  · simp only [Json.arr.sizeOf_spec]
    omega
  · simp only [Json.obj.sizeOf_spec, Prod.mk.sizeOf_spec] at hsize ⊢
    omega

end Json

/-! ## Records -/

open Json

/-- The fields are the members of an object, in any order, without those of some names. -/
structure Fields.Holds (f : Fields) (ms : List (String × Json)) (dropped : List String) :
    Prop where
  given : ∀ name v, (name, v) ∈ ms → name ∉ dropped → ∃ v', f.slot? name = some v' ∧ v.Alike v'
  absent : ∀ name ∈ dropped, f.slot? name = none

namespace Fields

variable {f : Fields} {names dropped : List String} {ms : List (String × Json)} {j v : Json}
  {name : String} {α : Type} {decode : Json → Option α} {a : α}

theorem filter_name_eq (hnodup : (ms.map Prod.fst).Nodup) (hm : (name, v) ∈ ms) :
    (ms.filter fun m => m.1 = name) = [(name, v)] := by
  induction ms with
  | nil => cases hm
  | cons m ms ih =>
    rw [List.map_cons, List.nodup_cons] at hnodup
    obtain ⟨hnew, hrest⟩ := hnodup
    rcases List.mem_cons.mp hm with rfl | hm
    · have hnone : (ms.filter fun m => m.1 = name) = [] := by
        rw [List.filter_eq_nil_iff]
        intro m hm heq
        exact hnew (List.mem_map.mpr ⟨m, hm, of_decide_eq_true heq⟩)
      simp [hnone]
    · have hne : m.1 ≠ name := by
        rintro rfl
        exact hnew (List.mem_map.mpr ⟨_, hm, rfl⟩)
      simp [hne, ih hrest hm]

theorem length_filter_name_le (hnodup : (ms.map Prod.fst).Nodup) :
    (ms.filter fun m => m.1 = name).length ≤ 1 := by
  cases hfound : ms.filter fun m => m.1 = name with
  | nil => simp
  | cons m rest =>
    have hm : m ∈ ms.filter fun m => m.1 = name := hfound ▸ List.mem_cons_self
    obtain ⟨hmem, hname⟩ := List.mem_filter.mp hm
    obtain rfl := of_decide_eq_true hname
    rw [← hfound, filter_name_eq hnodup hmem]
    simp

theorem slot?_eq (members : List (String × Json)) (hname : name ∈ names) :
    (Fields.mk true (members.filter fun m => names.contains m.1)).slot? name =
      ((members.filter fun m => m.1 = name).head?).map (·.2) := by
  have hone : ((members.filter fun m => m.1 = name).filter fun m => names.contains m.1) =
      members.filter fun m => m.1 = name :=
    List.filter_eq_self.mpr fun m hm => by simpa [of_decide_eq_true (List.mem_filter.mp hm).2]
  rw [slot?, ← List.head?_filter, List.filter_comm, hone]

/-- The members of an object are its fields, as many of them as are left. -/
theorem of?_alike (hnames : ms.map Prod.fst = names) (hnodup : names.Nodup)
    (h : ((obj ms).without dropped).Alike j) :
    ∃ f, of? names j = some f ∧ f.Holds ms dropped := by
  subst hnames
  obtain ⟨ms', rfl, halike⟩ := alike_obj_iff.mp h
  have hkept : ((ms.filter fun m => !dropped.contains m.1).map Prod.fst).Nodup :=
    hnodup.sublist (List.filter_sublist.map _)
  have honce : eachOnce (ms.map Prod.fst) ms' = true := by
    rw [eachOnce, List.all_eq_true]
    intro name _
    have hsame := (halike.filter fun x => x = name).length_eq
    rw [decide_eq_true_eq, hsame]
    exact length_filter_name_le hkept
  refine ⟨_, if_pos honce, fun name v hm hleft => ?_, fun name hdropped => ?_⟩
  · have hmem : (name, v) ∈ ms.filter fun m => !dropped.contains m.1 :=
      List.mem_filter.mpr ⟨hm, by simpa using hleft⟩
    have hone := halike.filter fun x => x = name
    rw [filter_name_eq hkept hmem] at hone
    obtain ⟨v', hv', hvalue⟩ := hone.singleton_left
    refine ⟨v', ?_, hvalue⟩
    rw [slot?_eq ms' (List.mem_map_of_mem hm), hv']
    rfl
  · have hnone := halike.filter fun x => x = name
    have hgone : ((ms.filter fun m => !dropped.contains m.1).filter fun m => m.1 = name) = [] := by
      rw [List.filter_eq_nil_iff]
      intro m hm heq
      obtain rfl := of_decide_eq_true heq
      simpa [hdropped] using (List.mem_filter.mp hm).2
    rw [hgone] at hnone
    have hnothing := hnone.nil_left
    rw [slot?, Option.map_eq_none_iff, List.find?_eq_none]
    intro m hm heq
    have hfound : m ∈ ms'.filter fun m => m.1 = name :=
      List.mem_filter.mpr ⟨(List.mem_filter.mp hm).1, heq⟩
    rw [hnothing] at hfound
    cases hfound

/-- A record is read back if that can be done with its fields. -/
theorem bind_of? {read : Fields → Option α} (hnames : ms.map Prod.fst = names)
    (hnodup : names.Nodup) (h : ((obj ms).without dropped).Alike j)
    (hread : ∀ f : Fields, f.Holds ms dropped → read f = some a) :
    (of? names j).bind read = some a := by
  obtain ⟨f, hf, hholds⟩ := of?_alike hnames hnodup h
  rw [hf, Option.bind_some, hread f hholds]

/-- So it is if nothing was left out. -/
theorem bind_of?_all {read : Fields → Option α} (hnames : ms.map Prod.fst = names)
    (hnodup : names.Nodup) (h : (obj ms).Alike j)
    (hread : ∀ f : Fields, f.Holds ms [] → read f = some a) :
    (of? names j).bind read = some a := by
  apply bind_of? hnames hnodup _ hread
  rwa [without, List.filter_eq_self.mpr (by simp)]

namespace Holds

theorem required (h : f.Holds ms dropped) (name : String) (hm : (name, v) ∈ ms)
    (hkept : name ∉ dropped) (hv : v.ReadsAs decode a) : f.required name decode = some a := by
  obtain ⟨v', hslot, halike⟩ := h.given name v hm hkept
  rw [Fields.required, hslot, Option.bind_some, hv v' halike]

/-- A field of a record from which nothing was left out. -/
theorem kept (h : f.Holds ms []) (name : String) (hm : (name, v) ∈ ms)
    (hv : v.ReadsAs decode a) : f.required name decode = some a :=
  h.required name hm List.not_mem_nil hv

theorem withDefault {value : α} (h : f.Holds ms dropped) (name : String) (hm : (name, v) ∈ ms)
    (hdropped : name ∈ dropped → value = a) (hv : v.ReadsAs decode a) :
    f.withDefault name value decode = some a := by
  by_cases hkept : name ∈ dropped
  · rw [Fields.withDefault, h.absent name hkept, hdropped hkept]
  · obtain ⟨v', hslot, halike⟩ := h.given name v hm hkept
    rw [Fields.withDefault, hslot]
    exact hv v' halike

/-- A field that is left out only where it has nothing. -/
theorem withNone {o : Option α} (h : f.Holds ms dropped) (name : String) (hm : (name, v) ∈ ms)
    (hdropped : name ∈ dropped → o = none) (hv : v.ReadsAs (nullable decode) o) :
    f.withDefault name none (nullable decode) = some o :=
  h.withDefault name hm (fun hname => (hdropped hname).symm) hv

theorem optional {o : Option α} (h : f.Holds ms dropped) (name : String) (hm : (name, v) ∈ ms)
    (hkept : name ∉ dropped) (hv : v.ReadsAs (nullable decode) o) :
    f.optional name decode = some o := by
  obtain ⟨v', hslot, halike⟩ := h.given name v hm hkept
  rw [Fields.optional, hslot]
  exact hv v' halike

end Holds

end Fields

/-! ## Variants -/

/-- The tag of an object is found among its members, and what is left is an object. -/
theorem Tagged.of?_alike {name tag : String} {ms : List (String × Json)} {j : Json}
    (hnodup : (name :: ms.map Prod.fst).Nodup) (hread : ∀ m ∈ ms, m.2.isReadable = true)
    (h : (obj ((name, .str tag) :: ms)).Alike j) :
    ∃ rest, Tagged.of? name j = some ⟨.str tag, rest⟩ ∧ (obj ms).Alike rest := by
  obtain ⟨ms', rfl, halike⟩ := alike_obj_iff.mp h
  have htag := halike.filter fun x => x = name
  have hrest := halike.filter fun x => x ≠ name
  have hnames : (((name, Json.str tag) :: ms).map Prod.fst).Nodup := hnodup
  rw [Fields.filter_name_eq hnames List.mem_cons_self] at htag
  obtain ⟨tag', htag', hvalue⟩ := htag.singleton_left
  obtain rfl := hvalue.eq_of_plain (fun _ h => by cases h) fun _ h => by cases h
  have hothers : (((name, .str tag) :: ms).filter fun m => decide (m.1 ≠ name)) = ms := by
    rw [List.filter_cons_of_neg (by simp), List.filter_eq_self]
    intro m hm
    have hne : m.1 ≠ name := fun heq =>
      (List.nodup_cons.mp hnodup).1 (heq ▸ List.mem_map_of_mem hm)
    simpa using hne
  rw [hothers] at hrest
  have hobj : (obj ms).Alike (obj (ms'.filter fun m => decide (m.1 ≠ name))) :=
    alike_obj_iff.mpr ⟨_, rfl, hrest⟩
  have hreadable : (obj (ms'.filter fun m => decide (m.1 ≠ name))).isReadable = true :=
    isReadable_of_alike _ _ hobj (by rwa [isReadable, areReadableMembers_iff])
  refine ⟨_, ?_, hobj⟩
  simp only [Tagged.of?, htag', readable?, if_pos hreadable, Option.map_some]

/-- A variant is read back if that can be done with what is left besides its tag. -/
theorem Tagged.bind_of? {name tag : String} {ms : List (String × Json)} {j : Json} {α : Type}
    {read : Tagged → Option α} {a : α} (hnodup : (name :: ms.map Prod.fst).Nodup)
    (hreadable : ∀ m ∈ ms, m.2.isReadable = true)
    (h : (obj ((name, .str tag) :: ms)).Alike j)
    (hread : ∀ rest, (obj ms).Alike rest → read ⟨.str tag, rest⟩ = some a) :
    (Tagged.of? name j).bind read = some a := by
  obtain ⟨rest, ht, hrest⟩ := Tagged.of?_alike hnodup hreadable h
  rw [ht, Option.bind_some, hread rest hrest]

/-! ## Single values -/

namespace Json

variable {α : Type} {decode : Json → Option α} {j : Json} {a : α}

theorem readsAs_of_plain (harr : ∀ items, j ≠ .arr items) (hobj : ∀ ms, j ≠ .obj ms)
    (h : decode j = some a) : j.ReadsAs decode a := by
  intro j' hj'
  rw [hj'.eq_of_plain harr hobj, h]

theorem readsAs_str {s : String} (h : decode (.str s) = some a) : (str s).ReadsAs decode a :=
  readsAs_of_plain (fun _ h => by cases h) (fun _ h => by cases h) h

theorem readsAs_int {n : Int} (h : decode (.int n) = some a) : (int n).ReadsAs decode a :=
  readsAs_of_plain (fun _ h => by cases h) (fun _ h => by cases h) h

theorem readsAs_bool (b : Bool) : (bool b).ReadsAs bool? b :=
  readsAs_of_plain (fun _ h => by cases h) (fun _ h => by cases h) rfl

theorem readsAs_string (s : String) : (str s).ReadsAs string? s := readsAs_str rfl

/-- What may be null is read back if nothing else is written as null. -/
theorem readsAs_ofOption {encode : α → Json} {o : Option α} (hnull : decode .null = none)
    (h : ∀ a, o = some a → (encode a).ReadsAs decode a) :
    (ofOption encode o).ReadsAs (Fields.nullable decode) o := by
  intro j' hj'
  cases o with
  | none =>
    obtain rfl := hj'.eq_of_plain (fun _ h => by cases h) fun _ h => by cases h
    rfl
  | some a =>
    have hread := h a rfl j' hj'
    cases j' with
    | null =>
      rw [hnull] at hread
      cases hread
    | _ => simp [Fields.nullable, hread]

/-- The items of an array are read back one after the other. -/
theorem readsAs_ofList {encode : α → Json} {as : List α}
    (h : ∀ a ∈ as, (encode a).ReadsAs decode a) :
    (ofList encode as).ReadsAs (listOf? decode) as := by
  intro j' hj'
  obtain ⟨items, rfl, each⟩ := alike_arr_iff.mp hj'
  clear hj'
  show items.mapM decode = some as
  induction as generalizing items with
  | nil =>
    cases each
    rfl
  | cons a as ih =>
    rw [List.forall_mem_cons] at h
    cases each with
    | @cons _ item _ items hitem hitems =>
      rw [List.mapM_cons, h.1 item hitem, ih h.2 items hitems]
      rfl

theorem nat?_ofNat {n high : Nat} (h : n ≤ high) : (ofNat n).nat? high = some n := by
  simp [nat?, ofNat, int?, h]

theorem readsAs_word (n : UInt32) : (ofNat n.toNat).ReadsAs word? n := by
  have hlt := n.toNat_lt
  refine readsAs_int (?_ : word? (ofNat n.toNat) = some n)
  rw [word?, nat?_ofNat (by omega)]
  simp

theorem readsAs_depth (n : Fin 256) : (ofNat n.val).ReadsAs depth? n := by
  refine readsAs_int (?_ : depth? (ofNat n.val) = some n)
  rw [depth?, nat?_ofNat (by omega)]
  simp

end Json

end Referral
