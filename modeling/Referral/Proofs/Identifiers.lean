import Mathlib.Data.List.Basic
import Mathlib.Tactic.IntervalCases
import Mathlib.Tactic.Ring
import Referral.Id

/-!
# Written identifiers

An identifier is written in one of four forms: thirty-two hexadecimal digits, the same in five
groups, the groups in braces, and the groups after the marker of a uniform resource name. The forms
have different lengths, so no text has two of them, and reading finds the identifier of every
written text and of no other. An identifier is read back from its own text, whatever it names.
-/

namespace Referral.Id

variable {e : Entity} {a : Id e} {acc n v : ℕ} {c : Char} {cs ds : List Char}

/-! ## Runs of digits -/

theorem hexValue?_hexDigit (h : v < 16) : hexValue? (hexDigit v) = some v := by
  interval_cases v
  all_goals decide

theorem hexValue?_lt (h : hexValue? c = some v) : v < 16 := by
  have hle : ∀ {c d : Char}, c ≤ d → c.toNat ≤ d.toNat := fun h => UInt32.le_iff_toNat_le.mp h
  simp only [hexValue?, Char.isDigit_iff_toNat] at h
  split at h
  · rename_i hdigit
    have htop : c.toNat ≤ 57 := hdigit.2
    cases h
    omega
  · split at h
    · rename_i hlower
      have htop : c.toNat ≤ 102 := hle hlower.2
      cases h
      omega
    · rw [Option.ite_none_right_eq_some] at h
      obtain ⟨hupper, hv⟩ := h
      have htop : c.toNat ≤ 70 := hle hupper.2
      cases hv
      omega

theorem ofHex?_append (cs ds : List Char) (acc : ℕ) :
    ofHex? acc (cs ++ ds) = (ofHex? acc cs).bind fun v => ofHex? v ds := by
  induction cs generalizing acc with
  | nil => simp [ofHex?]
  | cons c cs ih => simp [ofHex?, ih, Option.bind_assoc]

@[simp] theorem length_hexDigits (count n : ℕ) : (hexDigits count n).length = count := by
  induction count generalizing n with
  | zero => simp [hexDigits]
  | succ count ih => simp [hexDigits, ih]

/-- A written number is read back as far as it has been written. -/
theorem ofHex?_hexDigits (count n acc : ℕ) :
    ofHex? acc (hexDigits count n) = some (acc * 16 ^ count + n % 16 ^ count) := by
  induction count generalizing n with
  | zero => simp [hexDigits, ofHex?, Nat.mod_one]
  | succ count ih =>
    have hlast : n % 16 < 16 := Nat.mod_lt n (by decide)
    have hparts : n % 16 ^ (count + 1) = n % 16 + 16 * (n / 16 % 16 ^ count) := by
      rw [pow_succ', Nat.mod_mul]
    simp only [hexDigits, ofHex?_append, ih, Option.bind_some, ofHex?, hexValue?_hexDigit hlast,
      Option.some.injEq]
    rw [hparts, pow_succ]
    ring

/-- A run of digits stands for a number of that many digits. -/
theorem ofHex?_lt (h : ofHex? acc cs = some n) : n < (acc + 1) * 16 ^ cs.length := by
  induction cs generalizing acc with
  | nil =>
    simp only [ofHex?, Option.some.injEq] at h
    simp [h]
  | cons c cs ih =>
    simp only [ofHex?, Option.bind_eq_some_iff] at h
    obtain ⟨v, hv, hrest⟩ := h
    have hbound := ih hrest
    have hdigit := hexValue?_lt hv
    calc n < (16 * acc + v + 1) * 16 ^ cs.length := hbound
      _ ≤ (16 * (acc + 1)) * 16 ^ cs.length := Nat.mul_le_mul_right _ (by omega)
      _ = (acc + 1) * 16 ^ (c :: cs).length := by rw [List.length_cons, pow_succ]; ring

theorem isSome_hexValue?_of_mem (h : ofHex? acc cs = some n) (hc : c ∈ cs) :
    (hexValue? c).isSome = true := by
  induction cs generalizing acc with
  | nil => simp at hc
  | cons d cs ih =>
    simp only [ofHex?, Option.bind_eq_some_iff] at h
    obtain ⟨v, hv, hrest⟩ := h
    rcases List.mem_cons.mp hc with rfl | hmem
    · simp [hv]
    · exact ih hrest hmem

/-! ## The four forms -/

/-- Thirty-two digits that stand for the bits of an identifier. -/
def Spells (ds : List Char) (a : Id e) : Prop := ds.length = 32 ∧ ofHex? 0 ds = some a.bits.toNat

/-- The digits in groups of 8, 4, 4, 4 and 12. -/
def grouped (ds : List Char) : List Char :=
  ds.take 8 ++ '-' :: ((ds.drop 8).take 4 ++ '-' :: ((ds.drop 12).take 4 ++
    '-' :: ((ds.drop 16).take 4 ++ '-' :: ds.drop 20)))

/-- The texts of an identifier. -/
inductive Written (a : Id e) : List Char → Prop
  | plain {ds : List Char} : Spells ds a → Written a ds
  | groups {ds : List Char} : Spells ds a → Written a (grouped ds)
  | braced {ds : List Char} : Spells ds a → Written a ('\x7b' :: (grouped ds ++ ['\x7d']))
  | name {marker ds : List Char} : marker.map Char.toLower = "urn:uuid:".toList → Spells ds a →
      Written a (marker ++ grouped ds)

theorem length_grouped (h : ds.length = 32) : (grouped ds).length = 36 := by
  simp [grouped, h]

theorem spells_hexDigits (a : Id e) : Spells (hexDigits 32 a.bits.toNat) a := by
  refine ⟨length_hexDigits _ _, ?_⟩
  rw [ofHex?_hexDigits, Nat.zero_mul, Nat.zero_add, Nat.mod_eq_of_lt]
  exact a.bits.isLt

/-- The written form of an identifier is one of its texts. -/
theorem written_text (a : Id e) : a.Written a.text := .groups (spells_hexDigits a)

/-! ## Reading -/

theorem readPlain?_eq_some : readPlain? cs = some a ↔ Spells cs a := by
  simp only [readPlain?, Option.ite_none_right_eq_some, Option.map_eq_some_iff, Spells]
  refine and_congr_right fun hlength => ?_
  constructor
  · rintro ⟨n, hn, rfl⟩
    have hlt : n < 2 ^ 128 := by simpa [hlength] using ofHex?_lt hn
    rw [hn, ofNat, BitVec.toNat_ofNat, Nat.mod_eq_of_lt hlt]
  · intro h
    exact ⟨_, h, ext (by simp [ofNat])⟩

/-- A character at a place divides the text there. -/
theorem exists_append_of_getElem? {k : ℕ} (h : cs[k]? = some c) :
    ∃ l r, l.length = k ∧ cs = l ++ c :: r := by
  obtain ⟨hlt, hc⟩ := List.getElem?_eq_some_iff.mp h
  refine ⟨cs.take k, cs.drop (k + 1), by simp; omega, ?_⟩
  rw [← hc, ← List.drop_eq_getElem_cons hlt, List.take_append_drop]

section Groups

variable {g₁ g₂ g₃ g₄ g₅ : List Char} (h₁ : g₁.length = 8) (h₂ : g₂.length = 4)
  (h₃ : g₃.length = 4) (h₄ : g₄.length = 4) (h₅ : g₅.length = 12)
include h₁ h₂ h₃ h₄

theorem grouped_append :
    grouped (g₁ ++ g₂ ++ g₃ ++ g₄ ++ g₅) =
      g₁ ++ '-' :: (g₂ ++ '-' :: (g₃ ++ '-' :: (g₄ ++ '-' :: g₅))) := by
  simp [grouped, List.drop_append, List.drop_eq_nil_of_le, h₁, h₂, h₃, h₄]

include h₅

theorem readGrouped?_append :
    (readGrouped? (g₁ ++ '-' :: (g₂ ++ '-' :: (g₃ ++ '-' :: (g₄ ++ '-' :: g₅)))) : Option (Id e)) =
      readPlain? (g₁ ++ g₂ ++ g₃ ++ g₄ ++ g₅) := by
  simp [readGrouped?, List.drop_append, List.drop_eq_nil_of_le, h₁, h₂, h₃, h₄, h₅]

end Groups

theorem readGrouped?_eq_some :
    readGrouped? cs = some a ↔ ∃ ds, Spells ds a ∧ cs = grouped ds := by
  constructor
  · intro h
    obtain ⟨hlength, hm₁, hm₂, hm₃, hm₄⟩ := (Option.ite_none_right_eq_some.mp h).1
    -- every hyphen ends a group, and is looked for in what is left after the one before
    obtain ⟨g₁, r₁, h₁, rfl⟩ := exists_append_of_getElem? hm₁
    have hm₂ : r₁[4]? = some '-' := by simpa [List.getElem?_append, h₁] using hm₂
    obtain ⟨g₂, r₂, h₂, rfl⟩ := exists_append_of_getElem? hm₂
    have hm₃ : r₂[4]? = some '-' := by simpa [List.getElem?_append, h₁, h₂] using hm₃
    obtain ⟨g₃, r₃, h₃, rfl⟩ := exists_append_of_getElem? hm₃
    have hm₄ : r₃[4]? = some '-' := by simpa [List.getElem?_append, h₁, h₂, h₃] using hm₄
    obtain ⟨g₄, g₅, h₄, rfl⟩ := exists_append_of_getElem? hm₄
    have h₅ : g₅.length = 12 := by
      simp only [List.length_append, List.length_cons] at hlength
      omega
    rw [readGrouped?_append h₁ h₂ h₃ h₄ h₅, readPlain?_eq_some] at h
    exact ⟨_, h, (grouped_append h₁ h₂ h₃ h₄).symm⟩
  · rintro ⟨ds, hds, rfl⟩
    have hlength := hds.1
    have hparts : ds.take 8 ++ (ds.drop 8).take 4 ++ (ds.drop 12).take 4 ++
        (ds.drop 16).take 4 ++ ds.drop 20 = ds := by
      have hfour : ∀ k, (ds.drop k).take 4 ++ ds.drop (k + 4) = ds.drop k := fun k => by
        rw [← List.drop_drop, List.take_append_drop]
      simp only [List.append_assoc, hfour, List.take_append_drop]
    rw [grouped, readGrouped?_append, hparts, readPlain?_eq_some]
    · exact hds
    all_goals simp [hlength]

theorem readBraced?_eq_some :
    readBraced? cs = some a ↔ ∃ ds, Spells ds a ∧ cs = '\x7b' :: (grouped ds ++ ['\x7d']) := by
  constructor
  · intro h
    unfold readBraced? at h
    split at h
    · rename_i inner
      rw [Option.ite_none_right_eq_some] at h
      obtain ⟨hlast, hread⟩ := h
      obtain ⟨ds, hds, hinner⟩ := readGrouped?_eq_some.mp hread
      obtain ⟨front, hfront⟩ := List.getLast?_eq_some_iff.mp hlast
      subst hfront
      rw [List.dropLast_concat] at hinner
      exact ⟨ds, hds, by rw [hinner]⟩
    · cases h
  · rintro ⟨ds, hds, rfl⟩
    simp [readBraced?, readGrouped?_eq_some.mpr ⟨ds, hds, rfl⟩]

theorem readName?_eq_some :
    readName? cs = some a ↔ ∃ marker ds, marker.map Char.toLower = "urn:uuid:".toList ∧
      Spells ds a ∧ cs = marker ++ grouped ds := by
  simp only [readName?, Option.ite_none_right_eq_some, readGrouped?_eq_some]
  constructor
  · rintro ⟨hmarker, ds, hds, hdrop⟩
    exact ⟨cs.take 9, ds, hmarker, hds, by rw [← hdrop, List.take_append_drop]⟩
  · rintro ⟨marker, ds, hmarker, hds, rfl⟩
    have hlength : marker.length = 9 := by
      simpa using congrArg List.length hmarker
    simp only [List.take_left' hlength, List.drop_left' hlength]
    exact ⟨hmarker, ds, hds, rfl⟩

theorem readPlain?_eq_none (h : cs.length ≠ 32) : (readPlain? cs : Option (Id e)) = none :=
  if_neg h

theorem readGrouped?_eq_none (h : cs.length ≠ 36) : (readGrouped? cs : Option (Id e)) = none :=
  if_neg fun hmarks => h hmarks.1

theorem readBraced?_eq_none (h : cs.length ≠ 38) : (readBraced? cs : Option (Id e)) = none := by
  rw [Option.eq_none_iff_forall_ne_some]
  intro a ha
  obtain ⟨ds, hds, rfl⟩ := readBraced?_eq_some.mp ha
  exact h (by simp [length_grouped hds.1])

/-- Reading finds the identifier of a text, and only of such a text. -/
theorem read?_eq_some : read? cs = some a ↔ a.Written cs := by
  constructor
  · intro h
    simp only [read?, Option.or_eq_some_iff] at h
    rcases h with (hplain | ⟨-, hgroups⟩) | ⟨-, hbraced | ⟨-, hname⟩⟩
    · exact .plain (readPlain?_eq_some.mp hplain)
    · obtain ⟨ds, hds, rfl⟩ := readGrouped?_eq_some.mp hgroups
      exact .groups hds
    · obtain ⟨ds, hds, rfl⟩ := readBraced?_eq_some.mp hbraced
      exact .braced hds
    · obtain ⟨marker, ds, hmarker, hds, rfl⟩ := readName?_eq_some.mp hname
      exact .name hmarker hds
  · intro h
    cases h with
    | plain hds => simp [read?, readPlain?_eq_some.mpr hds]
    | @groups ds hds =>
      have hlength : (grouped ds).length ≠ 32 := by simp [length_grouped hds.1]
      simp [read?, readPlain?_eq_none hlength, readGrouped?_eq_some.mpr ⟨ds, hds, rfl⟩]
    | @braced ds hds =>
      have hlength : ('\x7b' :: (grouped ds ++ ['\x7d'])).length = 38 := by
        simp [length_grouped hds.1]
      simp only [read?, readPlain?_eq_none (ne_of_eq_of_ne hlength (by decide)),
        readGrouped?_eq_none (ne_of_eq_of_ne hlength (by decide)),
        readBraced?_eq_some.mpr ⟨ds, hds, rfl⟩, Option.none_or, Option.some_or]
    | @name marker ds hmarker hds =>
      have hlength : (marker ++ grouped ds).length = 45 := by
        have hnine : marker.length = 9 := by simpa using congrArg List.length hmarker
        simp [length_grouped hds.1, hnine]
      simp only [read?, readPlain?_eq_none (ne_of_eq_of_ne hlength (by decide)),
        readGrouped?_eq_none (ne_of_eq_of_ne hlength (by decide)),
        readBraced?_eq_none (ne_of_eq_of_ne hlength (by decide)),
        readName?_eq_some.mpr ⟨marker, ds, hmarker, hds, rfl⟩, Option.none_or]

/-- An identifier is read back from its written form. -/
@[simp] theorem read?_text (a : Id e) : read? a.text = some a :=
  read?_eq_some.mpr (written_text a)

/-- There is no point in a text of an identifier. -/
theorem Written.not_mem_point (h : a.Written cs) : '.' ∉ cs := by
  have hdigits : ∀ {ds : List Char}, Spells ds a → '.' ∉ ds := fun hds hmem =>
    absurd (isSome_hexValue?_of_mem hds.2 hmem) (by decide)
  have hgroups : ∀ {ds : List Char}, Spells ds a → '.' ∉ grouped ds := by
    intro ds hds hmem
    simp only [grouped, List.mem_append, List.mem_cons] at hmem
    have hpart : ∀ {k : ℕ}, '.' ∉ ds.drop k := fun hk => hdigits hds (List.mem_of_mem_drop hk)
    have hfour : ∀ {k : ℕ}, '.' ∉ (ds.drop k).take 4 := fun hk => hpart (List.mem_of_mem_take hk)
    have hfirst : '.' ∉ ds.take 8 := fun hk => hdigits hds (List.mem_of_mem_take hk)
    simp [hpart, hfour, hfirst] at hmem
  cases h with
  | plain hds => exact hdigits hds
  | groups hds => exact hgroups hds
  | braced hds => simp [hgroups hds]
  | @name marker ds hmarker hds =>
    have hpoint : '.' ∉ marker := fun hmem =>
      absurd (hmarker ▸ List.mem_map_of_mem hmem) (by decide)
    simp [hpoint, hgroups hds]

end Referral.Id
