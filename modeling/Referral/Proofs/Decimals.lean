import Mathlib.Data.List.DropRight
import Mathlib.Data.Nat.Digits.Defs
import Referral.Proofs.Shares

/-!
# Decimals

A decimal is a sign or none, digits, and maybe a point with digits after it, one digit at least. Its
text and the number it stands for are read off these parts, and the sign, the digits in front of the
point and those after it are found again in the text. A text stands between blanks if it neither
begins nor ends with one; trimming leaves just that.
-/

namespace Referral

/-! ## Texts between blanks -/

namespace Text

/-- A text as it stands between the blanks around it. -/
structure Strips (cs t : List Char) : Prop where
  around : ∃ front back, cs = front ++ (t ++ back) ∧ (∀ c ∈ front, isBlank c = true) ∧
    ∀ c ∈ back, isBlank c = true
  head : ∀ c ∈ t.head?, isBlank c = false
  last : ∀ c ∈ t.getLast?, isBlank c = false

theorem trimStart_append {front rest : List Char} (h : ∀ c ∈ front, isBlank c = true) :
    trimStart (front ++ rest) = trimStart rest :=
  List.dropWhile_append_of_pos h

theorem trimStart_eq_self {cs : List Char} (h : ∀ c ∈ cs.head?, isBlank c = false) :
    trimStart cs = cs := by
  cases cs with
  | nil => rfl
  | cons c cs => exact List.dropWhile_cons_of_neg (by simpa using h c rfl)

/-- No blank stands in front of what is left of a text. -/
theorem isBlank_head?_trimStart (cs : List Char) :
    ∀ c ∈ (trimStart cs).head?, isBlank c = false := by
  intro c hc
  have hhead := List.head?_dropWhile_not isBlank cs
  rw [trimStart, Option.mem_def] at hc
  rwa [hc] at hhead

/-- Only blanks are dropped in front of a text. -/
theorem exists_trimStart (cs : List Char) :
    ∃ front, cs = front ++ trimStart cs ∧ ∀ c ∈ front, isBlank c = true :=
  ⟨cs.takeWhile isBlank, List.takeWhile_append_dropWhile.symm,
    fun _ hc => List.mem_takeWhile_imp hc⟩

/-- A text that stands between blanks is what trimming leaves. -/
theorem Strips.trim_eq {cs t : List Char} (h : Strips cs t) : trim cs = t := by
  obtain ⟨⟨front, back, rfl, hfront, hback⟩, hhead, hlast⟩ := h
  rw [trim, trimStart_append hfront]
  by_cases ht : t = []
  · have hnone : trimStart back = [] := List.dropWhile_eq_nil_iff.mpr hback
    rw [ht, List.nil_append, hnone]
    rfl
  · have hstart : trimStart (t ++ back) = t ++ back :=
      trimStart_eq_self (by rwa [List.head?_append_of_ne_nil _ ht])
    have hend : trimStart t.reverse = t.reverse :=
      trimStart_eq_self (by rwa [List.head?_reverse])
    rw [hstart, List.reverse_append, trimStart_append (by simpa using hback), hend,
      List.reverse_reverse]

/-- What trimming leaves stands between blanks. -/
theorem strips_trim (cs : List Char) : Strips cs (trim cs) := by
  obtain ⟨front, hcs, hfront⟩ := exists_trimStart cs
  obtain ⟨back, hback, hblank⟩ := exists_trimStart (trimStart cs).reverse
  have hrest : trimStart cs = trim cs ++ back.reverse := by
    rw [← List.reverse_inj, List.reverse_append, List.reverse_reverse, trim,
      List.reverse_reverse, ← hback]
  refine ⟨⟨front, back.reverse, by rw [← hrest, ← hcs], hfront, by simpa using hblank⟩,
    fun c hc => ?_, ?_⟩
  · have hne : trim cs ≠ [] := fun h => by simp [h] at hc
    refine isBlank_head?_trimStart cs c ?_
    rwa [hrest, List.head?_append_of_ne_nil _ hne]
  · rw [trim, List.getLast?_reverse]
    exact isBlank_head?_trimStart _

/-- Every text has one text that stands between its blanks. -/
theorem strips_iff {cs t : List Char} : Strips cs t ↔ t = trim cs :=
  ⟨fun h => h.trim_eq.symm, fun h => h ▸ strips_trim cs⟩

/-! ## Runs of digits -/

/-- The characters of some digits. -/
def ofDigits (ds : List (Fin 10)) : List Char := ds.map fun d : Fin 10 => Nat.digitChar d.val

theorem isDigit_of_mem_ofDigits {ds : List (Fin 10)} {c : Char} (h : c ∈ ofDigits ds) :
    c.isDigit = true := by
  obtain ⟨d, -, rfl⟩ := List.mem_map.mp h
  rw [Nat.isDigit_digitChar]
  exact decide_eq_true d.isLt

theorem allDigits_ofDigits (ds : List (Fin 10)) : allDigits (ofDigits ds) = true :=
  List.all_eq_true.mpr fun _ hc => isDigit_of_mem_ofDigits hc

/-- A digit has a character of its own. -/
theorem exists_digitChar_eq {c : Char} (h : c.isDigit = true) :
    ∃ d : Fin 10, Nat.digitChar d.val = c := by
  have hrange : 48 ≤ c.toNat ∧ c.toNat ≤ 57 := by
    simpa [Char.isDigit, UInt32.le_iff_toNat_le] using h
  obtain ⟨hlow, hhigh⟩ := hrange
  refine ⟨⟨c.toNat - 48, by omega⟩, Char.toNat_inj.mp ?_⟩
  change (Nat.digitChar (c.toNat - 48)).toNat = c.toNat
  rw [Nat.toNat_digitChar_of_lt_ten (by omega)]
  omega

theorem exists_ofDigits_eq {cs : List Char} (h : allDigits cs = true) :
    ∃ ds, ofDigits ds = cs := by
  induction cs with
  | nil => exact ⟨[], rfl⟩
  | cons c cs ih =>
    simp only [allDigits, List.all_cons, Bool.and_eq_true] at h
    obtain ⟨d, rfl⟩ := exists_digitChar_eq h.1
    obtain ⟨ds, rfl⟩ := ih h.2
    exact ⟨d :: ds, rfl⟩

/-- The number that a run of digits stands for. -/
def natural (ds : List (Fin 10)) : ℕ := Nat.ofDigits 10 (ds.map (·.val)).reverse

theorem value_ofDigits (ds : List (Fin 10)) : value (ofDigits ds) = natural ds := by
  induction ds using List.reverseRecOn with
  | nil => rfl
  | append_singleton ds d ih =>
    have hd : (Nat.digitChar d.val).toNat - '0'.toNat = d.val :=
      Nat.toNat_digitChar_sub_48_of_lt_ten d.isLt
    simp only [value, natural] at ih ⊢
    simp only [ofDigits, List.map_append, List.map_cons, List.map_nil, List.reverse_append,
      List.reverse_singleton, List.singleton_append, Nat.ofDigits_cons, Nat.ofDigitChars_append,
      Nat.ofDigitChars_cons, Nat.ofDigitChars_nil] at ih ⊢
    rw [ih, hd]
    omega

end Text

/-! ## Decimals -/

/-- A sign that may stand in front of digits. -/
inductive Sign
  | plus
  | minus
deriving DecidableEq

/-- A written number: a sign or none, digits, and none or some digits after a point. -/
structure Decimal where
  sign : Option Sign
  whole : List (Fin 10)
  fraction : Option (List (Fin 10))
  hasDigit : whole ≠ [] ∨ fraction.getD [] ≠ []

namespace Decimal

/-- The text of a sign. -/
def signText : Option Sign → List Char
  | none => []
  | some .plus => ['+']
  | some .minus => ['-']

/-- The text of a point and the digits after it. -/
def fractionText : Option (List (Fin 10)) → List Char
  | none => []
  | some ds => '.' :: Text.ofDigits ds

/-- The text of a decimal. -/
def text (n : Decimal) : List Char :=
  signText n.sign ++ (Text.ofDigits n.whole ++ fractionText n.fraction)

/-- The digits after the point. -/
def afterPoint (n : Decimal) : List (Fin 10) := n.fraction.getD []

/-- The number of digits after the point. -/
def places (n : Decimal) : ℕ := n.afterPoint.length

/-- The number that a decimal stands for without its sign. -/
def magnitude (n : Decimal) : ℚ :=
  Text.natural n.whole + Text.natural n.afterPoint / 10 ^ n.places

/-- The number that a decimal stands for. -/
def value (n : Decimal) : ℚ := if n.sign = some .minus then -n.magnitude else n.magnitude

theorem magnitude_nonneg (n : Decimal) : 0 ≤ n.magnitude := by
  unfold magnitude
  positivity

theorem abs_value (n : Decimal) : |n.value| = n.magnitude := by
  unfold value
  split
  · rw [abs_neg, abs_of_nonneg n.magnitude_nonneg]
  · exact abs_of_nonneg n.magnitude_nonneg

/-- The ten-thousandths of a decimal with at most four places. -/
def size (n : Decimal) : ℕ :=
  Text.natural n.whole * 10000 + Text.natural n.afterPoint * 10 ^ (4 - n.places)

theorem magnitude_mul {n : Decimal} (h : n.places ≤ 4) : n.magnitude * 10000 = n.size := by
  have hscale : (10 : ℚ) ^ n.places * 10 ^ (4 - n.places) = 10000 := by
    rw [← pow_add, Nat.add_sub_of_le h]
    norm_num
  unfold magnitude size
  push_cast
  rw [add_mul, ← hscale]
  field_simp

/-- The decimal with zeros in front of its digits. -/
def padded (n : Decimal) (zeros : ℕ) : Decimal where
  sign := n.sign
  whole := List.replicate zeros 0 ++ n.whole
  fraction := n.fraction
  hasDigit := n.hasDigit.imp_left fun h => by simp [h]

@[simp] theorem places_padded (n : Decimal) (zeros : ℕ) : (n.padded zeros).places = n.places := rfl

theorem size_padded (n : Decimal) (zeros : ℕ) : (n.padded zeros).size = n.size := by
  have hzeros : Text.natural (List.replicate zeros 0 ++ n.whole) = Text.natural n.whole := by
    simp [Text.natural, Nat.ofDigits_append]
  rw [size, padded, hzeros]
  rfl

/-! ## Parts of the text -/

/-- The digits and the point of a decimal hold nothing else. -/
theorem mem_body {n : Decimal} {c : Char}
    (h : c ∈ Text.ofDigits n.whole ++ fractionText n.fraction) : c.isDigit = true ∨ c = '.' := by
  rcases List.mem_append.mp h with h | h
  · exact .inl (Text.isDigit_of_mem_ofDigits h)
  · cases hf : n.fraction with
    | none => simp [hf, fractionText] at h
    | some ds =>
      rw [hf, fractionText, List.mem_cons] at h
      exact h.symm.imp_left Text.isDigit_of_mem_ofDigits

theorem splitSign_text (n : Decimal) : Money.splitSign n.text =
    (decide (n.sign = some .minus), Text.ofDigits n.whole ++ fractionText n.fraction) := by
  unfold text
  cases hsign : n.sign with
  | none =>
    -- without a sign, the text begins with a digit or the point
    have hplain : ∀ c cs, Text.ofDigits n.whole ++ fractionText n.fraction = c :: cs →
        c ≠ '-' ∧ c ≠ '+' := by
      intro c cs heq
      have hc := mem_body (n := n) (heq ▸ List.mem_cons_self)
      constructor <;> rintro rfl <;> simp at hc
    simp only [signText, List.nil_append]
    unfold Money.splitSign
    split
    · rename_i heq
      exact absurd rfl (hplain _ _ heq).1
    · rename_i heq
      exact absurd rfl (hplain _ _ heq).2
    · simp
  | some sign => cases sign <;> rfl

theorem splitPoint_body (n : Decimal) :
    Money.splitPoint (Text.ofDigits n.whole ++ fractionText n.fraction) =
      (Text.ofDigits n.whole, Text.ofDigits n.afterPoint) := by
  have hwhole : '.' ∉ Text.ofDigits n.whole := fun h => by
    simpa using Text.isDigit_of_mem_ofDigits h
  unfold Money.splitPoint afterPoint
  cases n.fraction with
  | none =>
    rw [fractionText, List.append_nil, Text.cutAt?_eq_none.mpr hwhole]
    rfl
  | some ds =>
    rw [fractionText, Text.cutAt?_append hwhole]
    rfl

theorem isBlank_of_mem_text {n : Decimal} {c : Char} (h : c ∈ n.text) : Text.isBlank c = false := by
  have hdigit : ∀ c : Char, c.isDigit = true → Text.isBlank c = false := by
    intro c hc
    obtain ⟨d, rfl⟩ := Text.exists_digitChar_eq hc
    revert d
    decide
  rcases List.mem_append.mp h with h | h
  · cases hsign : n.sign with
    | none => simp [hsign, signText] at h
    | some sign =>
      cases sign <;> simp only [hsign, signText, List.mem_singleton] at h <;> subst h <;> rfl
  · rcases mem_body h with h | rfl
    · exact hdigit c h
    · rfl

/-- A decimal stands between the blanks that are put around it. -/
theorem strips_text {n : Decimal} {cs front back : List Char} (h : cs = front ++ (n.text ++ back))
    (hfront : ∀ c ∈ front, Text.isBlank c = true) (hback : ∀ c ∈ back, Text.isBlank c = true) :
    Text.Strips cs n.text where
  around := ⟨front, back, h, hfront, hback⟩
  head _ hc := isBlank_of_mem_text (List.mem_of_mem_head? hc)
  last _ hc := isBlank_of_mem_text (List.mem_of_getLast? hc)

theorem strips_self (n : Decimal) : Text.Strips n.text n.text :=
  strips_text (show _ = [] ++ (n.text ++ []) by rw [List.append_nil, List.nil_append])
    (List.forall_mem_nil _) (List.forall_mem_nil _)

/-- A text with an optional sign, digits around an optional point and one digit at least is that of
a decimal. -/
theorem exists_text_eq {t number whole fraction : List Char} {negative : Bool}
    (hsign : Money.splitSign t = (negative, number))
    (hpoint : Money.splitPoint number = (whole, fraction))
    (hdigit : ¬(whole = [] ∧ fraction = [])) (hwhole : Text.allDigits whole = true)
    (hfraction : Text.allDigits fraction = true) : ∃ n : Decimal, n.text = t := by
  obtain ⟨ws, rfl⟩ := Text.exists_ofDigits_eq hwhole
  obtain ⟨fs, rfl⟩ := Text.exists_ofDigits_eq hfraction
  have hsome : ws ≠ [] ∨ fs ≠ [] := by
    by_contra hnone
    simp only [not_or, not_not] at hnone
    exact hdigit ⟨by rw [hnone.1]; rfl, by rw [hnone.2]; rfl⟩
  -- each part of the reader's answer determines the part of the decimal it was found in
  obtain ⟨sign, rfl⟩ : ∃ sign, t = signText sign ++ number := by
    unfold Money.splitSign at hsign
    split at hsign <;> cases hsign
    · exact ⟨some .minus, rfl⟩
    · exact ⟨some .plus, rfl⟩
    · exact ⟨none, rfl⟩
  obtain ⟨part, rfl, hpart⟩ : ∃ part, number = Text.ofDigits ws ++ fractionText part ∧
      part.getD [] = fs := by
    unfold Money.splitPoint at hpoint
    cases hcut : Text.cutAt? '.' number with
    | none =>
      simp only [hcut, Option.getD_none, Prod.mk.injEq] at hpoint
      obtain ⟨rfl, hnil⟩ := hpoint
      exact ⟨none, by simp [fractionText], by simpa [Text.ofDigits] using hnil⟩
    | some parts =>
      simp only [hcut, Option.getD_some] at hpoint
      subst hpoint
      exact ⟨some fs, (Text.cutAt?_eq_some hcut).1, rfl⟩
  exact ⟨⟨sign, ws, part, by rwa [hpart]⟩, rfl⟩

end Decimal

end Referral
