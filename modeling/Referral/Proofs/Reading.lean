import Referral.Proofs.Decimals

/-!
# Reading amounts

Amounts are read from the texts of decimals between blanks and from nothing else. The flaw of any
other text depends on whether it has the form of a decimal at all, then on the places that it
writes, then on the size of the number; the order of these questions is that of the reader.
-/

namespace Referral

namespace Money

theorem units_signed (negative : Bool) {size : ℕ} (h : size ≤ 9223372036854775807) :
    ((signed negative size h).units : ℚ) = if negative then -(size : ℚ) else size := by
  cases negative <;> simp [signed]

/-- What is read from the text of a decimal between blanks. -/
theorem read_of_strips {cs : List Char} {n : Decimal} (h : Text.Strips cs n.text) :
    read cs =
      if 4 < n.places then .error .tooPrecise
      else if hsize : n.size ≤ 9223372036854775807 then
        .ok (signed (decide (n.sign = some .minus)) n.size hsize)
      else .error .outOfRange := by
  have hshape :
      ((Text.ofDigits n.whole).isEmpty && (Text.ofDigits n.afterPoint).isEmpty) = false := by
    rw [Bool.and_eq_false_iff]
    exact n.hasDigit.imp (by simp [Text.ofDigits]) (by simp [Text.ofDigits, Decimal.afterPoint])
  have hlength : (Text.ofDigits n.afterPoint).length = n.places := by
    simp [Text.ofDigits, Decimal.places]
  simp only [read, h.trim_eq, n.splitSign_text, n.splitPoint_body, hshape,
    Text.allDigits_ofDigits, Text.value_ofDigits, hlength]
  rfl

/-- The three ways in which reading a decimal may end. -/
theorem read_cases {cs : List Char} {n : Decimal} (h : Text.Strips cs n.text) :
    4 < n.places ∧ read cs = .error .tooPrecise ∨
    (n.places ≤ 4 ∧ 9223372036854775807 < |n.value| * 10000 ∧ read cs = .error .outOfRange) ∨
    (n.places ≤ 4 ∧ |n.value| * 10000 ≤ 9223372036854775807 ∧
      ∃ m, read cs = .ok m ∧ (m.units : ℚ) = n.value * 10000) := by
  have hread := read_of_strips h
  by_cases hplaces : 4 < n.places
  · rw [if_pos hplaces] at hread
    exact .inl ⟨hplaces, hread⟩
  rw [if_neg hplaces] at hread
  rw [not_lt] at hplaces
  have hsize : |n.value| * 10000 = n.size := by
    rw [Decimal.abs_value, Decimal.magnitude_mul hplaces]
  by_cases hrange : n.size ≤ 9223372036854775807
  · rw [dif_pos hrange] at hread
    refine .inr (.inr ⟨hplaces, by rw [hsize]; exact_mod_cast hrange, _, hread, ?_⟩)
    rw [units_signed, ← Decimal.magnitude_mul hplaces, Decimal.value]
    split <;> simp_all
  · rw [dif_neg hrange] at hread
    exact .inr (.inl ⟨hplaces, by rw [hsize]; exact_mod_cast not_le.mp hrange, hread⟩)

/-- A text that is not invalid is that of a decimal. -/
theorem exists_decimal {cs t : List Char} (h : Text.Strips cs t)
    (hread : read cs ≠ .error .invalid) : ∃ n : Decimal, n.text = t := by
  rcases hsign : splitSign t with ⟨negative, number⟩
  rcases hpoint : splitPoint number with ⟨whole, fraction⟩
  simp only [read, h.trim_eq, hsign, hpoint] at hread
  split at hread
  · exact absurd rfl hread
  · rename_i hshape
    simp only [Bool.or_eq_true, Bool.and_eq_true, List.isEmpty_iff, Bool.not_eq_true', not_or,
      Bool.not_eq_false] at hshape
    exact Decimal.exists_text_eq hsign hpoint hshape.1.1 hshape.1.2 hshape.2

/-- What no invalid text has and a condition on decimals decides. -/
theorem iff_exists_decimal {cs t : List Char} {P : Prop} {Q : Decimal → Prop}
    (h : Text.Strips cs t) (hvalid : P → read cs ≠ .error .invalid)
    (hdecimal : ∀ n : Decimal, Text.Strips cs n.text → (P ↔ Q n)) :
    P ↔ ∃ n : Decimal, n.text = t ∧ Q n := by
  constructor
  · intro hp
    obtain ⟨n, rfl⟩ := exists_decimal h (hvalid hp)
    exact ⟨n, rfl, (hdecimal n h).mp hp⟩
  · rintro ⟨n, rfl, hq⟩
    exact (hdecimal n h).mpr hq

section Verdicts

variable {cs t : List Char} {n : Decimal}

theorem read_eq_invalid_iff (h : Text.Strips cs t) :
    read cs = .error .invalid ↔ ¬∃ n : Decimal, n.text = t := by
  constructor
  · rintro hread ⟨n, rfl⟩
    rcases read_cases h with ⟨-, h'⟩ | ⟨-, -, h'⟩ | ⟨-, -, m, h', -⟩ <;> cases hread.symm.trans h'
  · intro hnone
    by_contra hread
    exact hnone (exists_decimal h hread)

theorem read_eq_tooPrecise_iff (h : Text.Strips cs n.text) :
    read cs = .error .tooPrecise ↔ 4 < n.places := by
  rcases read_cases h with ⟨hmany, hread⟩ | ⟨hplaces, -, hread⟩ | ⟨hplaces, -, m, hread, -⟩
  · simp [hread, hmany]
  · simp [hread, hplaces]
  · simp [hread, hplaces]

theorem read_eq_outOfRange_iff (h : Text.Strips cs n.text) :
    read cs = .error .outOfRange ↔ n.places ≤ 4 ∧ 9223372036854775807 < |n.value| * 10000 := by
  rcases read_cases h with ⟨hmany, hread⟩ | ⟨hplaces, hlarge, hread⟩ | ⟨-, hsize, m, hread, -⟩
  · simp [hread, hmany]
  · simp only [hread, hplaces, hlarge, and_self]
  · simp [hread, not_lt.mpr hsize]

theorem exists_read_iff (h : Text.Strips cs n.text) :
    (∃ m, read cs = .ok m) ↔ n.places ≤ 4 ∧ |n.value| * 10000 ≤ 9223372036854775807 := by
  rcases read_cases h with ⟨hmany, hread⟩ | ⟨-, hlarge, hread⟩ | ⟨hplaces, hsize, m, hread, -⟩
  · simp [hread, hmany]
  · simp [hread, not_le.mpr hlarge]
  · simp only [hread, hplaces, hsize, and_self, iff_true]
    exact ⟨m, rfl⟩

theorem units_read {m : Money} (h : Text.Strips cs n.text) (hread : read cs = .ok m) :
    (m.units : ℚ) = n.value * 10000 := by
  rcases read_cases h with ⟨-, h'⟩ | ⟨-, -, h'⟩ | ⟨-, -, m', h', hunits⟩ <;>
    cases hread.symm.trans h'
  exact hunits

/-- Zeros in front of the digits do not matter. -/
theorem read_padded (h : Text.Strips cs n.text) (zeros : ℕ) :
    read (n.padded zeros).text = read cs := by
  rw [read_of_strips h, read_of_strips (n.padded zeros).strips_self]
  simp only [Decimal.places_padded, Decimal.size_padded]
  rfl

end Verdicts

/-- Every text has one text between the blanks around it. An amount is read exactly if that is the
text of a decimal with at most four places and at most 2 ^ 63 - 1 ten-thousandths; it is then the
number that the decimal stands for, and zeros in front of the digits change nothing. A text that is
not of this form is invalid, else it is too precise if it has more places, else it is out of
range. -/
theorem read_reads_decimals (cs : List Char) :
    ∃ t, (∀ t', Text.Strips cs t' ↔ t' = t) ∧
      ((∃ m, read cs = .ok m) ↔ ∃ n : Decimal, n.text = t ∧ n.places ≤ 4 ∧
        |n.value| * 10000 ≤ 9223372036854775807) ∧
      (∀ (m : Money) (n : Decimal), read cs = .ok m → n.text = t →
        (m.units : ℚ) = n.value * 10000) ∧
      (∀ (n : Decimal) (zeros : ℕ), n.text = t → read (n.padded zeros).text = read cs) ∧
      (read cs = .error .invalid ↔ ¬∃ n : Decimal, n.text = t) ∧
      (read cs = .error .tooPrecise ↔ ∃ n : Decimal, n.text = t ∧ 4 < n.places) ∧
      (read cs = .error .outOfRange ↔ ∃ n : Decimal, n.text = t ∧ n.places ≤ 4 ∧
        9223372036854775807 < |n.value| * 10000) := by
  have h := Text.strips_trim cs
  refine ⟨Text.trim cs, fun t' => Text.strips_iff, ?_, ?_, ?_, read_eq_invalid_iff h, ?_, ?_⟩
  · exact iff_exists_decimal h (fun ⟨m, hm⟩ => by simp [hm]) fun n hn => exists_read_iff hn
  · intro m n hread htext
    exact units_read (htext ▸ h) hread
  · intro n zeros htext
    exact read_padded (htext ▸ h) zeros
  · exact iff_exists_decimal h (fun hread => by simp [hread]) fun n hn => read_eq_tooPrecise_iff hn
  · exact iff_exists_decimal h (fun hread => by simp [hread]) fun n hn => read_eq_outOfRange_iff hn

/-- A number below zero is read between blanks and with zeros in front. -/
theorem read_reads_negative_decimal :
    ∃ m, read " -007.25\n".toList = .ok m ∧ m.units = -72500 := by
  let n : Decimal := ⟨some .minus, [0, 0, 7], some [2, 5], .inl (by decide)⟩
  have hvalue : n.value = -(29 / 4) := by
    norm_num [n, Decimal.value, Decimal.magnitude, Decimal.afterPoint, Decimal.places, Text.natural,
      Nat.ofDigits]
  have hcs : " -007.25\n".toList = [' '] ++ (n.text ++ ['\n']) := rfl
  have hstrips : Text.Strips " -007.25\n".toList n.text :=
    Decimal.strips_text hcs (List.forall_mem_singleton.mpr rfl) (List.forall_mem_singleton.mpr rfl)
  obtain ⟨t, ht, hok, hunits, -⟩ := read_reads_decimals " -007.25\n".toList
  have htext : n.text = t := (ht _).mp hstrips
  obtain ⟨m, hm⟩ := hok.mpr ⟨n, htext, by decide, by rw [hvalue]; norm_num⟩
  have hm' := hunits m n hm htext
  rw [hvalue] at hm'
  refine ⟨m, hm, ?_⟩
  have hcast : (m.units : ℚ) = (-72500 : ℤ) := by
    rw [hm']
    norm_num
  exact_mod_cast hcast

end Money

end Referral
