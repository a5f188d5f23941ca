import Referral.Proofs.Reading

/-!
# Writing amounts

The written form of an amount is the text of a decimal that stands for it: the whole part in its own
digits, and the ten-thousandths in four digits of which the zeros at the end are dropped, but not
below two. Such a text is read back as long as the size of the amount is in range, which leaves out
the lowest amount only. So different amounts have different written forms.
-/

namespace Referral

/-! ## Digits with zeros in front -/

namespace Text

theorem value_paddedDigits (width n : ℕ) : value (paddedDigits width n) = n := by
  have hvalue := value_digits n
  unfold value at hvalue ⊢
  rw [paddedDigits, padZeros, Nat.ofDigitChars_append, Nat.ofDigitChars_replicate_zero,
    Nat.mul_zero, hvalue]

theorem length_paddedDigits {width n : ℕ} (hwidth : 0 < width) (h : n < 10 ^ width) :
    (paddedDigits width n).length = width := by
  have hle : (digits n).length ≤ width := (Nat.length_toDigits_le_iff (by decide) hwidth).mpr h
  rw [paddedDigits, padZeros, List.length_append, List.length_replicate]
  omega

theorem allDigits_append {cs ds : List Char} :
    allDigits (cs ++ ds) = true ↔ allDigits cs = true ∧ allDigits ds = true := by
  simp [allDigits]

theorem allDigits_paddedDigits (width n : ℕ) : allDigits (paddedDigits width n) = true :=
  allDigits_append.mpr ⟨by simp [allDigits], allDigits_digits n⟩

/-- Zeros at the end of some digits multiply by ten. -/
theorem value_append_zeros (cs : List Char) (zeros : ℕ) :
    value (cs ++ List.replicate zeros '0') = 10 ^ zeros * value cs := by
  simp only [value, Nat.ofDigitChars_append, Nat.ofDigitChars_replicate_zero]

end Text

namespace Money

/-! ## The digits after the point -/

/-- The digits after the point are the four digits without zeros at the end, but at least two. -/
theorem exists_fractionText {n : ℕ} (h : n < 10000) :
    ∃ zeros, fractionText n ++ List.replicate zeros '0' = Text.paddedDigits 4 n ∧
      2 ≤ (fractionText n).length ∧
      ((fractionText n).length = 2 ∨ (fractionText n).getLast? ≠ some '0') := by
  have hlength : (Text.paddedDigits 4 n).length = 4 := Text.length_paddedDigits (by decide) h
  generalize hfour : Text.paddedDigits 4 n = four at hlength
  have hsplit : four.rdropWhile (· = '0') ++ four.rtakeWhile (· = '0') = four :=
    List.rdropWhile_append_rtakeWhile
  have hzero : ∀ c ∈ four.rtakeWhile (· = '0'), c = '0' := fun c hc => by
    simpa using List.mem_rtakeWhile_imp hc
  have hdigits : fractionText n = if (four.rdropWhile (· = '0')).length < 2 then four.take 2
      else four.rdropWhile (· = '0') := by
    rw [← hfour]
    rfl
  by_cases hshort : (four.rdropWhile (· = '0')).length < 2
  · -- one digit or none is left, so both digits behind the second are zeros
    have hrest : four.drop 2 = List.replicate 2 '0' := by
      refine List.eq_replicate_iff.mpr ⟨by rw [List.length_drop, hlength], fun c hc => ?_⟩
      rw [← hsplit, List.drop_append, List.drop_eq_nil_of_le (by omega), List.nil_append] at hc
      exact hzero c (List.mem_of_mem_drop hc)
    rw [hdigits, if_pos hshort]
    exact ⟨2, by rw [← hrest, List.take_append_drop], by simp [hlength], .inl (by simp [hlength])⟩
  · rw [hdigits, if_neg hshort]
    refine ⟨(four.rtakeWhile (· = '0')).length, ?_, not_lt.mp hshort, .inr fun hlast => ?_⟩
    · rw [← List.eq_replicate_of_mem hzero, hsplit]
    · have hne : four.rdropWhile (· = '0') ≠ [] := List.ne_nil_of_length_pos (by omega)
      rw [List.getLast?_eq_some_getLast hne, Option.some.injEq] at hlast
      exact List.rdropWhile_last_not _ _ hne (by simpa using hlast)

/-- These digits stand for the ten-thousandths. -/
theorem exists_afterPoint {n : ℕ} (h : n < 10000) :
    ∃ ds, Text.ofDigits ds = fractionText n ∧ Text.natural ds * 10 ^ (4 - ds.length) = n ∧
      2 ≤ ds.length ∧ ds.length ≤ 4 ∧ (ds.length = 2 ∨ ds.getLast? ≠ some 0) := by
  obtain ⟨zeros, hpadded, htwo, hlast⟩ := exists_fractionText h
  obtain ⟨ds, hds⟩ := Text.exists_ofDigits_eq
    (Text.allDigits_append.mp (hpadded ▸ Text.allDigits_paddedDigits 4 n)).1
  have hlength : (Text.ofDigits ds).length = ds.length := List.length_map _
  have hzeros : ds.length + zeros = 4 := by
    rw [← Text.length_paddedDigits (by decide) (show n < 10 ^ 4 from h), ← hpadded,
      List.length_append, List.length_replicate, ← hds, hlength]
  have hvalue : Text.natural ds * 10 ^ zeros = n := by
    rw [← Text.value_ofDigits, hds, Nat.mul_comm, ← Text.value_append_zeros, hpadded,
      Text.value_paddedDigits]
  rw [← hds, hlength] at htwo hlast
  refine ⟨ds, hds, by rwa [show 4 - ds.length = zeros by omega], htwo, by omega,
    hlast.imp_right fun hne hzero => hne ?_⟩
  rw [Text.ofDigits, List.getLast?_map, hzero]
  rfl

/-! ## The decimal of an amount -/

/-- The written form of an amount is the text of a decimal with its sign and size. -/
theorem exists_decimal_text (m : Money) :
    ∃ n : Decimal, n.text = m.text ∧ n.size = m.units.natAbs ∧
      (n.sign = some .minus ↔ m.units < 0) ∧ 2 ≤ n.places ∧ n.places ≤ 4 ∧
      (n.places = 2 ∨ n.afterPoint.getLast? ≠ some 0) := by
  obtain ⟨ws, hws⟩ := Text.exists_ofDigits_eq (Text.allDigits_digits (m.units.natAbs / 10000))
  obtain ⟨ds, hds, hvalue, htwo, hfour, hlast⟩ :=
    exists_afterPoint (Nat.mod_lt m.units.natAbs (by decide : 0 < 10000))
  have hwhole : Text.natural ws = m.units.natAbs / 10000 := by
    rw [← Text.value_ofDigits, hws, Text.value_digits]
  refine ⟨⟨if m.units < 0 then some .minus else none, ws, some ds, .inr ?_⟩, ?_, ?_, ?_, htwo,
    hfour, hlast⟩
  · exact List.ne_nil_of_length_pos (by rw [Option.getD_some]; omega)
  · simp only [Decimal.text, Decimal.fractionText, hws, hds, text, scale, List.append_assoc]
    split <;> rfl
  · simp only [Decimal.size, Decimal.afterPoint, Decimal.places, Option.getD_some, hwhole, hvalue]
    omega
  · simp

/-- The lowest amount is read as out of range and every other amount as itself. -/
theorem read_text (m : Money) : read m.text =
    if m.units = -9223372036854775808 then .error .outOfRange else .ok m := by
  obtain ⟨n, htext, hsize, hsign, -, hplaces, -⟩ := m.exists_decimal_text
  have hlower := m.lower
  have hupper := m.upper
  rw [← htext, read_of_strips n.strips_self, if_neg (not_lt.mpr hplaces)]
  by_cases hlowest : m.units = -9223372036854775808
  · rw [if_pos hlowest, dif_neg (by omega)]
  · rw [if_neg hlowest, dif_pos (by omega), Except.ok.injEq]
    apply Money.ext
    by_cases hneg : m.units < 0
    · simp only [signed, hsign, hneg, hsize, decide_true, if_true]
      omega
    · simp only [signed, hsign, hneg, hsize, decide_false, Bool.false_eq_true, if_false]
      omega

/-- What a decimal with the sign and the size of an amount stands for. -/
theorem value_eq_of_size {m : Money} {n : Decimal} (hsize : n.size = m.units.natAbs)
    (hsign : n.sign = some .minus ↔ m.units < 0) (hplaces : n.places ≤ 4) :
    n.value = m.value := by
  have hmagnitude : n.magnitude * 10000 = |(m.units : ℚ)| := by
    rw [Decimal.magnitude_mul hplaces, hsize, Nat.cast_natAbs, Int.cast_abs]
  simp only [Decimal.value, Money.value, hsign]
  split
  · rename_i hneg
    rw [abs_of_neg (by exact_mod_cast hneg)] at hmagnitude
    linarith
  · rename_i hpos
    rw [abs_of_nonneg (by exact_mod_cast not_lt.mp hpos)] at hmagnitude
    linarith

/-- The lowest amount is read from no text. -/
theorem units_ne_lowest_of_read {cs : List Char} {m : Money} (h : read cs = .ok m) :
    m.units ≠ -9223372036854775808 := by
  intro hlowest
  have hstrips := Text.strips_trim cs
  obtain ⟨n, htext⟩ := exists_decimal hstrips (by simp [h])
  rw [← htext] at hstrips
  have hunits := units_read hstrips h
  have hsize := ((exists_read_iff hstrips).mp ⟨m, h⟩).2
  have habs : |n.value| * 10000 = |(m.units : ℚ)| := by
    rw [hunits, abs_mul]
    norm_num
  rw [habs, hlowest] at hsize
  norm_num at hsize

/-- The written form tells amounts apart. -/
theorem text_injective {m m' : Money} (h : m.text = m'.text) : m = m' := by
  have hread : read m.text = read m'.text := by rw [h]
  rw [read_text, read_text] at hread
  split at hread <;> split at hread
  · rename_i hm hm'
    exact Money.ext (hm.trans hm'.symm)
  · cases hread
  · cases hread
  · exact Except.ok.inj hread

/-- An amount is written with two to four places, without a zero at the end after the second, as a
decimal that stands for it. Its written form is read as the amount again, and that of the lowest
amount alone is out of range; so what was read once is read again, and the written form tells
amounts apart. -/
theorem read_display (m : Money) :
    (∃ n : Decimal, n.text = m.display.toList ∧ n.value = m.value ∧ 2 ≤ n.places ∧ n.places ≤ 4 ∧
      (n.places = 2 ∨ n.afterPoint.getLast? ≠ some 0)) ∧
    read m.display.toList =
      (if m.units = -9223372036854775808 then .error .outOfRange else .ok m) ∧
    ((∃ cs, read cs = .ok m) ↔ read m.display.toList = .ok m) ∧
    ∀ m' : Money, m.display = m'.display ↔ m = m' := by
  have htext : ∀ m : Money, m.display.toList = m.text := fun m => String.toList_ofList
  refine ⟨?_, by rw [htext, read_text], ⟨?_, fun h => ⟨_, h⟩⟩, fun m' => ⟨?_, fun h => h ▸ rfl⟩⟩
  · obtain ⟨n, hn, hsize, hsign, htwo, hfour, hlast⟩ := m.exists_decimal_text
    exact ⟨n, by rw [htext, hn], value_eq_of_size hsize hsign hfour, htwo, hfour, hlast⟩
  · rintro ⟨cs, hcs⟩
    rw [htext, read_text, if_neg (units_ne_lowest_of_read hcs)]
  · intro hsame
    exact text_injective (by rw [← htext, hsame, htext])

end Money

end Referral
