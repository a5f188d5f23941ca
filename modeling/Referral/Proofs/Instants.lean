import Referral.Proofs.Calendar
import Referral.Proofs.Writing
import Referral.Time.Instant

/-!
# Written instants

An instant of a year from 0 to 9999 is read back from its own text. Each part of the text has the
digits that reading takes at most, or ends before a mark, so no part runs into the next.
-/

namespace Referral

/-! ## Numbers at the beginning of a text -/

namespace Text

variable {most width n : ℕ} {ds rest : List Char}

/-- Digits are taken as a number if there is no room for more or nothing that looks like more. -/
theorem takeNumber?_append (hdigits : allDigits ds = true) (hne : ds ≠ [])
    (hmost : ds.length ≤ most)
    (hend : ds.length = most ∨ ∀ c ∈ rest.head?, c.isDigit = false) :
    takeNumber? most (ds ++ rest) = some (value ds, rest) := by
  have hall : ∀ c ∈ ds, c.isDigit = true := List.all_eq_true.mp hdigits
  have htaken : ((ds ++ rest).take most).takeWhile Char.isDigit = ds := by
    rw [List.take_append, List.take_of_length_le hmost, List.takeWhile_append_of_pos hall]
    rcases hend with hfull | hstop
    · simp [hfull]
    · cases rest with
      | nil => simp
      | cons c rest =>
        have hc := hstop c rfl
        cases hroom : most - ds.length with
        | zero => simp
        | succ room => simp [hc]
  simp [takeNumber?, htaken, hne]

theorem paddedDigits_ne_nil (hwidth : 0 < width) (h : n < 10 ^ width) :
    paddedDigits width n ≠ [] := by
  have hlength := length_paddedDigits hwidth h
  intro hnil
  rw [hnil, List.length_nil] at hlength
  omega

theorem takeNumber?_paddedDigits (hwidth : 0 < width) (h : n < 10 ^ width) (rest : List Char) :
    takeNumber? width (paddedDigits width n ++ rest) = some (n, rest) := by
  have hlength := length_paddedDigits hwidth h
  rw [takeNumber?_append (allDigits_paddedDigits width n) (paddedDigits_ne_nil hwidth h)
    hlength.le (.inl hlength), value_paddedDigits]

/-- A padded number begins with a digit. -/
theorem exists_paddedDigits_eq_cons (hwidth : 0 < width) (h : n < 10 ^ width) :
    ∃ c cs, paddedDigits width n = c :: cs ∧ c.isDigit = true := by
  obtain ⟨c, cs, hcs⟩ := List.exists_cons_of_ne_nil (paddedDigits_ne_nil hwidth h)
  have hall := allDigits_paddedDigits width n
  rw [hcs, allDigits, List.all_cons, Bool.and_eq_true] at hall
  exact ⟨c, cs, hcs, hall.1⟩

theorem isBlank_eq_false_of_isDigit {c : Char} (h : c.isDigit = true) : isBlank c = false := by
  obtain ⟨d, rfl⟩ := exists_digitChar_eq h
  revert d
  decide

theorem trimStart_paddedDigits (hwidth : 0 < width) (h : n < 10 ^ width) (rest : List Char) :
    trimStart (paddedDigits width n ++ rest) = paddedDigits width n ++ rest := by
  obtain ⟨c, cs, hcs, hdigit⟩ := exists_paddedDigits_eq_cons hwidth h
  rw [hcs]
  exact trimStart_eq_self (by simpa using isBlank_eq_false_of_isDigit hdigit)

end Text

/-! ## Dates -/

namespace Calendar

open Text

theorem readPart?_paddedDigits {n : ℕ} (h : n < 100) (rest : List Char) :
    readPart? (paddedDigits 2 n ++ rest) = some (n, rest) := by
  rw [readPart?, trimStart_paddedDigits (by decide) h, takeNumber?_paddedDigits (by decide) h]

theorem afterMark?_cons {mark : Char} (h : isBlank mark = false) (rest : List Char) :
    afterMark? mark (mark :: rest) = some rest := by
  rw [afterMark?, trimStart_eq_self (by simpa using h), dropLead?_eq_some]
  rfl

theorem readYear?_yearText {year : ℤ} (hnonneg : 0 ≤ year) (hle : year ≤ 9999)
    (rest : List Char) : readYear? (yearText year ++ rest) = some (year, rest) := by
  obtain ⟨n, rfl⟩ := Int.eq_ofNat_of_zero_le hnonneg
  have hn : n < 10 ^ 4 := by omega
  obtain ⟨c, cs, hcs, hdigit⟩ := exists_paddedDigits_eq_cons (by decide) hn
  rw [yearText, if_pos ⟨hnonneg, hle⟩, Int.natAbs_natCast, readYear?,
    trimStart_paddedDigits (by decide) hn]
  have hnumber : takeNumber? 4 (paddedDigits 4 n ++ rest) = some (n, rest) :=
    takeNumber?_paddedDigits (by decide) hn rest
  rw [hcs] at hnumber ⊢
  -- a digit is neither of the two signs
  split
  · rename_i heq
    rw [List.cons_append, List.cons.injEq] at heq
    rw [heq.1] at hdigit
    cases hdigit
  · rename_i heq
    rw [List.cons_append, List.cons.injEq] at heq
    rw [heq.1] at hdigit
    cases hdigit
  · rw [hnumber]
    rfl

/-- A date of such a year is read back from the beginning of a text. -/
theorem readDate?_text {d : Date} (hnonneg : 0 ≤ d.year) (hle : d.year ≤ 9999)
    (hvalid : d.isValid = true) (rest : List Char) :
    readDate? (d.text ++ rest) = some (d, rest) := by
  have hlength : monthLength d.year d.month ≤ 31 := by
    unfold monthLength
    repeat' split
    all_goals decide
  simp only [Date.isValid, decide_eq_true_eq] at hvalid
  have hmark : isBlank '-' = false := by decide
  simp only [readDate?, Date.text, List.append_assoc, List.cons_append, Option.bind_eq_bind,
    Option.bind_some, readYear?_yearText hnonneg hle, afterMark?_cons hmark,
    readPart?_paddedDigits (show d.month < 100 by omega),
    readPart?_paddedDigits (show d.day < 100 by omega)]

end Calendar

/-! ## Instants -/

namespace Instant

open Calendar Text

/-- The year in universal time. -/
def year (i : Instant) : ℤ := (Date.ofNumber i.day.number).year

theorem ext {i j : Instant} (hsecond : i.second = j.second) (hnanos : i.nanos = j.nanos) :
    i = j := by
  cases i
  cases j
  simp_all

theorem readFraction?_paddedDigits {width n : ℕ} (hwidth : 0 < width) (hmost : width ≤ 9)
    (h : n < 10 ^ width) :
    readFraction? ('.' :: (paddedDigits width n ++ ['Z'])) =
      some (n * 10 ^ (9 - width), ['Z']) := by
  have hlength := length_paddedDigits hwidth h
  have hend : ∀ c ∈ ['Z'].head?, c.isDigit = false := by
    rintro c ⟨⟩
    rfl
  have hnumber : takeNumber? 9 (paddedDigits width n ++ ['Z']) = some (n, ['Z']) := by
    rw [takeNumber?_append (allDigits_paddedDigits width n) (paddedDigits_ne_nil hwidth h)
      (by omega) (.inr hend), value_paddedDigits]
  simp [readFraction?, hnumber, hlength]

/-- However many groups of digits a fraction has, it is read back. -/
theorem readFraction?_fractionText {nanos : ℕ} (h : nanos < 1000000000) :
    readFraction? (fractionText nanos ++ ['Z']) = some (nanos, ['Z']) := by
  unfold fractionText
  split
  · rename_i hzero
    rw [hzero]
    rfl
  · split
    · rw [List.cons_append, readFraction?_paddedDigits (by decide) (by decide) (by omega)]
      congr 2
      omega
    · split
      · rw [List.cons_append, readFraction?_paddedDigits (by decide) (by decide) (by omega)]
        congr 2
        omega
      · rw [List.cons_append, readFraction?_paddedDigits (by decide) (by decide) (by omega)]
        congr 2
        omega

/-- The parts of the time of day make up the instant again. -/
theorem ofParts?_parts (i : Instant) :
    let inDay := (i.second % 86400).toNat
    ofParts? i.day (inDay / 3600) (inDay / 60 % 60)
      (inDay % 60 + if 1000000000 ≤ i.nanos then 1 else 0) (i.nanos % 1000000000) 0 = some i := by
  intro inDay
  have hlower := i.lower
  have hupper := i.upper
  have hbound := i.bound
  have hsecond : (i.second / 86400 * 86400 + (inDay / 3600 : ℕ) * 3600 +
      (inDay / 60 % 60 : ℕ) * 60 + (inDay % 60 : ℕ) - 0 : ℤ) = i.second := by omega
  have hseconds : (inDay % 60 : ℕ) = i.second % 60 := by omega
  have hhour : inDay / 3600 < 24 := by omega
  have hminute : inDay / 60 % 60 < 60 := by omega
  by_cases hleap : 1000000000 ≤ i.nanos
  · have hlast : inDay % 60 = 59 := by omega
    have hnanos : 1000000000 + i.nanos % 1000000000 = i.nanos := by omega
    rw [hlast] at hsecond
    simp only [ofParts?, if_pos hleap, hlast, if_true, hnanos, day]
    rw [dif_pos ⟨hhour, hminute, by omega, by omega, by omega, by omega⟩]
    exact congrArg some (ext hsecond rfl)
  · have hlast : ¬ inDay % 60 + 0 = 60 := by omega
    have hnanos : i.nanos % 1000000000 = i.nanos := by omega
    simp only [ofParts?, if_neg hleap, if_neg hlast, hnanos, day]
    rw [dif_pos ⟨hhour, hminute, by omega, by omega, by omega, by omega⟩]
    exact congrArg some (ext hsecond rfl)

/-- An instant of a year with four digits is read back from its text. -/
theorem read?_text {i : Instant} (hnonneg : 0 ≤ i.year) (hle : i.year ≤ 9999) :
    read? i.text = some i := by
  have hday : Day.ofDate? (Date.ofNumber i.day.number) = some i.day := by
    rw [Day.ofDate?, if_pos (isValid_ofNumber _), number_ofNumber, Day.ofNumber?,
      dif_pos ⟨i.day.lower, i.day.upper⟩]
  have hinDay : (i.second % 86400).toNat < 86400 := by omega
  have hmark : isBlank ':' = false := by decide
  have hzone : readZone? (trimStart ['Z']) = some (0, []) := by decide
  have hparts := i.ofParts?_parts
  simp only [text, read?]
  generalize (i.second % 86400).toNat = inDay at hinDay hparts
  have hsecond : inDay % 60 + (if 1000000000 ≤ i.nanos then 1 else 0) < 100 := by
    split
    · omega
    · omega
  simp only [List.append_assoc, readDate?_text hnonneg hle (isValid_ofNumber _),
    Option.bind_eq_bind, Option.bind_some, afterDate?, afterMark?_cons hmark,
    readPart?_paddedDigits (show inDay / 3600 < 100 by omega),
    readPart?_paddedDigits (show inDay / 60 % 60 < 100 by omega), readPart?_paddedDigits hsecond,
    readFraction?_fractionText (Nat.mod_lt i.nanos (by decide)), hzone, hday]
  exact hparts

end Instant

end Referral
