import Mathlib.Tactic.IntervalCases
import Referral.Time.Calendar

/-!
# The calendar

Every number is that of a date that exists. In a cycle of 400 years that start in March a year ends
with its leap day, if it has one, so the year of a day in the cycle is found from the leap days that
went before, and the month and the day are found from the place in the year alone.
-/

namespace Referral.Calendar

/-! ## Years of a cycle -/

/-- The first day of a year of the cycle. -/
def startOfYear (y : ℤ) : ℤ := 365 * y + y / 4 - y / 100

/-- The year of a day of the cycle. -/
def yearOfDay (d : ℤ) : ℤ := (d - d / 1460 + d / 36524 - d / 146096) / 365

variable {d : ℤ}

/-- Without the leap days before it, a day is in the same century. -/
theorem century_bounds (hnonneg : 0 ≤ d) (hlt : d < 146096) :
    36500 * (d / 36524) ≤ d - d / 1460 + d / 36524 ∧
      d - d / 1460 + d / 36524 < 36500 * (d / 36524 + 1) := by
  have hcentury : d / 36524 = 0 ∨ d / 36524 = 1 ∨ d / 36524 = 2 ∨ d / 36524 = 3 := by omega
  rcases hcentury with h | h | h | h
  all_goals
    constructor
    · omega
    · omega

/-- A day lies in its year. The last year of a cycle has one day more than the next would leave to
it. -/
theorem yearOfDay_spec (hnonneg : 0 ≤ d) (hlt : d < 146097) :
    0 ≤ yearOfDay d ∧ yearOfDay d ≤ 399 ∧ startOfYear (yearOfDay d) ≤ d ∧
      (d < startOfYear (yearOfDay d + 1) ∨ yearOfDay d = 399 ∧ d = 146096) := by
  by_cases hlast : d = 146096
  · subst hlast
    decide
  have hbefore : d < 146096 := by omega
  obtain ⟨hlow, hhigh⟩ := century_bounds hnonneg hbefore
  have hzero : d / 146096 = 0 := Int.ediv_eq_zero_of_lt hnonneg hbefore
  generalize hy : yearOfDay d = y
  rw [yearOfDay, hzero, Int.sub_zero] at hy
  have hcentury : y / 100 = d / 36524 := by omega
  have hfour : y / 4 = (d - d / 1460 + d / 36524) / 1460 := by
    rw [← hy, Int.ediv_ediv_of_nonneg (by decide)]
    rfl
  -- the leap days counted by fours are those of the years before, and perhaps of this one
  have hleaps : y / 4 ≤ d / 1460 ∧ d / 1460 ≤ (y + 1) / 4 := by
    constructor
    · omega
    · omega
  have hnext : (y + 1) / 100 = d / 36524 ∨ (y + 1) / 100 = d / 36524 + 1 := by omega
  refine ⟨by omega, by omega, ?_, .inl ?_⟩
  · unfold startOfYear
    omega
  · unfold startOfYear
    rcases hnext with h | h
    · omega
    · omega

/-- Only a leap year has room for a day more. -/
theorem isLeap_of_last (cycle : ℤ) (hnonneg : 0 ≤ d) (hlt : d < 146097)
    (hlast : d - startOfYear (yearOfDay d) = 365) :
    isLeap (yearOfDay d + cycle * 400 + 1) = true := by
  obtain ⟨-, hyear, -, hupper⟩ := yearOfDay_spec hnonneg hlt
  generalize yearOfDay d = y at hyear hlast hupper
  simp only [startOfYear] at hlast hupper
  simp only [isLeap, decide_eq_true_eq]
  rcases hupper with hlonger | ⟨rfl, -⟩
  · have hmore : y / 4 - y / 100 < (y + 1) / 4 - (y + 1) / 100 := by omega
    have hcentury : y / 100 ≤ (y + 1) / 100 := by omega
    have hfour : (y + 1) % 4 = 0 := by omega
    have hhundred : (y + 1) % 100 ≠ 0 := by omega
    exact ⟨by omega, .inl (by omega)⟩
  · omega

/-! ## Dates -/

/-- The place of a number in its year, counted from the first of March. -/
def dayOfYear (n : ℤ) : ℤ :=
  let d := (n + 719468) % 146097
  d - startOfYear (yearOfDay d)

theorem dayOfYear_bounds (n : ℤ) : 0 ≤ dayOfYear n ∧ dayOfYear n ≤ 365 := by
  obtain ⟨-, -, hlow, hupper⟩ := yearOfDay_spec (d := (n + 719468) % 146097)
    (Int.emod_nonneg _ (by decide)) (Int.emod_lt_of_pos _ (by decide))
  simp only [dayOfYear]
  rcases hupper with hnext | ⟨hyear, hd⟩
  · simp only [startOfYear] at hlow hnext ⊢
    omega
  · rw [hyear, hd]
    decide

/-- The months are counted from March, and so are the days up to each of them. -/
theorem ofNumber_eq (n : ℤ) : Date.ofNumber n =
    let march := (5 * dayOfYear n + 2) / 153
    let month := if march < 10 then march + 3 else march - 9
    ⟨yearOfDay ((n + 719468) % 146097) + (n + 719468) / 146097 * 400 +
        (if month ≤ 2 then 1 else 0),
      month.toNat, (dayOfYear n - (153 * march + 2) / 5 + 1).toNat⟩ := rfl

/-- The number of the date of a number is the number. -/
theorem number_ofNumber (n : ℤ) : (Date.ofNumber n).number = n := by
  obtain ⟨hlow, hupper⟩ := dayOfYear_bounds n
  obtain ⟨hyear, hyear', -, -⟩ := yearOfDay_spec (d := (n + 719468) % 146097)
    (Int.emod_nonneg _ (by decide)) (Int.emod_lt_of_pos _ (by decide))
  have hparts : dayOfYear n + startOfYear (yearOfDay ((n + 719468) % 146097)) +
      (n + 719468) / 146097 * 146097 = n + 719468 := by
    simp only [dayOfYear]
    omega
  rw [ofNumber_eq]
  generalize yearOfDay ((n + 719468) % 146097) = y at hyear hyear' hparts
  generalize (n + 719468) / 146097 = cycle at hparts
  generalize dayOfYear n = i at hlow hupper hparts
  simp only [Date.number, startOfYear] at hparts ⊢
  have hcycle : (y + cycle * 400) / 400 = cycle := by omega
  have hin : (y + cycle * 400) % 400 = y := by omega
  have hmarch : 0 ≤ (5 * i + 2) / 153 ∧ (5 * i + 2) / 153 ≤ 11 := by omega
  have hday : 0 ≤ i - (153 * ((5 * i + 2) / 153) + 2) / 5 := by omega
  generalize (5 * i + 2) / 153 = march at hmarch hday
  by_cases hspring : march < 10
  · have hmonth : ((march + 3).toNat + 9 : ℤ) % 12 = march := by omega
    have hlate : ¬ (march + 3).toNat ≤ 2 := by omega
    have hlate' : ¬ march + 3 ≤ 2 := by omega
    simp only [if_pos hspring, hmonth, if_neg hlate, if_neg hlate', Int.add_zero, hcycle, hin]
    omega
  · have hmonth : ((march - 9).toNat + 9 : ℤ) % 12 = march := by omega
    have hlate : (march - 9).toNat ≤ 2 := by omega
    have hlate' : march - 9 ≤ 2 := by omega
    simp only [if_neg hspring, hmonth, if_pos hlate, if_pos hlate', Int.add_sub_cancel, hcycle, hin]
    omega

/-- The date of a number exists. -/
theorem isValid_ofNumber (n : ℤ) : (Date.ofNumber n).isValid = true := by
  obtain ⟨hlow, hupper⟩ := dayOfYear_bounds n
  have hleap : dayOfYear n = 365 →
      isLeap (yearOfDay ((n + 719468) % 146097) + (n + 719468) / 146097 * 400 + 1) = true :=
    isLeap_of_last _ (Int.emod_nonneg _ (by decide)) (Int.emod_lt_of_pos _ (by decide))
  rw [ofNumber_eq]
  generalize yearOfDay ((n + 719468) % 146097) + (n + 719468) / 146097 * 400 = y at hleap
  generalize dayOfYear n = i at hlow hupper hleap
  have hmarch : 0 ≤ (5 * i + 2) / 153 ∧ (5 * i + 2) / 153 ≤ 11 := by omega
  generalize hi : (5 * i + 2) / 153 = march at hmarch
  obtain ⟨hfirst, hlast⟩ := hmarch
  simp only [Date.isValid, decide_eq_true_eq]
  by_cases hfebruary : march = 11
  · subst hfebruary
    have hlength : 28 ≤ monthLength (y + 1) 2 ∧ (i = 365 → monthLength (y + 1) 2 = 29) := by
      simp only [monthLength, if_true]
      split
      · omega
      · rename_i hnot
        exact ⟨le_refl _, fun h => absurd (hleap h) hnot⟩
    show 1 ≤ 2 ∧ 2 ≤ 12 ∧ 1 ≤ (i - 337 + 1).toNat ∧ (i - 337 + 1).toNat ≤ monthLength (y + 1) 2
    omega
  · interval_cases march
    all_goals
      simp [monthLength]
      omega

end Referral.Calendar
