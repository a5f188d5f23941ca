import Mathlib.Algebra.Order.Group.Int
import Referral.Proofs.Shares

/-!
# Rounding amounts

An amount is rounded to a multiple of a step by adding half a step to its size and cutting what is
more than a whole number of steps. That is the nearest multiple, and of two that are equally near
the one farther from zero. This describes it completely, and the order of rounded amounts, their
signs and rounding once more follow from it without regard to how it is worked out.
-/

namespace Referral

/-! ## Nearest multiples -/

/-- A multiple of a step is a nearest one to a number, and any other that is as near is closer to
zero. -/
structure RoundsTo (step u r : ℤ) : Prop where
  multiple : step ∣ r
  near : 2 * |r - u| ≤ step
  away : ∀ k, step ∣ k → k ≠ r → |k - u| ≤ |r - u| → |k| < |r|

/-- Different multiples of a step are at least a step apart. -/
theorem le_abs_sub_of_dvd {step k r : ℤ} (hk : step ∣ k) (hr : step ∣ r) (hne : k ≠ r) :
    step ≤ |k - r| :=
  Int.le_of_dvd (abs_pos.mpr (sub_ne_zero.mpr hne)) ((dvd_abs _ _).mpr (dvd_sub hk hr))

namespace RoundsTo

variable {step u u' r r' : ℤ}

/-- No multiple is nearer. -/
theorem nearest (h : RoundsTo step u r) {k : ℤ} (hk : step ∣ k) : |r - u| ≤ |k - u| := by
  by_cases hne : k = r
  · rw [hne]
  · have hapart := le_abs_sub_of_dvd hk h.multiple hne
    have hsum : |k - r| ≤ |k - u| + |r - u| := by
      rw [abs_sub_comm r u]
      exact abs_sub_le k u r
    have hnear := h.near
    omega

/-- There is one such multiple at most. -/
theorem unique (h : RoundsTo step u r) (h' : RoundsTo step u r') : r = r' := by
  by_contra hne
  have hcloser : |r'| < |r| := h.away r' h'.multiple (Ne.symm hne) (h'.nearest h.multiple)
  have hfarther : |r| < |r'| := h'.away r h.multiple hne (h.nearest h'.multiple)
  exact lt_asymm hcloser hfarther

/-- Larger numbers have larger multiples, or the same one. -/
theorem mono (h : RoundsTo step u r) (h' : RoundsTo step u' r') (hle : u ≤ u') : r ≤ r' := by
  by_contra hlt
  have hapart := le_abs_sub_of_dvd h.multiple h'.multiple (by omega)
  have hnear := h.near
  have hnear' := h'.near
  have hspan : |r - r'| = r - r' := abs_of_pos (by omega)
  have hbelow : r - u ≤ |r - u| := le_abs_self _
  have habove : u' - r' ≤ |r' - u'| := abs_sub_comm r' u' ▸ le_abs_self _
  -- the distance between the two is just a step, so they belong to the same number
  have hsame : u = u' := by omega
  subst hsame
  exact hlt (h.unique h').le

/-- The negative number has the negative multiple. -/
theorem neg (h : RoundsTo step u r) : RoundsTo step (-u) (-r) := by
  have hdistance : ∀ k : ℤ, |k - -u| = |-k - u| := fun k => by
    rw [← abs_neg]
    congr 1
    omega
  refine ⟨h.multiple.neg_right, ?_, fun k hk hne hle => ?_⟩
  · rw [hdistance, neg_neg]
    exact h.near
  · rw [hdistance, hdistance, neg_neg] at hle
    have hcloser := h.away (-k) hk.neg_right (by omega) hle
    rwa [abs_neg] at hcloser ⊢

/-- A multiple is its own. -/
theorem eq_of_dvd (h : RoundsTo step u r) (hu : step ∣ u) (hpos : 0 < step) : r = u := by
  by_contra hne
  have hapart := le_abs_sub_of_dvd h.multiple hu hne
  have hnear := h.near
  omega

end RoundsTo

/-- Adding half a step to the size and cutting it to whole steps leads there. -/
theorem roundsTo_of_size {half : ℕ} (hhalf : 0 < half) (n : ℕ) :
    RoundsTo (2 * half) n ((n + half) / (2 * half) * (2 * half) : ℕ) := by
  have hlow : (n + half) / (2 * half) * (2 * half) ≤ n + half := Nat.div_mul_le_self _ _
  have hhigh : n + half < (n + half) / (2 * half) * (2 * half) + 2 * half :=
    Nat.lt_div_mul_add (by omega)
  have hdvd : ((2 * half : ℕ) : ℤ) ∣ ((n + half) / (2 * half) * (2 * half) : ℕ) :=
    Int.natCast_dvd_natCast.mpr (Nat.dvd_mul_left _ _)
  generalize (n + half) / (2 * half) * (2 * half) = size at hlow hhigh hdvd
  push_cast at hdvd
  refine ⟨hdvd, ?_, fun k hk hne hle => ?_⟩
  · rcases abs_cases ((size : ℤ) - n) with ⟨h, -⟩ | ⟨h, -⟩
    · omega
    · omega
  · -- another multiple as near is a whole step below
    have hapart := le_abs_sub_of_dvd hk hdvd hne
    have hnonneg : 0 ≤ k := by
      by_contra hneg
      have hsize := Int.le_of_dvd (by omega) hk.neg_right
      simp only [Int.abs_eq_natAbs] at hle
      omega
    simp only [Int.abs_eq_natAbs] at hapart hle ⊢
    omega

/-- The same for numbers of either sign, with half a step added on the side away from zero. -/
theorem roundsTo_of_shifted {half : ℕ} (hhalf : 0 < half) (u : ℤ) :
    RoundsTo (2 * half) u
      ((if 0 ≤ u then u + half else u - half).tdiv (2 * half) * (2 * half)) := by
  by_cases hu : 0 ≤ u
  · obtain ⟨n, rfl⟩ := Int.eq_ofNat_of_zero_le hu
    rw [if_pos hu, Int.tdiv_eq_ediv_of_nonneg (by omega)]
    exact_mod_cast roundsTo_of_size hhalf n
  · obtain ⟨n, hn⟩ := Int.eq_ofNat_of_zero_le (a := -u) (by omega)
    obtain rfl : u = -n := by omega
    have hshifted : -(n : ℤ) - half = -(n + half) := by omega
    rw [if_neg hu, hshifted, Int.neg_tdiv, Int.tdiv_eq_ediv_of_nonneg (by omega), neg_mul]
    exact_mod_cast (roundsTo_of_size hhalf n).neg

namespace Money

/-! ## Amounts -/

theorem exists_units_eq_iff {u : ℤ} :
    (∃ m : Money, m.units = u) ↔ -9223372036854775808 ≤ u ∧ u ≤ 9223372036854775807 := by
  constructor
  · rintro ⟨m, rfl⟩
    exact ⟨m.lower, m.upper⟩
  · rintro ⟨hlower, hupper⟩
    exact ⟨⟨u, hlower, hupper⟩, rfl⟩

/-- A number of the same sign and no larger size is an amount too. -/
theorem exists_of_smaller (m : Money) {u : ℤ} (hsign : 0 ≤ m.units ∨ u ≤ 0)
    (hsize : u.natAbs ≤ m.units.natAbs) : ∃ smaller : Money, smaller.units = u := by
  have hlower := m.lower
  have hupper := m.upper
  rw [exists_units_eq_iff]
  omega

/-- An amount divided by a step is an amount, and so are the whole steps in it. -/
theorem exists_cut (m : Money) {step : ℤ} (hstep : 0 < step) :
    (∃ quotient : Money, quotient.units = m.units.tdiv step) ∧
      ∃ cut : Money, cut.units = m.units.tdiv step * step := by
  have hsign : 0 ≤ m.units ∨ m.units.tdiv step ≤ 0 := by
    refine (le_total 0 m.units).imp_right fun h => ?_
    have hquotient := Int.tdiv_nonneg (neg_nonneg.mpr h) hstep.le
    rwa [Int.neg_tdiv, neg_nonneg] at hquotient
  constructor
  · apply m.exists_of_smaller hsign
    rw [Int.natAbs_tdiv]
    exact Nat.div_le_self _ _
  · apply m.exists_of_smaller (hsign.imp_right fun h => mul_nonpos_of_nonpos_of_nonneg h hstep.le)
    rw [Int.natAbs_mul, Int.natAbs_tdiv]
    exact Nat.div_mul_le_self _ _

/-- The units in one of the last place that is kept. -/
def step (p : ℕ) : ℤ := 10 ^ (places - p)

variable {m r : Money} {p half : ℕ}

theorem step_eq (h : 10 ^ (places - p) = 2 * half) : step p = 2 * half := by
  rw [step]
  exact_mod_cast h

/-- Rounding is shifting an amount by half a step and cutting it to whole steps. -/
theorem roundTo?_eq_some (hp : p < places) (hstep : 10 ^ (places - p) = 2 * half) :
    m.roundTo? p = some r ↔
      (∃ shifted : Money,
        shifted.units = if 0 ≤ m.units then m.units + half else m.units - half) ∧
      r.units =
        (if 0 ≤ m.units then m.units + half else m.units - half).tdiv (2 * half) * (2 * half) := by
  have hsized : ((Nat.pow 10 (places - p) : ℕ) : ℤ) = 2 * half := by exact_mod_cast hstep
  have hmiddle : (2 * (half : ℤ)) / 2 = half := by omega
  simp only [roundTo?, if_neg (Nat.not_le.mpr hp), hsized, hmiddle, Option.bind_eq_some_iff,
    ofUnits?_eq_some]
  constructor
  · rintro ⟨shifted, hshifted, hr⟩
    exact ⟨⟨shifted, hshifted⟩, hshifted ▸ hr⟩
  · rintro ⟨⟨shifted, hshifted⟩, hr⟩
    exact ⟨shifted, hshifted, hshifted.symm ▸ hr⟩

/-- An amount is rounded to the nearest multiple of the step. -/
theorem roundsTo_of_roundTo? (hp : p < places) (h : m.roundTo? p = some r) :
    RoundsTo (step p) m.units r.units := by
  obtain ⟨half, hhalf, -, hstep, -⟩ := exists_half_step hp
  rw [step_eq hstep, ((roundTo?_eq_some hp hstep).mp h).2]
  exact roundsTo_of_shifted hhalf m.units

/-- There is no rounded amount exactly where half a step leaves the range. -/
theorem roundTo?_eq_none (hp : p < places) (hstep : 10 ^ (places - p) = 2 * half)
    (hhalf : 0 < half) :
    m.roundTo? p = none ↔
      if 0 ≤ m.units then 9223372036854775807 < m.units + half
      else m.units - half < -9223372036854775808 := by
  have hlower := m.lower
  have hupper := m.upper
  have hshifts : m.roundTo? p = none ↔ ¬ ∃ shifted : Money,
      shifted.units = if 0 ≤ m.units then m.units + half else m.units - half := by
    constructor
    · rintro hnone ⟨shifted, hshifted⟩
      have hpos : (0 : ℤ) < 2 * half := by omega
      obtain ⟨cut, hcut⟩ := (shifted.exists_cut hpos).2
      rw [(roundTo?_eq_some hp hstep).mpr ⟨⟨shifted, hshifted⟩, hshifted ▸ hcut⟩] at hnone
      cases hnone
    · intro hnot
      rw [Option.eq_none_iff_forall_ne_some]
      exact fun r hr => hnot ((roundTo?_eq_some hp hstep).mp hr).1
  rw [hshifts, exists_units_eq_iff]
  split
  · omega
  · omega

/-- Nothing that rounding computes leaves the range but the amount shifted by half a step, and the
rounded amount is missing exactly then. Otherwise it is the nearest multiple of the step, a half
going away from zero: so larger amounts have no smaller rounded amounts, negative amounts have the
negative rounded amounts, and rounding once more changes nothing. -/
theorem roundTo?_nearest_away {p : ℕ} (hp : p ≤ 3) :
    (∀ m : Money, (∃ quotient : Money, quotient.units = m.units.tdiv (step p)) ∧
      ∃ cut : Money, cut.units = m.units.tdiv (step p) * step p) ∧
    (∀ m : Money, m.roundTo? p = none ↔
      if 0 ≤ m.units then 9223372036854775807 < m.units + step p / 2
      else m.units - step p / 2 < -9223372036854775808) ∧
    (∀ m r : Money, m.roundTo? p = some r → RoundsTo (step p) m.units r.units) ∧
    (∀ m m' r r' : Money, m.roundTo? p = some r → m'.roundTo? p = some r' →
      m.units ≤ m'.units → r.units ≤ r'.units) ∧
    (∀ m m' r r' : Money, m.roundTo? p = some r → m'.roundTo? p = some r' →
      m'.units = -m.units → r'.units = -r.units) ∧
    (∀ m r r' : Money, m.roundTo? p = some r → r.roundTo? p = some r' → r' = r) := by
  have hlt : p < places := Nat.lt_succ_of_le hp
  obtain ⟨half, hhalf, -, hsteps, -⟩ := exists_half_step hlt
  have hstep : step p = 2 * half := step_eq hsteps
  have hmiddle : step p / 2 = half := by omega
  have hrounds : ∀ m r : Money, m.roundTo? p = some r → RoundsTo (step p) m.units r.units :=
    fun m r => roundsTo_of_roundTo? hlt
  refine ⟨fun m => m.exists_cut (by omega), fun m => ?_, hrounds, ?_, ?_, ?_⟩
  · rw [hmiddle]
    exact roundTo?_eq_none hlt hsteps hhalf
  · exact fun m m' r r' hr hr' hle => (hrounds m r hr).mono (hrounds m' r' hr') hle
  · intro m m' r r' hr hr' hneg
    exact (hrounds m' r' hr').unique (hneg ▸ (hrounds m r hr).neg)
  · intro m r r' hr hr'
    have hmultiple := (hrounds m r hr).multiple
    exact ext ((hrounds r r' hr').eq_of_dvd hmultiple (by omega))

/-- A half goes up above zero and down below it. -/
theorem roundTo?_nearest_away_halves :
    2 ≤ 3 ∧ (ofUnits? (-12350)).bind (roundTo? · 2) = ofUnits? (-12400) ∧
      (ofUnits? 12350).bind (roundTo? · 2) = ofUnits? 12400 ∧ RoundsTo 100 12350 12400 :=
  ⟨by decide, by decide, by decide, (roundTo?_nearest_away (p := 2) (by decide)).2.2.1
    ⟨12350, by decide, by decide⟩ ⟨12400, by decide, by decide⟩ (by decide)⟩

end Money

end Referral
