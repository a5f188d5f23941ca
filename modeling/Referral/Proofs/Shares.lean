import Mathlib.Algebra.Order.Round
import Mathlib.Data.Rat.Floor
import Mathlib.Tactic.FieldSimp
import Mathlib.Tactic.IntervalCases
import Mathlib.Tactic.Linarith
import Mathlib.Tactic.NormNum
import Mathlib.Tactic.Positivity
import Mathlib.Tactic.Ring
import Referral.Outcome

/-!
# Shares of a revenue

A share of a revenue is cut to the four places that an amount carries, and the cut share is then
rounded. Where fewer places are kept the two steps are one correct rounding: the cut takes less
than one unit of the fourth place and half a step is a whole number of such units, so no tie is
made or lost. Where all four places are kept only the cut is left.
-/

namespace Referral

/-! ## Amounts as numbers -/

/-- The number that an amount stands for. -/
def Money.value (m : Money) : ℚ := m.units / 10000

/-- The exact share of an amount. -/
def Money.exactShare (m : Money) (share : Percentage) : ℚ := m.value * share.bps / 10000

/-- The nearest whole number, a half going away from zero. -/
def halfAway (x : ℚ) : ℤ := if 0 ≤ x then round x else -round (-x)

/-- A number rounded to `p` decimal places, a half going away from zero. -/
def roundedTo (p : ℕ) (x : ℚ) : ℚ := halfAway (x * 10 ^ p) / 10 ^ p

theorem roundedTo_of_nonneg {x : ℚ} (hx : 0 ≤ x) (p : ℕ) :
    roundedTo p x = round (x * 10 ^ p) / 10 ^ p := by
  rw [roundedTo, halfAway, if_pos (by positivity)]

/-- Rounding leaves the whole part of a number exactly where the rest is below a half. -/
theorem round_eq_floor_iff (x : ℚ) : round x = ⌊x⌋ ↔ Int.fract x < 1 / 2 := by
  have hrest := Int.fract_nonneg x
  have hsum := Int.floor_add_fract x
  rw [round_eq_iff, Set.mem_Ico]
  constructor
  · rintro ⟨-, hbelow⟩
    linarith
  · intro hbelow
    constructor <;> linarith

/-- To cut a number to its ten-thousandth part and to round what is left is to round the exact
quotient, where half a step is a whole number of units. -/
theorem round_div_eq (n half : ℕ) (hhalf : 0 < half) :
    round ((n : ℚ) / (10000 * (2 * half))) = ((n / 10000 + half) / (2 * half) : ℕ) := by
  have hsum : (n : ℚ) / (10000 * (2 * half)) + 1 / 2
      = ((n + half * 10000 : ℕ) : ℤ) / ((10000 * (2 * half) : ℕ) : ℚ) := by
    push_cast
    field_simp
  rw [round_eq, hsum, Rat.floor_intCast_div_natCast, ← Int.natCast_div,
    ← Nat.div_div_eq_div_mul, Nat.add_mul_div_right _ _ (by decide)]

/-! ## Rounding an amount -/

/-- Below the places that an amount carries, a step is twice a whole number of units. -/
theorem Money.exists_half_step {p : ℕ} (hp : p < Money.places) :
    ∃ half : ℕ, 0 < half ∧ half ≤ 5000 ∧ 10 ^ (Money.places - p) = 2 * half ∧
      10 ^ p * (2 * half) = 10000 := by
  have hlt : p < 4 := hp
  interval_cases p
  · exact ⟨5000, by decide, by decide, by decide, by decide⟩
  · exact ⟨500, by decide, by decide, by decide, by decide⟩
  · exact ⟨50, by decide, by decide, by decide, by decide⟩
  · exact ⟨5, by decide, by decide, by decide, by decide⟩

/-- Rounding an amount that is not below zero and has room for half a step above it. -/
theorem Money.roundTo?_of_room {m : Money} {p half n : ℕ} (hp : p < places) (hm : m.units = n)
    (hroom : n + half ≤ 9223372036854775807) (hstep : 10 ^ (places - p) = 2 * half) :
    ∃ rounded, m.roundTo? p = some rounded ∧
      rounded.units = ((n + half) / (2 * half) * (2 * half) : ℕ) := by
  have hsized : ((Nat.pow 10 (places - p) : ℕ) : ℤ) = 2 * half := by exact_mod_cast hstep
  have hmiddle : (2 * (half : ℤ)) / 2 = half := by omega
  have hle : (n + half) / (2 * half) * (2 * half) ≤ n + half := Nat.div_mul_le_self _ _
  have hshifted : ofUnits? (n + half) = some ⟨n + half, by omega, by omega⟩ :=
    ofUnits?_eq_some.mpr rfl
  refine ⟨⟨((n + half) / (2 * half) * (2 * half) : ℕ), by omega, by omega⟩, ?_, rfl⟩
  simp only [roundTo?, if_neg (Nat.not_le.mpr hp), hsized, hmiddle, hm,
    if_pos (Int.natCast_nonneg n), hshifted, Option.bind_some, ofUnits?_eq_some]
  push_cast
  rw [Int.tdiv_eq_ediv_of_nonneg (by omega)]

/-! ## Shares -/

section Share

variable {revenue : Money} {share : Percentage} {n : ℕ}

/-- The exact share counts hundred-millionths. -/
theorem Money.exactShare_eq (hn : revenue.units * share.bps = n) :
    revenue.exactShare share = n / 100000000 := by
  have hcast : (revenue.units : ℚ) * share.bps = n := by exact_mod_cast hn
  rw [exactShare, value, ← hcast]
  ring

/-- The cut share counts the whole ten-thousandths of the exact one. -/
theorem Money.units_share_eq (hn : revenue.units * share.bps = n) :
    (revenue.share share).units = (n / 10000 : ℕ) := by
  rw [units_share, hn, Int.tdiv_eq_ediv_of_nonneg (Int.natCast_nonneg n)]
  rfl

theorem Money.value_share (hn : revenue.units * share.bps = n) :
    (revenue.share share).value = ⌊revenue.exactShare share * 10 ^ 4⌋ / 10 ^ 4 := by
  have hscaled : revenue.exactShare share * 10 ^ 4 = ((n : ℤ) : ℚ) / (10000 : ℕ) := by
    rw [exactShare_eq hn]
    push_cast
    ring
  rw [hscaled, Rat.floor_intCast_div_natCast, value, units_share_eq hn]
  norm_num

/-- Rounding the cut share to fewer than four places rounds the exact share. -/
theorem Money.roundTo?_share {p : ℕ} (hn : revenue.units * share.bps = n)
    (hroom : n / 10000 ≤ 9223372036854770807) (hp : p < 4) :
    ∃ amount, (revenue.share share).roundTo? p = some amount ∧
      amount.value = roundedTo p (revenue.exactShare share) := by
  obtain ⟨half, hpos, hsmall, hstep, hwhole⟩ := exists_half_step hp
  obtain ⟨amount, hrounds, hunits⟩ :=
    roundTo?_of_room hp (units_share_eq hn) (by omega) hstep
  refine ⟨amount, hrounds, ?_⟩
  have hplaces : (10 : ℚ) ^ p * (2 * half) = 10000 := by exact_mod_cast hwhole
  have hscaled : revenue.exactShare share * 10 ^ p = n / (10000 * (2 * half)) := by
    calc revenue.exactShare share * 10 ^ p = n / (10000 * 10000) * 10 ^ p := by
          rw [exactShare_eq hn]
          norm_num
      _ = n / (10000 * (10 ^ p * (2 * half))) * 10 ^ p := by rw [hplaces]
      _ = n / (10000 * (2 * half)) := by field_simp
  rw [roundedTo_of_nonneg (by rw [exactShare_eq hn]; positivity), hscaled, round_div_eq n half hpos,
    value, hunits, ← hplaces]
  push_cast
  field_simp

end Share

/-- Below four places the amount of a commission is the exact share of the revenue, rounded with
a half going away from zero. With four places it is the exact share cut to four places, which is
the rounded share exactly where what is cut off is below half of the fourth place. -/
theorem CommissionSpec.amountFor_share (e : Event) (revenue : Money) (share : Percentage) (p : ℕ)
    (hrevenue : e.revenue = some revenue) (hlow : Money.zero ≤ revenue)
    (hhigh : revenue ≤ Money.eventLimit) (hp : p ≤ 4) :
    ∃ amount, (CommissionSpec.percentage share).amountFor e p = .ok amount ∧
      (p = 4 → amount.value = ⌊revenue.exactShare share * 10 ^ 4⌋ / 10 ^ 4) ∧
      (amount.value = roundedTo p (revenue.exactShare share) ↔
        p < 4 ∨ Int.fract (revenue.exactShare share * 10 ^ 4) < 1 / 2) := by
  have hlow' : 0 ≤ revenue.units := hlow
  have hhigh' : revenue.units ≤ 10000000000000000 := hhigh
  obtain ⟨n, hn⟩ : ∃ n : ℕ, revenue.units * share.bps = n :=
    Int.eq_ofNat_of_zero_le (Int.mul_nonneg hlow' (Int.natCast_nonneg _))
  have hbound : n ≤ 100000000000000000000 := by
    have hmul : revenue.units * share.bps ≤ 10000000000000000 * 10000 :=
      Int.mul_le_mul hhigh' (by exact_mod_cast share.upper) (Int.natCast_nonneg _) (by decide)
    omega
  have hpaid : ∀ {amount : Money}, (revenue.share share).roundTo? p = some amount →
      (CommissionSpec.percentage share).amountFor e p = .ok amount := by
    intro amount hrounds
    simp only [amountFor, hrevenue, Option.bind_some, hrounds]
  obtain hlt | rfl := Nat.lt_or_eq_of_le hp
  · obtain ⟨amount, hrounds, hvalue⟩ := Money.roundTo?_share hn (by omega) hlt
    exact ⟨amount, hpaid hrounds, fun h => absurd h (by omega), by simp [hvalue, hlt]⟩
  · have hvalue := Money.value_share hn
    refine ⟨revenue.share share, hpaid rfl, fun _ => hvalue, ?_⟩
    rw [hvalue, roundedTo_of_nonneg (by rw [Money.exactShare_eq hn]; positivity),
      div_left_inj' (by norm_num), Int.cast_inj, eq_comm, round_eq_floor_iff]
    simp

/-- Fifteen percent of 0.0334 is 0.00501, just above a tie of two places: the cut to 0.0050 is the
tie itself, and both are rounded to 0.01. -/
theorem CommissionSpec.amountFor_share_above_tie :
    let revenue : Money := ⟨334, by decide, by decide⟩
    let share : Percentage := ⟨1500, by decide, by decide⟩
    let now : Instant := ⟨0, 0, by decide, by decide, by decide⟩
    let e := Event.purchase ⟨1⟩ ⟨2⟩ ⟨3⟩ ⟨4⟩ ⟨5⟩ ⟨6⟩ (some revenue) now
    e.revenue = some revenue ∧ Money.zero ≤ revenue ∧ revenue ≤ Money.eventLimit ∧ 2 ≤ 4 ∧
      ∃ amount, (CommissionSpec.percentage share).amountFor e 2 = .ok amount ∧
        amount.value = roundedTo 2 (revenue.exactShare share) ∧ amount.units = 100 := by
  intro revenue share now e
  refine ⟨rfl, by decide, by decide, by decide, ?_⟩
  obtain ⟨amount, hpaid, -, hrounded⟩ :=
    amountFor_share e revenue share 2 rfl (by decide) (by decide) (by decide)
  have hunits : (CommissionSpec.percentage share).amountFor e 2
      = .ok ⟨100, by decide, by decide⟩ := by decide
  refine ⟨amount, hpaid, hrounded.mpr (.inl (by decide)), ?_⟩
  rw [hpaid] at hunits
  cases hunits
  rfl

/-- Half of the smallest revenue is half of the fourth place, which is cut off and not rounded
up. -/
theorem CommissionSpec.amount_may_be_cut :
    ¬ ∀ (e : Event) (revenue : Money) (share : Percentage) (p : ℕ), e.revenue = some revenue →
      Money.zero ≤ revenue → revenue ≤ Money.eventLimit → p ≤ 4 →
      ∃ amount, (CommissionSpec.percentage share).amountFor e p = .ok amount ∧
        amount.value = roundedTo p (revenue.exactShare share) := by
  intro hall
  let revenue : Money := ⟨1, by decide, by decide⟩
  let share : Percentage := ⟨5000, by decide, by decide⟩
  let now : Instant := ⟨0, 0, by decide, by decide, by decide⟩
  let e := Event.purchase ⟨1⟩ ⟨2⟩ ⟨3⟩ ⟨4⟩ ⟨5⟩ ⟨6⟩ (some revenue) now
  obtain ⟨amount, hpaid, hvalue⟩ :=
    hall e revenue share 4 rfl (by decide) (by decide) (by decide)
  have hnothing : (CommissionSpec.percentage share).amountFor e 4 = .ok Money.zero := by decide
  have hrounded : roundedTo 4 (revenue.exactShare share) = 1 / 10000 := by
    norm_num [roundedTo, halfAway, Money.exactShare, Money.value, round_eq, revenue, share]
  rw [hpaid] at hnothing
  cases hnothing
  rw [hrounded, Money.value] at hvalue
  norm_num at hvalue

end Referral
