import Referral.Money

/-!
# Percentages

A percentage counts basis points, hundredths of a percent, from one to ten thousand. Its written
form is that of an amount whose whole units are percents.
-/

namespace Referral

/-- A share in basis points, above nothing and at most the whole. -/
structure Percentage where
  bps : Nat
  lower : 1 ≤ bps
  upper : bps ≤ 10000
deriving DecidableEq

namespace Percentage

/-- The percentage nearest to a number of basis points. -/
def ofBasisPoints (n : Int) : Percentage :=
  ⟨(max 1 (min n 10000)).toNat, by omega, by omega⟩

/-- The percentage whose percents are the whole units of an amount, cut toward zero. -/
def ofPercent (m : Money) : Percentage := ofBasisPoints (m.units.tdiv 100)

/-- The percents as an amount. -/
def percent (p : Percentage) : Money :=
  ⟨p.bps * 100, by omega, by have := p.upper; omega⟩

/-- The written form. -/
def display (p : Percentage) : String := p.percent.display ++ "%"

/-- The smallest percentage. -/
def smallest : Percentage := ⟨1, by decide, by decide⟩

/-- The whole. -/
def largest : Percentage := ⟨10000, by decide, by decide⟩

theorem ext {p q : Percentage} (h : p.bps = q.bps) : p = q := by
  cases p; cases q; simp_all

/-- A percentage is read back from its percents. -/
@[simp] theorem ofPercent_percent (p : Percentage) : ofPercent p.percent = p := by
  have h₁ := p.lower
  have h₂ := p.upper
  apply ext
  simp only [ofPercent, percent, ofBasisPoints]
  rw [Int.mul_tdiv_cancel _ (by decide)]
  omega

end Percentage

/-- A share of an amount, cut toward zero. -/
def Money.share (m : Money) (p : Percentage) : Money :=
  Money.clamp ((m.units * p.bps).tdiv 10000)

/-- A share is never larger than the whole, so it is never held at the ends of the range. -/
theorem Money.units_share (m : Money) (p : Percentage) :
    (m.share p).units = (m.units * p.bps).tdiv 10000 := by
  have h₁ := m.lower
  have h₂ := m.upper
  have h₃ := p.upper
  have habs : ((m.units * p.bps).tdiv 10000).natAbs ≤ m.units.natAbs := by
    rw [Int.natAbs_tdiv, Int.natAbs_mul, Int.natAbs_natCast]
    refine Nat.div_le_of_le_mul ?_
    rw [Nat.mul_comm]
    exact Nat.mul_le_mul_right _ h₃
  have hpos : 0 ≤ m.units → 0 ≤ (m.units * p.bps).tdiv 10000 := fun h =>
    Int.tdiv_nonneg (Int.mul_nonneg h (by omega)) (by decide)
  have hneg : m.units ≤ 0 → (m.units * p.bps).tdiv 10000 ≤ 0 := fun h => by
    have hmul : 0 ≤ -(m.units * p.bps) := by
      rw [← Int.neg_mul]
      exact Int.mul_nonneg (by omega) (by omega)
    have := Int.tdiv_nonneg (b := 10000) hmul (by decide)
    rw [Int.neg_tdiv] at this
    omega
  rw [share, units_clamp]
  omega

end Referral
