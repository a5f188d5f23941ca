import Referral.OrderedMap
import Referral.Time.Calendar

/-!
# Days

A day of the calendar, within the years -262143 to 262142, as its distance from 1970-01-01.
-/

namespace Referral

/-- A calendar day. -/
structure Day where
  number : Int
  lower : -96465292 ≤ number
  upper : number ≤ 95026236
deriving DecidableEq

namespace Day

theorem ext {a b : Day} (h : a.number = b.number) : a = b := by
  cases a; cases b; simp_all

/-- The day with a given number, if it is in range. -/
def ofNumber? (n : Int) : Option Day :=
  if h : -96465292 ≤ n ∧ n ≤ 95026236 then some ⟨n, h.1, h.2⟩ else none

/-- Days follow one another. -/
instance : Ranked Day where
  rank d := (d.number + 96465292).toNat
  ranks := 191491529
  rank_lt d := by
    have h₁ := d.lower
    have h₂ := d.upper
    omega
  rank_injective a b h := by
    have h₁ := a.lower
    have h₂ := b.lower
    exact ext (by omega)

/-- The day of a date that exists. -/
def ofDate? (d : Calendar.Date) : Option Day := if d.isValid then ofNumber? d.number else none

/-- The written form. -/
def display (d : Day) : String := String.ofList (Calendar.Date.ofNumber d.number).text

/-- Reads a day; blanks may stand before each part and at the end. -/
def read? (cs : List Char) : Option Day := do
  let (date, rest) ← Calendar.readDate? cs
  if (Text.trimStart rest).isEmpty then ofDate? date else none

end Day

end Referral
