import Referral.Text.Blank
import Referral.Text.Decimal

/-!
# Calendar

Dates of the Gregorian calendar and their numbers, counted in days from 1970-01-01. Within a cycle
of 400 years a year starts in March, so that a leap day is the last of its year.
-/

namespace Referral.Calendar

/-- A date as year, month and day of the month. -/
structure Date where
  year : Int
  month : Nat
  day : Nat
deriving DecidableEq

/-- Whether a year has a 29th of February. -/
def isLeap (year : Int) : Bool := year % 4 = 0 ∧ (year % 100 ≠ 0 ∨ year % 400 = 0)

/-- The number of days in a month. -/
def monthLength (year : Int) (month : Nat) : Nat :=
  if month = 2 then if isLeap year then 29 else 28
  else if month = 4 ∨ month = 6 ∨ month = 9 ∨ month = 11 then 30
  else 31

/-- Whether a date exists. -/
def Date.isValid (d : Date) : Bool :=
  1 ≤ d.month ∧ d.month ≤ 12 ∧ 1 ≤ d.day ∧ d.day ≤ monthLength d.year d.month

/-- The number of a date. -/
def Date.number (d : Date) : Int :=
  let year := if d.month ≤ 2 then d.year - 1 else d.year
  let cycle := year / 400
  let inCycle := year % 400
  let inYear : Int := (153 * ((d.month + 9) % 12) + 2) / 5 + d.day - 1
  cycle * 146097 + inCycle * 365 + inCycle / 4 - inCycle / 100 + inYear - 719468

/-- The date with a given number. -/
def Date.ofNumber (n : Int) : Date :=
  let z := n + 719468
  let cycle := z / 146097
  let inCycle := z % 146097
  let year := (inCycle - inCycle / 1460 + inCycle / 36524 - inCycle / 146096) / 365
  let inYear := inCycle - (365 * year + year / 4 - year / 100)
  let march := (5 * inYear + 2) / 153
  let day := inYear - (153 * march + 2) / 5 + 1
  let month := if march < 10 then march + 3 else march - 9
  ⟨year + cycle * 400 + (if month ≤ 2 then 1 else 0), month.toNat, day.toNat⟩

/-- The year with four digits at least; one outside 0 to 9999 has a sign. -/
def yearText (year : Int) : List Char :=
  if 0 ≤ year ∧ year ≤ 9999 then Text.paddedDigits 4 year.natAbs
  else (if year < 0 then '-' else '+') :: Text.paddedDigits 4 year.natAbs

/-- The written form: year, month and day with dashes between them. -/
def Date.text (d : Date) : List Char :=
  yearText d.year ++ '-' :: (Text.paddedDigits 2 d.month ++ '-' :: Text.paddedDigits 2 d.day)

/-- Reads a year: one to four digits, or any number of digits after a sign. -/
def readYear? (cs : List Char) : Option (Int × List Char) :=
  match Text.trimStart cs with
  | '-' :: rest => (Text.takeNumber? rest.length rest).map fun (n, rest) => (-(n : Int), rest)
  | '+' :: rest => (Text.takeNumber? rest.length rest).map fun (n, rest) => ((n : Int), rest)
  | rest => (Text.takeNumber? 4 rest).map fun (n, rest) => ((n : Int), rest)

/-- Reads one or two digits after blanks. -/
def readPart? (cs : List Char) : Option (Nat × List Char) :=
  Text.takeNumber? 2 (Text.trimStart cs)

/-- The rest of a text after blanks and a mark. -/
def afterMark? (mark : Char) (cs : List Char) : Option (List Char) :=
  Text.dropLead? [mark] (Text.trimStart cs)

/-- Reads the parts of a date from the beginning of a text, with blanks allowed before each. -/
def readDate? (cs : List Char) : Option (Date × List Char) := do
  let (year, cs) ← readYear? cs
  let (month, cs) ← readPart? (← afterMark? '-' cs)
  let (day, cs) ← readPart? (← afterMark? '-' cs)
  some (⟨year, month, day⟩, cs)

end Referral.Calendar
