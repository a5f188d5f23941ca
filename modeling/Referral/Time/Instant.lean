import Referral.Time.Day

/-!
# Instants

A point in time, counted in seconds from 1970-01-01T00:00:00Z, with nanoseconds. Nanoseconds from
10 ^ 9 on stand for a leap second, which only the last second of a minute has. An instant is written
in universal time with as many groups of three fraction digits as it needs.
-/

namespace Referral

/-- A point in time. -/
structure Instant where
  second : Int
  nanos : Nat
  lower : -8334601228800 ≤ second
  upper : second ≤ 8210266876799
  bound : nanos < 1000000000 ∨ (nanos < 2000000000 ∧ second % 60 = 59)
deriving DecidableEq

namespace Instant

/-- The day of an instant in universal time. -/
def day (i : Instant) : Day :=
  ⟨i.second / 86400, by have := i.lower; omega, by have := i.upper; omega⟩

/-- The instant some milliseconds later, at most in the last second of the range. -/
def after (i : Instant) (millis : Nat) : Instant :=
  let nanos := i.nanos + millis * 1000000
  ⟨min (i.second + nanos / 1000000000) 8210266876799, nanos % 1000000000,
    by have := i.lower; omega, by omega, .inl (Nat.mod_lt _ (by decide))⟩

/-! ## Text -/

/-- The fraction of a second, in three, six or nine digits; none if it is zero. -/
def fractionText (nanos : Nat) : List Char :=
  if nanos = 0 then []
  else if nanos % 1000000 = 0 then '.' :: Text.paddedDigits 3 (nanos / 1000000)
  else if nanos % 1000 = 0 then '.' :: Text.paddedDigits 6 (nanos / 1000)
  else '.' :: Text.paddedDigits 9 nanos

/-- The written form. -/
def text (i : Instant) : List Char :=
  let inDay := (i.second % 86400).toNat
  let leap := 1000000000 ≤ i.nanos
  let second := inDay % 60 + if leap then 1 else 0
  (Calendar.Date.ofNumber i.day.number).text ++ 'T' :: (Text.paddedDigits 2 (inDay / 3600) ++
    ':' :: (Text.paddedDigits 2 (inDay / 60 % 60) ++ ':' :: (Text.paddedDigits 2 second ++
      fractionText (i.nanos % 1000000000) ++ ['Z'])))

/-- The written form as a string. -/
def display (i : Instant) : String := String.ofList i.text

/-- Reads the digits after a point as nanoseconds; those after the ninth do not count. -/
def readFraction? : List Char → Option (Nat × List Char)
  | '.' :: cs =>
    (Text.takeNumber? 9 cs).map fun (n, rest) =>
      (n * Nat.pow 10 (9 - (cs.length - rest.length)), rest.dropWhile Char.isDigit)
  | cs => some (0, cs)

/-- Reads a sign; a true minus sign stands for a dash. -/
def readSign? : List Char → Option (Int × List Char)
  | '+' :: cs => some (1, cs)
  | '-' :: cs => some (-1, cs)
  | '\u2212' :: cs => some (-1, cs)
  | _ => none

/-- Reads exactly two digits. -/
def readTwo? (cs : List Char) : Option (Nat × List Char) :=
  (Text.takeNumber? 2 cs).bind fun (n, rest) =>
    if cs.length = rest.length + 2 then some (n, rest) else none

/-- Reads the distance from universal time in seconds: a letter for none, or signed hours and
minutes, less than a day. -/
def readZone? (cs : List Char) : Option (Int × List Char) :=
  if (cs.take 3).map Char.toUpper = ['U', 'T', 'C'] then some (0, cs.drop 3)
  else if cs.head? = some 'Z' ∨ cs.head? = some 'z' then some (0, cs.drop 1)
  else do
    let (sign, cs) ← readSign? cs
    let (hours, cs) ← readTwo? cs
    let (minutes, cs) ← readTwo? (cs.dropWhile fun c => c == ':' || Text.isBlank c)
    if hours < 24 ∧ minutes < 60 then some (sign * (hours * 3600 + minutes * 60), cs) else none

/-- The rest of a text after the mark between date and time. -/
def afterDate? : List Char → Option (List Char)
  | 'T' :: cs => some cs
  | 't' :: cs => some cs
  | ' ' :: cs => some cs
  | _ => none

/-- The instant of a time of day on a day, at some distance from universal time. The second 60 is a
leap second. -/
def ofParts? (day : Day) (hour minute second nanos : Nat) (zone : Int) : Option Instant :=
  let leap := second = 60
  let seconds := if leap then 59 else second
  let total : Int := day.number * 86400 + hour * 3600 + minute * 60 + seconds - zone
  let fraction := if leap then 1000000000 + nanos else nanos
  if h : hour < 24 ∧ minute < 60 ∧ second ≤ 60 ∧ -8334601228800 ≤ total ∧ total ≤ 8210266876799 ∧
      (fraction < 1000000000 ∨ (fraction < 2000000000 ∧ total % 60 = 59)) then
    some ⟨total, fraction, h.2.2.2.1, h.2.2.2.2.1, h.2.2.2.2.2⟩
  else none

/-- Reads an instant: a date, a time of day with an optional fraction, and a zone, with blanks
allowed before each part and at the end. -/
def read? (cs : List Char) : Option Instant := do
  let (date, cs) ← Calendar.readDate? cs
  let (hour, cs) ← Calendar.readPart? (← afterDate? cs)
  let (minute, cs) ← Calendar.readPart? (← Calendar.afterMark? ':' cs)
  let (second, cs) ← Calendar.readPart? (← Calendar.afterMark? ':' cs)
  let (nanos, cs) ← readFraction? cs
  let (zone, cs) ← readZone? (Text.trimStart cs)
  let day ← Day.ofDate? date
  if (Text.trimStart cs).isEmpty then ofParts? day hour minute second nanos zone else none

end Instant

end Referral
