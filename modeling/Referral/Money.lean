import Referral.Text.Decimal

/-!
# Money

An amount is a whole number of ten-thousandths within 64 bits, so sums are exact. The written form
has two to four places; reading accepts any decimal number with at most four places.
-/

namespace Referral

/-- An amount in ten-thousandths. -/
structure Money where
  units : Int
  lower : -9223372036854775808 ≤ units
  upper : units ≤ 9223372036854775807
deriving DecidableEq

namespace Money

/-- The number of decimal places an amount carries. -/
def places : Nat := 4

/-- The ten-thousandths in one whole unit. -/
def scale : Nat := 10000

theorem ext {a b : Money} (h : a.units = b.units) : a = b := by
  cases a; cases b; simp_all

/-- The amount with the given units, if it is in range. -/
def ofUnits? (n : Int) : Option Money :=
  if h : -9223372036854775808 ≤ n ∧ n ≤ 9223372036854775807 then some ⟨n, h.1, h.2⟩ else none

/-- The amount nearest to the given units. -/
def clamp (n : Int) : Money :=
  ⟨max (-9223372036854775808) (min n 9223372036854775807), by omega, by omega⟩

theorem ofUnits?_eq_some {n : Int} {m : Money} : ofUnits? n = some m ↔ m.units = n := by
  unfold ofUnits?
  constructor
  · intro h
    split at h
    · cases h; rfl
    · cases h
  · rintro rfl
    rw [dif_pos ⟨m.lower, m.upper⟩]

theorem ofUnits?_eq_none {n : Int} :
    ofUnits? n = none ↔ n < -9223372036854775808 ∨ 9223372036854775807 < n := by
  unfold ofUnits?
  split <;> simp <;> omega

theorem units_clamp (n : Int) :
    (clamp n).units = max (-9223372036854775808) (min n 9223372036854775807) := rfl

@[simp] theorem clamp_units (m : Money) : clamp m.units = m := by
  have h₁ := m.lower
  have h₂ := m.upper
  apply ext
  rw [units_clamp]
  omega

/-- No money. -/
def zero : Money := ⟨0, by decide, by decide⟩

instance : Inhabited Money := ⟨zero⟩

@[simp] theorem units_zero : zero.units = 0 := rfl

/-- Whether an amount is below zero. -/
def isNegative (m : Money) : Bool := m.units < 0

/-- Whether an amount is zero. -/
def isZero (m : Money) : Bool := m.units = 0

/-- The sum, if it is in range. -/
def add? (a b : Money) : Option Money := ofUnits? (a.units + b.units)

/-- The sum, held at the ends of the range. -/
def addClamped (a b : Money) : Money := clamp (a.units + b.units)

theorem add?_eq_some {a b c : Money} : a.add? b = some c ↔ c.units = a.units + b.units :=
  ofUnits?_eq_some

@[simp] theorem add?_zero (a : Money) : a.add? zero = some a := by
  simp [add?_eq_some]

@[simp] theorem zero_add? (a : Money) : zero.add? a = some a := by
  simp [add?_eq_some]

/-- A number of whole units, if it is in range. -/
def ofWhole? (n : Int) : Option Money := ofUnits? (n * scale)

/-- A number of whole units, held at the ends of the range. -/
def ofWhole (n : Int) : Money := clamp (n * scale)

/-- The nearest amount with at most `precision` places, a half away from zero. None if the half
step leaves the range. -/
def roundTo? (m : Money) (precision : Nat) : Option Money :=
  if places ≤ precision then some m
  else
    let step : Int := Nat.pow 10 (places - precision)
    let half : Int := step / 2
    let shifted := if 0 ≤ m.units then m.units + half else m.units - half
    (ofUnits? shifted).bind fun s => ofUnits? (s.units.tdiv step * step)

/-- The order of two amounts. -/
def order (a b : Money) : Ordering := compare a.units b.units

instance : LE Money := ⟨fun a b => a.units ≤ b.units⟩

instance : LT Money := ⟨fun a b => a.units < b.units⟩

instance (a b : Money) : Decidable (a ≤ b) := inferInstanceAs (Decidable (a.units ≤ b.units))

instance (a b : Money) : Decidable (a < b) := inferInstanceAs (Decidable (a.units < b.units))

/-! ## Text -/

/-- The two to four digits after the point. -/
def fractionText (n : Nat) : List Char :=
  let four := Text.paddedDigits places n
  let short := (four.reverse.dropWhile (· = '0')).reverse
  if short.length < 2 then four.take 2 else short

/-- The written form: a sign, whole units, a point and two to four digits. -/
def text (m : Money) : List Char :=
  let size := m.units.natAbs
  (if m.units < 0 then ['-'] else []) ++ Text.digits (size / scale) ++
    '.' :: fractionText (size % scale)

/-- The written form as a string. -/
def display (m : Money) : String := String.ofList m.text

/-- Why a text is not an amount. -/
inductive Flaw
  | invalid
  | tooPrecise
  | outOfRange
deriving DecidableEq

/-- The wording of a flaw, with the text that has it. -/
def Flaw.message (text : String) : Flaw → String
  | .invalid => "Invalid amount '" ++ text ++ "'"
  | .tooPrecise => "Amount '" ++ text ++ "' has more than four decimal places"
  | .outOfRange => "Amount '" ++ text ++ "' is out of range"

/-- The sign of a number, true for minus, and what follows it. -/
def splitSign : List Char → Bool × List Char
  | '-' :: cs => (true, cs)
  | '+' :: cs => (false, cs)
  | cs => (false, cs)

/-- The parts before and after the first point; the second is empty if there is no point. -/
def splitPoint (cs : List Char) : List Char × List Char :=
  (Text.cutAt? '.' cs).getD (cs, [])

/-- The amount of a size with a sign, true for minus. -/
def signed (negative : Bool) (size : Nat) (h : size ≤ 9223372036854775807) : Money :=
  if negative then ⟨-(size : Int), by omega, by omega⟩ else ⟨(size : Int), by omega, by omega⟩

/-- Reads an amount: blanks around it, one sign, digits, and up to four digits after a point; one
of the two runs of digits may be empty. -/
def read (cs : List Char) : Except Flaw Money :=
  let (negative, number) := splitSign (Text.trim cs)
  let (whole, fraction) := splitPoint number
  if (whole.isEmpty && fraction.isEmpty) || !Text.allDigits whole || !Text.allDigits fraction then
    .error .invalid
  else if places < fraction.length then .error .tooPrecise
  else
    let size : Nat :=
      Text.value whole * scale + Text.value fraction * Nat.pow 10 (places - fraction.length)
    if h : size ≤ 9223372036854775807 then .ok (signed negative size h) else .error .outOfRange

/-- Reads an amount and drops the reason of a failure. -/
def read? (cs : List Char) : Option Money := (read cs).toOption

/-- The largest amount or revenue that an event from outside may carry, 10 ^ 12 whole units. -/
def eventLimit : Money := ⟨10000000000000000, by decide, by decide⟩

end Money

end Referral
