import Referral.Json

/-!
# JSON numbers

The value of a written number. Digits are gathered into 64 bits; where they do not fit, the further
ones count only by their place, or not at all after the point. A number that is not written as an
integer of 64 bits becomes a floating-point number: its digits rounded, times or divided by a
rounded power of ten.
-/

namespace Referral

/-- The parts of a written number. -/
structure Numeral where
  negative : Bool
  whole : List Nat
  /-- The digits after the point, at least one if there is a point. -/
  fraction : Option (List Nat)
  /-- The sign (true for minus) and the digits of the exponent. -/
  exponent : Option (Bool × List Nat)
deriving DecidableEq

namespace Numeral

/-- Appends digits to a number as long as it stays within `limit`; the digits left over come with
it. -/
def gather (limit : Nat) : Nat → List Nat → Nat × List Nat
  | n, [] => (n, [])
  | n, d :: ds => if limit < 10 * n + d then (n, d :: ds) else gather limit (10 * n + d) ds

/-- The rounded power of ten. -/
def power? (n : Nat) : Option Binary64 := Binary64.ofNat? (Nat.pow 10 n)

/-- Divides by a power of ten, at most by 10 ^ 308 at once. -/
def divPower? (x : Binary64) (n : Nat) : Option Binary64 :=
  if n ≤ 308 then (power? n).bind x.div?
  else if x = .zero then some x
  else ((power? 308).bind x.div?).bind fun x => divPower? x (n - 308)
termination_by n

/-- The size of a number of 64 bits times a power of ten; none if it is too large. -/
def scaled? (digits : Nat) (exponent : Int) : Option Binary64 := do
  let x ← Binary64.ofNat? digits
  if exponent < 0 then divPower? x exponent.natAbs
  else if exponent ≤ 308 then (power? exponent.natAbs).bind x.mul?
  else if x = .zero then some x
  else none

/-- The size with an exponent. One beyond 32 bits makes zero, unless it makes the size too large. -/
def size? (digits : Nat) (place : Int) : Option (Bool × List Nat) → Option Binary64
  | none => scaled? digits place
  | some (negative, ds) =>
    match gather 2147483647 0 ds with
    | (e, []) => scaled? digits (if negative then place - e else place + e)
    | (_, _ :: _) => if digits ≠ 0 && !negative then none else some .zero

/-- A number that is no integer of 64 bits. -/
def real (negative : Bool) (size : Option Binary64) : Json :=
  (size.map (Json.real negative)).getD .unreadable

/-- The value of a written number. Minus zero is no integer. -/
def value (n : Numeral) : Json :=
  let (digits, beyond) := gather 18446744073709551615 0 n.whole
  match n.fraction, n.exponent, beyond with
  | none, none, [] =>
    if !n.negative then .int digits
    else if 0 < digits ∧ digits ≤ 9223372036854775808 then .int (-digits)
    else real true (Binary64.ofNat? digits)
  | fraction, exponent, beyond =>
    let places := fraction.getD []
    let (digits, dropped) := gather 18446744073709551615 digits places
    let place : Int := beyond.length - (places.length - dropped.length : Nat)
    real n.negative (size? digits place exponent)

end Numeral

end Referral
