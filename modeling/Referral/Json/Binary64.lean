/-!
# Binary floating point

Sizes of floating-point numbers with 53 bits of mantissa, worked out exactly. A quotient is rounded
to the nearest such number, and half-way cases go to the even neighbour.
-/

namespace Referral

/-- A finite size: a mantissa below 2 ^ 53 times a power of two, which is at least 2 ^ -1074. -/
structure Binary64 where
  mantissa : Nat
  /-- The exponent of two, plus 1074. -/
  shift : Nat
deriving DecidableEq

namespace Binary64

/-- Zero. -/
def zero : Binary64 := ⟨0, 0⟩

/-- The quotient of two numbers rounded to a whole number, a half to the even neighbour. -/
def divEven (num den : Nat) : Nat :=
  let q := num / den
  let r := num % den
  if 2 * r < den then q else if den < 2 * r then q + 1 else q + q % 2

/-- A size as a quotient of whole numbers. -/
def quotient (x : Binary64) : Nat × Nat := (x.mantissa * Nat.pow 2 x.shift, Nat.pow 2 1074)

/-- The shift at which the quotient of two numbers has a mantissa of 53 bits, as far as its
numerator and denominator tell: it may be one too small. -/
def roughShift (num den : Nat) : Nat := Nat.log2 num + 1074 - Nat.log2 den - 53

/-- The size nearest to the quotient of two numbers; none if there is no finite one. -/
def nearest? (num den : Nat) : Option Binary64 :=
  if num = 0 then some zero
  else
    let num := num * Nat.pow 2 1074
    let rough := roughShift num (den * Nat.pow 2 1074)
    let bound := Nat.pow 2 53
    let shift := if num < bound * (den * Nat.pow 2 rough) then rough else rough + 1
    let mantissa := divEven num (den * Nat.pow 2 shift)
    let (mantissa, shift) :=
      if mantissa = bound then (Nat.pow 2 52, shift + 1) else (mantissa, shift)
    if shift ≤ 2045 then some ⟨mantissa, shift⟩ else none

/-- The size nearest to a whole number. -/
def ofNat? (n : Nat) : Option Binary64 := nearest? n 1

/-- The rounded product. -/
def mul? (x y : Binary64) : Option Binary64 :=
  nearest? (x.quotient.1 * y.quotient.1) (x.quotient.2 * y.quotient.2)

/-- The rounded quotient. -/
def div? (x y : Binary64) : Option Binary64 :=
  nearest? (x.quotient.1 * y.quotient.2) (x.quotient.2 * y.quotient.1)

/-- The size in units of a ten-thousandth, rounded to a whole number, a half to the even one. -/
def tenThousandths (x : Binary64) : Nat := divEven (x.quotient.1 * 10000) x.quotient.2

end Binary64

end Referral
