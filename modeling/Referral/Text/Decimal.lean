import Referral.Text.Blank

/-!
# Decimal digits

Natural numbers as runs of the ten ASCII digits, and the reading of bounded integers.
-/

namespace Referral.Text

/-- The decimal digits of a number, without leading zeros. -/
def digits (n : Nat) : List Char := Nat.toDigits 10 n

/-- The number a run of decimal digits stands for. -/
def value (cs : List Char) : Nat := Nat.ofDigitChars 10 cs 0

/-- Whether a text consists of ASCII digits only. -/
def allDigits (cs : List Char) : Bool := cs.all Char.isDigit

/-- The text with zeros in front, up to the given width. -/
def padZeros (width : Nat) (cs : List Char) : List Char :=
  List.replicate (width - cs.length) '0' ++ cs

/-- The digits of a number with zeros in front, up to the given width. -/
def paddedDigits (width n : Nat) : List Char := padZeros width (digits n)

/-- The digits of an integer, with a minus sign if it is negative. -/
def signedDigits (n : Int) : List Char :=
  if n < 0 then '-' :: digits n.natAbs else digits n.natAbs

@[simp] theorem value_nil : value [] = 0 := rfl

@[simp] theorem value_digits (n : Nat) : value (digits n) = n := by
  simp [value, digits]

theorem allDigits_digits (n : Nat) : allDigits (digits n) = true := by
  rw [allDigits, List.all_eq_true]
  exact fun c hc => Nat.isDigit_of_mem_toDigits (by decide) (by decide) hc

theorem digits_ne_nil (n : Nat) : digits n ≠ [] := Nat.toDigits_ne_nil

/-- The text without one plus sign in front. -/
def dropPlus : List Char → List Char
  | '+' :: cs => cs
  | cs => cs

theorem dropPlus_digits (n : Nat) : dropPlus (digits n) = digits n := by
  unfold dropPlus
  split
  · rename_i rest heq
    have hall := allDigits_digits n
    rw [heq] at hall
    simp [allDigits] at hall
  · rfl

/-- Reads an unsigned number: an optional plus sign and digits, at most `limit`. -/
def readUnsigned? (limit : Nat) (cs : List Char) : Option Nat :=
  let ds := dropPlus cs
  if !ds.isEmpty && allDigits ds && value ds ≤ limit then some (value ds) else none

theorem readUnsigned?_le {limit n : Nat} {cs : List Char} (h : readUnsigned? limit cs = some n) :
    n ≤ limit := by
  simp only [readUnsigned?, Option.ite_none_right_eq_some, Bool.and_eq_true, decide_eq_true_eq,
    Option.some.injEq] at h
  omega

/-- A written number is read back if it is within the limit. -/
theorem readUnsigned?_digits {limit n : Nat} (h : n ≤ limit) :
    readUnsigned? limit (digits n) = some n := by
  simp [readUnsigned?, dropPlus_digits, digits_ne_nil, allDigits_digits, h]

/-- Splits off a run of one to `most` digits and reads it as a number. -/
def takeNumber? (most : Nat) (cs : List Char) : Option (Nat × List Char) :=
  let ds := (cs.take most).takeWhile Char.isDigit
  if ds.isEmpty then none else some (value ds, cs.drop ds.length)

end Referral.Text
