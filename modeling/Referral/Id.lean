import Referral.OrderedMap
import Referral.Text.Blank

/-!
# Identifiers

An identifier is 128 bits tagged with what it names, so one of a link cannot stand where one of a
promoter is expected. It is written as 32 hexadecimal digits in five groups.
-/

namespace Referral

/-- What an identifier names. -/
inductive Entity
  | program
  | promoter
  | contact
  | link
  | circle
  | rule
  | event
  | commission
  | failure
  | correlation

/-- An identifier of one kind of thing. -/
structure Id (entity : Entity) where
  bits : BitVec 128
deriving DecidableEq

abbrev ProgramId := Id .program
abbrev PromoterId := Id .promoter
abbrev ContactId := Id .contact
abbrev LinkId := Id .link
abbrev CircleId := Id .circle
abbrev RuleId := Id .rule
abbrev EventId := Id .event
abbrev CommissionId := Id .commission
abbrev FailureId := Id .failure
/-- Names the producer action that a group of events comes from. -/
abbrev CorrelationId := Id .correlation

namespace Id

variable {e : Entity}

theorem ext {a b : Id e} (h : a.bits = b.bits) : a = b := by
  cases a; cases b; simp_all

/-- Identifiers are ordered by their bits. -/
instance : Ranked (Id e) where
  rank a := a.bits.toNat
  ranks := 2 ^ 128
  rank_lt a := a.bits.isLt
  rank_injective _ _ h := ext (BitVec.eq_of_toNat_eq h)

/-- The identifier without a set bit. -/
def nil : Id e := ⟨0⟩

instance : Inhabited (Id e) := ⟨nil⟩

/-- Whether no bit is set. -/
def isNil (a : Id e) : Bool := a = nil

/-- The identifier with the given number. -/
def ofNat (n : Nat) : Id e := ⟨BitVec.ofNat 128 n⟩

/-! ## Text -/

/-- The digit for a value below sixteen. -/
def hexDigit (n : Nat) : Char := Nat.digitChar n

/-- The value of a hexadecimal digit of either case. -/
def hexValue? (c : Char) : Option Nat :=
  if c.isDigit then some (c.toNat - 48)
  else if 'a' ≤ c ∧ c ≤ 'f' then some (c.toNat - 87)
  else if 'A' ≤ c ∧ c ≤ 'F' then some (c.toNat - 55)
  else none

/-- The last `count` hexadecimal digits of a number. -/
def hexDigits : Nat → Nat → List Char
  | 0, _ => []
  | count + 1, n => hexDigits count (n / 16) ++ [hexDigit (n % 16)]

/-- The number that a run of hexadecimal digits stands for. -/
def ofHex? : Nat → List Char → Option Nat
  | acc, [] => some acc
  | acc, c :: cs => (hexValue? c).bind fun v => ofHex? (16 * acc + v) cs

/-- The written form: groups of 8, 4, 4, 4 and 12 digits in lower case. -/
def text (a : Id e) : List Char :=
  let ds := hexDigits 32 a.bits.toNat
  ds.take 8 ++ '-' :: ((ds.drop 8).take 4 ++ '-' :: ((ds.drop 12).take 4 ++
    '-' :: ((ds.drop 16).take 4 ++ '-' :: ds.drop 20)))

/-- The written form as a string. -/
def display (a : Id e) : String := String.ofList a.text

/-- Thirty-two digits without marks between them. -/
def readPlain? (cs : List Char) : Option (Id e) :=
  if cs.length = 32 then (ofHex? 0 cs).map ofNat else none

/-- Thirty-two digits in five groups. -/
def readGrouped? (cs : List Char) : Option (Id e) :=
  if cs.length = 36 ∧ cs[8]? = some '-' ∧ cs[13]? = some '-' ∧ cs[18]? = some '-' ∧
      cs[23]? = some '-' then
    readPlain? (cs.take 8 ++ (cs.drop 9).take 4 ++ (cs.drop 14).take 4 ++ (cs.drop 19).take 4 ++
      cs.drop 24)
  else none

/-- The grouped form in braces. -/
def readBraced? : List Char → Option (Id e)
  | '\x7b' :: cs => if cs.getLast? = some '\x7d' then readGrouped? cs.dropLast else none
  | _ => none

/-- The grouped form after the marker of a uniform resource name, with letters of either case. -/
def readName? (cs : List Char) : Option (Id e) :=
  if (cs.take 9).map Char.toLower = "urn:uuid:".toList then readGrouped? (cs.drop 9) else none

/-- Reads an identifier in one of its four forms. -/
def read? (cs : List Char) : Option (Id e) :=
  ((readPlain? cs).or (readGrouped? cs)).or ((readBraced? cs).or (readName? cs))

end Id

end Referral
