import Referral.Json
import Referral.Text.Decimal

/-!
# Writing JSON

A value as a text without blanks. A number that is no integer is written with four places.
-/

namespace Referral.Json

/-- A character of a string as it is written. -/
def charText (c : Char) : List Char :=
  if c = '\x22' then ['\x5c', '\x22']
  else if c = '\x5c' then ['\x5c', '\x5c']
  else if c.toNat < 0x20 then
    ['\x5c', 'u', '0', '0', Nat.digitChar (c.toNat / 16), Nat.digitChar (c.toNat % 16)]
  else [c]

/-- A string in quotes. -/
def quoted (s : String) : List Char := '\x22' :: s.toList.flatMap charText ++ ['\x22']

/-- A number with four places. -/
def realText (negative : Bool) (size : Binary64) : List Char :=
  let n := size.tenThousandths
  (if negative then ['-'] else []) ++ Text.digits (n / 10000) ++
    '.' :: Text.paddedDigits 4 (n % 10000)

mutual

/-- The text of a value. -/
def text : Json → List Char
  | null => "null".toList
  | bool true => "true".toList
  | bool false => "false".toList
  | int n => Text.signedDigits n
  | real negative size => realText negative size
  | str s => quoted s
  | arr [] => ['[', ']']
  | arr (j :: js) => '[' :: (j.text ++ itemsText js)
  | obj [] => ['\x7b', '\x7d']
  | obj ((name, j) :: ms) => '\x7b' :: (quoted name ++ ':' :: (j.text ++ membersText ms))
  | unreadable => "null".toList

/-- The items of an array after the first. -/
def itemsText : List Json → List Char
  | [] => [']']
  | j :: js => ',' :: (j.text ++ itemsText js)

/-- The members of an object after the first. -/
def membersText : List (String × Json) → List Char
  | [] => ['\x7d']
  | (name, j) :: ms => ',' :: (quoted name ++ ':' :: (j.text ++ membersText ms))

end

/-- The text of a value as a string. -/
def print (j : Json) : String := String.ofList j.text

end Referral.Json
