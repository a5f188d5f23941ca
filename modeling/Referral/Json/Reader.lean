import Referral.Json.Number

/-!
# Reading JSON

A text of bytes is read as one value with blanks around it. What is written correctly but cannot be
read (a number out of range, a string that is no text, an object with such a name, a container
inside 127 others) is kept as an unreadable value.
-/

namespace Referral.Json

/-- The bytes of a text. -/
abbrev Bytes := List UInt8

/-- Whether a byte is a blank between parts. -/
def isGap (b : UInt8) : Bool := b = 0x20 || b = 0x0A || b = 0x0D || b = 0x09

/-- The bytes after blanks. -/
def skipGaps (bs : Bytes) : Bytes := bs.dropWhile isGap

/-- The value of a digit. -/
def digit? (b : UInt8) : Option Nat :=
  if 0x30 ≤ b ∧ b ≤ 0x39 then some (b.toNat - 0x30) else none

/-- The value of a hexadecimal digit. -/
def hexDigit? (b : UInt8) : Option Nat :=
  if 0x30 ≤ b ∧ b ≤ 0x39 then some (b.toNat - 0x30)
  else if 0x41 ≤ b ∧ b ≤ 0x46 then some (b.toNat - 0x37)
  else if 0x61 ≤ b ∧ b ≤ 0x66 then some (b.toNat - 0x57)
  else none

/-- The digits at the beginning, and the bytes after them. -/
def takeDigits : Bytes → List Nat × Bytes
  | [] => ([], [])
  | b :: bs =>
    match digit? b with
    | some d =>
      let (ds, rest) := takeDigits bs
      (d :: ds, rest)
    | none => ([], b :: bs)

/-- One digit at least. -/
def someDigits? (bs : Bytes) : Option (List Nat × Bytes) :=
  match takeDigits bs with
  | ([], _) => none
  | found => some found

/-- The digits of a whole number: zero alone, or digits that do not begin with it. -/
def wholeDigits? (bs : Bytes) : Option (List Nat × Bytes) :=
  match takeDigits bs with
  | ([], _) => none
  | (0 :: _ :: _, _) => none
  | found => some found

/-- The digits after a point, if there is one. -/
def fraction? : Bytes → Option (Option (List Nat) × Bytes)
  | 0x2E :: bs => (someDigits? bs).map fun (ds, rest) => (some ds, rest)
  | bs => some (none, bs)

/-- The sign of an exponent, true for minus. -/
def exponentSign : Bytes → Bool × Bytes
  | 0x2B :: bs => (false, bs)
  | 0x2D :: bs => (true, bs)
  | bs => (false, bs)

/-- The exponent, if there is one. -/
def exponent? (bs : Bytes) : Option (Option (Bool × List Nat) × Bytes) :=
  match bs with
  | [] => some (none, [])
  | b :: rest =>
    if b = 0x65 ∨ b = 0x45 then
      let (negative, rest) := exponentSign rest
      (someDigits? rest).map fun (ds, rest) => (some (negative, ds), rest)
    else some (none, bs)

/-- A number after its sign. -/
def readNumber? (negative : Bool) (bs : Bytes) : Option (Json × Bytes) := do
  let (whole, bs) ← wholeDigits? bs
  let (fraction, bs) ← fraction? bs
  let (exponent, bs) ← exponent? bs
  some (Numeral.value ⟨negative, whole, fraction, exponent⟩, bs)

/-- A piece of a string: a byte as it stands, or a unit of 16 bits that was escaped. -/
inductive Piece
  | byte (b : UInt8)
  | unit (n : Nat)
deriving DecidableEq

/-- The byte that an escape of one letter stands for. -/
def escaped? (b : UInt8) : Option UInt8 :=
  if b = 0x22 ∨ b = 0x5C ∨ b = 0x2F then some b
  else if b = 0x62 then some 0x08
  else if b = 0x66 then some 0x0C
  else if b = 0x6E then some 0x0A
  else if b = 0x72 then some 0x0D
  else if b = 0x74 then some 0x09
  else none

/-- The number that four hexadecimal digits stand for. -/
def hexUnit? (a b c d : UInt8) : Option Nat := do
  let a ← hexDigit? a
  let b ← hexDigit? b
  let c ← hexDigit? c
  let d ← hexDigit? d
  some (((a * 16 + b) * 16 + c) * 16 + d)

/-- The pieces of a string up to its closing quote. -/
def pieces? : Bytes → Option (List Piece × Bytes)
  | [] => none
  | 0x22 :: bs => some ([], bs)
  | 0x5C :: 0x75 :: a :: b :: c :: d :: bs => do
    let n ← hexUnit? a b c d
    let (ps, rest) ← pieces? bs
    some (.unit n :: ps, rest)
  | 0x5C :: b :: bs => do
    let b ← escaped? b
    let (ps, rest) ← pieces? bs
    some (.byte b :: ps, rest)
  | b :: bs =>
    if b < 0x20 then none
    else (pieces? bs).map fun (ps, rest) => (.byte b :: ps, rest)

/-- The bytes of pieces; none if half a pair of units stands alone. -/
def join? : List Piece → Option Bytes
  | [] => some []
  | .byte b :: ps => (join? ps).map (b :: ·)
  | .unit n :: .unit m :: ps =>
    if n < 0xD800 ∨ 0xDFFF < n then
      (join? (.unit m :: ps)).map (String.utf8EncodeChar (Char.ofNat n) ++ ·)
    else if n ≤ 0xDBFF ∧ 0xDC00 ≤ m ∧ m ≤ 0xDFFF then
      let code := (n - 0xD800) * 0x400 + (m - 0xDC00) + 0x10000
      (join? ps).map (String.utf8EncodeChar (Char.ofNat code) ++ ·)
    else none
  | .unit n :: ps =>
    if n < 0xD800 ∨ 0xDFFF < n then
      (join? ps).map (String.utf8EncodeChar (Char.ofNat n) ++ ·)
    else none

/-- The text that bytes stand for. -/
def textOf? (bs : Bytes) : Option String := String.fromUTF8? ⟨bs.toArray⟩

/-- A string after its opening quote; its text is none if it cannot be read. -/
def readString (bs : Bytes) : Option (Option String × Bytes) :=
  (pieces? bs).map fun (ps, rest) => ((join? ps).bind textOf?, rest)

/-- The bytes after a fixed word. -/
def afterWord? (word : String) (bs : Bytes) : Option Bytes :=
  let w := word.toUTF8.toList
  if w.isPrefixOf bs then some (bs.drop w.length) else none

/-- The most containers that may enclose a value. -/
def maxNesting : Nat := 127

/-- A container, unless it is nested too deeply. -/
def nested (depth : Nat) (j : Json) : Json := if depth < maxNesting then j else unreadable

/-- The members of an object whose names can all be read. -/
def objectOf (members : List (Option String × Json)) : Json :=
  ((members.mapM fun (m : Option String × Json) => m.1.map (·, m.2)).map obj).getD unreadable

mutual

/-- A value inside `depth` containers. The first argument bounds the number of calls. -/
def readValue? : Nat → Nat → Bytes → Option (Json × Bytes)
  | 0, _, _ => none
  | calls + 1, depth, bs =>
    match skipGaps bs with
    | [] => none
    | 0x22 :: bs => (readString bs).map fun (s, rest) => ((s.map str).getD unreadable, rest)
    | 0x5B :: bs =>
      match skipGaps bs with
      | 0x5D :: bs => some (nested depth (arr []), bs)
      | bs => (readItems? calls (depth + 1) bs).map fun (js, rest) => (nested depth (arr js), rest)
    | 0x7B :: bs =>
      match skipGaps bs with
      | 0x7D :: bs => some (nested depth (obj []), bs)
      | bs =>
        (readMembers? calls (depth + 1) bs).map fun (ms, rest) => (nested depth (objectOf ms), rest)
    | 0x2D :: bs => readNumber? true bs
    | 0x74 :: bs => (afterWord? "rue" bs).map (bool true, ·)
    | 0x66 :: bs => (afterWord? "alse" bs).map (bool false, ·)
    | 0x6E :: bs => (afterWord? "ull" bs).map (null, ·)
    | bs => readNumber? false bs

/-- The items of an array, up to its end. -/
def readItems? : Nat → Nat → Bytes → Option (List Json × Bytes)
  | 0, _, _ => none
  | calls + 1, depth, bs => do
    let (j, bs) ← readValue? calls depth bs
    match skipGaps bs with
    | 0x5D :: bs => some ([j], bs)
    | 0x2C :: bs =>
      let (js, bs) ← readItems? calls depth bs
      some (j :: js, bs)
    | _ => none

/-- The members of an object, up to its end. -/
def readMembers? : Nat → Nat → Bytes → Option (List (Option String × Json) × Bytes)
  | 0, _, _ => none
  | calls + 1, depth, bs =>
    match skipGaps bs with
    | 0x22 :: bs => do
      let (name, bs) ← readString bs
      match skipGaps bs with
      | 0x3A :: bs =>
        let (j, bs) ← readValue? calls depth bs
        match skipGaps bs with
        | 0x7D :: bs => some ([(name, j)], bs)
        | 0x2C :: bs =>
          let (ms, bs) ← readMembers? calls depth bs
          some ((name, j) :: ms, bs)
        | _ => none
      | _ => none
    | _ => none

end

/-- Reads a text as one value. -/
def ofBytes? (bs : Bytes) : Option Json := do
  let (j, rest) ← readValue? (2 * bs.length + 2) 0 bs
  if (skipGaps rest).isEmpty then some j else none

/-- Reads a text as one value. -/
def ofString? (s : String) : Option Json := ofBytes? s.toUTF8.toList

end Referral.Json
