import Referral.Json.Binary64

/-!
# JSON values

A value of a JSON text. A part of a text that is well formed but stands for no value (a number out
of range, a string with half a surrogate pair) is kept as unreadable: it does no harm where nobody
looks at it.
-/

namespace Referral

/-- A JSON value. -/
inductive Json
  | null
  | bool (b : Bool)
  /-- An integer from -2 ^ 63 to 2 ^ 64 - 1. -/
  | int (n : Int)
  /-- Any other number, as a sign (true for minus) and a size. -/
  | real (negative : Bool) (size : Binary64)
  | str (s : String)
  | arr (items : List Json)
  | obj (members : List (String × Json))
  | unreadable

namespace Json

instance : Inhabited Json := ⟨null⟩

mutual

/-- Whether all parts of a value can be read. -/
def isReadable : Json → Bool
  | null | bool _ | int _ | real _ _ | str _ => true
  | arr items => areReadable items
  | obj members => areReadableMembers members
  | unreadable => false

/-- Whether all items of an array can be read. -/
def areReadable : List Json → Bool
  | [] => true
  | j :: js => j.isReadable && areReadable js

/-- Whether all members of an object can be read. -/
def areReadableMembers : List (String × Json) → Bool
  | [] => true
  | (_, j) :: js => j.isReadable && areReadableMembers js

end

/-- The value, if all of its parts can be read. -/
def readable? (j : Json) : Option Json := if j.isReadable then some j else none

/-- The string that a value is. -/
def string? : Json → Option String
  | str s => some s
  | _ => none

/-- The truth value that a value is. -/
def bool? : Json → Option Bool
  | bool b => some b
  | _ => none

/-- The integer that a value is, if it is within bounds. -/
def int? (low high : Int) : Json → Option Int
  | int n => if low ≤ n ∧ n ≤ high then some n else none
  | _ => none

/-- The natural number that a value is, if it is within a bound. -/
def nat? (high : Nat) (j : Json) : Option Nat := (j.int? 0 high).map Int.toNat

/-- The items of an array. -/
def items? : Json → Option (List Json)
  | arr items => some items
  | _ => none

/-- The members of an object. -/
def members? : Json → Option (List (String × Json))
  | obj members => some members
  | _ => none

/-- The member of an object with a given name, null if there is none. -/
def get (j : Json) (name : String) : Json :=
  match j with
  | obj members => ((members.find? (·.1 = name)).map (·.2)).getD null
  | _ => null

/-- Whether a value is null. -/
def isNull : Json → Bool
  | null => true
  | _ => false

end Json

end Referral
