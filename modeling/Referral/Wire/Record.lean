import Referral.Json

/-!
# Records and variants on the wire

A record is an object with named fields, of which further ones are ignored, or an array of its
fields in order. A variant is a name; one with fields is an object in which a tag names the variant,
or an array that begins with the name.
-/

namespace Referral

/-- The fields of a record as they were given. -/
structure Fields where
  /-- Whether the fields came by name. -/
  named : Bool
  slots : List (String × Json)

namespace Fields

/-- Whether no name is given twice among some names. -/
def eachOnce (names : List String) (members : List (String × Json)) : Bool :=
  names.all fun n => (members.filter (·.1 = n)).length ≤ 1

/-- The fields of the given names. -/
def of? (names : List String) : Json → Option Fields
  | .obj members =>
    if eachOnce names members then some ⟨true, members.filter fun m => names.contains m.1⟩
    else none
  | .arr items =>
    if items.length ≤ names.length then some ⟨false, names.zip items⟩ else none
  | _ => none

/-- The fields of the given names, where no others may be given. -/
def only? (names : List String) (j : Json) : Option Fields :=
  if (j.members?.getD []).all fun m => names.contains m.1 then of? names j else none

variable {α : Type}

/-- What was given for a field. -/
def slot? (f : Fields) (name : String) : Option Json :=
  (f.slots.find? (·.1 = name)).map (·.2)

/-- A field that must be given. -/
def required (f : Fields) (name : String) (decode : Json → Option α) : Option α :=
  (f.slot? name).bind decode

/-- The value of a field that may be null. -/
def nullable (decode : Json → Option α) : Json → Option (Option α)
  | .null => some none
  | j => (decode j).map some

/-- A field that may be null, or missing where fields come by name. -/
def optional (f : Fields) (name : String) (decode : Json → Option α) : Option (Option α) :=
  match f.slot? name with
  | some j => nullable decode j
  | none => if f.named then some none else none

/-- A field that may be missing, in which case it has the given value. -/
def withDefault (f : Fields) (name : String) (value : α) (decode : Json → Option α) : Option α :=
  match f.slot? name with
  | some j => decode j
  | none => some value

end Fields

/-- The items of an array, each decoded. -/
def Json.listOf? {α : Type} (decode : Json → Option α) (j : Json) : Option (List α) :=
  j.items?.bind fun items => items.mapM decode

/-- The name of a variant without fields: a string, or an object that has null under the name. Where
the value was looked through before, an empty object may stand for null. -/
def Json.variantName? (buffered : Bool) : Json → Option String
  | .str s => some s
  | .obj [(name, .null)] => some name
  | .obj [(name, .obj [])] => if buffered then some name else none
  | _ => none

/-- A variant with fields, as it was given. -/
structure Tagged where
  tag : Json
  rest : Json

namespace Tagged

/-- The tag of a variant and its other members or items, all of which must be readable. -/
def of? (name : String) : Json → Option Tagged
  | .obj members =>
    match members.filter (·.1 = name) with
    | [(_, tag)] => ((Json.obj (members.filter (·.1 ≠ name))).readable?).map (⟨tag, ·⟩)
    | _ => none
  | .arr (tag :: items) => ((Json.arr items).readable?).map (⟨tag, ·⟩)
  | _ => none

/-- The name of the variant among the given ones. Where the value was looked through before, its
position may stand for the name. -/
def name? (names : List String) (buffered : Bool) (t : Tagged) : Option String :=
  match t.tag with
  | .str s => if names.contains s then some s else none
  | .int n => if buffered && 0 ≤ n then names[n.toNat]? else none
  | _ => none

/-- A variant without fields: further members are ignored, but no further items may be given. -/
def isBare (t : Tagged) : Bool :=
  match t.rest with
  | .arr items => items.isEmpty
  | _ => true

end Tagged

end Referral
