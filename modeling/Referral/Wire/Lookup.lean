import Referral.Wire.Record

/-!
# Requests

The fields of a request are looked up one by one: a field that is missing counts as null, and of
several fields of one name the last one counts.
-/

namespace Referral

namespace Json

mutual

/-- The value with the last of several members of one name kept in each of its objects. -/
def lastWins : Json → Json
  | arr items => arr (lastWinsItems items)
  | obj members => obj (lastWinsMembers members)
  | j => j

/-- The items of an array, each with the last of several members of one name kept. -/
def lastWinsItems : List Json → List Json
  | [] => []
  | j :: js => j.lastWins :: lastWinsItems js

/-- The members of an object, without those that are followed by one of the same name. -/
def lastWinsMembers : List (String × Json) → List (String × Json)
  | [] => []
  | (name, j) :: rest =>
    let rest := lastWinsMembers rest
    if rest.any (·.1 = name) then rest else (name, j.lastWins) :: rest

end

/-- No name is left twice. -/
theorem nodup_lastWinsMembers (members : List (String × Json)) :
    ((lastWinsMembers members).map (·.1)).Nodup := by
  induction members with
  | nil => simp [lastWinsMembers]
  | cons m rest ih =>
    obtain ⟨name, j⟩ := m
    simp only [lastWinsMembers]
    split
    · exact ih
    · rename_i h
      simp only [List.map_cons, List.nodup_cons]
      refine ⟨fun member => h ?_, ih⟩
      obtain ⟨x, hx, same⟩ := List.mem_map.1 member
      exact List.any_eq_true.2 ⟨x, hx, decide_eq_true same⟩

variable {α : Type}

/-- A field that must be given. -/
def required (j : Json) (name : String) (decode : Json → Option α) : Option α :=
  decode (j.get name)

/-- A field that may be null or missing. -/
def optional (j : Json) (name : String) (decode : Json → Option α) : Option (Option α) :=
  Fields.nullable decode (j.get name)

/-- A field that has the given value where it is null or missing. -/
def withDefault (j : Json) (name : String) (value : α) (decode : Json → Option α) : Option α :=
  (j.optional name decode).map (·.getD value)

/-- A list that must be given. -/
def requiredList (j : Json) (name : String) (decode : Json → Option α) : Option (List α) :=
  j.required name (listOf? decode)

/-- A list that is empty where it is null or missing. -/
def optionalList (j : Json) (name : String) (decode : Json → Option α) : Option (List α) :=
  j.withDefault name [] (listOf? decode)

/-- A natural number of 64 bits. -/
def natural? (j : Json) : Option Nat := j.nat? 18446744073709551615

/-- The wire form of a result. -/
def ofResult {ε : Type} (onError : ε → Json) (onOk : α → Json) : Except ε α → Json
  | .ok a => onOk a
  | .error e => onError e

end Json

end Referral
