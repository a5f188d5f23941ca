import Referral.Staging

/-!
# Drafts

Units of work that are kept under names and worked on piece by piece, apart from those of the
service. Their switch permits are their own.
-/

namespace Referral

/-- Units of work under names, and the permits that are out to them. -/
structure Drafts where
  units : List (String × WorkUnit)
  permits : Permits

namespace Drafts

/-- No unit of work. -/
def empty : Drafts := ⟨[], .empty⟩

instance : Inhabited Drafts := ⟨empty⟩

/-- The unit of work of a name. -/
def find? (d : Drafts) (name : String) : Option WorkUnit :=
  (d.units.find? (·.1 = name)).map (·.2)

/-- Keeps a unit of work under a name, in place of the one there was. -/
def put (d : Drafts) (name : String) (u : WorkUnit) : Drafts :=
  { d with units := (name, u) :: d.units.filter (·.1 ≠ name) }

/-- Takes the unit of work of a name away and gives its permits back. -/
def drop (d : Drafts) (name : String) : Drafts where
  units := d.units.filter (·.1 ≠ name)
  permits := d.permits.releaseAll (((d.find? name).map (·.permits)).getD [])

/-- Begins a unit of work under a name; the one there was is dropped. -/
def start (d : Drafts) (name : String) (c : Context) : Drafts := (d.drop name).put name (.start c)

theorem find?_put (d : Drafts) (name other : String) (u : WorkUnit) :
    (d.put name u).find? other = if other = name then some u else d.find? other := by
  by_cases h : other = name
  · simp [find?, put, h]
  · simp only [find?, put, if_neg h, List.find?_cons, decide_eq_false (Ne.symm h),
      List.find?_filter]
    congr 2
    funext x
    by_cases hx : x.1 = other
    · simp [hx, h]
    · simp [hx]

theorem find?_drop (d : Drafts) (name : String) : (d.drop name).find? name = none := by
  simp [find?, drop]

end Drafts

end Referral
