import Referral.Scope
import Referral.Totals

/-!
# Books of totals

A book holds the totals per promoter, per promoter and day, per link, and per link and day. Events
are added one by one, books are added key by key, and a scope of one book can be replaced by that of
another. An addition that would leave a range changes nothing.
-/

namespace Referral

namespace OrderedMap

variable {κ ν : Type} [Ranked κ] [Summable ν]

/-- The total at a key, zero if there is none. -/
def total (m : OrderedMap κ ν) (k : κ) : ν := (m.get? k).getD Summable.zero

/-- The map with a value added at a key, if the sum is in range. -/
def add? (m : OrderedMap κ ν) (k : κ) (v : ν) : Option (OrderedMap κ ν) :=
  (Summable.add? (m.total k) v).map (m.insert k)

/-- The map with values added one after the other; the first sum out of range is named. -/
def addAll (m : OrderedMap κ ν) (name : κ → String) : List (κ × ν) →
    Except Error (OrderedMap κ ν)
  | [] => .ok m
  | (k, v) :: rest =>
    match m.add? k v with
    | some m => m.addAll name rest
    | none => .error (Error.overflow (name k))

/-- The entries of one map where the test holds, and those of another elsewhere. -/
def patch {κ ν : Type} [Ranked κ] (inside outside : OrderedMap κ ν) (p : κ → Bool) :
    OrderedMap κ ν :=
  (outside.filter fun k => !p k).insertAll (inside.filter p).entries

end OrderedMap

/-- All totals. -/
structure Book where
  promoters : OrderedMap PromoterKey PromoterTotals
  promoterDays : OrderedMap (PromoterKey × Day) PromoterTotals
  links : OrderedMap LinkKey LinkTotals
  linkDays : OrderedMap (LinkKey × Day) LinkTotals
deriving DecidableEq

namespace Book

/-- The book without totals. -/
def empty : Book := ⟨∅, ∅, ∅, ∅⟩

instance : EmptyCollection Book := ⟨empty⟩

instance : Inhabited Book := ⟨empty⟩

/-- The totals of a promoter, zero if there are none. -/
def promoter (b : Book) (k : PromoterKey) : PromoterTotals := b.promoters.total k

/-- The totals of a link under a promoter, zero if there are none. -/
def link (b : Book) (k : LinkKey) : LinkTotals := b.links.total k

/-- The book with an event added, if all four sums are in range. -/
def add? (b : Book) (e : Event) : Option Book := do
  let forPromoter := PromoterTotals.ofEvent e
  let forLink := LinkTotals.ofEvent e
  let promoters ← b.promoters.add? e.promoterKey forPromoter
  let promoterDays ← b.promoterDays.add? (e.promoterKey, e.day) forPromoter
  let links ← b.links.add? e.linkKey forLink
  let linkDays ← b.linkDays.add? (e.linkKey, e.day) forLink
  some ⟨promoters, promoterDays, links, linkDays⟩

/-- Adds an event, or names it if a sum is out of range. -/
def add (b : Book) (e : Event) : Except Error Book :=
  match b.add? e with
  | some b => .ok b
  | none => .error (Error.overflow e.id.display)

/-- Adds events one after the other. -/
def addAll (b : Book) : List Event → Except Error Book
  | [] => .ok b
  | e :: es => (b.add e).bind fun b => b.addAll es

/-- The book of some events. -/
def ofEvents (es : List Event) : Except Error Book := empty.addAll es

/-- Adds the totals of another book; the promoter or link of the first sum out of range is named. -/
def merge (b delta : Book) : Except Error Book := do
  let promoters ← b.promoters.addAll (fun k => k.promoter.display) delta.promoters.entries
  let promoterDays ← b.promoterDays.addAll (fun k => k.1.promoter.display)
    delta.promoterDays.entries
  let links ← b.links.addAll (fun k => k.link.display) delta.links.entries
  let linkDays ← b.linkDays.addAll (fun k => k.1.link.display) delta.linkDays.entries
  .ok ⟨promoters, promoterDays, links, linkDays⟩

/-- Adds up totals, or gives none if a sum is out of range. -/
def sum? {ν : Type} [Summable ν] : ν → List ν → Option ν
  | acc, [] => some acc
  | acc, v :: vs => (Summable.add? acc v).bind fun acc => sum? acc vs

/-- The totals of a link under all promoters and programs. -/
def linkTotals (b : Book) (l : LinkId) : Except Error LinkTotals :=
  match sum? LinkTotals.zero ((b.links.entries.filter (·.1.link = l)).map (·.2)) with
  | some totals => .ok totals
  | none => .error (Error.overflow l.display)

/-- The totals that a scope selects. -/
def restrict (b : Book) (s : Scope) : Book where
  promoters := b.promoters.filter s.coversPromoter
  promoterDays := b.promoterDays.filter fun k => s.coversPromoter k.1
  links := b.links.filter s.coversLink
  linkDays := b.linkDays.filter fun k => s.coversLink k.1

/-- The book with the totals that a scope selects taken from another book. -/
def replaceScope (b : Book) (s : Scope) (rebuilt : Book) : Book where
  promoters := rebuilt.promoters.patch b.promoters s.coversPromoter
  promoterDays := rebuilt.promoterDays.patch b.promoterDays fun k => s.coversPromoter k.1
  links := rebuilt.links.patch b.links s.coversLink
  linkDays := rebuilt.linkDays.patch b.linkDays fun k => s.coversLink k.1

/-- Whether there are neither totals of promoters nor of links. -/
def isEmpty (b : Book) : Bool := b.promoters.isEmpty && b.links.isEmpty

end Book

end Referral
