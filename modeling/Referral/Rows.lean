import Referral.Book

/-!
# Rows

A book laid out for reports: one row per running total and one per day, in the order of the keys.
-/

namespace Referral

/-- Totals of a promoter, for one day or for all. -/
structure PromoterRow where
  program : ProgramId
  promoter : PromoterId
  day : Option Day
  totals : PromoterTotals
deriving DecidableEq

/-- Totals of a link under a promoter, for one day or for all. -/
structure LinkRow where
  link : LinkId
  promoter : PromoterId
  day : Option Day
  totals : LinkTotals
deriving DecidableEq

/-- The rows of a book, running totals and days apart. -/
structure Rows where
  promoters : List PromoterRow
  promoterDays : List PromoterRow
  links : List LinkRow
  linkDays : List LinkRow
deriving DecidableEq

/-- The row of a promoter. -/
def PromoterKey.row (k : PromoterKey) (day : Option Day) (totals : PromoterTotals) : PromoterRow :=
  ⟨k.program, k.promoter, day, totals⟩

/-- The row of a link. -/
def LinkKey.row (k : LinkKey) (day : Option Day) (totals : LinkTotals) : LinkRow :=
  ⟨k.link, k.promoter, day, totals⟩

namespace Book

/-- The rows of a book. -/
def rows (b : Book) : Rows where
  promoters := b.promoters.entries.map fun (k, v) => k.row none v
  promoterDays := b.promoterDays.entries.map fun ((k, d), v) => k.row (some d) v
  links := b.links.entries.map fun (k, v) => k.row none v
  linkDays := b.linkDays.entries.map fun ((k, d), v) => k.row (some d) v

/-- The days of a promoter, in order. -/
def promoterDaily (b : Book) (key : PromoterKey) : List PromoterRow :=
  (b.promoterDays.entries.filter (·.1.1 = key)).map fun ((k, d), v) => k.row (some d) v

/-- The days of a link under all promoters. -/
def linkDaily (b : Book) (link : LinkId) : List LinkRow :=
  (b.linkDays.entries.filter (·.1.1.link = link)).map fun ((k, d), v) => k.row (some d) v

end Book

end Referral
