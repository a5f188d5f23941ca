import Referral.Event
import Referral.OrderedMap

/-!
# Keys and scopes

Totals are kept per promoter of a program and per link of such a promoter. A scope selects some of
these keys.
-/

namespace Referral

/-- A promoter in a program. -/
structure PromoterKey where
  program : ProgramId
  promoter : PromoterId
deriving DecidableEq

instance : Ranked PromoterKey :=
  Ranked.ofEmbedding (fun k => (k.program, k.promoter)) fun a b h => by
    cases a; cases b; simp_all

/-- A link with the promoter it was used under. -/
structure LinkKey where
  program : ProgramId
  promoter : PromoterId
  link : LinkId
deriving DecidableEq

instance : Ranked LinkKey :=
  Ranked.ofEmbedding (fun k => ((k.program, k.promoter), k.link)) fun a b h => by
    cases a; cases b; simp_all

/-- The promoter that a link was used under. -/
def LinkKey.owner (k : LinkKey) : PromoterKey := ⟨k.program, k.promoter⟩

/-- The promoter of an event. -/
def Event.promoterKey (e : Event) : PromoterKey := ⟨e.program, e.promoter⟩

/-- The link of an event. -/
def Event.linkKey (e : Event) : LinkKey := ⟨e.program, e.promoter, e.link⟩

@[simp] theorem Event.owner_linkKey (e : Event) : e.linkKey.owner = e.promoterKey := rfl

/-- A selection of keys. -/
inductive Scope
  | all
  | program (program : ProgramId)
  | promoter (program : ProgramId) (promoter : PromoterId)
  | link (link : LinkId)
deriving DecidableEq

namespace Scope

/-- Whether the totals of a promoter are selected. -/
def coversPromoter : Scope → PromoterKey → Bool
  | all, _ => true
  | program p, k => k.program = p
  | promoter p m, k => k.program = p && k.promoter = m
  | link _, _ => false

/-- Whether the totals of a link are selected. -/
def coversLink : Scope → LinkKey → Bool
  | link l, k => k.link = l
  | s, k => s.coversPromoter k.owner

/-- Whether an event adds to some selected total. -/
def includes (s : Scope) (e : Event) : Bool :=
  s.coversPromoter e.promoterKey || s.coversLink e.linkKey

/-- The wording of a scope. -/
def display : Scope → String
  | all => "all"
  | program p => "program:" ++ p.display
  | promoter p m => "promoter:" ++ p.display ++ "/" ++ m.display
  | link l => "link:" ++ l.display

/-- A selected promoter has its links selected. -/
theorem coversLink_of_coversPromoter {s : Scope} {k : LinkKey}
    (h : s.coversPromoter k.owner = true) : s.coversLink k = true := by
  cases s <;> simp_all [coversLink, coversPromoter]

end Scope

end Referral
