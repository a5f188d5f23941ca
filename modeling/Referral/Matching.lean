import Referral.Rule
import Referral.Totals

/-!
# Matching

Conditions are evaluated against a snapshot: the promoter's totals, which already count the event,
and the identifiers of the event. A rule matches if all its conditions hold; a condition that cannot
be evaluated counts as one that does not hold.
-/

namespace Referral

/-- The value of a parameter. -/
inductive Observation
  | count (n : Count)
  | amount (m : Money)
  | text (s : String)
deriving DecidableEq

/-- The values of the parameters that are known. -/
abbrev Snapshot := Parameter → Option Observation

/-- The snapshot of an event and the totals that count it. -/
def Snapshot.ofEvent (totals : PromoterTotals) (e : Event) : Snapshot
  | .signups => some (.count totals.signups)
  | .purchases => some (.count totals.purchases)
  | .revenue => some (.amount totals.revenue)
  | .externalId => e.externalId.map .text
  | .itemId => e.itemId.map .text

/-- Why a condition cannot be evaluated. -/
inductive MatchFlaw
  | observation (parameter : Parameter) (value : String)
  | condition (value : String)
deriving DecidableEq

/-- The wording of a flaw. -/
def MatchFlaw.message : MatchFlaw → String
  | observation p value => p.label ++ " value '" ++ value ++ "' is not numeric"
  | condition value => "condition value '" ++ value ++ "' is not numeric"

/-- A flaw as a cause that ends an operation. -/
def MatchFlaw.toError (f : MatchFlaw) : Error := .typeMismatch f.message

namespace Observation

/-- The text of a value, for the search in it. -/
def display : Observation → String
  | count n => toString n.toNat
  | amount m => m.display
  | text s => s

/-- The number of a value; a text has one only under a parameter of texts. -/
def number? (p : Parameter) : Observation → Option Money
  | count n => Money.ofWhole? n.toNat
  | amount m => some m
  | text s => if p.isNumeric then none else Money.read? s.toList

end Observation

namespace Condition

/-- The order of a value and the value of the condition, as numbers. -/
def compare (c : Condition) (v : Observation) : Except MatchFlaw Ordering :=
  match v.number? c.parameter with
  | none => .error (.observation c.parameter v.display)
  | some left =>
    match Money.read? c.value.toList with
    | none => .error (.condition c.value)
    | some right => .ok (left.order right)

/-- Whether a value satisfies the condition. -/
def test (c : Condition) (v : Observation) : Except MatchFlaw Bool :=
  match c.operator with
  | .equals =>
    match v with
    | .text s => .ok (s = c.value)
    | v => (c.compare v).map (· = .eq)
  | .contains => .ok (Text.occurs c.value.toList v.display.toList)
  | .lessThan => (c.compare v).map (· = .lt)
  | .lessOrEqual => (c.compare v).map (· ≠ .gt)
  | .greaterThan => (c.compare v).map (· = .gt)
  | .greaterOrEqual => (c.compare v).map (· ≠ .lt)

/-- Whether a condition holds; one on a parameter without a value does not. -/
def holds (c : Condition) (s : Snapshot) : Except MatchFlaw Bool :=
  match s c.parameter with
  | none => .ok false
  | some v => c.test v

end Condition

/-- Whether all conditions hold, looking no further than the first that does not. -/
def allHold (s : Snapshot) : List Condition → Except MatchFlaw Bool
  | [] => .ok true
  | c :: cs =>
    match c.holds s with
    | .ok true => allHold s cs
    | other => other

/-- Whether conditions match: all can be evaluated and hold. -/
def conditionsMatch (cs : List Condition) (s : Snapshot) : Bool :=
  match allHold s cs with
  | .ok b => b
  | .error _ => false

/-- Whether a rule matches. -/
def Rule.isMatch (r : Rule) (s : Snapshot) : Bool := conditionsMatch r.conditions s

end Referral
