import Referral.Scope

/-!
# Switch permits

At most one switch of a promoter's circle is in flight. A permit is taken without waiting: where one
is out, a second one is refused.
-/

namespace Referral

/-- The promoters for whom a permit is out. -/
structure Permits where
  out : List PromoterKey
  nodup : out.Nodup

namespace Permits

/-- No permit is out. -/
def empty : Permits := ⟨[], .nil⟩

instance : Inhabited Permits := ⟨empty⟩

/-- Whether a permit for a promoter is out. -/
def isOut (p : Permits) (k : PromoterKey) : Bool := k ∈ p.out

/-- Takes the permit for a promoter, unless it is out. -/
def acquire? (p : Permits) (k : PromoterKey) : Option Permits :=
  if h : k ∈ p.out then none else some ⟨k :: p.out, List.nodup_cons.mpr ⟨h, p.nodup⟩⟩

/-- Gives the permit for a promoter back. -/
def release (p : Permits) (k : PromoterKey) : Permits := ⟨p.out.erase k, p.nodup.erase k⟩

/-- Gives several permits back. -/
def releaseAll (p : Permits) (ks : List PromoterKey) : Permits := ks.foldl release p

theorem isOut_iff {p : Permits} {k : PromoterKey} : p.isOut k = true ↔ k ∈ p.out := by
  simp [isOut]

theorem acquire?_eq_none {p : Permits} {k : PromoterKey} : p.acquire? k = none ↔ k ∈ p.out := by
  unfold acquire?
  split <;> simp_all

theorem out_acquire {p q : Permits} {k : PromoterKey} (h : p.acquire? k = some q) :
    q.out = k :: p.out ∧ k ∉ p.out := by
  unfold acquire? at h
  split at h
  · cases h
  · cases h
    exact ⟨rfl, by assumption⟩

theorem mem_release {p : Permits} {k j : PromoterKey} :
    j ∈ (p.release k).out ↔ j ≠ k ∧ j ∈ p.out := p.nodup.mem_erase_iff

end Permits

end Referral
