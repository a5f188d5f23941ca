/-!
# Depth

The number of steps from an event that came from outside to one that followed from it. Depths stop
at 255.
-/

namespace Referral

/-- The distance of an event from the root of its cascade. -/
abbrev Depth := Fin 256

/-- There is a depth, so that numbers stand for depths. -/
instance Depth.neZero : @NeZero Nat Zero.ofOfNat0 256 := ⟨Nat.succ_ne_zero 255⟩

namespace Depth

/-- One level deeper; the deepest level is its own successor. -/
def next (d : Depth) : Depth := ⟨min (d.val + 1) 255, by omega⟩

theorem le_next (d : Depth) : d ≤ d.next := by
  have := d.isLt
  simp only [next, Fin.le_def]
  omega

theorem val_next {d : Depth} (h : d.val < 255) : d.next.val = d.val + 1 := by
  simp only [next]
  omega

end Depth

end Referral
