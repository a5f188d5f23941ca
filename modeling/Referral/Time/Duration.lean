/-!
# Durations

A length of time in nanoseconds, with fewer than 2 ^ 64 whole seconds.
-/

namespace Referral

/-- A length of time. -/
structure Duration where
  nanos : Nat
  bound : nanos < 18446744073709551616000000000
deriving DecidableEq

namespace Duration

/-- The whole seconds. -/
def seconds (d : Duration) : Nat := d.nanos / 1000000000

/-- The nanoseconds beyond the whole seconds. -/
def subsecond (d : Duration) : Nat := d.nanos % 1000000000

/-- The length in milliseconds, rounded up. -/
def millisUp (d : Duration) : Nat := (d.nanos + 999999) / 1000000

/-- Whole seconds and nanoseconds, which may be more than a second; none if there are too many. -/
def ofParts? (seconds nanos : Nat) : Option Duration :=
  if h : seconds * 1000000000 + nanos < 18446744073709551616000000000 then some ⟨_, h⟩ else none

/-- The length nearest to a number of nanoseconds. -/
def clamp (nanos : Nat) : Duration :=
  ⟨min nanos 18446744073709551615999999999, by omega⟩

/-- A number of whole seconds. -/
def ofSeconds (s : UInt64) : Duration :=
  ⟨s.toNat * 1000000000, by have := s.toNat_lt; omega⟩

/-- A number of milliseconds. -/
def ofMillis (ms : UInt64) : Duration :=
  ⟨ms.toNat * 1000000, by have := ms.toNat_lt; omega⟩

/-- A multiple, held at the longest length. -/
def times (d : Duration) (n : Nat) : Duration := clamp (d.nanos * n)

end Duration

end Referral
