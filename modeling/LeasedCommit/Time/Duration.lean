set_option autoImplicit false

/-! # Durations

A `Duration` counts whole nanoseconds and stays below `2^64` seconds. Lengths of leases,
retention, pauses and timeouts are durations; only instants (`Timestamp`) are cut to
microseconds, so a duration keeps its nanoseconds until it is added to an instant. -/

namespace LeasedCommit

/-- A length of time in nanoseconds, below `2^64` seconds. -/
structure Duration where
  nanos : Nat
  nanos_lt : nanos < 18446744073709551616000000000
deriving DecidableEq

namespace Duration

/-- No time at all. -/
def zero : Duration := ⟨0, by decide⟩

/-- The longest duration. -/
def longest : Duration := ⟨18446744073709551615999999999, by decide⟩

instance : Inhabited Duration := ⟨zero⟩

/-- A count of nanoseconds, if it is a duration. -/
def ofNanos? (n : Nat) : Option Duration :=
  if h : n < 18446744073709551616000000000 then some ⟨n, h⟩ else none

/-- Seconds and nanoseconds together. Nanoseconds of a whole second and more carry over. -/
def ofParts? (secs nanos : Nat) : Option Duration := ofNanos? (secs * 1000000000 + nanos)

/-- Whole seconds. -/
def ofSecs (s : UInt64) : Duration :=
  ⟨s.toNat * 1000000000, by have := s.toNat_lt; omega⟩

/-- Whole milliseconds. -/
def ofMillis (ms : UInt64) : Duration :=
  ⟨ms.toNat * 1000000, by have := ms.toNat_lt; omega⟩

/-- The whole seconds of a duration. -/
def secs (d : Duration) : Nat := d.nanos / 1000000000

/-- The nanoseconds beyond the whole seconds. -/
def subsecNanos (d : Duration) : Nat := d.nanos % 1000000000

/-- The whole microseconds of a duration; the rest is dropped. -/
def micros (d : Duration) : Nat := d.nanos / 1000

instance : LE Duration := ⟨fun a b => a.nanos ≤ b.nanos⟩

instance (a b : Duration) : Decidable (a ≤ b) := inferInstanceAs (Decidable (a.nanos ≤ b.nanos))

instance : Min Duration := ⟨fun a b => if a ≤ b then a else b⟩

theorem le_def (a b : Duration) : a ≤ b ↔ a.nanos ≤ b.nanos := Iff.rfl

theorem nanos_min (a b : Duration) : (min a b).nanos = min a.nanos b.nanos := by
  show (if a.nanos ≤ b.nanos then a else b).nanos = _
  split <;> omega

theorem secs_add_subsecNanos (d : Duration) :
    d.secs * 1000000000 + d.subsecNanos = d.nanos := by
  unfold secs subsecNanos; omega

/-- Reading a duration's own parts gives it back. -/
theorem ofParts?_parts (d : Duration) : ofParts? d.secs d.subsecNanos = some d := by
  simp only [ofParts?, ofNanos?, secs_add_subsecNanos, d.nanos_lt, dif_pos]

end Duration

end LeasedCommit
