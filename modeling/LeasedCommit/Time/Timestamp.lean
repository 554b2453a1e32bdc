import LeasedCommit.Time.Duration

set_option autoImplicit false

/-! # Instants

A `Timestamp` is a whole number of microseconds since the Unix epoch, at most `2^64 - 1`.
Every sum that would pass the latest instant stops there (`Timestamp.clamp`). -/

namespace LeasedCommit

/-- An instant in microseconds since the Unix epoch. -/
structure Timestamp where
  micros : Nat
  micros_le : micros ≤ 18446744073709551615
deriving DecidableEq

namespace Timestamp

/-- The instant `n` microseconds after the epoch, or the latest one if that is earlier. -/
def clamp (n : Nat) : Timestamp := ⟨min n 18446744073709551615, Nat.min_le_right ..⟩

/-- The Unix epoch. -/
def epoch : Timestamp := clamp 0

/-- The latest instant. -/
def latest : Timestamp := clamp 18446744073709551615

instance : Inhabited Timestamp := ⟨epoch⟩

/-- Microseconds since the epoch. -/
def ofMicros (n : UInt64) : Timestamp := clamp n.toNat

/-- Milliseconds since the epoch, at most the latest instant. -/
def ofMillis (n : UInt64) : Timestamp := clamp (n.toNat * 1000)

/-- Seconds since the epoch, at most the latest instant. -/
def ofSecs (n : UInt64) : Timestamp := clamp (n.toNat * 1000000)

/-- The instant that a system clock shows, given its nanoseconds since the epoch. A clock that is
set before the epoch shows the epoch. -/
def ofSystemNanos (n : Int) : Timestamp := clamp (n.toNat / 1000)

/-- Whole milliseconds since the epoch. -/
def millis (t : Timestamp) : Nat := t.micros / 1000

/-- The instant `d` after `t`, at most the latest one. What `d` has below a microsecond is
dropped. -/
def plus (t : Timestamp) (d : Duration) : Timestamp := clamp (t.micros + d.micros)

/-- The time from `earlier` to `t`, if `earlier` is not later. -/
def since? (t earlier : Timestamp) : Option Duration :=
  if earlier.micros ≤ t.micros then
    some ⟨(t.micros - earlier.micros) * 1000, by have := t.micros_le; omega⟩
  else none

instance : LE Timestamp := ⟨fun a b => a.micros ≤ b.micros⟩
instance : LT Timestamp := ⟨fun a b => a.micros < b.micros⟩

instance (a b : Timestamp) : Decidable (a ≤ b) := inferInstanceAs (Decidable (a.micros ≤ b.micros))
instance (a b : Timestamp) : Decidable (a < b) := inferInstanceAs (Decidable (a.micros < b.micros))

theorem le_def (a b : Timestamp) : a ≤ b ↔ a.micros ≤ b.micros := Iff.rfl
theorem lt_def (a b : Timestamp) : a < b ↔ a.micros < b.micros := Iff.rfl

theorem ext {a b : Timestamp} (h : a.micros = b.micros) : a = b := by
  cases a; cases b; cases h; rfl

theorem micros_clamp (n : Nat) : (clamp n).micros = min n 18446744073709551615 := rfl

theorem micros_ofMicros (n : UInt64) : (ofMicros n).micros = n.toNat := by
  have := n.toNat_lt
  simp only [ofMicros, micros_clamp]; omega

theorem micros_plus (t : Timestamp) (d : Duration) :
    (t.plus d).micros = min (t.micros + d.micros) 18446744073709551615 := rfl

end Timestamp

end LeasedCommit
