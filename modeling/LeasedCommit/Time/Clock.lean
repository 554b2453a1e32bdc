import LeasedCommit.Time.Timestamp

set_option autoImplicit false

/-! # A clock moved by hand

A `ManualClock` shows one instant until it is moved. It may be set back, so nothing in this
library assumes that later readings are later instants. -/

namespace LeasedCommit

/-- A clock that moves only when told to. -/
structure ManualClock where
  reading : Timestamp
deriving DecidableEq

namespace ManualClock

/-- The reading of a clock that nobody has set. -/
def defaultStart : Timestamp := Timestamp.ofSecs 1700000000

instance : Inhabited ManualClock := ⟨⟨defaultStart⟩⟩

/-- Move forward. The step is cut to whole microseconds, and the clock stops at the latest
instant. -/
def advance (c : ManualClock) (span : Duration) : ManualClock :=
  let step := min span.micros 18446744073709551615
  ⟨Timestamp.clamp (c.reading.micros + step)⟩

/-- Jump to an instant, earlier or later. -/
def set (_ : ManualClock) (instant : Timestamp) : ManualClock := ⟨instant⟩

end ManualClock

end LeasedCommit
