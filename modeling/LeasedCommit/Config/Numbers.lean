import LeasedCommit.Config.Basic
import LeasedCommit.Words

set_option autoImplicit false

/-! # Settings by name

Every text format writes a configuration as numbers under the same six names. `Config.numbers`
lists them, and `Config.ofNumbers?` takes them from any source that can look up a name. A
setting without a number keeps its standard value. -/

namespace LeasedCommit.Config

/-- The names of the settings, in the order in which they are written. -/
def names : List String :=
  ["default_lease_ms", "max_lease_ms", "sweep_interval_ms", "retention_ms",
    "roll_forward_retries", "roll_forward_backoff_ms"]

/-- The settings with their names. An absent bound is left out. -/
def numbers (c : Config) : List (String × Nat) :=
  [("default_lease_ms", c.defaultLeaseMs.toNat)] ++
  (c.maxLeaseMs.map fun bound => ("max_lease_ms", bound.toNat)).toList ++
  [("sweep_interval_ms", c.sweepIntervalMs.toNat),
    ("retention_ms", c.retentionMs.toNat),
    ("roll_forward_retries", c.rollForwardRetries.toNat),
    ("roll_forward_backoff_ms", c.rollForwardBackoffMs.toNat)]

/-- The settings from a source of numbers. `find name` is `none` if what the source has under
the name is no natural number, and `some none` if it has nothing there. -/
def ofNumbers? (find : String → Option (Option Nat)) : Option Config := do
  let word64 (name : String) (missing : UInt64) : Option UInt64 := do
    match ← find name with
    | some n => word64? n
    | none => some missing
  let maxLeaseMs ← do
    match ← find "max_lease_ms" with
    | some n => (word64? n).map some
    | none => some standard.maxLeaseMs
  let rollForwardRetries ← do
    match ← find "roll_forward_retries" with
    | some n => word32? n
    | none => some standard.rollForwardRetries
  return {
    defaultLeaseMs := ← word64 "default_lease_ms" standard.defaultLeaseMs
    maxLeaseMs
    sweepIntervalMs := ← word64 "sweep_interval_ms" standard.sweepIntervalMs
    retentionMs := ← word64 "retention_ms" standard.retentionMs
    rollForwardRetries
    rollForwardBackoffMs := ← word64 "roll_forward_backoff_ms" standard.rollForwardBackoffMs }

end LeasedCommit.Config
