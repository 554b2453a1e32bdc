import LeasedCommit.Coordinator.Step

set_option autoImplicit false

/-! # Configuration of a manager

A `Config` holds six numbers, each with a default. `Config.fault?` says which values cannot be
used together; everything else here turns the numbers into the durations and rules that a
manager works with. -/

namespace LeasedCommit

/-- The settings of a manager, in milliseconds unless said otherwise. -/
structure Config where
  /-- The grant for a request of any length. -/
  defaultLeaseMs : UInt64
  /-- The bound on every grant; absent, a lease may be held forever. -/
  maxLeaseMs : Option UInt64
  /-- The time between two sweeps in the background; zero for none. -/
  sweepIntervalMs : UInt64
  /-- How long a decided transaction can still be asked about. -/
  retentionMs : UInt64
  /-- Commit calls after the first to a participant that cannot be reached (a number). -/
  rollForwardRetries : UInt32
  /-- The pause between commit calls. -/
  rollForwardBackoffMs : UInt64
deriving DecidableEq

namespace Config

/-- The values of settings that are not given. -/
def standard : Config :=
  { defaultLeaseMs := 3600000, maxLeaseMs := none, sweepIntervalMs := 1000, retentionMs := 60000
    rollForwardRetries := 0, rollForwardBackoffMs := 100 }

instance : Inhabited Config := ⟨standard⟩

/-- Why settings cannot be used. -/
inductive Fault
  | zeroDefault
  | zeroMax
  | defaultAboveMax (defaultLease maxLease : UInt64)
deriving DecidableEq

/-- The text of a fault. -/
def Fault.message : Fault → String
  | .zeroDefault => "default_lease_ms must be greater than 0"
  | .zeroMax => "max_lease_ms must be greater than 0"
  | .defaultAboveMax d m =>
    "default_lease_ms (" ++ toString d ++ ") exceeds max_lease_ms (" ++ toString m ++ ")"

/-- The first fault of the settings, if they have one. -/
def fault? (c : Config) : Option Fault :=
  if c.defaultLeaseMs = 0 then some .zeroDefault
  else
    match c.maxLeaseMs with
    | none => none
    | some bound =>
      if bound = 0 then some .zeroMax
      else if bound < c.defaultLeaseMs then some (.defaultAboveMax c.defaultLeaseMs bound)
      else none

/-- The settings, if they can be used. -/
def validate (c : Config) : Except TransactionError Config :=
  match c.fault? with
  | none => .ok c
  | some fault => .error (.invalidConfig fault.message)

/-- The rule for lease grants. -/
def leasePolicy (c : Config) : LeasePolicy :=
  { defaultLength := Duration.ofMillis c.defaultLeaseMs
    maxLength := c.maxLeaseMs.map Duration.ofMillis }

/-- The rule for repeated commit calls. -/
def rollForwardPolicy (c : Config) : RollForwardPolicy :=
  { maxRetries := c.rollForwardRetries, backoff := Duration.ofMillis c.rollForwardBackoffMs }

/-- The rules for a manager's transactions. -/
def rules (c : Config) : Rules := { lease := c.leasePolicy, rollForward := c.rollForwardPolicy }

/-- The time between two sweeps in the background, if there are any. -/
def sweepInterval? (c : Config) : Option Duration :=
  if c.sweepIntervalMs = 0 then none else some (Duration.ofMillis c.sweepIntervalMs)

/-- How long a decided transaction is kept. -/
def retention (c : Config) : Duration := Duration.ofMillis c.retentionMs

end Config

end LeasedCommit
