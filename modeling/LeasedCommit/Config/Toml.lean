import LeasedCommit.Config.Numbers
import LeasedCommit.Toml.Document

set_option autoImplicit false

/-! # Configurations as TOML

A configuration file is a TOML document with a line for each setting. `Config.ofDocument` reads
one and checks the values, `Config.toDocument` writes one. TOML has no integers above
`2^63 - 1`, so a larger setting cannot be written. The messages say what failed and leave out the
reason that a TOML library adds. -/

namespace LeasedCommit.Config

/-- The number under a name in a document, in the sense of `Config.ofNumbers?`. -/
def numberIn? (entries : Toml.Entries) (name : String) : Option (Option Nat) :=
  match entries.lookup name with
  | none => some none
  | some (.integer n) => if 0 ≤ n then some (some n.toNat) else none
  | some _ => none

/-- The settings in a document, which may be of no use together. -/
def ofToml? (document : String) : Option Config :=
  (Toml.read? document).bind fun entries => ofNumbers? (numberIn? entries)

/-- The settings in a document, if it is one and they can be used. -/
def ofDocument (document : String) : Except TransactionError Config :=
  match ofToml? document with
  | none => .error (.invalidConfig "failed to parse config")
  | some c => c.validate

/-- The largest integer of a document, `2^63 - 1`. -/
def largestInteger : Nat := 9223372036854775807

/-- The document of a configuration. -/
def toDocument (c : Config) : Except TransactionError String :=
  if c.numbers.all (·.2 ≤ largestInteger) then
    .ok (String.join (c.numbers.map fun (name, n) => name ++ " = " ++ toString n ++ "\n"))
  else .error (.invalidConfig "failed to serialize config")

/-- The document that explains every setting at its standard value. -/
def standardDocument : String :=
"# Covenant transaction manager configuration
#
# Lease granted when a client asks for \"any\" duration (default: 1 hour)
default_lease_ms = 3600000

# Upper bound on every lease grant. Leave unset to allow leases that never expire.
# max_lease_ms = 86400000

# Interval between background lease-expiration sweeps (0 disables the sweeper)
sweep_interval_ms = 1000

# How long a committed or aborted transaction stays queryable
retention_ms = 60000

# Extra commit attempts for a participant unreachable after the commit decision
roll_forward_retries = 0
roll_forward_backoff_ms = 100
"

end LeasedCommit.Config
