import LeasedCommit.Json.Forms
import LeasedCommit.Manager.LeaseHandle
import LeasedCommit.Manager.Opening
import LeasedCommit.Proofs.Agreement
import LeasedCommit.Proofs.Atomicity
import LeasedCommit.Proofs.CallOrder
import LeasedCommit.Proofs.ConfigFiles
import LeasedCommit.Proofs.Coverage
import LeasedCommit.Proofs.Decision
import LeasedCommit.Proofs.Evictions
import LeasedCommit.Proofs.Grounds
import LeasedCommit.Proofs.Interruption
import LeasedCommit.Proofs.Isolation
import LeasedCommit.Proofs.Joins
import LeasedCommit.Proofs.LeaseGrants
import LeasedCommit.Proofs.LeaseInForce
import LeasedCommit.Proofs.NoTrace
import LeasedCommit.Proofs.PlainParty
import LeasedCommit.Proofs.Redelivery
import LeasedCommit.Proofs.RegistryCalls
import LeasedCommit.Proofs.Retention
import LeasedCommit.Proofs.SoloCommit
import LeasedCommit.Proofs.Sweep
import LeasedCommit.Proofs.UnknownLease
import LeasedCommit.Proofs.VoteOwner
import LeasedCommit.Scenario.Run
import LeasedCommit.Proofs.Instants
import LeasedCommit.Proofs.StrictVisits
import LeasedCommit.Proofs.Identities
import LeasedCommit.Proofs.JsonForms
