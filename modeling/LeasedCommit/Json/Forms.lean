import LeasedCommit.Config.Numbers
import LeasedCommit.Json.Reader
import LeasedCommit.Manager.Identity
import LeasedCommit.Participant

set_option autoImplicit false

/-! # JSON forms of the library's types

A type with a JSON form is written as one value and read back from it (`HasForm`). Identifiers
and instants are bare numbers, alternatives are named, and a configuration is an object of
numbers. Reading is strict: what is not the form of something is refused as a whole. -/

namespace LeasedCommit.Json

/-- A type with a JSON form. -/
class HasForm (α : Type) where
  /-- The form of something. -/
  form : α → Value
  /-- What a value is the form of. -/
  ofForm? : Value → Option α

/-- The JSON text of something. -/
def encode {α : Type} [HasForm α] (a : α) : String := (HasForm.form a).write

/-- What a JSON text stands for. -/
def decode? (α : Type) [HasForm α] (s : String) : Option α := (Value.read? s).bind HasForm.ofForm?

/-- A name as a value. -/
def named (s : String) : Value := .text (some s)

/-- An alternative together with what it carries. -/
def carrying (name : String) (v : Value) : Value := .object [(some name, v)]

/-! ## Identifiers and times -/

instance : HasForm TransactionId where
  form id := .natural id.value.toNat
  ofForm? v := (v.natural?.bind word64?).map TransactionId.mk

instance : HasForm Timestamp where
  form t := .natural t.micros
  ofForm? v := (v.natural?.bind word64?).map Timestamp.ofMicros

instance : HasForm ManagerId where
  form id := named id.shown
  ofForm?
    | .text (some s) => ManagerId.ofText? s
    | _ => none

/-- A duration is written as seconds and nanoseconds. Nanoseconds of a second and more carry
over, and the two may stand in an array. -/
instance : HasForm Duration where
  form d := .object [(some "secs", .natural d.secs), (some "nanos", .natural d.subsecNanos)]
  ofForm? v := do
    let (secs, nanos) ← match v with
      | .object [(some "secs", secs), (some "nanos", nanos)] => some (secs, nanos)
      | .object [(some "nanos", nanos), (some "secs", secs)] => some (secs, nanos)
      | .array [secs, nanos] => some (secs, nanos)
      | _ => none
    let secs ← secs.natural?.bind word64?
    let nanos ← nanos.natural?.bind word32?
    Duration.ofParts? secs.toNat nanos.toNat

/-! ## Alternatives -/

instance : HasForm Phase where
  form
    | .active => named "Active"
    | .voting => named "Voting"
    | .committed => named "Committed"
    | .aborted => named "Aborted"
  ofForm? v :=
    match v.alternative? with
    | some "Active" => some .active
    | some "Voting" => some .voting
    | some "Committed" => some .committed
    | some "Aborted" => some .aborted
    | _ => none

instance : HasForm Outcome where
  form
    | .committed => named "Committed"
    | .aborted => named "Aborted"
  ofForm? v :=
    match v.alternative? with
    | some "Committed" => some .committed
    | some "Aborted" => some .aborted
    | _ => none

instance : HasForm Vote where
  form
    | .prepared => named "Prepared"
    | .abort => named "Abort"
  ofForm? v :=
    match v.alternative? with
    | some "Prepared" => some .prepared
    | some "Abort" => some .abort
    | _ => none

instance : HasForm CombinedVote where
  form
    | .committed => named "Committed"
    | .abort => named "Abort"
  ofForm? v :=
    match v.alternative? with
    | some "Committed" => some .committed
    | some "Abort" => some .abort
    | _ => none

instance : HasForm LeaseRequest where
  form
    | .forever => named "Forever"
    | .any => named "Any"
    | .bounded length => carrying "Bounded" (HasForm.form length)
  ofForm? v :=
    match v.alternative?, v.carried? with
    | some "Forever", _ => some .forever
    | some "Any", _ => some .any
    | _, some ("Bounded", length) => (HasForm.ofForm? length).map LeaseRequest.bounded
    | _, _ => none

instance : HasForm Expiration where
  form
    | .never => named "Never"
    | .at last => carrying "At" (HasForm.form last)
  ofForm? v :=
    match v.alternative?, v.carried? with
    | some "Never", _ => some .never
    | _, some ("At", last) => (HasForm.ofForm? last).map Expiration.at
    | _, _ => none

/-! ## Configurations -/

/-- How a source of numbers sees what an object has under a name. Null is no bound. -/
def numberOf? (name : String) : Value → Option (Option Nat)
  | .natural n => some (some n)
  | .null => if name = "max_lease_ms" then some none else none
  | _ => none

/-- The configuration in an object. A setting may be given once, and other members are
ignored. -/
def configOfMembers? (members : List (Option String × Value)) : Option Config := do
  guard (members.all (·.1.isSome))
  guard (Config.names.all fun name => (members.filter (·.1 == some name)).length ≤ 1)
  Config.ofNumbers? fun name =>
    match members.lookup (some name) with
    | none => some none
    | some v => numberOf? name v

instance : HasForm Config where
  form c := .object (c.numbers.map fun (name, n) => (some name, .natural n))
  ofForm?
    | .object members => configOfMembers? members
    | .array items =>
      if items.length ≤ Config.names.length then
        configOfMembers? ((Config.names.map some).zip items)
      else none
    | _ => none

end LeasedCommit.Json
