set_option autoImplicit false

/-! # TOML tables

A TOML document is a table of named values. It is built by statements that may reach into
tables named earlier, and whether they may depends on how such a table came to be (`Origin`).
The three changes that a document can make are `Entries.define`, `Entries.openTable` and
`Entries.openElement`; each is refused if it would define something twice. -/

namespace LeasedCommit.Toml

/-- How a table came to be. -/
inductive Origin
  /-- A header names it. -/
  | header
  /-- A header names a table inside it. -/
  | passed
  /-- A dotted key leads through it. -/
  | dotted
  /-- It is written in braces. -/
  | braced
deriving DecidableEq

/-- A TOML value. Floats and points in time are kept as they are written. -/
inductive Value
  | integer (n : Int)
  | float (literal : String)
  | moment (literal : String)
  | boolean (b : Bool)
  | text (s : String)
  | array (items : List Value)
  | table (origin : Origin) (entries : List (String × Value))
  /-- The tables under repeated headers in double brackets. -/
  | tables (elements : List (List (String × Value)))

/-- The values of a table with their names. No name occurs twice. -/
abbrev Entries := List (String × Value)

/-- A dotted key: the names on the way, and the last name. -/
structure Key where
  path : List String
  name : String
deriving DecidableEq

namespace Entries

/-- The entries with another value for a name. -/
def replace (entries : Entries) (name : String) (v : Value) : Entries :=
  entries.map fun entry => if entry.1 = name then (name, v) else entry

/-- Whether a path that makes tables of origin `how` may lead through a table. Nothing leads
into braces, and dotted keys stay out of tables that have a header. -/
def mayPass (how origin : Origin) : Bool :=
  match how, origin with
  | _, .braced => false
  | .dotted, .header => false
  | _, _ => true

/-- Change the table at the end of a path. Tables that are missing on the way are made, with
`how` as their origin, and repeated tables are entered at the last one. -/
def changeAt (how : Origin) (change : Origin → Entries → Option Entries) :
    Origin → List String → Entries → Option Entries
  | origin, [], entries => change origin entries
  | _, name :: path, entries =>
    match entries.lookup name with
    | none => do
      let inner ← changeAt how change how path []
      return entries ++ [(name, .table how inner)]
    | some (.table origin inner) => do
      guard (mayPass how origin)
      let inner ← changeAt how change origin path inner
      return replace entries name (.table origin inner)
    | some (.tables elements) => do
      let inner ← changeAt how change .header path (← elements.getLast?)
      return replace entries name (.tables (elements.dropLast ++ [inner]))
    | some _ => none

/-- The entries with a new one. -/
def insert? (entries : Entries) (name : String) (v : Value) : Option Entries :=
  match entries.lookup name with
  | none => some (entries ++ [(name, v)])
  | some _ => none

/-- The table after `key = v`. A dotted key ends in a table that dotted keys have made. -/
def define (entries : Entries) (key : Key) (v : Value) : Option Entries :=
  changeAt .dotted
    (fun origin inner =>
      if key.path.isEmpty || origin == .dotted then inner.insert? key.name v else none)
    .header key.path entries

/-- The table after the header `[key]`. -/
def openTable (entries : Entries) (key : Key) : Option Entries :=
  changeAt .passed
    (fun _ inner =>
      match inner.lookup key.name with
      | none => some (inner ++ [(key.name, .table .header [])])
      | some (.table .passed found) => some (inner.replace key.name (.table .header found))
      | some _ => none)
    .header key.path entries

/-- The table after the header `[[key]]`. -/
def openElement (entries : Entries) (key : Key) : Option Entries :=
  changeAt .passed
    (fun _ inner =>
      match inner.lookup key.name with
      | none => some (inner ++ [(key.name, .tables [[]])])
      | some (.tables elements) =>
        some (inner.replace key.name (.tables (elements ++ [[]])))
      | some _ => none)
    .header key.path entries

/-- The table after `key = v` below the header of the table at `place`. -/
def defineAt (entries : Entries) (place : List String) (key : Key) (v : Value) : Option Entries :=
  changeAt .passed (fun _ inner => inner.define key v) .header place entries

end Entries

end LeasedCommit.Toml
