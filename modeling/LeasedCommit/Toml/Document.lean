import LeasedCommit.Toml.Moment
import LeasedCommit.Toml.Text

set_option autoImplicit false

/-! # TOML documents

A document is a list of statements, one a line: a header opens a table, and a definition puts a
value into the table that was opened last. `statements?` reads them off a text, and
`Entries.ofStatements?` carries them out. -/

namespace LeasedCommit.Toml

open LeasedCommit.Text

/-! ## Values -/

/-- A value that holds no others. A moment is tried before a number, because it starts like
one. -/
def scalar? : Reader Value := fun cs =>
  match cs with
  | '"' :: _ | '\'' :: _ => (text? cs).map fun (s, rest) => (.text s, rest)
  | 't' :: 'r' :: 'u' :: 'e' :: rest => some (.boolean true, rest)
  | 'f' :: 'a' :: 'l' :: 's' :: 'e' :: rest => some (.boolean false, rest)
  | cs => moment? cs <|> decimal? cs <|> special? cs <|> integer? cs

/-- The items of an array and its end. A comma may follow the last item. Of `fuel` one is used
for each item. -/
def items? (item : Reader Value) : Nat → Reader (List Value)
  | 0, _ => none
  | fuel + 1, cs =>
    match skipGap false cs with
    | ']' :: rest => some ([], rest)
    | cs =>
      match item cs with
      | none => none
      | some (v, rest) =>
        match skipGap false rest with
        | ']' :: rest => some ([v], rest)
        | ',' :: rest => (items? item fuel rest).map fun (vs, rest) => (v :: vs, rest)
        | _ => none

/-- A key with its value. -/
def pair? (value : Reader Value) : Reader (Key × Value) := fun cs => do
  let (key, rest) ← key? cs
  match rest with
  | '=' :: rest =>
    let (v, rest) ← value (skipBlanks rest)
    return ((key, v), rest)
  | _ => none

/-- The pairs of a table in braces and its end. Of `fuel` one is used for each pair. -/
def pairs? (value : Reader Value) : Nat → Reader (List (Key × Value))
  | 0, _ => none
  | fuel + 1, cs =>
    match pair? value cs with
    | none => none
    | some (pair, rest) =>
      match skipBlanks rest with
      | '}' :: rest => some ([pair], rest)
      | ',' :: rest => (pairs? value fuel rest).map fun (pairs, rest) => (pair :: pairs, rest)
      | _ => none

/-- The table with these pairs. -/
def Entries.ofPairs? (pairs : List (Key × Value)) : Option Entries :=
  pairs.foldlM (fun entries pair => entries.define pair.1 pair.2) []

/-- A table in braces, after the opening brace. -/
def braced? (value : Reader Value) : Reader Value := fun cs => do
  let (pairs, rest) ← match skipBlanks cs with
    | '}' :: rest => some ([], rest)
    | _ => pairs? value (cs.length + 1) cs
  return (.table .braced (← Entries.ofPairs? pairs), rest)

/-- A value in which arrays and tables are nested at most `levels` deep. -/
def value? : Nat → Reader Value
  | 0, cs => scalar? cs
  | levels + 1, cs =>
    match cs with
    | '[' :: rest =>
      (items? (value? levels) (rest.length + 1) rest).map fun (vs, rest) => (.array vs, rest)
    | '{' :: rest => braced? (value? levels) rest
    | cs => scalar? cs

/-- Values may be nested this deep. -/
def levelBound : Nat := 79

/-! ## Statements -/

/-- One statement of a document. -/
inductive Statement
  /-- A line with a value. -/
  | define (key : Key) (v : Value)
  /-- A header in single brackets. -/
  | openTable (key : Key)
  /-- A header in double brackets. -/
  | openElement (key : Key)

/-- A statement, without the end of its line. -/
def statement? : Reader Statement := fun cs =>
  match cs with
  | '[' :: '[' :: rest => do
    match ← key? rest with
    | (key, ']' :: ']' :: rest) => return (.openElement key, rest)
    | _ => none
  | '[' :: rest => do
    match ← key? rest with
    | (key, ']' :: rest) => return (.openTable key, rest)
    | _ => none
  | cs => do
    let ((key, v), rest) ← pair? (value? levelBound) cs
    return (.define key v, rest)

/-- The statements of a text. Lines may be empty or hold a comment only. Of `fuel` one is used
for each line. -/
def statements? : Nat → List Char → Option (List Statement)
  | 0, _ => none
  | _, [] => some []
  | fuel + 1, cs =>
    match endOfLine? cs with
    | some rest => statements? fuel rest
    | none => do
      let (statement, rest) ← statement? (skipBlanks cs)
      return statement :: (← statements? fuel (← endOfLine? rest))

/-! ## Documents -/

/-- The table so far, and the place of the table that was opened last. -/
structure Draft where
  root : Entries
  place : List String

/-- What a statement makes of a draft. -/
def Draft.after? (draft : Draft) : Statement → Option Draft
  | .define key v => return { draft with root := ← draft.root.defineAt draft.place key v }
  | .openTable key =>
    return { root := ← draft.root.openTable key, place := key.path ++ [key.name] }
  | .openElement key =>
    return { root := ← draft.root.openElement key, place := key.path ++ [key.name] }

/-- The table that statements build. -/
def Entries.ofStatements? (statements : List Statement) : Option Entries :=
  (statements.foldlM Draft.after? { root := [], place := [] }).map Draft.root

/-- The text after a byte order mark. -/
def skipMark : List Char → List Char
  | c :: cs => if c.toNat = 0xFEFF then cs else c :: cs
  | [] => []

/-- The table that a document describes. -/
def read? (s : String) : Option Entries :=
  (statements? (s.length + 1) (skipMark s.toList)).bind Entries.ofStatements?

end LeasedCommit.Toml
