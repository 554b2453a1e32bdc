import LeasedCommit.Text.Digits
import LeasedCommit.Toml.Line
import LeasedCommit.Toml.Value

set_option autoImplicit false

/-! # Strings and keys in TOML

A string in double quotes has escapes, a string in single quotes has none, and either may run
over several lines in triple quotes. A key is one name or several with dots between them; a
name is a bare word or a string on one line. -/

namespace LeasedCommit.Toml

open LeasedCommit.Text

/-! ## Strings on one line -/

/-- What a backslash and one letter stand for. -/
def shortEscape? : Char → Option Char
  | '"' => some '"'
  | '\\' => some '\\'
  | 'b' => some (Char.ofNat 8)
  | 'f' => some (Char.ofNat 12)
  | 'n' => some '\n'
  | 'r' => some '\r'
  | 't' => some '\t'
  | _ => none

/-- The character with the code point that hexadecimal digits spell. -/
def codePoint? (digits : List Char) : Option Char := do
  let n ← ofDigits? 16 digits
  if n.isValidChar then return Char.ofNat n else none

/-- A character in front of what a reader finds. -/
def before (c : Char) (found : Option (List Char × List Char)) : Option (List Char × List Char) :=
  found.map fun (cs, rest) => (c :: cs, rest)

/-- The inside of a string in double quotes, up to the closing quote. -/
def escaped? : Reader (List Char)
  | [] => none
  | '\\' :: 'u' :: a :: b :: c :: d :: rest =>
    (codePoint? [a, b, c, d]).bind fun char => before char (escaped? rest)
  | '\\' :: 'U' :: a :: b :: c :: d :: e :: f :: g :: h :: rest =>
    (codePoint? [a, b, c, d, e, f, g, h]).bind fun char => before char (escaped? rest)
  | '\\' :: c :: rest => (shortEscape? c).bind fun char => before char (escaped? rest)
  | c :: rest =>
    if c = '"' then some ([], rest) else if isPlain c then before c (escaped? rest) else none

/-- The inside of a string in single quotes, up to the closing quote. -/
def literal? : Reader (List Char)
  | [] => none
  | c :: rest =>
    if c = '\'' then some ([], rest) else if isPlain c then before c (literal? rest) else none

/-! ## Strings on several lines

Up to two quotes in front of the closing three belong to the string. -/

/-- Where a reader of several lines is. -/
inductive Joining
  /-- Inside the text. -/
  | no
  /-- After a backslash that must be the last on its line. -/
  | ending
  /-- After the end of such a line, where blanks and empty lines are left out. -/
  | skipping

/-- The inside of a string in triple double quotes. -/
def escapedLines? : Joining → Reader (List Char)
  | _, [] => none
  | .ending, '\r' :: '\n' :: rest => escapedLines? .skipping rest
  | .ending, c :: rest =>
    if c = '\n' then escapedLines? .skipping rest
    else if isBlank c then escapedLines? .ending rest
    else none
  | _, '"' :: '"' :: '"' :: '"' :: '"' :: rest => some (['"', '"'], rest)
  | _, '"' :: '"' :: '"' :: '"' :: rest => some (['"'], rest)
  | _, '"' :: '"' :: '"' :: rest => some ([], rest)
  | _, '\\' :: 'u' :: a :: b :: c :: d :: rest =>
    (codePoint? [a, b, c, d]).bind fun char => before char (escapedLines? .no rest)
  | _, '\\' :: 'U' :: a :: b :: c :: d :: e :: f :: g :: h :: rest =>
    (codePoint? [a, b, c, d, e, f, g, h]).bind fun char => before char (escapedLines? .no rest)
  | _, '\\' :: '\r' :: '\n' :: rest => escapedLines? .skipping rest
  | _, '\\' :: c :: rest =>
    if c = '\n' then escapedLines? .skipping rest
    else if isBlank c then escapedLines? .ending rest
    else (shortEscape? c).bind fun char => before char (escapedLines? .no rest)
  | .skipping, '\r' :: '\n' :: rest => escapedLines? .skipping rest
  | .no, '\r' :: '\n' :: rest => before '\n' (escapedLines? .no rest)
  | .skipping, c :: rest =>
    if c = '\n' || isBlank c then escapedLines? .skipping rest
    else if isPlain c then before c (escapedLines? .no rest)
    else none
  | .no, c :: rest =>
    if c = '\n' || isPlain c then before c (escapedLines? .no rest) else none

/-- The inside of a string in triple single quotes. -/
def literalLines? : Reader (List Char)
  | [] => none
  | '\'' :: '\'' :: '\'' :: '\'' :: '\'' :: rest => some (['\'', '\''], rest)
  | '\'' :: '\'' :: '\'' :: '\'' :: rest => some (['\''], rest)
  | '\'' :: '\'' :: '\'' :: rest => some ([], rest)
  | '\r' :: '\n' :: rest => before '\n' (literalLines? rest)
  | c :: rest => if c = '\n' || isPlain c then before c (literalLines? rest) else none

/-- The text without a line end right at its start. -/
def skipNewline (cs : List Char) : List Char := (newline? cs).getD cs

/-- A string of any kind. -/
def text? : Reader String := fun cs =>
  let found := match cs with
    | '"' :: '"' :: '"' :: rest => escapedLines? .no (skipNewline rest)
    | '\'' :: '\'' :: '\'' :: rest => literalLines? (skipNewline rest)
    | '"' :: rest => escaped? rest
    | '\'' :: rest => literal? rest
    | _ => none
  found.map fun (s, rest) => (String.ofList s, rest)

/-! ## Keys -/

/-- The characters of bare names. -/
def isBare (c : Char) : Bool := c.isAlphanum || c == '_' || c == '-'

/-- One name. -/
def name? : Reader String := fun cs =>
  let found := match cs with
    | '"' :: rest => escaped? rest
    | '\'' :: rest => literal? rest
    | cs => some? isBare cs
  found.map fun (s, rest) => (String.ofList s, rest)

/-- Names with dots between them, at most `bound`, with blanks around each. -/
def names? : Nat → Reader (List String)
  | 0, _ => none
  | bound + 1, cs =>
    match name? (skipBlanks cs) with
    | none => none
    | some (name, rest) =>
      match skipBlanks rest with
      | '.' :: rest => (names? bound rest).map fun (names, rest) => (name :: names, rest)
      | rest => some ([name], rest)

/-- A key may have this many names. -/
def nameBound : Nat := 79

/-- A key. -/
def key? : Reader Key := fun cs =>
  match names? nameBound cs with
  | some (names, rest) =>
    names.getLast?.map fun last => ({ path := names.dropLast, name := last }, rest)
  | none => none

end LeasedCommit.Toml
