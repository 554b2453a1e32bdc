import LeasedCommit.Json.Value
import LeasedCommit.Text.Digits
import LeasedCommit.Text.Reader

set_option autoImplicit false

/-! # Reading JSON

`Value.read?` reads a whole text as one value. Blanks are space, tab, line feed and carriage return.
There is no bound on nesting. -/

namespace LeasedCommit.Json

open Text

/-- The blanks between tokens. -/
def isBlank (c : Char) : Bool := c == ' ' || c == '\t' || c == '\n' || c == '\r'

/-- The text after its leading blanks. -/
def skipBlanks (cs : List Char) : List Char := cs.dropWhile isBlank

/-! ## Numbers -/

/-- One digit or more. -/
def digits? : Reader (List Char) := some? Char.isDigit

/-- The whole part of a number: digits without a needless leading zero. -/
def wholePart? : Reader (List Char) := fun cs =>
  match digits? cs with
  | some ('0' :: _ :: _, _) => none
  | found => found

/-- The fraction of a number with its point, or nothing. -/
def fraction? : Reader (List Char)
  | '.' :: cs => (digits? cs).map fun (ds, rest) => ('.' :: ds, rest)
  | cs => some ([], cs)

/-- The exponent of a number with its letter and sign, or nothing. -/
def exponent? : Reader (List Char)
  | c :: cs =>
    if c = 'e' ∨ c = 'E' then
      match cs with
      | '+' :: cs => (digits? cs).map fun (ds, rest) => (c :: '+' :: ds, rest)
      | '-' :: cs => (digits? cs).map fun (ds, rest) => (c :: '-' :: ds, rest)
      | cs => (digits? cs).map fun (ds, rest) => (c :: ds, rest)
    else some ([], c :: cs)
  | [] => some ([], [])

/-- A number. -/
def number? : Reader Value := fun cs => do
  let (sign, cs) := match cs with
    | '-' :: cs => (['-'], cs)
    | cs => ([], cs)
  let (whole, cs) ← wholePart? cs
  let (fraction, cs) ← fraction? cs
  let (exponent, cs) ← exponent? cs
  if sign.isEmpty && fraction.isEmpty && exponent.isEmpty then
    return (.natural (← ofDigits? 10 whole), cs)
  else
    return (.number (String.ofList (sign ++ whole ++ fraction ++ exponent)), cs)

/-! ## Strings -/

/-- What a backslash and one letter stand for. -/
def shortEscape? : Char → Option Nat
  | '"' => some 34
  | '\\' => some 92
  | '/' => some 47
  | 'b' => some 8
  | 'f' => some 12
  | 'n' => some 10
  | 'r' => some 13
  | 't' => some 9
  | _ => none

/-- The inside of a string up to its closing quote, as code points. An escape may stand for
half of a surrogate pair. Control characters have to be escaped. -/
def units? : Reader (List Nat)
  | [] => none
  | '"' :: rest => some ([], rest)
  | '\\' :: 'u' :: a :: b :: c :: d :: rest => do
    let unit ← ofDigits? 16 [a, b, c, d]
    let (units, rest) ← units? rest
    return (unit :: units, rest)
  | '\\' :: c :: rest => do
    let unit ← shortEscape? c
    let (units, rest) ← units? rest
    return (unit :: units, rest)
  | c :: rest => do
    guard (32 ≤ c.toNat)
    let (units, rest) ← units? rest
    return (c.toNat :: units, rest)

/-- The first half of a surrogate pair. -/
def isLeading (unit : Nat) : Bool := 0xD800 ≤ unit && unit < 0xDC00

/-- The second half of a surrogate pair. -/
def isTrailing (unit : Nat) : Bool := 0xDC00 ≤ unit && unit < 0xE000

/-- The characters that code points spell, with surrogate pairs joined. Half of a pair on its
own spells nothing. -/
def spelled? : List Nat → Option (List Char)
  | [] => some []
  | unit :: units =>
    if isLeading unit then
      match units with
      | next :: units =>
        if isTrailing next then
          let joined := 0x10000 + (unit - 0xD800) * 0x400 + (next - 0xDC00)
          (spelled? units).map (Char.ofNat joined :: ·)
        else none
      | [] => none
    else if isTrailing unit then none
    else (spelled? units).map (Char.ofNat unit :: ·)

/-- A string after its opening quote, and what it spells. -/
def text? : Reader (Option String) := fun cs =>
  (units? cs).map fun (units, rest) => ((spelled? units).map String.ofList, rest)

/-! ## Values

The readers call each other at most `fuel` deep. From a value to a value inside it there are at
most three calls and at least one character, and one of each from an item to the next, so three
times the length of the text is enough. -/

mutual

/-- A value, with blanks in front. -/
def value? : Nat → Reader Value
  | 0, _ => none
  | fuel + 1, cs =>
    match skipBlanks cs with
    | 'n' :: 'u' :: 'l' :: 'l' :: rest => some (.null, rest)
    | 't' :: 'r' :: 'u' :: 'e' :: rest => some (.bool true, rest)
    | 'f' :: 'a' :: 'l' :: 's' :: 'e' :: rest => some (.bool false, rest)
    | '"' :: rest => (text? rest).map fun (spelled, rest) => (.text spelled, rest)
    | '[' :: rest =>
      match skipBlanks rest with
      | ']' :: rest => some (.array [], rest)
      | rest => (items? fuel rest).map fun (items, rest) => (.array items, rest)
    | '{' :: rest =>
      match skipBlanks rest with
      | '}' :: rest => some (.object [], rest)
      | rest => (members? fuel rest).map fun (members, rest) => (.object members, rest)
    | rest => number? rest

/-- The items of an array and its end. -/
def items? : Nat → Reader (List Value)
  | 0, _ => none
  | fuel + 1, cs =>
    match value? fuel cs with
    | none => none
    | some (item, rest) =>
      match skipBlanks rest with
      | ']' :: rest => some ([item], rest)
      | ',' :: rest => (items? fuel rest).map fun (items, rest) => (item :: items, rest)
      | _ => none

/-- The members of an object and its end. -/
def members? : Nat → Reader (List (Option String × Value))
  | 0, _ => none
  | fuel + 1, cs =>
    match member? fuel cs with
    | none => none
    | some (member, rest) =>
      match skipBlanks rest with
      | '}' :: rest => some ([member], rest)
      | ',' :: rest => (members? fuel rest).map fun (members, rest) => (member :: members, rest)
      | _ => none

/-- One member of an object. -/
def member? : Nat → Reader (Option String × Value)
  | 0, _ => none
  | fuel + 1, cs =>
    match skipBlanks cs with
    | '"' :: rest =>
      match text? rest with
      | none => none
      | some (name, rest) =>
        match skipBlanks rest with
        | ':' :: rest => (value? fuel rest).map fun (value, rest) => ((name, value), rest)
        | _ => none
    | _ => none

end

/-- The value that a text stands for. -/
def Value.read? (s : String) : Option Value :=
  match value? (3 * s.length + 3) s.toList with
  | some (v, rest) => if (skipBlanks rest).isEmpty then some v else none
  | none => none

end LeasedCommit.Json
