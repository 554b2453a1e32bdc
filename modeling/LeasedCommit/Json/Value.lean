set_option autoImplicit false

/-! # JSON values

A `Value` is what a JSON text stands for, with two refinements. Natural numbers are told apart
from other numbers, because only they stand for something in this library. A string that
escapes one half of a surrogate pair is valid JSON but spells no text, so the text of a string
is optional. The members of an object keep their order and may repeat a name.

`Value.chars` is the compact text of a value, without any blanks. -/

namespace LeasedCommit.Json

/-- A JSON value. -/
inductive Value
  | null
  | bool (b : Bool)
  /-- A number without sign, fraction and exponent. -/
  | natural (n : Nat)
  /-- Any other number, as it is written. -/
  | number (literal : String)
  /-- A string, and what it spells. -/
  | text (spelled : Option String)
  | array (items : List Value)
  | object (members : List (Option String × Value))

namespace Value

/-! ## Writing -/

/-- One hexadecimal digit, in lower case. -/
def hexDigit (n : Nat) : Char := (Nat.toDigits 16 (n % 16)).headD '0'

/-- A character inside a string. The quote, the backslash and control characters are escaped. -/
def escaped (c : Char) : List Char :=
  if c = '"' then ['\\', '"']
  else if c = '\\' then ['\\', '\\']
  else if c = '\n' then ['\\', 'n']
  else if c = '\r' then ['\\', 'r']
  else if c = '\t' then ['\\', 't']
  else if c.toNat = 8 then ['\\', 'b']
  else if c.toNat = 12 then ['\\', 'f']
  else if c.toNat < 32 then ['\\', 'u', '0', '0', hexDigit (c.toNat / 16), hexDigit c.toNat]
  else [c]

/-- The string that spells `s`, in quotes. A string that spells no text is written as a lone
half of a surrogate pair. -/
def quoted : Option String → List Char
  | some s => '"' :: (s.toList.flatMap escaped ++ ['"'])
  | none => ['"', '\\', 'u', 'd', '8', '0', '0', '"']

mutual

/-- The compact text of a value. -/
def chars : Value → List Char
  | .null => ['n', 'u', 'l', 'l']
  | .bool true => ['t', 'r', 'u', 'e']
  | .bool false => ['f', 'a', 'l', 's', 'e']
  | .natural n => (toString n).toList
  | .number literal => literal.toList
  | .text spelled => quoted spelled
  | .array [] => ['[', ']']
  | .array (item :: items) => '[' :: (item.chars ++ itemsAfter items)
  | .object [] => ['{', '}']
  | .object ((name, value) :: members) =>
    '{' :: (quoted name ++ ':' :: (value.chars ++ membersAfter members))

/-- The items of an array after the first, and its end. -/
def itemsAfter : List Value → List Char
  | [] => [']']
  | item :: items => ',' :: (item.chars ++ itemsAfter items)

/-- The members of an object after the first, and its end. -/
def membersAfter : List (Option String × Value) → List Char
  | [] => ['}']
  | (name, value) :: members =>
    ',' :: (quoted name ++ ':' :: (value.chars ++ membersAfter members))

end

/-- The compact text of a value. -/
def write (v : Value) : String := String.ofList v.chars

/-! ## Parts -/

/-- The number of a value, if it is a natural number. -/
def natural? : Value → Option Nat
  | .natural n => some n
  | _ => none

/-- The name of an alternative that carries nothing: the name alone, or as the only member of
an object, with null. -/
def alternative? : Value → Option String
  | .text name => name
  | .object [(name, .null)] => name
  | _ => none

/-- An alternative and what it carries: the only member of an object. -/
def carried? : Value → Option (String × Value)
  | .object [(some name, value)] => some (name, value)
  | _ => none

end Value

end LeasedCommit.Json
