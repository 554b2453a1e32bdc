import LeasedCommit.Toml.Number

set_option autoImplicit false

/-! # Dates and times in TOML

A moment is a date, a time of day, or both with a `T` or a space between them. A moment with
both may be related to universal time by `Z` or an offset. Every part has a fixed number of
digits and a range; the day has to exist in its month, and second 60 is allowed. -/

namespace LeasedCommit.Toml

open LeasedCommit.Text

/-- A number of `width` digits between two bounds. -/
def part? (width low high : Nat) : Reader Nat := fun cs => do
  let ds := cs.take width
  guard (ds.length = width)
  let n ← ofDigits? 10 ds
  guard (low ≤ n ∧ n ≤ high)
  return (n, cs.drop width)

/-- The text after a character, if it starts with it. -/
def mark? (c : Char) : List Char → Option (List Char)
  | found :: rest => if found = c then some rest else none
  | [] => none

/-- The number of days in a month. -/
def daysIn (year month : Nat) : Nat :=
  if month = 2 then
    if year % 4 = 0 ∧ (year % 100 ≠ 0 ∨ year % 400 = 0) then 29 else 28
  else if month = 4 ∨ month = 6 ∨ month = 9 ∨ month = 11 then 30
  else 31

/-- The text after a date. -/
def date? (cs : List Char) : Option (List Char) := do
  let (year, rest) ← part? 4 0 9999 cs
  let (month, rest) ← part? 2 1 12 (← mark? '-' rest)
  let (_, rest) ← part? 2 1 (daysIn year month) (← mark? '-' rest)
  return rest

/-- The text after the decimals of a second, if there are any. -/
def skipDecimals : List Char → List Char
  | '.' :: c :: rest => if c.isDigit then rest.dropWhile Char.isDigit else '.' :: c :: rest
  | cs => cs

/-- The text after a time of day. -/
def time? (cs : List Char) : Option (List Char) := do
  let (_, rest) ← part? 2 0 23 cs
  let (_, rest) ← part? 2 0 59 (← mark? ':' rest)
  let (_, rest) ← part? 2 0 60 (← mark? ':' rest)
  return skipDecimals rest

/-- The text after an offset, if there is one. -/
def skipOffset (cs : List Char) : List Char :=
  let hours (rest : List Char) : Option (List Char) := do
    let (_, rest) ← part? 2 0 23 rest
    let (_, rest) ← part? 2 0 59 (← mark? ':' rest)
    return rest
  match cs with
  | 'Z' :: rest => rest
  | 'z' :: rest => rest
  | '+' :: rest => (hours rest).getD cs
  | '-' :: rest => (hours rest).getD cs
  | _ => cs

/-- The text after a time that follows a date, if there is one. -/
def skipTimeOfDate : List Char → List Char
  | c :: rest =>
    if c = 'T' || c = 't' || c = ' ' then ((time? rest).map skipOffset).getD (c :: rest)
    else c :: rest
  | [] => []

/-- A moment. -/
def moment? : Reader Value := fun cs => do
  let rest ← match date? cs with
    | some rest => some (skipTimeOfDate rest)
    | none => time? cs
  return (.moment (taken cs rest), rest)

end LeasedCommit.Toml
