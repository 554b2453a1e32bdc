import LeasedCommit.Text.Digits
import LeasedCommit.Toml.Value
import LeasedCommit.Text.Reader

set_option autoImplicit false

/-! # Numbers in TOML

Integers have 64 bits with a sign and may be written in four bases. A float has a fraction, an
exponent or both, and must not round to positive infinity. In every run of digits an
underscore may stand between two digits. -/

namespace LeasedCommit.Toml

open LeasedCommit.Text

/-! ## Runs of digits -/

/-- The digits that go on a run, without the underscores between them. -/
def moreDigits (base : Nat) : List Char → List Char × List Char
  | [] => ([], [])
  | '_' :: c :: rest =>
    if (digit? base c).isSome then
      let (ds, rest) := moreDigits base rest
      (c :: ds, rest)
    else ([], '_' :: c :: rest)
  | c :: rest =>
    if (digit? base c).isSome then
      let (ds, rest) := moreDigits base rest
      (c :: ds, rest)
    else ([], c :: rest)

/-- A run of digits. -/
def digits? (base : Nat) : Reader (List Char)
  | c :: rest =>
    if (digit? base c).isSome then
      let (ds, rest) := moreDigits base rest
      some (c :: ds, rest)
    else none
  | [] => none

/-- A run of decimal digits without a needless leading zero. What follows a zero is no part of
it. -/
def wholeDigits? : Reader (List Char)
  | '0' :: rest => some (['0'], rest)
  | cs => digits? 10 cs

/-- A sign, and whether it is a minus. -/
def sign : List Char → Bool × List Char
  | '+' :: rest => (false, rest)
  | '-' :: rest => (true, rest)
  | cs => (false, cs)

/-! ## Integers -/

/-- An integer of 64 bits with this sign and size. The bound is `2^63`. -/
def integerOf? (negative : Bool) (size : Nat) : Option Value :=
  if negative then if size ≤ 9223372036854775808 then some (.integer (-size)) else none
  else if size < 9223372036854775808 then some (.integer size) else none

/-- An integer. Only a decimal one may have a sign. -/
def integer? : Reader Value := fun cs => do
  let (negative, base, ds, rest) ← match cs with
    | '0' :: 'x' :: rest => (digits? 16 rest).map fun (ds, rest) => (false, 16, ds, rest)
    | '0' :: 'o' :: rest => (digits? 8 rest).map fun (ds, rest) => (false, 8, ds, rest)
    | '0' :: 'b' :: rest => (digits? 2 rest).map fun (ds, rest) => (false, 2, ds, rest)
    | cs =>
      let (negative, rest) := sign cs
      (wholeDigits? rest).map fun (ds, rest) => (negative, 10, ds, rest)
  return (← integerOf? negative (← ofDigits? base ds), rest)

/-! ## Floats -/

/-- The least number that is nearer to `2^1024` than to any smaller float of 64 bits, or as
near. -/
def infinityBound : Nat := (Nat.pow 2 54 - 1) * Nat.pow 2 970

/-- Whether `m · 10^e` rounds to infinity. A number of `n` digits before the point lies between
the powers `n - 1` and `n` of ten, and only between the powers 308 and 309 has the number to be
worked out. -/
def isInfinite (m : Nat) (e : Int) : Bool :=
  let places := (Nat.toDigits 10 m).length + e
  m != 0 &&
    (places > 309 ||
      (places == 309 && infinityBound * Nat.pow 10 (-e).toNat ≤ m * Nat.pow 10 e.toNat))

/-- The fraction after a whole part, as digits. -/
def fraction? : Reader (List Char)
  | '.' :: rest => digits? 10 rest
  | _ => none

/-- The exponent after a whole part or a fraction. -/
def exponent? : Reader Int
  | c :: rest =>
    if c = 'e' || c = 'E' then do
      let (negative, rest) := sign rest
      let (ds, rest) ← digits? 10 rest
      let n ← ofDigits? 10 ds
      return (if negative then -n else n, rest)
    else none
  | [] => none

/-- The text that a reader has taken off, given what it has left. -/
def taken (cs rest : List Char) : String := String.ofList (cs.take (cs.length - rest.length))

/-- A float in digits. -/
def decimal? : Reader Value := fun cs => do
  let (negative, rest) := sign cs
  let (whole, rest) ← wholeDigits? rest
  let (places, e, rest) ← match fraction? rest with
    | some (places, rest) =>
      match exponent? rest with
      | some (e, rest) => some (places, e, rest)
      | none => some (places, 0, rest)
    | none => (exponent? rest).map fun (e, rest) => ([], e, rest)
  let m ← ofDigits? 10 (whole ++ places)
  if !negative && isInfinite m (e - places.length) then none
  else return (.float (taken cs rest), rest)

/-- A float that is no number of digits. -/
def special? : Reader Value := fun cs =>
  match (sign cs).2 with
  | 'i' :: 'n' :: 'f' :: rest => some (.float (taken cs rest), rest)
  | 'n' :: 'a' :: 'n' :: rest => some (.float (taken cs rest), rest)
  | _ => none

end LeasedCommit.Toml
