set_option autoImplicit false

/-! # Digits

Numerals of fixed width, hexadecimal numerals, and decimal fractions without trailing
zeros. -/

namespace LeasedCommit.Text

/-- The numeral `s`, filled up with zeros on the left to `width` digits. -/
def padLeft (width : Nat) (s : String) : String :=
  String.ofList (List.replicate (width - s.length) '0') ++ s

/-- The decimal numeral of `n` with at least `width` digits. -/
def decimal (width n : Nat) : String := padLeft width (toString n)

/-- The lower-case hexadecimal numeral of `n` with at least `width` digits. -/
def hexadecimal (width n : Nat) : String := padLeft width (String.ofList (Nat.toDigits 16 n))

/-- The value of a digit of base `base`, at most 16, in either case. -/
def digit? (base : Nat) (c : Char) : Option Nat :=
  let value :=
    if '0' ≤ c ∧ c ≤ '9' then some (c.toNat - '0'.toNat)
    else if 'a' ≤ c ∧ c ≤ 'f' then some (c.toNat - 'a'.toNat + 10)
    else if 'A' ≤ c ∧ c ≤ 'F' then some (c.toNat - 'A'.toNat + 10)
    else none
  value.filter (· < base)

/-- The number that digits of base `base` spell, if all are digits. -/
def ofDigits? (base : Nat) (cs : List Char) : Option Nat :=
  cs.foldl (fun acc c => acc.bind fun n => (digit? base c).map (base * n + ·)) (some 0)

/-- `n / 10^places` in decimal, without trailing zeros and without a point if it is whole. -/
def decimalFraction (places n : Nat) : String :=
  let unit := Nat.pow 10 places
  let fraction := (decimal places (n % unit)).toList.reverse.dropWhile (· == '0')
  if places = 0 || fraction.isEmpty then toString (n / unit)
  else toString (n / unit) ++ "." ++ String.ofList fraction.reverse

end LeasedCommit.Text
