import LeasedCommit.Text.Digits

set_option autoImplicit false

/-! # Identity of a manager

A `ManagerId` is a number of 128 bits. It is shown as 32 hexadecimal digits in groups of 8, 4,
4, 4 and 12, and read in that form, without the hyphens, in braces, or after `urn:uuid:`. -/

namespace LeasedCommit

/-- The number of a manager. -/
structure ManagerId where
  bits : BitVec 128
deriving DecidableEq

namespace ManagerId

open Text

/-- The sixteen bytes, the most significant one first. -/
def bytes (id : ManagerId) : List Nat :=
  (List.range 16).map fun i => id.bits.toNat / Nat.pow 256 (15 - i) % 256

/-- Digits in groups of 8, 4, 4, 4 and 12, with hyphens between them. -/
def grouped (ds : List Char) : List Char :=
  ds.take 8 ++ '-' :: (ds.drop 8).take 4 ++ '-' :: (ds.drop 12).take 4 ++
    '-' :: (ds.drop 16).take 4 ++ '-' :: ds.drop 20

/-- The digits without the hyphens between the groups, if there is a hyphen at each place. -/
def ungrouped? (cs : List Char) : Option (List Char) :=
  if [8, 13, 18, 23].all fun i => cs[i]? == some '-' then
    some (cs.take 8 ++ (cs.drop 9).take 4 ++ (cs.drop 14).take 4 ++ (cs.drop 19).take 4 ++
      cs.drop 24)
  else none

/-- The text of a manager's number. -/
def shown (id : ManagerId) : String :=
  String.ofList (grouped (hexadecimal 32 id.bits.toNat).toList)

/-- The number that 32 digits spell. -/
def ofDigits? (ds : List Char) : Option ManagerId :=
  if ds.length = 32 then (Text.ofDigits? 16 ds).map fun n => ⟨BitVec.ofNat 128 n⟩ else none

/-- The mark in front of a number that is written as a name, in lower case. -/
def nameMark : List Char := ['u', 'r', 'n', ':', 'u', 'u', 'i', 'd', ':']

/-- The number that a text stands for. -/
def ofText? (s : String) : Option ManagerId :=
  let cs := s.toList
  if cs.length = 38 then
    match cs with
    | '{' :: inner =>
      if inner.getLast? = some '}' then (ungrouped? inner.dropLast).bind ofDigits? else none
    | _ => none
  else if cs.length = 45 then
    if (cs.take 9).map Char.toLower = nameMark then (ungrouped? (cs.drop 9)).bind ofDigits?
    else none
  else if cs.length = 36 then (ungrouped? cs).bind ofDigits?
  else ofDigits? cs

end ManagerId

end LeasedCommit
