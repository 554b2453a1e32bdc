import LeasedCommit.Manager.Identity
import LeasedCommit.Proofs.Numerals

set_option autoImplicit false

/-! # Identities that are shown and read back

The number of a manager is shown as its digits in base 16, filled up with zeros to 32 of them, in
five groups. Each step is undone on its own: the zeros spell nothing, and the hyphens stand where
the reader looks for them. The 36 characters that result have the length of one of the forms that
are read and of no other (`ManagerId.ofText?_shown`). -/

namespace LeasedCommit

namespace Text

/-- Zeros in front spell nothing. -/
theorem ofDigits?_zeros {base : Nat} (hbase : 0 < base) (hdigits : base ≤ 16) (zeros : Nat)
    (cs : List Char) : ofDigits? base (List.replicate zeros '0' ++ cs) = ofDigits? base cs := by
  induction zeros with
  | zero => rfl
  | succ zeros ih =>
      have hzero : digit? base '0' = some 0 := digit?_digitChar hdigits hbase
      rw [← ih, List.replicate_succ, List.cons_append]
      unfold ofDigits?
      rw [List.foldl_cons, Option.bind_some, hzero, Option.map_some, Nat.mul_zero]

variable {width n : Nat}

theorem toList_hexadecimal (width n : Nat) :
    (hexadecimal width n).toList =
      List.replicate (width - (Nat.toDigits 16 n).length) '0' ++ Nat.toDigits 16 n := by
  rw [hexadecimal, padLeft, String.toList_append, String.toList_ofList, String.toList_ofList,
    String.length_ofList]

/-- A number that has no more digits is written with this many. -/
theorem length_hexadecimal (hwidth : 0 < width) (hn : n < Nat.pow 16 width) :
    (hexadecimal width n).toList.length = width := by
  have hdigits := (Nat.length_toDigits_le_iff (by decide) hwidth).mpr hn
  rw [toList_hexadecimal, List.length_append, List.length_replicate]
  omega

theorem ofDigits?_hexadecimal (width n : Nat) :
    ofDigits? 16 (hexadecimal width n).toList = some n := by
  rw [toList_hexadecimal, ofDigits?_zeros (by decide) (Nat.le_refl 16)]
  exact ofDigits?_toDigits (by decide) (Nat.le_refl 16) n

end Text

namespace ManagerId

open Text

variable {ds : List Char}

theorem length_grouped (h : ds.length = 32) : (grouped ds).length = 36 := by
  simp [grouped, h]

/-- **The hyphens are found where they have been put.** -/
theorem ungrouped?_grouped (h : ds.length = 32) : ungrouped? (grouped ds) = some ds := by
  have hnext (m : Nat) : (ds.drop m).take 4 ++ ds.drop (m + 4) = ds.drop m := by
    rw [← List.drop_drop, List.take_append_drop]
  have hgroups : ds.take 8 ++ ((ds.drop 8).take 4 ++ ((ds.drop 12).take 4 ++
      ((ds.drop 16).take 4 ++ ds.drop 20))) = ds := by
    rw [hnext 16, hnext 12, hnext 8, List.take_append_drop]
  simp [grouped, ungrouped?, List.getElem?_append, List.drop_append, List.drop_take, h, hgroups]

theorem ofDigits?_of_length (h : ds.length = 32) :
    ofDigits? ds = (Text.ofDigits? 16 ds).map fun n => ⟨BitVec.ofNat 128 n⟩ :=
  if_pos h

/-- **An identity is read as it is shown.** -/
theorem ofText?_shown (id : ManagerId) : ofText? id.shown = some id := by
  have hlength := length_hexadecimal (show 0 < 32 by decide) id.bits.isLt
  have hgrouped := length_grouped hlength
  unfold ofText? shown
  rw [String.toList_ofList, if_neg (by omega), if_neg (by omega), if_pos hgrouped,
    ungrouped?_grouped hlength, Option.bind_some, ofDigits?_of_length hlength,
    ofDigits?_hexadecimal, Option.map_some, BitVec.ofNat_toNat, BitVec.setWidth_eq]

end ManagerId

end LeasedCommit
