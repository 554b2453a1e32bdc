set_option autoImplicit false

/-! # Numbers of fixed width

Text formats write numbers of any size; a setting or an identifier holds 32 or 64 bits. -/

namespace LeasedCommit

/-- A number as 64 bits, if it fits. -/
def word64? (n : Nat) : Option UInt64 := if n < UInt64.size then some (UInt64.ofNat n) else none

/-- A number as 32 bits, if it fits. -/
def word32? (n : Nat) : Option UInt32 := if n < UInt32.size then some (UInt32.ofNat n) else none

theorem word64?_toNat (w : UInt64) : word64? w.toNat = some w := by
  simp only [word64?, w.toNat_lt_size, if_pos, UInt64.ofNat_toNat]

theorem word32?_toNat (w : UInt32) : word32? w.toNat = some w := by
  simp only [word32?, w.toNat_lt_size, if_pos, UInt32.ofNat_toNat]

end LeasedCommit
