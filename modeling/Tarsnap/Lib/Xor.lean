import Mathlib.Data.List.Basic

/-!
# Exclusive or of byte strings

A mask is added to a string of the same length by exclusive or, byte by byte. Adding it twice
changes nothing, so that a string, its mask and the sum of both determine each other.
-/

namespace Tarsnap.Lib

/-- Exclusive or of two strings of bytes. -/
def xorBytes (left right : List UInt8) : List UInt8 := List.zipWith (· ^^^ ·) left right

/-- The sum of strings of one length has this length. -/
theorem xorBytes_length {left right : List UInt8} (lengths : left.length = right.length) :
    (xorBytes left right).length = left.length := by
  rw [xorBytes, List.length_zipWith, lengths, Nat.min_self]

/-- Adding a mask twice changes nothing. -/
theorem xorBytes_cancel {left right : List UInt8} (lengths : left.length = right.length) :
    xorBytes (xorBytes left right) right = left := by
  unfold xorBytes
  induction left generalizing right with
  | nil => rfl
  | cons first left ih =>
    cases right with
    | nil => cases lengths
    | cons second right =>
      rw [List.zipWith_cons_cons, List.zipWith_cons_cons, ih (Nat.succ.inj lengths),
        UInt8.xor_assoc, UInt8.xor_self, UInt8.xor_zero]

/-- A string is the sum of another one and a mask if the other one is the sum of it and the
mask. -/
theorem xorBytes_eq_iff {left right sum : List UInt8} (lengths : left.length = right.length)
    (sumLength : sum.length = right.length) :
    xorBytes left right = sum ↔ left = xorBytes sum right := by
  constructor
  · intro same
    rw [← same, xorBytes_cancel lengths]
  · intro same
    rw [same, xorBytes_cancel sumLength]

/-- A disjunction of bytes is zero if both are. -/
theorem or_eq_zero {left right : UInt8} : left ||| right = 0 ↔ left = 0 ∧ right = 0 := by
  rw [← UInt8.toBitVec_inj, ← UInt8.toBitVec_inj, ← UInt8.toBitVec_inj, UInt8.toBitVec_or,
    UInt8.toBitVec_zero]
  exact BitVec.or_eq_zero_iff

end Tarsnap.Lib
