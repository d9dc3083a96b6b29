import Tarsnap.Chunkify.Model
import Tarsnap.Lib.Montgomery

/-!
# Arithmetic of the rolling hash

The product of the chunkifier is a Montgomery reduction as long as its sum of 64 bits does not
wrap, which holds whenever one factor is at most half a word.
-/

namespace Tarsnap.Chunkify

open Tarsnap.Lib

variable {a b p pp : Nat}

/-- The sum in the product wraps for no factor up to half a word. -/
theorem product_room (half : a ≤ 2147483648) (whole : b < 4294967296) (small : p ≤ 1431655739) :
    a * b + 4294967296 * p < 18446744073709551616 := by
  have product : a * b ≤ 2147483648 * 4294967295 := Nat.mul_le_mul half (by omega)
  omega

/-- A product whose sum has room is a reduction. -/
theorem mmul_eq (room : a * b + 4294967296 * p < 18446744073709551616) :
    mmul a b p pp = montgomery 4294967296 p pp (a * b) := by
  have factor : word (word (a * b) * pp) = a * b * pp % 4294967296 := by
    rw [word, word, Nat.mod_mul_mod]
  have below : a * b * pp % 4294967296 ≤ 4294967296 := (Nat.mod_lt _ (by decide)).le
  have multiple : a * b * pp % 4294967296 * p ≤ 4294967296 * p := Nat.mul_le_mul_right p below
  have exact : a * b % 18446744073709551616 = a * b := Nat.mod_eq_of_lt (by omega)
  simp only [mmul, exact, factor]
  rw [Nat.mod_eq_of_lt (by omega), word, Nat.mod_eq_of_lt (by omega), montgomery]

/-- A product is at most one modulus above the quotient of its factors by a word. -/
theorem mmul_le (room : a * b + 4294967296 * p < 18446744073709551616)
    (inverse : 4294967296 ∣ p * pp + 1) :
    mmul a b p pp * 4294967296 + p ≤ a * b + 4294967296 * p := by
  rw [mmul_eq room]
  exact montgomery_le inverse (by decide) (a * b)

/-- A product divides the product of its factors by a word, modulo `p`. -/
theorem mmul_modEq (room : a * b + 4294967296 * p < 18446744073709551616)
    (inverse : 4294967296 ∣ p * pp + 1) :
    mmul a b p pp * 4294967296 ≡ a * b [MOD p] := by
  rw [mmul_eq room]
  exact montgomery_modEq inverse (a * b)

/-- The product with zero is zero. -/
@[simp] theorem mmul_zero (a p pp : Nat) : mmul a 0 p pp = 0 := by
  simp [mmul, word]

/-- Conditional reduction subtracts the modulus exactly when it fits. -/
theorem reduceOnce_eq {x p : Nat} (small : p ≤ 1431655739) (bound : x < 2147483648 + p) :
    reduceOnce x p = if p ≤ x then x - p else x := by
  unfold reduceOnce
  split
  case isTrue fits =>
    have difference : sub32 x p = x - p := by unfold sub32; omega
    have top : (x - p) >>> 31 = 0 := by rw [Nat.shiftRight_eq_div_pow]; omega
    have mask : p &&& sub32 0 1 = p := by
      have full : sub32 0 1 = 2 ^ 32 - 1 := by decide
      rw [full, Nat.and_two_pow_sub_one_eq_mod]
      omega
    rw [difference, top, mask, difference]
  case isFalse below =>
    have difference : sub32 x p = x + 4294967296 - p := by unfold sub32; omega
    have top : (x + 4294967296 - p) >>> 31 = 1 := by rw [Nat.shiftRight_eq_div_pow]; omega
    have mask : p &&& sub32 1 1 = 0 := by
      have empty : sub32 1 1 = 0 := by decide
      rw [empty, Nat.and_zero]
    rw [difference, top, mask]
    unfold sub32
    omega

/-- A word reduces to the multiplier that stands for one. -/
theorem start_modEq (positive : 0 < p) (small : p < 4294967296) :
    sub32 0 p % p ≡ 4294967296 [MOD p] := by
  have complement : sub32 0 p + p = 4294967296 := by unfold sub32; omega
  rw [← complement]
  exact (Nat.mod_modEq _ _).trans (by simp [Nat.ModEq])

end Tarsnap.Chunkify
