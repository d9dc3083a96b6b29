import Mathlib.Data.Nat.ModEq
import Mathlib.Tactic.Linarith
import Mathlib.Tactic.Ring

/-!
# Montgomery reduction

A number is divided by the word size modulo an odd modulus by first adding the multiple of the
modulus that makes the division exact. The factor that selects the multiple is the negated inverse
of the modulus modulo the word size. Newton's iteration squares the modulus for which an
approximation of that factor is right.
-/

namespace Tarsnap.Lib

/-- The quotient of `t` by the word size, modulo `p`, for a factor `pp` with `p * pp = -1`. -/
def montgomery (size p pp t : Nat) : Nat := (t + t * pp % size * p) / size

section Reduction

variable {size p pp : Nat}

/-- The division of the reduction is exact. -/
theorem montgomery_mul (inverse : size ∣ p * pp + 1) (t : Nat) :
    montgomery size p pp t * size = t + t * pp % size * p := by
  have product : t + t * pp * p = t * (p * pp + 1) := by ring
  have congruent : t + t * pp % size * p ≡ t + t * pp * p [MOD size] :=
    Nat.ModEq.add_left t ((Nat.mod_modEq _ _).mul_right p)
  have exact : size ∣ t + t * pp % size * p := by
    apply (congruent.dvd_iff (dvd_refl size)).mpr
    rw [product]
    exact inverse.mul_left t
  exact Nat.div_mul_cancel exact

/-- The reduction divides by the word size modulo `p`. -/
theorem montgomery_modEq (inverse : size ∣ p * pp + 1) (t : Nat) :
    montgomery size p pp t * size ≡ t [MOD p] := by
  rw [montgomery_mul inverse]
  simp [Nat.ModEq]

/-- The reduction adds less than the modulus to the quotient. -/
theorem montgomery_le (inverse : size ∣ p * pp + 1) (positive : 0 < size) (t : Nat) :
    montgomery size p pp t * size + p ≤ t + size * p := by
  have below : t * pp % size + 1 ≤ size := Nat.mod_lt _ positive
  have scaled : (t * pp % size + 1) * p ≤ size * p := Nat.mul_le_mul_right p below
  rw [montgomery_mul inverse]
  linarith

/-- A modulus with a factor is coprime to the word size. -/
theorem coprime_of_inverse (inverse : size ∣ p * pp + 1) : Nat.Coprime p size := by
  have divides : Nat.gcd p size ∣ p * pp + 1 := (Nat.gcd_dvd_right p size).trans inverse
  have product : Nat.gcd p size ∣ p * pp := (Nat.gcd_dvd_left p size).mul_right pp
  exact Nat.dvd_one.mp ((Nat.dvd_add_right product).mp divides)

/-- One step of Newton's iteration squares the modulus of the approximation. -/
theorem newton_inverse {x : Nat} (inverse : size ∣ p * x + 1) :
    size * size ∣ p * (x * (2 + p * x)) + 1 := by
  have square : p * (x * (2 + p * x)) + 1 = (p * x + 1) * (p * x + 1) := by ring
  rw [square]
  exact Nat.mul_dvd_mul inverse inverse

end Reduction

end Tarsnap.Lib
