import Tarsnap.Chunkify.Built
import Tarsnap.Chunkify.SquareRoot
import Tarsnap.Lib.Orbit

/-!
# When the rolling hash is exact

The hash of a chunk is meant to be the sum of the coefficients of its bytes times powers of alpha,
reduced modulo `p`. The running power may exceed `p`, and a coefficient is a whole word, so their
product may exceed `2 * p`; added to a hash value just below `p` it is then out of reach of the
two conditional subtractions. While every product stays within `2 * p` and half a word, the sum
does not wrap and the hash is canonical.
-/

namespace Tarsnap.Chunkify

open Tarsnap.Lib

namespace Params

/-- The running power after the next byte, in exact arithmetic. -/
def advance (P : Params) (power : Nat) : Nat := montgomery 4294967296 P.p P.pp (power * P.ar)

/-- The running power `a ^ t * 2 ^ 32 mod p` after `t` bytes, in exact arithmetic. -/
def power (P : Params) (t : Nat) : Nat := P.advance^[t] (4294967296 % P.p)

/-- The product of a running power and a coefficient, in exact arithmetic. -/
def product (P : Params) (t coefficient : Nat) : Nat :=
  montgomery 4294967296 P.p P.pp (P.power t * coefficient)

/-- No product after the first byte of a chunk exceeds `2 * p` or half a word. -/
def Fits (P : Params) : Prop :=
  ∀ t coefficient, 1 ≤ t → P.mu / 4 + 1 + t < P.blen → coefficient < 4294967296 →
    P.product t coefficient ≤ 2 * P.p ∧ P.product t coefficient ≤ 2147483648

/-- No product with a coefficient of the chunkifier does. -/
def CoefficientsFit (P : Params) : Prop :=
  ∀ t byte, 1 ≤ t → P.mu / 4 + 1 + t < P.blen →
    P.product t (P.cm byte).toNat ≤ 2 * P.p ∧ P.product t (P.cm byte).toNat ≤ 2147483648

/-- The base of the power sums. -/
def alpha (P : Params) : ZMod P.p := P.ar * (4294967296 : ZMod P.p)⁻¹

/-- The sum of the coefficients of bytes times powers of alpha. -/
def powerSum (P : Params) (bytes : List UInt8) : ZMod P.p :=
  (bytes.zipIdx.map fun entry => ((P.cm entry.1).toNat : ZMod P.p) * P.alpha ^ entry.2).sum

end Params

/-- The power sum of one more byte. -/
theorem powerSum_append (P : Params) (bytes : List UInt8) (byte : UInt8) :
    P.powerSum (bytes ++ [byte]) =
      P.powerSum bytes + ((P.cm byte).toNat : ZMod P.p) * P.alpha ^ bytes.length := by
  simp [Params.powerSum, List.zipIdx_append]

/-- The power sum of a run of bytes with coefficient zero is zero. -/
theorem powerSum_zeros (P : Params) (zero : P.cm 0 = 0) (count : Nat) :
    P.powerSum (List.replicate count 0) = 0 := by
  induction count with
  | zero => rfl
  | succ count ih =>
    rw [List.replicate_succ', powerSum_append, ih, zero]
    simp

variable {P : Params}

section Powers

/-- The Montgomery factor of the model as a divisibility. -/
theorem Params.inverse (P : Params) : 4294967296 ∣ P.p * P.pp + 1 :=
  Nat.dvd_of_mod_eq_zero P.pp_inverse

/-- The first running power. -/
theorem power_first (P : Params) : P.power 0 = 4294967296 % P.p := rfl

/-- The running power after one more byte. -/
theorem power_succ (P : Params) (t : Nat) :
    P.power (t + 1) = montgomery 4294967296 P.p P.pp (P.power t * P.ar) := by
  rw [Params.power, Function.iterate_succ_apply']
  rfl

/-- The running power stays below `p * 2 ^ 32 / (2 ^ 32 - p)`. -/
theorem power_le (reduced : P.ar < P.p) (t : Nat) :
    P.power t * (4294967296 - P.p) ≤ P.p * 4294967296 := by
  have limit := P.p_le
  induction t with
  | zero =>
    have below : P.power 0 ≤ P.p := by
      rw [power_first]
      exact (Nat.mod_lt _ P.p_pos).le
    exact Nat.mul_le_mul below (Nat.sub_le _ _)
  | succ t ih =>
    have bound := montgomery_le P.inverse (by decide) (P.power t * P.ar)
    have factor : P.power t * P.ar ≤ P.power t * P.p := Nat.mul_le_mul_left _ reduced.le
    have scaled : P.power (t + 1) * 4294967296 ≤ P.power t * P.p + 4294967296 * P.p := by
      rw [power_succ]
      exact (Nat.le_of_add_right_le bound).trans (Nat.add_le_add_right factor _)
    have whole : P.p * (4294967296 - P.p) + P.p * P.p = P.p * 4294967296 := by
      rw [← Nat.mul_add, Nat.sub_add_cancel (by omega)]
    have multiplied : P.power (t + 1) * (4294967296 - P.p) * 4294967296 ≤
        P.p * 4294967296 * 4294967296 := by
      calc P.power (t + 1) * (4294967296 - P.p) * 4294967296
          = P.power (t + 1) * 4294967296 * (4294967296 - P.p) := by ring
        _ ≤ (P.power t * P.p + 4294967296 * P.p) * (4294967296 - P.p) :=
            Nat.mul_le_mul_right _ scaled
        _ = P.p * (P.power t * (4294967296 - P.p)) +
            4294967296 * (P.p * (4294967296 - P.p)) := by ring
        _ ≤ P.p * (P.p * 4294967296) + 4294967296 * (P.p * (4294967296 - P.p)) :=
            Nat.add_le_add_right (Nat.mul_le_mul_left _ ih) _
        _ = 4294967296 * (P.p * (4294967296 - P.p) + P.p * P.p) := by ring
        _ = P.p * 4294967296 * 4294967296 := by rw [whole]; ring
    exact Nat.le_of_mul_le_mul_right multiplied (by decide)

/-- The running power is less than half a word. -/
theorem power_half (reduced : P.ar < P.p) (t : Nat) : P.power t < 2147483648 := by
  have limit := P.p_le
  have bound := power_le reduced t
  have positive := P.p_pos
  by_contra large
  have wide : 2147483648 * (4294967296 - P.p) ≤ P.power t * (4294967296 - P.p) :=
    Nat.mul_le_mul_right _ (by omega)
  omega

/-- The products of the chunkifier with its running power have room. -/
theorem power_room (reduced : P.ar < P.p) (t : Nat) {coefficient : Nat}
    (fits : coefficient < 4294967296) :
    P.power t * coefficient + 4294967296 * P.p < 18446744073709551616 :=
  product_room (power_half reduced t).le fits P.p_le

/-- The product of the chunkifier is the exact one. -/
theorem mmul_power (reduced : P.ar < P.p) (t : Nat) {coefficient : Nat}
    (fits : coefficient < 4294967296) :
    mmul (P.power t) coefficient P.p P.pp = P.product t coefficient :=
  mmul_eq (power_room reduced t fits)

/-- The chunkifier advances its running power. -/
theorem mmul_advance (reduced : P.ar < P.p) (t : Nat) :
    mmul (P.power t) P.ar P.p P.pp = P.power (t + 1) := by
  have limit := P.p_le
  rw [mmul_eq (power_room reduced t (by omega)), power_succ]

/-- The first running power is the one that a started chunk has. -/
theorem power_zero (P : Params) : P.power 0 = sub32 0 P.p % P.p := by
  have limit := P.p_le
  have start := start_modEq P.p_pos (show P.p < 4294967296 by omega)
  rw [Nat.ModEq, Nat.mod_mod] at start
  rw [power_first, start]

/-- A product of the first running power is less than `2 * p`. -/
theorem product_first (P : Params) {coefficient : Nat} (fits : coefficient < 4294967296) :
    P.product 0 coefficient < 2 * P.p := by
  have below : P.power 0 < P.p := by
    rw [power_first]
    exact Nat.mod_lt _ P.p_pos
  have bound := montgomery_le P.inverse (by decide) (P.power 0 * coefficient)
  have factors : P.power 0 * coefficient ≤ P.p * 4294967295 :=
    Nat.mul_le_mul below.le (by omega)
  have positive := P.p_pos
  unfold Params.product
  omega

/-- A product with a coefficient that is reduced modulo `p` fits. -/
theorem product_reduced (reduced : P.ar < P.p) (t : Nat) {coefficient : Nat}
    (small : coefficient ≤ P.p) :
    P.product t coefficient ≤ 2 * P.p ∧ P.product t coefficient ≤ 2147483648 := by
  have limit := P.p_le
  have half := power_half reduced t
  have bound := montgomery_le P.inverse (by decide) (P.power t * coefficient)
  have factors : P.power t * coefficient ≤ 2147483648 * P.p := Nat.mul_le_mul half.le small
  have positive := P.p_pos
  unfold Params.product
  omega

/-- With a modulus of 16 bits every product fits. -/
theorem fits_of_small (reduced : P.ar < P.p) (small : P.p ≤ 65535) : P.Fits := by
  intro t coefficient _ _ word
  have bound := power_le reduced t
  have within : P.power t ≤ P.p := by
    by_contra above
    have next : (P.p + 1) * (4294967296 - P.p) ≤ P.power t * (4294967296 - P.p) :=
      Nat.mul_le_mul_right _ (by omega)
    have square : P.p * P.p ≤ 65535 * P.p := Nat.mul_le_mul_right _ small
    have whole : P.p * (4294967296 - P.p) + P.p * P.p = P.p * 4294967296 := by
      rw [← Nat.mul_add, Nat.sub_add_cancel (by omega)]
    rw [Nat.add_mul, Nat.one_mul] at next
    omega
  have value := montgomery_le P.inverse (by decide) (P.power t * coefficient)
  have factors : P.power t * coefficient ≤ P.p * 4294967295 := Nat.mul_le_mul within (by omega)
  unfold Params.product
  omega

variable [prime : Fact P.p.Prime]

/-- The running power represents a power of alpha. -/
theorem power_cast (t : Nat) : (P.power t : ZMod P.p) = P.alpha ^ t * 4294967296 := by
  have unit := word_ne_zero P.inverse
  induction t with
  | zero =>
    rw [power_first, ZMod.natCast_mod, pow_zero, one_mul]
    rfl
  | succ t ih =>
    have congruent := (ZMod.natCast_eq_natCast_iff _ _ P.p).mpr
      (montgomery_modEq P.inverse (P.power t * P.ar))
    have scaled : P.alpha * 4294967296 = P.ar := by
      rw [Params.alpha, mul_assoc, inv_mul_cancel₀ unit, mul_one]
    apply mul_right_cancel₀ unit
    rw [power_succ]
    push_cast at congruent
    rw [congruent, ih, ← scaled, pow_succ]
    ring

/-- A product represents the coefficient times a power of alpha. -/
theorem product_cast (t coefficient : Nat) :
    (P.product t coefficient : ZMod P.p) = coefficient * P.alpha ^ t := by
  have congruent := (ZMod.natCast_eq_natCast_iff _ _ P.p).mpr
    (montgomery_modEq P.inverse (P.power t * coefficient))
  apply mul_right_cancel₀ (word_ne_zero P.inverse)
  push_cast at congruent
  rw [Params.product, congruent, power_cast]
  ring

end Powers

/-- Two conditional subtractions reduce a sum below three times the modulus. -/
theorem reduceTwice_eq {x p : Nat} (small : p ≤ 1431655739) (bound : x < 2147483648 + p)
    (triple : x < 3 * p) : reduceOnce (reduceOnce (word x) p) p = x % p := by
  have exact : word x = x := by unfold word; omega
  rw [exact, reduceOnce_eq small bound]
  by_cases once : p ≤ x
  · rw [if_pos once, reduceOnce_eq small (by omega)]
    by_cases twice : p ≤ x - p
    · rw [if_pos twice, Nat.mod_eq_sub_mod once, Nat.mod_eq_sub_mod twice,
        Nat.mod_eq_of_lt (by omega)]
    · rw [if_neg twice, Nat.mod_eq_sub_mod once, Nat.mod_eq_of_lt (by omega)]
  · rw [if_neg once, reduceOnce_eq small bound, if_neg once, Nat.mod_eq_of_lt (by omega)]

end Tarsnap.Chunkify
