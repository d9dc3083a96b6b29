import Mathlib.Data.Nat.ChineseRemainder
import Mathlib.FieldTheory.Finite.Basic

/-!
# Exponents that undo each other

Modulo a product of different primes, two exponents whose product is one more than a multiple of
each prime less one undo each other.
-/

namespace Tarsnap.Lib

/-- Modulo a prime, an exponent one above a multiple of the prime less one changes nothing. -/
theorem pow_modEq_of_prime {p order : Nat} (prime : p.Prime) (divides : p - 1 ∣ order)
    (base turns : Nat) : base ^ (1 + turns * order) ≡ base [MOD p] := by
  have : Fact p.Prime := ⟨prime⟩
  rw [← ZMod.natCast_eq_natCast_iff, Nat.cast_pow]
  by_cases zero : (base : ZMod p) = 0
  · rw [zero, pow_add, pow_one, zero_mul]
  · obtain ⟨rounds, multiple⟩ := divides
    rw [pow_add, pow_one, multiple, Nat.mul_left_comm, pow_mul, ZMod.pow_card_sub_one_eq_one zero,
      one_pow, mul_one]

/-- Modulo a product of different primes, such an exponent changes nothing either. -/
theorem pow_modEq_of_primes {primes : List Nat} {order : Nat} (prime : ∀ p ∈ primes, p.Prime)
    (distinct : primes.Nodup) (divides : ∀ p ∈ primes, p - 1 ∣ order) (base turns : Nat) :
    base ^ (1 + turns * order) ≡ base [MOD primes.prod] := by
  have coprime : primes.Pairwise (Function.onFun Nat.Coprime id) :=
    distinct.imp_of_mem fun first second differ =>
      (Nat.coprime_primes (prime _ first) (prime _ second)).mpr differ
  have each := (Nat.modEq_list_map_prod_iff coprime).mpr fun p member =>
    pow_modEq_of_prime (prime p member) (divides p member) base turns
  rwa [List.map_id] at each

end Tarsnap.Lib
