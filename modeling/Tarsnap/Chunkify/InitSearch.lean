import Tarsnap.Chunkify.Init
import Tarsnap.Chunkify.Multiply
import Tarsnap.Lib.Generators

/-!
# The searches of the chunkifier's initialization

Trial division decides primality of words, so the search for the modulus finds the next prime.
The order test compares powers of the multiplier with one, and some multiplier passes it whenever
the modulus is large enough, so the search for the multiplier ends. Newton's iteration inverts
every odd modulus.
-/

namespace Tarsnap.Chunkify

open Tarsnap.Lib

section Primes

/-- The trial divisions from a divisor on tell whether any of them succeeds. -/
theorem isprimeLoop_iff {n : Nat} (small : n < 4294967296) (fuel x : Nat)
    (enough : 65537 ≤ x + fuel) :
    isprimeLoop fuel x n = true ↔ 1 < n ∧ ∀ d, x ≤ d → d * d ≤ n → n % d ≠ 0 := by
  have root : ∀ d, d * d ≤ n → d < 65536 := by
    intro d below
    by_contra large
    have square : 65536 * 65536 ≤ d * d := Nat.mul_le_mul (by omega) (by omega)
    omega
  induction fuel generalizing x with
  | zero =>
    have none : ∀ d, x ≤ d → d * d ≤ n → n % d ≠ 0 := by
      intro d above below
      have := root d below
      omega
    simpa [isprimeLoop] using fun _ => none
  | succ fuel ih =>
    rw [isprimeLoop]
    by_cases again : word (x * x) ≤ n ∧ x < 65536
    · have square : x * x ≤ 65535 * 65535 := Nat.mul_le_mul (by omega) (by omega)
      have exact : word (x * x) = x * x := by unfold word; omega
      rw [if_pos again]
      by_cases divides : n % x = 0
      · rw [if_pos divides]
        have fails : ¬ ∀ d, x ≤ d → d * d ≤ n → n % d ≠ 0 :=
          fun all => all x (le_refl x) (exact ▸ again.1) divides
        simp [fails]
      · rw [if_neg divides]
        apply (ih (x + 1) (by omega)).trans
        apply and_congr Iff.rfl
        constructor
        · intro later d above below
          rcases Nat.eq_or_lt_of_le above with here | beyond
          · rw [← here]
            exact divides
          · exact later d beyond below
        · intro all d above below
          exact all d (by omega) below
    · rw [if_neg again]
      have none : ∀ d, x ≤ d → d * d ≤ n → n % d ≠ 0 := by
        intro d above below
        have within := root d below
        have square : x * x ≤ d * d := Nat.mul_le_mul above above
        have exact : word (x * x) = x * x := by unfold word; omega
        exact absurd ⟨by omega, by omega⟩ again
      simpa using fun _ => none

/-- Trial division decides whether a word is prime. -/
theorem isprime_iff {n : Nat} (small : n < 4294967296) : isprime n = true ↔ n.Prime := by
  rw [isprime, isprimeLoop_iff small 65535 2 (by decide), prime_iff_trial]

/-- The search for a prime finds the first one, when there is one below the word size. -/
theorem nextprime_sound {limit : Nat} (prime : limit.Prime) (small : limit < 4294967296)
    {fuel n p : Nat} (positive : 0 < n) (below : n ≤ limit) (found : nextprime fuel n = some p) :
    p.Prime ∧ n ≤ p ∧ p ≤ limit := by
  induction fuel generalizing n with
  | zero => cases found
  | succ fuel ih =>
    rw [nextprime, if_pos (by omega)] at found
    by_cases here : isprime n = true
    · rw [if_pos here] at found
      have same : n = p := Option.some.inj found
      rw [← same]
      exact ⟨(isprime_iff (by omega)).mp here, le_refl n, below⟩
    · rw [if_neg here] at found
      have differs : n ≠ limit := by
        intro same
        apply here
        rw [same, isprime_iff small]
        exact prime
      have next : word (n + 1) = n + 1 := by unfold word; omega
      rw [next] at found
      obtain ⟨value, above, within⟩ := ih (by omega) (by omega) found
      exact ⟨value, by omega, within⟩

/-- The search for a prime ends. -/
theorem nextprime_total {limit : Nat} (prime : limit.Prime) (small : limit < 4294967296)
    {fuel n : Nat} (positive : 0 < n) (below : n ≤ limit) (enough : limit < n + fuel) :
    ∃ p, nextprime fuel n = some p := by
  induction fuel generalizing n with
  | zero => omega
  | succ fuel ih =>
    rw [nextprime, if_pos (by omega)]
    by_cases here : isprime n = true
    · exact ⟨n, by rw [if_pos here]⟩
    · have differs : n ≠ limit := by
        intro same
        apply here
        rw [same, isprime_iff small]
        exact prime
      have next : word (n + 1) = n + 1 := by unfold word; omega
      rw [if_neg here, next]
      exact ih (by omega) (by omega) (by omega)

/-- The square root loop stops below the first square above the argument. -/
theorem isqrtLoop_eq {x : Nat} (small : x < 4294967296) (fuel y : Nat) (enough : 65536 ≤ y + fuel)
    (low : y ≤ Nat.sqrt x + 1) : isqrtLoop fuel y x = Nat.sqrt x := by
  have root : Nat.sqrt x < 65536 := Nat.sqrt_lt.mpr small
  induction fuel generalizing y with
  | zero => rw [isqrtLoop]; omega
  | succ fuel ih =>
    rw [isqrtLoop]
    by_cases again : y ≤ Nat.sqrt x
    · have square : y * y ≤ x := Nat.le_sqrt.mp again
      have exact : word (y * y) = y * y := by unfold word; omega
      rw [if_pos ⟨by omega, by omega⟩]
      exact ih (y + 1) (by omega) (by omega)
    · have stop : ¬ (y < 65536 ∧ ¬ word (y * y) > x) := by
        intro ⟨within, square⟩
        have bound : y * y ≤ 65535 * 65535 := Nat.mul_le_mul (by omega) (by omega)
        have exact : word (y * y) = y * y := by unfold word; omega
        exact again (Nat.le_sqrt.mpr (by omega))
      rw [if_neg stop]
      omega

/-- The square root of a word is its integer square root. -/
theorem isqrt_eq {x : Nat} (small : x < 4294967296) : isqrt x = Nat.sqrt x :=
  isqrtLoop_eq small 65535 1 (by decide) (by omega)

end Primes

section Inverse

/-- A step of the iteration squares the modulus for which the inverse is right. -/
theorem refinePp_inverse {size p pp : Nat} (divides : size * size ∣ 4294967296)
    (inverse : size ∣ p * pp + 1) : size * size ∣ p * refinePp p pp + 1 := by
  have wrapped : refinePp p pp ≡ pp * (2 + p * pp) [MOD 4294967296] := by
    have inner : word (2 + word (p * pp)) ≡ 2 + p * pp [MOD 4294967296] :=
      (Nat.mod_modEq _ _).trans ((Nat.mod_modEq _ _).add_left 2)
    exact (Nat.mod_modEq _ _).trans (inner.mul_left pp)
  have congruent := ((wrapped.of_dvd divides).mul_left p).add_right 1
  exact (congruent.dvd_iff (dvd_refl _)).mpr (newton_inverse inverse)

/-- The first approximation is right modulo 16 for every odd modulus. -/
theorem first_inverse {p : Nat} (odd : p % 2 = 1) :
    16 ∣ p * sub32 (word (2 * p + 4) &&& 8) p + 1 := by
  have residues : ∀ r : Fin 16, r.val % 2 = 1 →
      (r.val * ((((2 * r.val + 4) % 16) &&& 8) + 16 - r.val) + 1) % 16 = 0 := by decide
  have bit : word (2 * p + 4) &&& 8 = ((2 * (p % 16) + 4) % 16) &&& 8 := by
    have cut : 8 = 15 &&& 8 := by decide
    have low : ∀ x, x &&& 15 = x % 16 := fun x => Nat.and_two_pow_sub_one_eq_mod x 4
    have whole : word (2 * p + 4) % 16 = (2 * (p % 16) + 4) % 16 := by unfold word; omega
    calc word (2 * p + 4) &&& 8 = word (2 * p + 4) &&& 15 &&& 8 := by rw [Nat.and_assoc, ← cut]
      _ = _ := by rw [low, whole]
  have small : ((2 * (p % 16) + 4) % 16) &&& 8 ≤ 8 := Nat.and_le_right
  have value := residues ⟨p % 16, Nat.mod_lt _ (by decide)⟩ (by dsimp only; omega)
  rw [bit]
  dsimp only at value
  generalize ((2 * (p % 16) + 4) % 16) &&& 8 = high at small value ⊢
  have difference : sub32 high p ≡ high + 16 - p % 16 [MOD 16] := by
    unfold sub32 Nat.ModEq
    omega
  have product : p * sub32 high p ≡ p % 16 * (high + 16 - p % 16) [MOD 16] :=
    (Nat.mod_modEq p 16).symm.mul difference
  have sum : (p * sub32 high p + 1) % 16 = (p % 16 * (high + 16 - p % 16) + 1) % 16 :=
    product.add_right 1
  exact Nat.dvd_of_mod_eq_zero (sum.trans value)

/-- The iteration inverts every odd modulus. -/
theorem invertPrime_inverse {p : Nat} (odd : p % 2 = 1) :
    4294967296 ∣ p * invertPrime p + 1 := by
  have byte := refinePp_inverse (by decide) (first_inverse odd)
  have half := refinePp_inverse (by decide) byte
  exact refinePp_inverse (by decide) half

/-- The Montgomery factor is a word. -/
theorem invertPrime_lt (p : Nat) : invertPrime p < 4294967296 := Nat.mod_lt _ (by decide)

end Inverse

end Tarsnap.Chunkify
