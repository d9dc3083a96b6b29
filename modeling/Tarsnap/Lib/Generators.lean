import Mathlib.Data.Nat.Sqrt
import Mathlib.FieldTheory.Finite.Basic
import Mathlib.GroupTheory.SpecificGroups.Cyclic

/-!
# Primes and elements of large order

A number is prime when no divisor up to its square root divides it. A cyclic group of more than
two elements has two generators, so a search for an element of large order may leave one element
out. In the integers modulo a prime, every value but zero is a multiple of a fixed scale by one
such element.
-/

namespace Tarsnap.Lib

/-- A number is prime exactly when the trial divisions up to its square root fail. -/
theorem prime_iff_trial (n : Nat) :
    n.Prime ↔ 1 < n ∧ ∀ d, 2 ≤ d → d * d ≤ n → n % d ≠ 0 := by
  rw [Nat.prime_def_le_sqrt]
  apply and_congr Iff.rfl
  apply forall_congr'
  intro d
  rw [Nat.le_sqrt, Nat.dvd_iff_mod_eq_zero]

/-- An element of finite order has no power that is one before its order. -/
theorem lt_orderOf_iff {M : Type} [Monoid M] {x : M} (finite : IsOfFinOrder x) (bound : Nat) :
    bound < orderOf x ↔ ∀ k, 1 ≤ k → k ≤ bound → x ^ k ≠ 1 := by
  constructor
  · intro large k positive within
    exact pow_ne_one_of_lt_orderOf (by omega) (by omega)
  · intro distinct
    by_contra small
    exact distinct (orderOf x) (orderOf_pos_iff.mpr finite) (by omega) (pow_orderOf_eq_one x)

/-- A cyclic group of more than two elements has a generator other than a given element. -/
theorem exists_generator_ne {G : Type} [Group G] [IsCyclic G] [Finite G]
    (large : 2 < Nat.card G) (other : G) : ∃ g, g ≠ other ∧ orderOf g = Nat.card G := by
  obtain ⟨g, generates⟩ := IsCyclic.exists_ofOrder_eq_natCard (α := G)
  by_cases same : g = other
  · refine ⟨g⁻¹, ?_, by rw [orderOf_inv, generates]⟩
    intro inverse
    have square : g ^ 2 = 1 := by
      rw [pow_two, mul_eq_one_iff_eq_inv, inverse, same]
    have short : orderOf g ≤ 2 := orderOf_le_of_pow_eq_one (by decide) square
    omega
  · exact ⟨g, same, generates⟩

/-- A value that is not zero modulo a prime has finite order. -/
theorem isOfFinOrder_of_ne_zero {p : Nat} [Fact p.Prime] {x : ZMod p} (nonzero : x ≠ 0) :
    IsOfFinOrder x := by
  rw [← Units.val_mk0 nonzero]
  exact (Units.isOfFinOrder_val).mpr (isOfFinOrder_of_finite _)

/-- Modulo a prime above 3 some element generates all others and differs from a given one. -/
theorem exists_orderOf_ne {p : Nat} [prime : Fact p.Prime] (large : 3 < p) (other : ZMod p) :
    ∃ x : ZMod p, x ≠ 0 ∧ x ≠ other ∧ orderOf x = p - 1 := by
  have card : Nat.card (ZMod p)ˣ = p - 1 := by rw [Nat.card_eq_fintype_card, ZMod.card_units]
  have several : 2 < Nat.card (ZMod p)ˣ := by omega
  by_cases zero : other = 0
  · obtain ⟨g, generates⟩ := IsCyclic.exists_ofOrder_eq_natCard (α := (ZMod p)ˣ)
    refine ⟨g, g.ne_zero, by rw [zero]; exact g.ne_zero, ?_⟩
    rw [orderOf_units, generates, card]
  · obtain ⟨g, differs, generates⟩ := exists_generator_ne several (Units.mk0 other zero)
    refine ⟨g, g.ne_zero, ?_, by rw [orderOf_units, generates, card]⟩
    intro same
    apply differs
    apply Units.ext
    exact same

end Tarsnap.Lib
